import ProOS.Ipc.Delivery

namespace ProOS.Ipc

open ProOS.Framework Function Option List

/-- The part of a process that sending and receiving leave alone. -/
def Proc.standing (proc : Proc) : ThreadKind × (Nat → CapEntry) × Option RecvCall :=
  (proc.kind, proc.caps, proc.inside)

def Frame (s s' : State) : Prop :=
  s'.initialized = s.initialized ∧
    ∀ q, (s'.procs q).map Proc.standing = (s.procs q).map Proc.standing

theorem Frame.refl (s : State) : Frame s s := ⟨rfl, fun _ => rfl⟩

variable {s s' : State} {p t : Pid} {proc : Proc} {call : RecvCall} {logs : Nat → Option LogSend} {e : Event}
  {acts : List Action}

theorem Frame.trans {s'' : State} (h : Frame s s') (h' : Frame s' s'') : Frame s s'' :=
  ⟨h'.1.trans h.1, fun q => (h'.2 q).trans (h.2 q)⟩

theorem Frame.set {a b : Proc} (hp : s.procs p = some a)
    (hb : b.standing = a.standing) : Frame s (s.setProc p (some b)) := by
  refine ⟨rfl, ?_⟩
  intro q
  rw [setProc_procs]
  split_ifs with hq
  · rw [hq, hp, map_some, map_some, hb]
  · rfl

theorem Frame.processWake (s : State) (p : Pid) : Frame s (processWake s p) := by
  unfold Ipc.processWake
  split
  · rename_i proc hp
    split_ifs
    · exact Frame.set hp rfl
    · exact .refl s
  · exact .refl s

theorem Frame.mailboxEnqueue {target : Pid} (hp : s.procs target = some proc)
    (sender : Pid) (data : Option Buffer) (size : Nat) (flags : UInt32) :
    Frame s (mailboxEnqueue s target proc sender data size flags).1 := by
  unfold Ipc.mailboxEnqueue
  dsimp only
  split
  · exact .refl s
  · generalize mailboxPopWaiter _ = popped
    have hset : Frame s (s.setProc target (some { proc with mailbox := popped.2 })) := Frame.set hp rfl
    split
    · exact hset.trans (Frame.processWake _ _)
    · exact hset

theorem Frame.ipcSend (s : State) (current : Option Pid) (target : Pid) (msg : Option Buffer)
    (size : Nat) : Frame s (ipcSend s current target msg size).1 := by
  rcases ipcSend_cases s current target msg size with h | ⟨proc, hp, -, -, -, h⟩
  · rw [h]
    exact .refl s
  · rw [h]
    exact Frame.mailboxEnqueue hp _ _ _ _

theorem RecvRun.frame {k : Nat}
    {deeds : List Deed} {o : Outcome} (h : RecvRun p call logs k s deeds o s') : Frame s s' := by
  induction h with
  | idle => exact .refl _
  | block hp => exact Frame.set hp rfl
  | deliver hp => exact Frame.set hp rfl
  | drop hp _ _ _ ih =>
    refine Frame.trans ?_ ih
    exact Frame.set hp rfl
  | log hp _ _ l hsent _ ih =>
    subst hsent
    refine Frame.trans ?_ ((Frame.ipcSend _ _ _ _ _).trans ih)
    exact Frame.set hp rfl

theorem recvPass_frame (hp : s.procs p = some proc) (h : recvPass s p proc call logs = some (e, s')) :
    ∃ s₁ b o, Frame s s₁ ∧ s₁.procs p = some b ∧ s' = s₁.setProc p (some (b.leave call o)) := by
  obtain ⟨deeds, o, s₁, b, hrun, hb, -, hs'⟩ := recvPass_run h
  refine ⟨s₁, b, o, Frame.trans ?_ hrun.frame, hb, hs'⟩
  exact Frame.set hp rfl

/-- `t` is in the table and its capability table lets it take a message of `peer`. -/
def Entitled (s : State) (t peer : Pid) : Prop :=
  ∃ proc, s.procs t = some proc ∧ capabilityCheck t proc peer ipcRightRecv = true

structure Retains (t : Pid) (s s' : State) : Prop where
  initialized : s'.initialized = s.initialized
  rights : ∀ proc, s.procs t = some proc → ∃ b, s'.procs t = some b ∧
    ∀ peer, capabilityCheck t proc peer ipcRightRecv = true → capabilityCheck t b peer ipcRightRecv = true

theorem Retains.of_same (hi : s'.initialized = s.initialized)
    (h : (s'.procs t).map (fun b => (b.kind, b.caps)) = (s.procs t).map (fun a => (a.kind, a.caps))) :
    Retains t s s' := by
  refine ⟨hi, ?_⟩
  intro proc hp
  rw [hp, map_some] at h
  obtain ⟨b, hb, he⟩ := map_eq_some_iff.mp h
  obtain ⟨hk, hc⟩ := Prod.mk.inj he
  refine ⟨b, hb, ?_⟩
  intro peer hpeer
  rw [capabilityCheck_congr t hk hc]
  exact hpeer

theorem Frame.retains (h : Frame s s') (t : Pid) : Retains t s s' := by
  refine .of_same h.1 ?_
  have he := congrArg (Option.map (fun c : ThreadKind × (Nat → CapEntry) × Option RecvCall => (c.1, c.2.1)))
    (h.2 t)
  rw [Option.map_map, Option.map_map] at he
  exact he

theorem Retains.trans {s'' : State} (h : Retains t s s') (h' : Retains t s' s'') : Retains t s s'' := by
  refine ⟨h'.initialized.trans h.initialized, ?_⟩
  intro proc hp
  obtain ⟨b, hb, hbr⟩ := h.rights proc hp
  obtain ⟨c, hc, hcr⟩ := h'.rights b hb
  exact ⟨c, hc, fun peer hpeer => hcr peer (hbr peer hpeer)⟩

theorem Retains.other (s : State) (hne : t ≠ p) (q : Option Proc) : Retains t s (s.setProc p q) := by
  refine .of_same rfl ?_
  rw [setProc_procs, if_neg hne]

theorem Entitled.retained {peer : Pid} (h : Entitled s t peer) (hr : Retains t s s') : Entitled s' t peer := by
  obtain ⟨proc, hp, hc⟩ := h
  obtain ⟨b, hb, hbr⟩ := hr.rights proc hp
  exact ⟨b, hb, hbr peer hc⟩

theorem Retains.recvPass (hp : s.procs p = some proc)
    (h : recvPass s p proc call logs = some (e, s')) : Retains t s s' := by
  obtain ⟨s₁, b, o, hframe, hb, rfl⟩ := recvPass_frame hp h
  refine (hframe.retains t).trans (.of_same rfl ?_)
  rw [setProc_procs]
  split_ifs with ht
  · rw [ht, hb]
    cases o <;> rfl
  · rfl

def granted (caps : Nat → CapEntry) (peer : Pid) : UInt32 :=
  ((List.range configIpcCapacityPerProc).find? (fun i => (caps i).used && (caps i).peer == peer)).elim 0
    (fun i => (caps i).rights)

theorem capabilityCheck_recv (t : Pid) (proc : Proc) (peer : Pid) :
    capabilityCheck t proc peer ipcRightRecv = true ↔ proc.kind = .kernel ∨ peer ≤ 0 ∨ t = peer ∨
      granted proc.caps peer &&& ipcRightRecv = ipcRightRecv := by
  have h0 : ipcRightRecv ≠ 0 := by decide
  unfold capabilityCheck
  rw [if_neg h0]
  by_cases hk : proc.kind = .kernel
  · simp [hk]
  by_cases hp : peer ≤ 0
  · simp [hk, hp]
  by_cases ht : t = peer
  · simp [hk, ht]
  rw [if_neg hk, if_neg hp, if_neg ht]
  simp only [hk, hp, ht, false_or, beq_iff_eq, granted, ← capabilityFindSlot.eq_1]
  cases capabilityFindSlot proc peer <;> rfl

section Granted

variable {caps : Nat → CapEntry} {target peer : Pid} {i : Nat} {entry : CapEntry}

theorem granted_other (hold : (caps i).used = true → (caps i).peer = target) (hnew : entry.peer = target)
    (hne : peer ≠ target) : granted (update caps i entry) peer = granted caps peer := by
  have hpred : ∀ j, ((update caps i entry j).used &&
      (update caps i entry j).peer == peer) = ((caps j).used && (caps j).peer == peer) := by
    intro j
    by_cases hj : j = i
    · subst hj
      cases hu : (caps j).used with
      | false => simp [hnew, hne.symm]
      | true => simp [hnew, hold hu, hne.symm]
    · rw [update_of_ne hj]
  simp only [granted, hpred]
  cases hf : (List.range configIpcCapacityPerProc).find?
      (fun j => (caps j).used && (caps j).peer == peer) with
  | none => rfl
  | some j =>
    have hj := find?_some hf
    simp only [Bool.and_eq_true, beq_iff_eq] at hj
    have hji : j ≠ i := by
      rintro rfl
      exact hne (hj.2.symm.trans (hold hj.1))
    simp [update_of_ne hji]

theorem granted_found (hi : (List.range configIpcCapacityPerProc).find?
      (fun j => (caps j).used && (caps j).peer == target) = some i)
    (hu : entry.used = (caps i).used) (hp : entry.peer = (caps i).peer) :
    granted (update caps i entry) target = entry.rights := by
  have hpred : ∀ j, ((update caps i entry j).used &&
      (update caps i entry j).peer == target) = ((caps j).used && (caps j).peer == target) := by
    intro j
    by_cases hj : j = i
    · subst hj
      rw [update_self, hu, hp]
    · rw [update_of_ne hj]
  simp only [granted, hpred, hi, elim_some, update_self]

end Granted

theorem recv_or {a b : UInt32} (h : a &&& ipcRightRecv = ipcRightRecv) : (a ||| b) &&& ipcRightRecv = ipcRightRecv := by
  apply UInt32.eq_of_toBitVec_eq
  have hb := congrArg UInt32.toBitVec h
  simp only [UInt32.toBitVec_and, UInt32.toBitVec_or] at hb ⊢
  ext k hk
  have hbit := congrArg (fun v : BitVec 32 => v[k]) hb
  simp only [BitVec.getElem_and, BitVec.getElem_or] at hbit ⊢
  cases hr : ipcRightRecv.toBitVec[k] with
  | false => simp
  | true =>
    rw [hr] at hbit
    simp only [Bool.and_true] at hbit
    simp [hbit]

theorem Retains.grant (t : Pid) (s : State) (owner target : Pid) (rights : UInt32) :
    Retains t s (ipcCapGrant s owner target rights).1 := by
  have hrefl : Retains t s s := (Frame.refl s).retains t
  -- a new process record for the owner matters only if the owner is `t`
  have hset : ∀ {proc b : Proc}, s.procs owner = some proc → b.kind = proc.kind →
      (∀ peer, granted proc.caps peer &&& ipcRightRecv = ipcRightRecv →
        granted b.caps peer &&& ipcRightRecv = ipcRightRecv) → Retains t s (s.setProc owner (some b)) := by
    intro proc b hp hkind hb
    by_cases ht : t = owner
    · subst ht
      refine ⟨rfl, ?_⟩
      intro a ha
      rw [hp] at ha
      cases ha
      refine ⟨b, setProc_self _ _ _, ?_⟩
      intro peer hpeer
      rw [capabilityCheck_recv] at hpeer ⊢
      rw [hkind]
      exact hpeer.imp_right (.imp_right (.imp_right (hb peer)))
    · exact Retains.other s ht _
  unfold Ipc.ipcCapGrant
  split_ifs
  · exact hrefl
  · exact hrefl
  split
  · exact hrefl
  · rename_i proc hl
    have hp := processLookup_some hl
    split
    · rename_i i hi
      have hfound := find?_some hi
      simp only [Bool.and_eq_true, beq_iff_eq] at hfound
      refine hset hp rfl (fun peer h => ?_)
      by_cases hpt : peer = target
      · subst hpt
        rw [granted, show (List.range configIpcCapacityPerProc).find? _ = some i from hi] at h
        dsimp only
        rw [granted_found hi]
        · exact recv_or h
        · rfl
        · rfl
      · dsimp only
        rw [granted_other (fun _ => hfound.2) _ hpt]
        · exact h
        · exact hfound.2
    · rename_i hnone
      split
      · exact hrefl
      · rename_i i hfree
        have hunused := find?_some hfree
        simp only [Bool.not_eq_true'] at hunused
        refine hset hp rfl (fun peer h => ?_)
        have hpt : peer ≠ target := by
          rintro rfl
          rw [granted, show (List.range configIpcCapacityPerProc).find? _ = none from hnone] at h
          exact absurd (show (0 : UInt32) &&& ipcRightRecv = ipcRightRecv from h) (by decide)
        rw [granted_other (fun hu => by rw [hunused] at hu; cases hu) rfl hpt]
        exact h

/-- The actions that take nothing from `t`: no revocation, and `t` does not exit. -/
def Action.Spares (t : Pid) : Action → Prop
  | .revoke _ _ _ => False
  | .detach p => p ≠ t
  | .reclaim p => p ≠ t
  | _ => True

/-- The states that the actions lead through, whatever they return. -/
def act (s : State) (a : Action) : Option State := (perform s a).map Prod.snd

theorem Retains.step {a : Action} (ha : a.Spares t) (hlive : (s.procs t).isSome)
    (h : act s a = some s') : Retains t s s' := by
  obtain ⟨⟨e, s₁⟩, hperf, rfl⟩ := map_eq_some_iff.mp h
  cases perform_took hperf with
  | attach hpos hnone =>
    apply Retains.other
    rintro rfl
    rw [hnone] at hlive
    cases hlive
  | detach hp => exact Retains.other s (Ne.symm ha) _
  | reclaim p => exact Retains.other s (Ne.symm ha) _
  | grant owner target rights => exact Retains.grant t s owner target rights
  | revoke owner target rights => exact absurd ha id
  | send current target msg size => exact (Frame.ipcSend s current target msg size).retains t
  | refused => exact (Frame.refl s).retains t
  | recv hp _ hpass => exact Retains.recvPass hp hpass
  | resume hp _ hpass => exact Retains.recvPass hp hpass
  | wake p => exact (Frame.processWake s p).retains t

theorem Retains.run (hlive : (s.procs t).isSome)
    (hspare : ∀ a ∈ acts, a.Spares t) (hx : Exec (Performs (labelled act)) s acts s') : Retains t s s' := by
  induction hx with
  | nil => exact (Frame.refl s).retains t
  | @snoc acts s₁ s₂ a hx hstep ih =>
    have hr := ih (fun b hb => hspare b (by simp [hb]))
    obtain ⟨proc, hp⟩ := isSome_iff_exists.mp hlive
    obtain ⟨b, hb, -⟩ := hr.rights proc hp
    have hlive₁ : (s₁.procs t).isSome := by rw [hb]; rfl
    exact hr.trans (Retains.step (hspare a (by simp)) hlive₁ (performs_labelled.mp hstep))

theorem mailboxTryDequeue_of_find {mailbox : Mailbox} {source : Pid} {slot : Slot}
    (h : mailbox.queue.find? (slotMatches source) = some slot) :
    ∃ mailbox', mailboxTryDequeue mailbox source = some (slot, mailbox') := by
  cases hd : mailboxTryDequeue mailbox source with
  | none =>
    have hno := mailboxTryDequeue_none hd slot (mem_of_find?_eq_some h)
    rw [find?_some h] at hno
    cases hno
  | some taken =>
    obtain ⟨other, mailbox'⟩ := taken
    obtain ⟨i, hi, hm, hfirst, -⟩ := mailboxTryDequeue_some hd
    have hfind : mailbox.queue.find? (slotMatches source) = some other := by
      rw [find?_eq_some_iff_getElem]
      obtain ⟨hlt, he⟩ := List.getElem?_eq_some_iff.mp hi
      refine ⟨hm, i, hlt, he, ?_⟩
      intro j hj
      rw [hfirst j _ hj (getElem?_eq_getElem (by omega))]
      rfl
    rw [h] at hfind
    cases hfind
    exact ⟨mailbox', rfl⟩

/-- The event of a receive that hands over `m` before anything else. -/
def HandsOver (t : Pid) (call : RecvCall) (m : Message) (e : Event) : Prop :=
  ∃ copied, e = .recv t call [] (.delivered m copied) ∧
    (call.hasBuffer = true → copied = m.bytes.take call.max)

theorem recvPass_first {slot : Slot} (hfirst : proc.mailbox.queue.find? (slotMatches call.source) = some slot)
    (h : recvPass s t proc call logs = some (e, s')) :
    HandsOver t call slot.message e ↔ capabilityCheck t proc slot.sender ipcRightRecv = true := by
  obtain ⟨mailbox, hd⟩ := mailboxTryDequeue_of_find hfirst
  obtain ⟨deeds, o, s₁, b, hrun, -, rfl, -⟩ := recvPass_run h
  -- the process that the loop starts with, and what it finds in its mailbox
  have hstart : ∀ {a : Proc} {r : Option (Slot × Mailbox)},
      (s.setProc t (some { proc with state := .running, ipcWaiting := false })).procs t = some a →
      mailboxTryDequeue a.mailbox call.source = r → r = some (slot, mailbox) ∧ ∀ peer,
        capabilityCheck t a peer ipcRightRecv = capabilityCheck t proc peer ipcRightRecv := by
    intro a r ha hr
    rw [setProc_self] at ha
    cases ha
    exact ⟨hr.symm.trans hd, fun peer => capabilityCheck_congr t rfl rfl _ _⟩
  -- a message that is dropped leaves a deed
  have hdropped : ∀ {slot' : Slot} {ds : List Deed}, some (slot', mailbox) = some (slot, mailbox) →
      capabilityCheck t proc slot'.sender ipcRightRecv = false →
      (HandsOver t call slot.message (.recv t call (.dropped slot'.message :: ds) o) ↔
        capabilityCheck t proc slot.sender ipcRightRecv = true) := by
    rintro slot' ds ⟨⟩ hc
    rw [hc]
    refine ⟨?_, fun hyes => nomatch hyes⟩
    rintro ⟨copied, he, -⟩
    cases he
  cases hrun with
  | idle hp hno => cases (hstart hp hno).1
  | block hp hno => cases (hstart hp hno).1
  | deliver hp hsome hc =>
    obtain ⟨⟨⟩, hsame⟩ := hstart hp hsome
    rw [hsame] at hc
    refine ⟨fun _ => hc, fun _ => ⟨_, rfl, ?_⟩⟩
    intro hb
    rw [if_pos hb, Slot.message, cells, cells, ← map_take, take_range]
    congr 2
    split_ifs <;> omega
  | drop hp hsome hc =>
    obtain ⟨⟨⟩, hsame⟩ := hstart hp hsome
    exact hdropped rfl ((hsame _).symm.trans hc)
  | log hp hsome hc =>
    obtain ⟨⟨⟩, hsame⟩ := hstart hp hsome
    exact hdropped rfl ((hsame _).symm.trans hc)

/-- `t` enters `ipc_recv`, or runs on inside a call of it. -/
def Receives (s : State) (t : Pid) (call : RecvCall) (e : Event) (s' : State) : Prop :=
  ∃ logs, perform s (.recv t call logs) = some (e, s') ∨
    (∃ proc, s.procs t = some proc ∧ proc.inside = some call) ∧ perform s (.resume t logs) = some (e, s')

/-- The arguments that `ipc_recv` does not refuse. -/
def RecvCall.Valid (call : RecvCall) : Prop := 0 < call.max → call.hasBuffer = true

/-- Whoever is inside `ipc_recv` got past its argument check. -/
def Admitted (s : State) : Prop :=
  ∀ p proc call, s.procs p = some proc → proc.inside = some call → call.Valid

theorem Admitted.frame (h : Admitted s) (hf : Frame s s') : Admitted s' := by
  intro p proc call hp hi
  have he := hf.2 p
  rw [hp, map_some] at he
  obtain ⟨a, ha, hs⟩ := map_eq_some_iff.mp he.symm
  have hinside : a.inside = proc.inside := congrArg (fun c => c.2.2) hs
  exact h p a call ha (hinside.trans hi)

theorem Admitted.set {q : Option Proc} (h : Admitted s)
    (hq : ∀ proc call, q = some proc → proc.inside = some call → call.Valid) : Admitted (s.setProc p q) := by
  intro r proc call hr hi
  rw [setProc_procs] at hr
  split_ifs at hr
  · exact hq proc call hr hi
  · exact h r proc call hr hi

theorem Admitted.capEdit {owner : Pid} {new : Pid → Prop} (h : Admitted s)
    (he : CapEdit s owner new s') : Admitted s' := by
  cases he with
  | same => exact h
  | entry hp i entry n _ =>
    apply h.set
    rintro b call ⟨⟩ hi
    exact h owner _ call hp hi

theorem Admitted.recvPass (h : Admitted s) (hp : s.procs p = some proc)
    (hv : call.Valid) (hpass : recvPass s p proc call logs = some (e, s')) : Admitted s' := by
  obtain ⟨s₁, b, o, hframe, -, rfl⟩ := recvPass_frame hp hpass
  apply (h.frame hframe).set
  rintro c call' ⟨⟩ hi
  cases o with
  | delivered m copied => cases hi
  | returned rc => cases hi
  | blocked =>
    cases hi
    exact hv

theorem valid_of_args (h : ¬(0 < call.max ∧ (!call.hasBuffer) = true)) : call.Valid := by
  intro hmax
  by_contra hb
  exact h ⟨hmax, by simpa using hb⟩

theorem Admitted.step {a : Action} (h : Admitted s) (hact : act s a = some s') : Admitted s' := by
  obtain ⟨⟨e, s₁⟩, hperf, rfl⟩ := map_eq_some_iff.mp hact
  cases perform_took hperf with
  | attach =>
    apply h.set
    rintro b call ⟨⟩ hi
    cases hi
  | @detach p proc hp =>
    apply h.set
    rintro b call ⟨⟩ hi
    exact h p proc call hp hi
  | reclaim p =>
    apply h.set
    rintro b call ⟨⟩
  | grant owner target rights => exact h.capEdit (ipcCapGrant_edit s owner target rights)
  | revoke owner target rights => exact h.capEdit (ipcCapRevoke_edit s owner target rights)
  | send current target msg size => exact h.frame (Frame.ipcSend s current target msg size)
  | refused => exact h
  | recv hp hargs hpass => exact h.recvPass hp (valid_of_args hargs) hpass
  | resume hp hi hpass => exact h.recvPass hp (h _ _ _ hp hi) hpass
  | wake p => exact h.frame (Frame.processWake s p)

theorem Admitted.run (h : Admitted s) (hx : Exec (Performs (labelled act)) s acts s') : Admitted s' :=
  hx.invariant h (fun _ _ _ hs hstep => hs.step (performs_labelled.mp hstep))

/-- A message `m` on its way: sent to the user process `t` in state `s₁`, and the first match in
state `s₃` for the call that `t` makes there, with nothing taken from `t` in between. -/
structure Handover (t : Pid) (m : Message) (call : RecvCall) (s₁ s₃ : State) (e : Event) : Prop where
  reached : ∃ tr, Exec (Performs (labelled act)) ipcSystemInit tr s₁
  user : ∃ proc, s₁.procs t = some proc ∧ proc.kind = .user
  run : ∃ current msg size rc s₂ acts, perform s₁ (.send current t msg size) = some (.sent t m rc, s₂) ∧
    0 ≤ rc ∧ Exec (Performs (labelled act)) s₂ acts s₃ ∧ ∀ a ∈ acts, a.Spares t
  first : ∃ proc slot, s₃.procs t = some proc ∧
    proc.mailbox.queue.find? (slotMatches call.source) = some slot ∧ slot.message = m
  received : ∃ s₄, Receives s₃ t call e s₄

theorem ipcSend_initialized {current : Option Pid} {target : Pid} {msg : Option Buffer}
    {size : Nat} (h : 0 ≤ (ipcSend s current target msg size).2) : s.initialized = true := by
  cases hi : s.initialized with
  | true => rfl
  | false =>
    simp only [ipcSend, hi, Bool.not_false, if_true] at h
    omega

theorem Handover.retains {m : Message} {s₁ s₃ : State}
    (h : Handover t m call s₁ s₃ e) : Retains t s₁ s₃ ∧ s₃.initialized = true := by
  obtain ⟨current, msg, size, rc, s₂, acts, hsend, hrc, hx, hspare⟩ := h.run
  obtain ⟨proc, hp, -⟩ := h.user
  simp only [perform, ite_none_right_eq_some, some.injEq, Prod.mk.injEq] at hsend
  obtain ⟨-, he, rfl⟩ := hsend
  obtain ⟨-, -, rfl⟩ := Event.sent.inj he
  have hfirst : Retains t s₁ (ipcSend s₁ current t msg size).1 := (Frame.ipcSend _ _ _ _ _).retains t
  obtain ⟨b, hb, -⟩ := hfirst.rights proc hp
  have hr := hfirst.trans (Retains.run (by rw [hb]; rfl) hspare hx)
  exact ⟨hr, hr.initialized.trans (ipcSend_initialized hrc)⟩

theorem Handover.admitted {m : Message} {s₁ s₃ : State} (h : Handover t m call s₁ s₃ e) : Admitted s₃ := by
  obtain ⟨tr, hreach⟩ := h.reached
  obtain ⟨current, msg, size, rc, s₂, acts, hsend, -, hx, -⟩ := h.run
  have h₁ : Admitted s₁ := Admitted.run (fun p proc call hp => by cases hp) hreach
  have h₂ : Admitted s₂ := h₁.step (by rw [act, hsend]; rfl)
  exact h₂.run hx

/-- An accepted message reaches its target exactly if the target has, when it receives, the right
to receive from the sender; and a right it had at the time of the send it still has then. -/
theorem accepted_message_received_iff {t : Pid} {m : Message} {call : RecvCall} {s₁ s₃ : State} {e : Event}
    (h : Handover t m call s₁ s₃ e) :
    (HandsOver t call m e ↔ call.Valid ∧ Entitled s₃ t m.sender) ∧
      (Entitled s₁ t m.sender → Entitled s₃ t m.sender) := by
  obtain ⟨hretain, hinit⟩ := h.retains
  refine ⟨?_, fun he => he.retained hretain⟩
  obtain ⟨proc, slot, hp, hfirst, rfl⟩ := h.first
  have hent : Entitled s₃ t slot.message.sender ↔
      capabilityCheck t proc slot.sender ipcRightRecv = true := by
    constructor
    · rintro ⟨a, ha, hc⟩
      rw [hp] at ha
      cases ha
      exact hc
    · exact fun hc => ⟨proc, hp, hc⟩
  rw [hent]
  obtain ⟨s₄, logs, hrecv | ⟨⟨a, ha, hi⟩, hresume⟩⟩ := h.received
  · simp only [perform, hp, ite_none_right_eq_some] at hrecv
    obtain ⟨-, hrecv⟩ := hrecv
    simp only [ipcRecv, hinit, Bool.not_true, Bool.false_eq_true, if_false] at hrecv
    split_ifs at hrecv with hargs
    · cases hrecv
      constructor
      · rintro ⟨copied, he, -⟩
        cases he
      · rintro ⟨hv, -⟩
        have hb := hargs.2
        rw [hv hargs.1] at hb
        cases hb
    · rw [recvPass_first hfirst hrecv]
      exact ⟨fun hc => ⟨valid_of_args hargs, hc⟩, And.right⟩
  · rw [hp] at ha
    cases ha
    have hv := h.admitted t proc call hp hi
    simp only [perform, hp, hi, ite_none_right_eq_some] at hresume
    rw [recvPass_first hfirst hresume.2]
    exact ⟨fun hc => ⟨hv, hc⟩, And.right⟩

/-- Process 1 is a user process without capabilities, process 2 a kernel thread. -/
def strangerActs : List Action :=
  let memory : Mailbox := ⟨fun _ => ⟨false, 0, 0, 0, letters 4⟩, 0, fun _ => 0, 0⟩
  [.attach 1 .user memory, .attach 2 .kernel memory]

theorem strangerActs_isSome : (performAll (labelled act) ipcSystemInit strangerActs).isSome = true := by
  decide

def strangers : State :=
  ((performAll (labelled act) ipcSystemInit strangerActs).get strangerActs_isSome).2

def afterSend (s : State) : State := (ipcSend s (some 2) 1 (some (letters 1)) 1).1

def anyCall : RecvCall := ⟨ipcAnyProcess, true, 4⟩
def aMessage : Message := ⟨2, 1, [97]⟩

/-- What process 1 gets when it receives after process 2 has sent to it from state `s`. -/
def receiveEvent (s : State) : Option Event :=
  (perform (afterSend s) (.recv 1 anyCall (fun _ => none))).map Prod.fst

theorem handover_of (hx : Exec (Performs (labelled act)) ipcSystemInit acts s)
    (huser : (s.procs 1).map Proc.kind = some .user) (hmay : s.MaySend (some 2))
    (hrc : (ipcSend s (some 2) 1 (some (letters 1)) 1).2 = 1)
    (hfirst : ((afterSend s).procs 1).bind (fun proc =>
      (proc.mailbox.queue.find? (slotMatches anyCall.source)).map Slot.message) = some aMessage)
    (hrecv : receiveEvent s = some e) : Handover 1 aMessage anyCall s (afterSend s) e where
  reached := ⟨acts, hx⟩
  user := by
    obtain ⟨proc, hp, hk⟩ := map_eq_some_iff.mp huser
    exact ⟨proc, hp, hk⟩
  run := by
    refine ⟨some 2, some (letters 1), 1, 1, afterSend s, [], ?_, by decide, .nil, by simp⟩
    simp only [perform, if_pos hmay, hrc]
    rfl
  first := by
    obtain ⟨proc, hp, hslot⟩ := bind_eq_some_iff.mp hfirst
    obtain ⟨slot, hfind, hm⟩ := map_eq_some_iff.mp hslot
    exact ⟨proc, slot, hp, hfind, hm⟩
  received := by
    obtain ⟨⟨e', s₄⟩, hperf, rfl⟩ := map_eq_some_iff.mp hrecv
    exact ⟨s₄, fun _ => none, .inl hperf⟩

/-- The kernel thread's message is accepted, and thrown away when process 1 asks for it. -/
theorem accepted_message_dropped :
    ¬∀ t m call s₁ s₃ e, Handover t m call s₁ s₃ e → call.Valid → HandsOver t call m e := by
  intro hall
  have hx : Exec (Performs (labelled act)) ipcSystemInit strangerActs strangers :=
    performAll_labelled_exec _ _ strangerActs_isSome
  have he : receiveEvent strangers = some (.recv 1 anyCall [.dropped aMessage] .blocked) := by
    decide +kernel
  have hh := handover_of hx (by decide +kernel) (by decide +kernel) (by decide +kernel) (by decide +kernel) he
  obtain ⟨copied, hc, -⟩ := hall _ _ _ _ _ _ hh (fun _ => rfl)
  cases hc

/-- The same processes after process 1 was given the right to receive from process 2. -/
def friendActs : List Action := strangerActs ++ [.grant 1 2 ipcRightRecv]

theorem friendActs_isSome : (performAll (labelled act) ipcSystemInit friendActs).isSome = true := by
  decide

def friends : State := ((performAll (labelled act) ipcSystemInit friendActs).get friendActs_isSome).2

theorem accepted_message_received_friend :
    HandsOver 1 anyCall aMessage (.recv 1 anyCall [] (.delivered aMessage [97])) := by
  have hx : Exec (Performs (labelled act)) ipcSystemInit friendActs friends :=
    performAll_labelled_exec _ _ friendActs_isSome
  have he : receiveEvent friends = some (.recv 1 anyCall [] (.delivered aMessage [97])) := by
    decide +kernel
  have hh := handover_of hx (by decide +kernel) (by decide +kernel) (by decide +kernel) (by decide +kernel) he
  have hent : Entitled friends 1 2 := by
    have hcheck : (friends.procs 1).map (fun proc => capabilityCheck 1 proc 2 ipcRightRecv) = some true := by
      decide +kernel
    exact map_eq_some_iff.mp hcheck
  obtain ⟨hiff, hkeep⟩ := accepted_message_received_iff hh
  exact hiff.mpr ⟨fun _ => rfl, hkeep hent⟩

end ProOS.Ipc
