import ProOS.Ipc.Model

/-! What the calls can do, case by case. The invariants of the mailboxes are proved from these cases. -/

namespace ProOS.Ipc

open ProOS.Framework Option

variable {s : State} {p : Pid} {proc : Proc}

theorem processLookup_some (h : processLookup s p = some proc) : s.procs p = some proc := by
  unfold processLookup at h
  split at h
  · cases h
  · exact h

theorem setProc_eq_self (h : s.procs p = some proc) : s.setProc p (some proc) = s := by
  rw [State.setProc, ← h, Function.update_eq_self]

theorem setProc_setProc (s : State) (p : Pid) (a b : Option Proc) : (s.setProc p a).setProc p b = s.setProc p b := by
  simp [State.setProc]

/-! ## Capabilities -/

/-- At most one entry of the table of `owner` has changed; it names a peer that it named before, or a `new`
one. -/
inductive CapEdit (s : State) (owner : Pid) (new : Pid → Prop) : State → Prop
  | same : CapEdit s owner new s
  | entry {proc : Proc} (hp : s.procs owner = some proc) (i : Nat) (e : CapEntry) (n : Nat)
      (h : e.used = true → (proc.caps i).used = true ∧ (proc.caps i).peer = e.peer ∨ new e.peer) :
      CapEdit s owner new
        (s.setProc owner (some { proc with caps := Function.update proc.caps i e, capCount := n }))

theorem ipcCapGrant_edit (s : State) (owner target : Pid) (rights : UInt32) :
    CapEdit s owner (· = target) (ipcCapGrant s owner target rights).1 := by
  unfold ipcCapGrant
  iterate 2
    split
    · exact .same
  split
  · exact .same
  rename_i proc hl
  have hp := processLookup_some hl
  split
  · exact .entry hp _ _ proc.capCount (fun hu => .inl ⟨hu, rfl⟩)
  split
  · exact .same
  · exact .entry hp _ _ _ (fun _ => .inr rfl)

theorem ipcCapRevoke_edit (s : State) (owner target : Pid) (rights : UInt32) :
    CapEdit s owner (fun _ => False) (ipcCapRevoke s owner target rights).1 := by
  unfold ipcCapRevoke
  iterate 2
    split
    · exact .same
  split
  · exact .same
  rename_i proc hl
  have hp := processLookup_some hl
  split
  · exact .same
  dsimp only
  split
  · exact .entry hp _ _ _ (fun hu => nomatch hu)
  · exact .entry hp _ _ proc.capCount (fun hu => .inl ⟨hu, rfl⟩)

/-! ## Sending -/

theorem ipcSend_cases (s : State) (current : Option Pid) (target : Pid) (msg : Option Buffer) (size : Nat) :
    ipcSend s current target msg size = (s, -1) ∨
      ∃ proc, s.procs target = some proc ∧ 0 < target ∧ (0 < size → msg.isSome) ∧
        sendPermitted s current target = true ∧ ipcSend s current target msg size =
          mailboxEnqueue s target proc (current.getD 0) (if 0 < size then msg else none) size 0 := by
  unfold ipcSend
  split
  · exact .inl rfl
  split
  · exact .inl rfl
  rename_i ht
  split
  · exact .inl rfl
  split
  · exact .inl rfl
  rename_i hm
  split
  · exact .inl rfl
  rename_i proc hl
  split
  · exact .inl rfl
  rename_i hperm
  refine .inr ⟨proc, processLookup_some hl, not_le.mp ht, ?_, by simpa using hperm, rfl⟩
  intro hpos
  cases msg with
  | none => exact absurd ⟨hpos, rfl⟩ hm
  | some src => rfl

/-! ## The loop of `ipc_recv` -/

/-- The loop of `ipc_recv` from its top to the next return or block, turn by turn. -/
inductive RecvRun (p : Pid) (call : RecvCall) (logs : Nat → Option LogSend) :
    Nat → State → List Deed → Outcome → State → Prop
  | idle {k : Nat} {s : State} {proc : Proc} (hp : s.procs p = some proc)
      (hd : mailboxTryDequeue proc.mailbox call.source = none) (rc : Int) :
      RecvRun p call logs k s [] (.returned rc) s
  | block {k : Nat} {s : State} {proc : Proc} (hp : s.procs p = some proc)
      (hd : mailboxTryDequeue proc.mailbox call.source = none)
      (hw : (mailboxPushWaiter proc.mailbox p).2 = true) :
      RecvRun p call logs k s [] .blocked (s.setProc p
        (some { proc with mailbox := (mailboxPushWaiter proc.mailbox p).1, ipcWaiting := true }))
  | deliver {k : Nat} {s : State} {proc : Proc} {slot : Slot} {mailbox : Mailbox} (hp : s.procs p = some proc)
      (hd : mailboxTryDequeue proc.mailbox call.source = some (slot, mailbox))
      (hc : capabilityCheck p proc slot.sender ipcRightRecv = true) :
      RecvRun p call logs k s []
        (.delivered slot.message (if call.hasBuffer then
          cells slot.data (if slot.size < call.max then slot.size else call.max) else []))
        (s.setProc p (some { proc with mailbox := mailbox, ipcWaiting := false }))
  | drop {k : Nat} {s s' : State} {proc : Proc} {slot : Slot} {mailbox : Mailbox} {deeds : List Deed}
      {o : Outcome} (hp : s.procs p = some proc)
      (hd : mailboxTryDequeue proc.mailbox call.source = some (slot, mailbox))
      (hc : capabilityCheck p proc slot.sender ipcRightRecv = false)
      (hrest : RecvRun p call logs (k + 1) (s.setProc p (some { proc with mailbox := mailbox })) deeds o s') :
      RecvRun p call logs k s (.dropped slot.message :: deeds) o s'
  | log {k : Nat} {s s' : State} {proc : Proc} {slot : Slot} {mailbox : Mailbox} {deeds : List Deed}
      {o : Outcome} (hp : s.procs p = some proc)
      (hd : mailboxTryDequeue proc.mailbox call.source = some (slot, mailbox))
      (hc : capabilityCheck p proc slot.sender ipcRightRecv = false) (l : LogSend) {sent : State × Int}
      (hsent : ipcSend (s.setProc p (some { proc with mailbox := mailbox })) (some p) l.target (some l.msg)
        l.size = sent)
      (hrest : RecvRun p call logs (k + 1) sent.1 deeds o s') :
      RecvRun p call logs k s
        (.dropped slot.message :: .logged l.target (.sent (some p) (some l.msg) l.size) sent.2 :: deeds) o s'

theorem mailboxPushWaiter_failed {mailbox : Mailbox} {pid : Pid} (h : (mailboxPushWaiter mailbox pid).2 = false) :
    (mailboxPushWaiter mailbox pid).1 = mailbox := by
  revert h
  unfold mailboxPushWaiter
  split_ifs <;> simp

theorem recvLoop_run {call : RecvCall} {logs : Nat → Option LogSend} (fuel : Nat) :
    ∀ {k : Nat} {s s' : State} {deeds : List Deed} {o : Outcome},
      recvLoop p call logs fuel k s = some (deeds, o, s') → RecvRun p call logs k s deeds o s' := by
  induction fuel with
  | zero =>
    intro k s s' deeds o h
    simp [recvLoop] at h
  | succ fuel ih =>
    intro k s s' deeds o h
    rw [recvLoop] at h
    cases hp : s.procs p with
    | none => simp [hp] at h
    | some proc =>
      simp only [hp] at h
      cases hd : mailboxTryDequeue proc.mailbox call.source with
      | none =>
        simp only [hd] at h
        split_ifs at h with hk hw
        · obtain ⟨⟩ := h
          exact .idle hp hd 0
        · obtain ⟨⟩ := h
          have hsame : ({ proc with mailbox := (mailboxPushWaiter proc.mailbox p).1 } : Proc) = proc := by
            rw [mailboxPushWaiter_failed (by simpa using hw)]
          rw [hsame, setProc_eq_self hp]
          exact .idle hp hd (-1)
        · obtain ⟨⟩ := h
          exact .block hp hd (by simpa using hw)
      | some taken =>
        obtain ⟨slot, mailbox⟩ := taken
        simp only [hd] at h
        cases hc : capabilityCheck p proc slot.sender ipcRightRecv with
        | true =>
          simp only [hc, Bool.not_true, Bool.false_eq_true, if_false] at h
          obtain ⟨⟩ := h
          rw [setProc_setProc]
          exact .deliver hp hd hc
        | false =>
          simp only [hc, Bool.not_false, if_true] at h
          cases hlog : logs k with
          | none =>
            simp only [hlog] at h
            obtain ⟨⟨ds, o', s₁⟩, hr, ⟨⟩⟩ := map_eq_some_iff.mp h
            exact .drop hp hd hc (ih hr)
          | some l =>
            simp only [hlog] at h
            obtain ⟨⟨ds, o', s₁⟩, hr, ⟨⟩⟩ := map_eq_some_iff.mp h
            exact .log hp hd hc l rfl (ih hr)

def Proc.leave (proc : Proc) (call : RecvCall) : Outcome → Proc
  | .blocked => { proc with state := .waiting, inside := some call }
  | _ => { proc with state := .running, inside := none }

theorem recvPass_run {s' : State} {call : RecvCall} {logs : Nat → Option LogSend}
    {e : Event} (h : recvPass s p proc call logs = some (e, s')) :
    ∃ deeds o s₁ b,
      RecvRun p call logs 0 (s.setProc p (some { proc with state := .running, ipcWaiting := false })) deeds o s₁ ∧
        s₁.procs p = some b ∧ e = .recv p call deeds o ∧ s' = s₁.setProc p (some (b.leave call o)) := by
  unfold recvPass at h
  dsimp only at h
  cases hl : recvLoop p call logs (proc.mailbox.count + 1) 0
      (s.setProc p (some { proc with state := .running, ipcWaiting := false })) with
  | none => simp [hl] at h
  | some r =>
    obtain ⟨deeds, o, s₁⟩ := r
    simp only [hl] at h
    cases hp : s₁.procs p with
    | none => simp [hp] at h
    | some b =>
      simp only [hp] at h
      obtain ⟨rfl, rfl⟩ := Prod.mk.inj (some.inj h)
      refine ⟨deeds, o, s₁, b, recvLoop_run _ hl, hp, rfl, ?_⟩
      cases o <;> rfl

/-! ## Steps -/

inductive Took (s : State) : Action → Event → State → Prop
  | attach {p : Pid} (hpos : 0 < p) (hnone : s.procs p = none) (kind : ThreadKind) (memory : Mailbox) :
      Took s (.attach p kind memory) (.attached p) (s.setProc p (some (ipcAttachProcess memory kind)))
  | detach {p : Pid} {proc : Proc} (hp : s.procs p = some proc) (hf : proc.Free) :
      Took s (.detach p) (.detached p) (s.setProc p (some (ipcDetachProcess proc)))
  | reclaim (p : Pid) : Took s (.reclaim p) (.reclaimed p) (s.setProc p none)
  | grant (owner target : Pid) (rights : UInt32) :
      Took s (.grant owner target rights) (.rights owner) (ipcCapGrant s owner target rights).1
  | revoke (owner target : Pid) (rights : UInt32) :
      Took s (.revoke owner target rights) (.rights owner) (ipcCapRevoke s owner target rights).1
  | send (current : Option Pid) (target : Pid) (msg : Option Buffer) (size : Nat) :
      Took s (.send current target msg size)
        (.sent target (.sent current msg size) (ipcSend s current target msg size).2)
        (ipcSend s current target msg size).1
  | refused (p : Pid) (call : RecvCall) (logs : Nat → Option LogSend) :
      Took s (.recv p call logs) (.recv p call [] (.returned (-1))) s
  | recv {p : Pid} {proc : Proc} {call : RecvCall} {logs : Nat → Option LogSend} {e : Event} {s' : State}
      (hp : s.procs p = some proc) (hargs : ¬(0 < call.max ∧ (!call.hasBuffer) = true))
      (h : recvPass s p proc call logs = some (e, s')) : Took s (.recv p call logs) e s'
  | resume {p : Pid} {proc : Proc} {call : RecvCall} {logs : Nat → Option LogSend} {e : Event} {s' : State}
      (hp : s.procs p = some proc) (hi : proc.inside = some call)
      (h : recvPass s p proc call logs = some (e, s')) : Took s (.resume p logs) e s'
  | wake (p : Pid) : Took s (.wake p) (.woken p) (processWake s p)

theorem perform_took {s' : State} {a : Action} {e : Event} (h : perform s a = some (e, s')) : Took s a e s' := by
  cases a with
  | attach p kind memory =>
    simp only [perform, ite_none_right_eq_some, isNone_iff_eq_none] at h
    obtain ⟨⟨hpos, hnone⟩, ⟨⟩⟩ := h
    exact .attach hpos hnone kind memory
  | detach p =>
    cases hp : s.procs p with
    | none => simp [perform, hp] at h
    | some proc =>
      simp only [perform, hp, ite_none_right_eq_some] at h
      obtain ⟨hf, ⟨⟩⟩ := h
      exact .detach hp hf
  | reclaim p =>
    obtain ⟨⟩ := h
    exact .reclaim p
  | grant owner target rights =>
    obtain ⟨⟩ := h
    exact .grant owner target rights
  | revoke owner target rights =>
    obtain ⟨⟩ := h
    exact .revoke owner target rights
  | send current target msg size =>
    simp only [perform, ite_none_right_eq_some] at h
    obtain ⟨-, ⟨⟩⟩ := h
    exact .send current target msg size
  | recv p call logs =>
    cases hp : s.procs p with
    | none => simp [perform, hp] at h
    | some proc =>
      simp only [perform, hp, ite_none_right_eq_some, ipcRecv] at h
      obtain ⟨-, h⟩ := h
      split_ifs at h with hinit hargs
      · obtain ⟨⟩ := h
        exact .refused p call logs
      · obtain ⟨⟩ := h
        exact .refused p call logs
      · exact .recv hp hargs h
  | resume p logs =>
    cases hp : s.procs p with
    | none => simp [perform, hp] at h
    | some proc =>
      cases hi : proc.inside with
      | none => simp [perform, hp, hi] at h
      | some call =>
        simp only [perform, hp, hi, ite_none_right_eq_some] at h
        exact .resume hp hi h.2
  | wake p =>
    obtain ⟨⟩ := h
    exact .wake p

end ProOS.Ipc
