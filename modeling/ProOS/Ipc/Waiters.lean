import ProOS.Ipc.Rights

namespace ProOS.Ipc

open ProOS.Framework

def State.waitList (s : State) (q : Pid) : List Pid := ((s.procs q).map (fun a => a.mailbox.waiting)).getD []

def State.standing (s : State) (q : Pid) : Option (ProcState × Option RecvCall) :=
  (s.procs q).map (fun a => (a.state, a.inside))

def NoNewZombie (s s' : State) : Prop :=
  ∀ q b, s'.procs q = some b → b.state = .zombie → ∃ a, s.procs q = some a ∧ a.state = .zombie

theorem NoNewZombie.refl (s : State) : NoNewZombie s s := fun _ b hb hz => ⟨b, hb, hz⟩

variable {s s' : State} {p : Pid} {a : Proc}

theorem NoNewZombie.trans {s'' : State} (h : NoNewZombie s s') (h' : NoNewZombie s' s'') : NoNewZombie s s'' := by
  intro q c hc hz
  obtain ⟨b, hb, hbz⟩ := h' q c hc hz
  exact h q b hb hbz

theorem NoNewZombie.set {b : Proc} (hp : s.procs p = some a)
    (hb : b.state = .zombie → a.state = .zombie) : NoNewZombie s (s.setProc p (some b)) := by
  intro q c hc hz
  rw [setProc_procs] at hc
  split_ifs at hc with hq
  · cases hc
    exact ⟨a, hq ▸ hp, hb hz⟩
  · exact ⟨c, hc, hz⟩

theorem NoNewZombie.processWake (s : State) (p : Pid) : NoNewZombie s (processWake s p) := by
  intro q b hb hz
  obtain ⟨a, ha, rfl | ⟨-, rfl⟩⟩ := processWake_roused s p q hb
  · exact ⟨b, ha, hz⟩
  · cases hz

/-- Mailboxes only lose waiters, and a process changes its state only if a mailbox has lost it. -/
structure Loses (s s' : State) : Prop where
  frame : Frame s s'
  lists : ∀ q, (s'.waitList q).Sublist (s.waitList q)
  standing : ∀ q, s'.standing q = s.standing q ∨ ∃ r, q ∈ s.waitList r ∧ q ∉ s'.waitList r
  zombies : NoNewZombie s s'

theorem Loses.refl (s : State) : Loses s s :=
  ⟨.refl s, fun _ => .refl _, fun _ => .inl rfl, .refl s⟩

theorem Loses.trans {s'' : State} (h : Loses s s') (h' : Loses s' s'') : Loses s s'' where
  frame := h.frame.trans h'.frame
  lists := fun q => (h'.lists q).trans (h.lists q)
  standing := by
    intro q
    rcases h'.standing q with he' | ⟨r, hin, hout⟩
    · rcases h.standing q with he | ⟨r, hin, hout⟩
      · exact .inl (he'.trans he)
      · exact .inr ⟨r, hin, fun hm => hout ((h'.lists r).subset hm)⟩
    · exact .inr ⟨r, (h.lists r).subset hin, hout⟩
  zombies := h.zombies.trans h'.zombies

theorem setProc_waitList (s : State) (p q : Pid) (b : Proc) :
    (s.setProc p (some b)).waitList q = if q = p then b.mailbox.waiting else s.waitList q := by
  rw [State.waitList, setProc_procs]
  split_ifs
  · rfl
  · rfl

theorem setProc_standing (s : State) (p q : Pid) (b : Proc) :
    (s.setProc p (some b)).standing q = if q = p then some (b.state, b.inside) else s.standing q := by
  rw [State.standing, setProc_procs]
  split_ifs
  · rfl
  · rfl

theorem waitList_of (hp : s.procs p = some a) :
    s.waitList p = a.mailbox.waiting := by rw [State.waitList, hp]; rfl

theorem standing_of (hp : s.procs p = some a) :
    s.standing p = some (a.state, a.inside) := by rw [State.standing, hp]; rfl

theorem Loses.set {b : Proc} (hp : s.procs p = some a)
    (hb : b.standing = a.standing) (hw : b.mailbox.waiting = a.mailbox.waiting) (hst : b.state = a.state) :
    Loses s (s.setProc p (some b)) where
  frame := .set hp hb
  lists := by
    intro q
    rw [setProc_waitList]
    split_ifs with hq
    · rw [hq, waitList_of hp, hw]
    · exact .refl _
  standing := by
    intro q
    left
    rw [setProc_standing]
    split_ifs with hq
    · have hi : b.inside = a.inside := congrArg (fun c => c.2.2) hb
      rw [hq, standing_of hp, hst, hi]
    · rfl
  zombies := .set hp (fun hz => hst ▸ hz)

theorem processWake_waitList (s : State) (w q : Pid) : (processWake s w).waitList q = s.waitList q := by
  unfold processWake
  split
  · rename_i a ha
    split_ifs
    · rw [setProc_waitList]
      split_ifs with hq
      · rw [hq, waitList_of ha]
      · rfl
    · rfl
  · rfl

theorem processWake_standing {w q : Pid} (hq : q ≠ w) : (processWake s w).standing q = s.standing q := by
  unfold processWake
  split
  · split_ifs
    · rw [setProc_standing, if_neg hq]
    · rfl
  · rfl

theorem Loses.mailboxEnqueue {target : Pid} {proc : Proc} (hp : s.procs target = some proc)
    (hnd : (s.waitList target).Nodup) (sender : Pid) (data : Option Buffer) (size : Nat) (flags : UInt32) :
    Loses s (mailboxEnqueue s target proc sender data size flags).1 := by
  have hframe := Frame.mailboxEnqueue hp sender data size flags
  unfold Ipc.mailboxEnqueue at hframe ⊢
  dsimp only at hframe ⊢
  by_cases hfull : configMsgQueueLen ≤ proc.mailbox.count
  · rw [if_pos hfull]
    exact .refl s
  · rw [if_neg hfull] at hframe ⊢
    generalize hslot : Slot.mk true sender flags size _ = slot at hframe ⊢
    generalize hfilled : Mailbox.mk (Function.update proc.mailbox.slots proc.mailbox.count slot)
      (proc.mailbox.count + 1) proc.mailbox.waiters proc.mailbox.waiterCount = filled at hframe ⊢
    have hwaiting : filled.waiting = proc.mailbox.waiting := by rw [← hfilled]; rfl
    rcases mailboxPopWaiter_spec filled with ⟨hnil, hpop⟩ | ⟨w, ws, hcons, hfst, hsnd, -⟩
    · rw [hpop, if_neg (by simp [ipcInvalidPid])]
      exact Loses.set hp rfl hwaiting rfl
    · generalize mailboxPopWaiter filled = popped at hframe hfst hsnd ⊢
      have hlist : s.waitList target = w :: ws := by rw [waitList_of hp, ← hwaiting, hcons]
      have hout : w ∉ ws := (List.nodup_cons.mp (hlist ▸ hnd)).1
      generalize ht : s.setProc target (some { proc with mailbox := popped.2 }) = t at hframe ⊢
      have htlist : ∀ q, t.waitList q = if q = target then ws else s.waitList q := by
        intro q
        rw [← ht, setProc_waitList, hsnd]
      have htstand : ∀ q, t.standing q = s.standing q := by
        intro q
        rw [← ht, setProc_standing]
        split_ifs with hq
        · rw [hq, standing_of hp]
        · rfl
      have hsub : ∀ q, (t.waitList q).Sublist (s.waitList q) := by
        intro q
        rw [htlist]
        split_ifs with hq
        · rw [hq, hlist]
          exact List.sublist_cons_self w ws
        · exact .refl _
      have hzombie : NoNewZombie s t := by
        rw [← ht]
        exact .set hp id
      split_ifs at hframe ⊢ with hw
      · refine ⟨hframe, fun q => by rw [processWake_waitList]; exact hsub q, ?_,
          hzombie.trans (.processWake t popped.1)⟩
        intro q
        by_cases hq : q = popped.1
        · right
          refine ⟨target, ?_, ?_⟩
          · rw [hlist, hq, hfst]
            exact List.mem_cons_self
          · rw [processWake_waitList, htlist, if_pos rfl, hq, hfst]
            exact hout
        · left
          rw [processWake_standing hq, htstand]
      · exact ⟨hframe, hsub, fun q => .inl (htstand q), hzombie⟩

theorem Loses.ipcSend (hnd : ∀ q, (s.waitList q).Nodup) (current : Option Pid) (target : Pid)
    (msg : Option Buffer) (size : Nat) : Loses s (ipcSend s current target msg size).1 := by
  rcases ipcSend_cases s current target msg size with h | ⟨proc, hp, -, -, -, h⟩
  · rw [h]
    exact .refl s
  · rw [h]
    exact Loses.mailboxEnqueue hp (hnd target) _ _ _ _

theorem RecvRun.loses {call : RecvCall} {logs : Nat → Option LogSend} {k : Nat}
    {deeds : List Deed} {o : Outcome} (h : RecvRun p call logs k s deeds o s') :
    (∀ q, (s.waitList q).Nodup) → ∃ s₁ a, Loses s s₁ ∧ s₁.procs p = some a ∧
      ((o ≠ .blocked ∧ ∃ w, s' = s₁.setProc p (some { a with ipcWaiting := w })) ∨
        (o = .blocked ∧ s' = s₁.setProc p
          (some { a with mailbox := (mailboxPushWaiter a.mailbox p).1, ipcWaiting := true }))) := by
  have htake : ∀ {s : State} {proc : Proc} {slot : Slot} {mailbox : Mailbox}, s.procs p = some proc →
      mailboxTryDequeue proc.mailbox call.source = some (slot, mailbox) →
      Loses s (s.setProc p (some { proc with mailbox := mailbox })) := by
    intro s proc slot mailbox hp hd
    obtain ⟨-, -, -, -, -, hw⟩ := mailboxTryDequeue_some hd
    exact Loses.set hp rfl hw rfl
  induction h with
  | @idle k s proc hp hd rc =>
    intro _
    exact ⟨s, proc, .refl s, hp, .inl ⟨by simp, proc.ipcWaiting, (setProc_eq_self hp).symm⟩⟩
  | @block k s proc hp hd hw =>
    intro _
    exact ⟨s, proc, .refl s, hp, .inr ⟨rfl, rfl⟩⟩
  | deliver hp hd hc =>
    intro _
    refine ⟨_, _, htake hp hd, setProc_self _ _ _, .inl ⟨by simp, false, ?_⟩⟩
    rw [setProc_setProc]
  | drop hp hd _ _ ih =>
    intro hnd
    have hlose := htake hp hd
    obtain ⟨s₁, a, hl, ha, hend⟩ := ih (fun q => (hlose.lists q).nodup (hnd q))
    exact ⟨s₁, a, hlose.trans hl, ha, hend⟩
  | log hp hd _ l hsent _ ih =>
    intro hnd
    subst hsent
    have hlose := htake hp hd
    have hsend := hlose.trans
      (Loses.ipcSend (fun q => (hlose.lists q).nodup (hnd q)) (some p) l.target (some l.msg) l.size)
    obtain ⟨s₁, a, hl, ha, hend⟩ := ih (fun q => (hsend.lists q).nodup (hnd q))
    exact ⟨s₁, a, hsend.trans hl, ha, hend⟩

theorem recvPass_loses {proc : Proc} {call : RecvCall}
    {logs : Nat → Option LogSend} {e : Event} (hnd : ∀ q, (s.waitList q).Nodup)
    (hp : s.procs p = some proc) (h : recvPass s p proc call logs = some (e, s')) :
    ∃ s₁ a, Loses (s.setProc p (some { proc with state := .running, ipcWaiting := false })) s₁ ∧ s₁.procs p = some a ∧
      ((∃ w, s' = s₁.setProc p (some { a with state := .running, inside := none, ipcWaiting := w })) ∨
        s' = s₁.setProc p (some { a with
            mailbox := (mailboxPushWaiter a.mailbox p).1, state := .waiting, inside := some call
            ipcWaiting := true })) := by
  obtain ⟨deeds, o, s₂, b, hrun, hb, -, rfl⟩ := recvPass_run h
  have hnd₀ : ∀ q, ((s.setProc p (some { proc with state := .running, ipcWaiting := false })).waitList
      q).Nodup := by
    intro q
    rw [setProc_waitList]
    split_ifs
    · rw [← waitList_of hp]
      exact hnd p
    · exact hnd q
  obtain ⟨s₁, a, hlose, ha, hend⟩ := hrun.loses hnd₀
  refine ⟨s₁, a, hlose, ha, ?_⟩
  rcases hend with ⟨ho, w, rfl⟩ | ⟨rfl, rfl⟩
  · rw [setProc_self] at hb
    cases hb
    rw [setProc_setProc]
    cases o with
    | blocked => exact absurd rfl ho
    | delivered m copied => exact .inl ⟨w, rfl⟩
    | returned rc => exact .inl ⟨w, rfl⟩
  · rw [setProc_self] at hb
    cases hb
    rw [setProc_setProc]
    exact .inr rfl

theorem mailboxPushWaiter_list (mailbox : Mailbox) (pid : Pid) :
    (mailboxPushWaiter mailbox pid).1.waiting = mailbox.waiting ∨
      (mailboxPushWaiter mailbox pid).1.waiting = mailbox.waiting ++ [pid] := by
  unfold mailboxPushWaiter
  split_ifs
  · exact .inl rfl
  · exact .inl rfl
  · exact .inl rfl
  · exact .inr (cells_push _ _ _)

end ProOS.Ipc
