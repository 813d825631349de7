import ProOS.Ipc.Steps

namespace ProOS.Ipc

open ProOS.Framework

/-- Slots 0 .. count - 1. -/
def Mailbox.queue (mailbox : Mailbox) : List Slot := cells mailbox.slots mailbox.count

def Mailbox.waiting (mailbox : Mailbox) : List Pid := cells mailbox.waiters mailbox.waiterCount

theorem mailboxPushWaiter_queue (mailbox : Mailbox) (pid : Pid) :
    (mailboxPushWaiter mailbox pid).1.queue = mailbox.queue := by
  unfold mailboxPushWaiter
  split_ifs <;> rfl

theorem mailboxPushWaiter_waiting (mailbox : Mailbox) (pid : Pid) :
    (∀ w ∈ (mailboxPushWaiter mailbox pid).1.waiting, w ∈ mailbox.waiting ∨ w = pid) ∧
      ((mailboxPushWaiter mailbox pid).2 = true → pid ∈ (mailboxPushWaiter mailbox pid).1.waiting) := by
  unfold mailboxPushWaiter
  split_ifs with hp hm hl
  · exact ⟨fun w hw => .inl hw, by simp⟩
  · exact ⟨fun w hw => .inl hw, fun _ => hm⟩
  · exact ⟨fun w hw => .inl hw, by simp⟩
  · have hw : cells (Function.update mailbox.waiters mailbox.waiterCount pid)
        (mailbox.waiterCount + 1) = mailbox.waiting ++ [pid] := cells_push _ _ _
    simp only [Mailbox.waiting, hw]
    exact ⟨by simp, by simp⟩

theorem mailboxPopWaiter_spec (mailbox : Mailbox) :
    (mailbox.waiting = [] ∧ mailboxPopWaiter mailbox = (ipcInvalidPid, mailbox)) ∨
      ∃ w ws, mailbox.waiting = w :: ws ∧ (mailboxPopWaiter mailbox).1 = w ∧
        (mailboxPopWaiter mailbox).2.waiting = ws ∧ (mailboxPopWaiter mailbox).2.queue = mailbox.queue := by
  by_cases hc : mailbox.waiterCount = 0
  · left
    constructor
    · simp [Mailbox.waiting, hc]
    · simp [mailboxPopWaiter, hc]
  · right
    have hpos : 0 < mailbox.waiterCount := Nat.pos_of_ne_zero hc
    have hshift := cells_shiftDown mailbox.waiters hpos
    have hhead : mailbox.waiting[0]? = some (mailbox.waiters 0) := by
      rw [Mailbox.waiting, getElem?_cells, if_pos hpos]
    cases hw : mailbox.waiting with
    | nil => simp [hw] at hhead
    | cons w ws =>
      have hwe : mailbox.waiters 0 = w := by simpa [hw] using hhead.symm
      rw [← Mailbox.waiting, hw] at hshift
      refine ⟨w, ws, rfl, ?_, ?_, ?_⟩
      · simp [mailboxPopWaiter, hc, hwe]
      · simp only [mailboxPopWaiter, hc, if_false, Mailbox.waiting]
        rw [cells_update_ge _ le_rfl, hshift, List.eraseIdx_cons_zero]
      · simp [mailboxPopWaiter, hc, Mailbox.queue]

theorem mailboxTryDequeue_none {mailbox : Mailbox} {source : Pid} (h : mailboxTryDequeue mailbox source = none) :
    ∀ slot ∈ mailbox.queue, slotMatches source slot = false := by
  unfold mailboxTryDequeue at h
  cases hf : (cells mailbox.slots mailbox.count).findIdx? (slotMatches source) with
  | none => exact List.findIdx?_eq_none_iff.mp hf
  | some i => simp [hf] at h

theorem mailboxTryDequeue_some {mailbox mailbox' : Mailbox} {source : Pid} {slot : Slot}
    (h : mailboxTryDequeue mailbox source = some (slot, mailbox')) :
    ∃ i, mailbox.queue[i]? = some slot ∧ slotMatches source slot = true ∧
      (∀ j other, j < i → mailbox.queue[j]? = some other → slotMatches source other = false) ∧
      mailbox'.queue = mailbox.queue.eraseIdx i ∧ mailbox'.waiting = mailbox.waiting := by
  unfold mailboxTryDequeue at h
  cases hf : (cells mailbox.slots mailbox.count).findIdx? (slotMatches source) with
  | none => simp [hf] at h
  | some i =>
    simp only [hf, Option.some.injEq, Prod.mk.injEq] at h
    obtain ⟨rfl, rfl⟩ := h
    obtain ⟨hi, hm, hfirst⟩ := List.findIdx?_eq_some_iff_getElem.mp hf
    have hic : i < mailbox.count := by simpa using hi
    have hget : mailbox.queue[i]? = some (mailbox.slots i) := by
      rw [Mailbox.queue, getElem?_cells, if_pos hic]
    refine ⟨i, hget, ?_, ?_, ?_, rfl⟩
    · rw [getElem_cells] at hm
      exact hm
    · intro j other hji hj
      rw [Mailbox.queue, getElem?_cells, if_pos (by omega)] at hj
      cases hj
      have hj := hfirst j hji
      rw [getElem_cells] at hj
      simpa using hj
    · simp only [Mailbox.queue]
      rw [cells_update_ge _ le_rfl, cells_shiftDown _ hic]

/-- A process that was made ready in its sleep, or not touched. -/
def Roused (a b : Proc) : Prop := b = a ∨ a.state = .waiting ∧ b = { a with state := .ready }

theorem processWake_roused (s : State) (p q : Pid) {b : Proc}
    (h : (processWake s p).procs q = some b) : ∃ a, s.procs q = some a ∧ Roused a b := by
  unfold processWake at h
  cases hp : s.procs p with
  | none =>
    rw [hp] at h
    exact ⟨b, h, .inl rfl⟩
  | some proc =>
    simp only [hp] at h
    split_ifs at h with hw
    · rw [setProc_procs] at h
      split_ifs at h with hqp
      · cases h
        exact ⟨proc, hqp ▸ hp, .inr ⟨hw, rfl⟩⟩
      · exact ⟨b, h, .inl rfl⟩
    · exact ⟨b, h, .inl rfl⟩

theorem setProc_isSome (s : State) (p r : Pid) (proc : Proc) (h : (s.procs r).isSome) :
    ((s.setProc p (some proc)).procs r).isSome := by
  rw [setProc_procs]
  split
  · rfl
  · exact h

theorem processWake_isSome (s : State) (p r : Pid) (h : (s.procs r).isSome) : ((processWake s p).procs r).isSome := by
  unfold processWake
  split
  · split
    · exact setProc_isSome _ _ _ _ h
    · exact h
  · exact h

theorem processWake_not_waiting (s : State) (p : Pid) {b : Proc}
    (h : (processWake s p).procs p = some b) : b.state ≠ .waiting := by
  unfold processWake at h
  cases hp : s.procs p with
  | none =>
    simp [hp] at h
  | some proc =>
    simp only [hp] at h
    by_cases hw : proc.state = .waiting
    · rw [if_pos hw, setProc_self] at h
      cases h
      simp
    · rw [if_neg hw, hp] at h
      cases h
      exact hw

/-- What `mailbox_enqueue` does: nothing, or the message is at the end of the target's queue,
its first waiter is off the list and awake, and everyone else is as before or awake. -/
inductive Enqueued (s : State) (target : Pid) (proc : Proc) (m : Message) : State → Int → Prop
  | full (h : configMsgQueueLen ≤ proc.mailbox.count) : Enqueued s target proc m s (-1)
  | stored {s' : State} (slot : Slot) (mailbox : Mailbox) (b : Proc)
      (hm : slot.message = m) (hu : slot.used = true)
      (hq : mailbox.queue = proc.mailbox.queue ++ [slot])
      (hw : ∀ w ∈ mailbox.waiting, w ∈ proc.mailbox.waiting)
      (htarget : s'.procs target = some b) (hb : Roused { proc with mailbox := mailbox } b)
      (hwake : ∀ ws, proc.mailbox.waiting = target :: ws → 0 < target → b.state ≠ .waiting)
      (hothers : ∀ r b', r ≠ target → s'.procs r = some b' → ∃ a, s.procs r = some a ∧ Roused a b')
      (hlive : ∀ r, (s.procs r).isSome → (s'.procs r).isSome) :
      Enqueued s target proc m s' m.size

theorem mailboxEnqueue_spec {s : State} {target : Pid} {proc : Proc} (hp : s.procs target = some proc)
    (sender : Pid) (data : Option Buffer) (size : Nat) (flags : UInt32) (hd : 0 < size → data.isSome) :
    Enqueued s target proc ⟨sender, size, cells (data.getD (fun _ => 0)) size⟩
      (mailboxEnqueue s target proc sender data size flags).1
      (mailboxEnqueue s target proc sender data size flags).2 := by
  unfold mailboxEnqueue
  dsimp only
  by_cases hfull : configMsgQueueLen ≤ proc.mailbox.count
  · rw [if_pos hfull]
    exact .full hfull
  · rw [if_neg hfull]
    generalize hslot : Slot.mk true sender flags size _ = slot
    generalize hfilled : Mailbox.mk (Function.update proc.mailbox.slots proc.mailbox.count slot)
      (proc.mailbox.count + 1) proc.mailbox.waiters proc.mailbox.waiterCount = filled
    have hmsg : slot.message = ⟨sender, size, cells (data.getD (fun _ => 0)) size⟩ := by
      rw [← hslot]
      simp only [Slot.message, Message.mk.injEq, true_and]
      apply cells_congr
      intro i hi
      obtain ⟨src, rfl⟩ := Option.isSome_iff_exists.mp (hd (by omega))
      simp [show 0 < size by omega, bufferCopy, hi]
    have hused : slot.used = true := by rw [← hslot]
    have hqueue : filled.queue = proc.mailbox.queue ++ [slot] := by
      rw [← hfilled]
      exact cells_push _ _ _
    have hwaiting : filled.waiting = proc.mailbox.waiting := by rw [← hfilled]; rfl
    rcases mailboxPopWaiter_spec filled with ⟨hnil, hpop⟩ | ⟨w, ws, hcons, hfst, hsnd, hq⟩
    · rw [hpop, if_neg (by simp [ipcInvalidPid])]
      refine .stored slot filled { proc with mailbox := filled } hmsg hused hqueue ?_ ?_ (.inl rfl) ?_ ?_
        (fun r hr => setProc_isSome _ _ _ _ hr)
      · intro w hw
        rw [hnil] at hw
        cases hw
      · rw [setProc_self]
      · intro ws hws
        rw [← hwaiting, hnil] at hws
        cases hws
      · intro r b' hr hb'
        rw [setProc_procs, if_neg hr] at hb'
        exact ⟨b', hb', .inl rfl⟩
    · generalize hpopped : (mailboxPopWaiter filled).2 = popped at hsnd hq
      rw [hfst]
      have hsub : ∀ x ∈ popped.waiting, x ∈ proc.mailbox.waiting := by
        intro x hx
        rw [← hwaiting, hcons]
        exact List.mem_cons_of_mem w (hsnd ▸ hx)
      split_ifs with hw
      · generalize ht : s.setProc target (some { proc with mailbox := popped }) = t
        have hself : t.procs target = some { proc with mailbox := popped } := by
          rw [← ht, setProc_self]
        have hother : ∀ r, r ≠ target → t.procs r = s.procs r := by
          intro r hr
          rw [← ht, setProc_procs, if_neg hr]
        have hlive : ∀ r, (s.procs r).isSome → ((processWake t w).procs r).isSome := by
          intro r hr
          rw [← ht]
          exact processWake_isSome _ _ _ (setProc_isSome _ _ _ _ hr)
        obtain ⟨b, hb⟩ := Option.isSome_iff_exists.mp (hlive target (by rw [hp]; rfl))
        refine .stored slot popped b hmsg hused (hq.trans hqueue) hsub hb ?_ ?_ ?_ hlive
        · obtain ⟨a, ha, hr⟩ := processWake_roused t w target hb
          rw [hself] at ha
          cases ha
          exact hr
        · intro ws' hws' _
          rw [← hwaiting, hcons] at hws'
          obtain ⟨rfl, -⟩ := List.cons.inj hws'
          exact processWake_not_waiting t w hb
        · intro r b' hr hb'
          rw [← hother r hr]
          exact processWake_roused t w r hb'
      · refine .stored slot popped { proc with mailbox := popped } hmsg hused (hq.trans hqueue) hsub ?_
          (.inl rfl) ?_ ?_ (fun r hr => setProc_isSome _ _ _ _ hr)
        · rw [setProc_self]
        · intro ws' hws' hpos
          rw [← hwaiting, hcons] at hws'
          obtain ⟨rfl, -⟩ := List.cons.inj hws'
          exact absurd hpos hw
        · intro r b' hr hb'
          rw [setProc_procs, if_neg hr] at hb'
          exact ⟨b', hb', .inl rfl⟩

theorem ipcSend_spec (s : State) (current : Option Pid) (target : Pid) (msg : Option Buffer) (size : Nat) :
    ipcSend s current target msg size = (s, -1) ∨
      ∃ proc, s.procs target = some proc ∧ 0 < target ∧
        Enqueued s target proc (.sent current msg size) (ipcSend s current target msg size).1
          (ipcSend s current target msg size).2 := by
  rcases ipcSend_cases s current target msg size with h | ⟨proc, hp, hpos, hsome, -, h⟩
  · exact .inl h
  · rw [h]
    have hmsg : Message.sent current msg size =
        ⟨current.getD 0, size, cells ((if 0 < size then msg else none).getD (fun _ => 0)) size⟩ := by
      by_cases hsize : 0 < size
      · simp [Message.sent, hsize]
      · obtain rfl : size = 0 := by omega
        simp [Message.sent]
    rw [hmsg]
    refine .inr ⟨proc, hp, hpos, mailboxEnqueue_spec hp _ _ _ _ ?_⟩
    intro hsize
    rw [if_pos hsize]
    exact hsome hsize

theorem capabilityCheck_congr (p : Pid) {a b : Proc} (hk : b.kind = a.kind) (hc : b.caps = a.caps)
    (peer : Pid) (rights : UInt32) : capabilityCheck p b peer rights = capabilityCheck p a peer rights := by
  simp only [capabilityCheck, capabilityFindSlot, hk, hc]

end ProOS.Ipc
