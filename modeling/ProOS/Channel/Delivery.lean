import ProOS.Channel.Steps

namespace ProOS.Channel

open ProOS.Framework Option List

/-- What a sleeping receiver of channel `i` looks like, and one that a send has woken and that has
not run since. -/
def State.blocked (s : State) (i : Index) : Set Pid :=
  {p | ∃ proc call, s.procs p = some proc ∧ proc.inside = some (i, call) ∧ proc.state = .waiting}

def State.woken (s : State) (i : Index) : Set Pid :=
  {p | ∃ proc call, s.procs p = some proc ∧ proc.inside = some (i, call) ∧ proc.state = .ready}

def Event.accepted (c : Int) : Event → List Message
  | .sent channelId m rc => if channelId = c ∧ 0 ≤ rc then [m] else []
  | _ => []

def Event.delivered (c : Int) : Event → List Message
  | .receive _ call (.received m _) => if call.channelId = c then [m] else []
  | _ => []

def accepted (c : Int) (tr : List Event) : List Message := tr.flatMap (Event.accepted c)

def delivered (c : Int) (tr : List Event) : List Message := tr.flatMap (Event.delivered c)

@[simp] theorem accepted_snoc (c : Int) (tr : List Event) (e : Event) :
    accepted c (tr ++ [e]) = accepted c tr ++ e.accepted c := by simp [accepted]

@[simp] theorem delivered_snoc (c : Int) (tr : List Event) (e : Event) :
    delivered c (tr ++ [e]) = delivered c tr ++ e.delivered c := by simp [delivered]

variable {call : ReceiveCall} {s s' : State} {p : Pid} {i : Index} {tr : List Event} {e : Event} {rc : Int}
  {proc : Proc}

section Processes

variable {s : State} {p q : Pid} {proc b : Proc} {i j : Index}

@[simp] theorem blocked_setChannel (s : State) (i j : Index) (c : IpcChannel) :
    (s.setChannel i c).blocked j = s.blocked j := rfl

@[simp] theorem woken_setChannel (s : State) (i j : Index) (c : IpcChannel) :
    (s.setChannel i c).woken j = s.woken j := rfl

/-- The processes inside `ipc_channel_receive` on channel `i`, in state `st`. -/
def State.receivers (s : State) (i : Index) (st : ProcState) : Set Pid :=
  {p | ∃ proc call, s.procs p = some proc ∧ proc.inside = some (i, call) ∧ proc.state = st}

section Receivers

variable {st : ProcState}

theorem receivers_setProc_out (hb : ∀ call, b.inside = some (i, call) → b.state ≠ st) :
    (s.setProc p b).receivers i st = s.receivers i st \ {p} := by
  ext q
  simp only [State.receivers, setProc_procs, Set.mem_ofPred_eq, Set.mem_sdiff, Set.mem_singleton_iff]
  by_cases hq : q = p
  · simpa [hq] using hb
  · simp [hq]

theorem receivers_setProc_in (hi : b.inside = some (i, call)) (hb : b.state = st) :
    (s.setProc p b).receivers i st = insert p (s.receivers i st) := by
  ext q
  simp only [State.receivers, setProc_procs, Set.mem_ofPred_eq, Set.mem_insert_iff]
  by_cases hq : q = p
  · simp [hq, hi, hb]
  · simp [hq]

theorem notMem_receivers (hp : s.procs p = some proc)
    (h : ∀ call, proc.inside = some (i, call) → proc.state ≠ st) : p ∉ s.receivers i st := by
  rintro ⟨a, call, ha, hi, hst⟩
  rw [hp] at ha
  cases ha
  exact h call hi hst

theorem inside_ne (hi : b.inside = some (i, call)) (hij : j ≠ i) (call' : ReceiveCall)
    (h : b.inside = some (j, call')) : b.state ≠ st := by
  rw [hi] at h
  exact absurd (Prod.mk.inj (some.inj h)).1.symm hij

end Receivers

theorem blocked_setProc_out (hb : b.state ≠ .waiting) :
    (s.setProc p b).blocked i = s.blocked i \ {p} := receivers_setProc_out (fun _ _ => hb)

theorem woken_setProc_out (hb : b.state ≠ .ready) : (s.setProc p b).woken i = s.woken i \ {p} :=
  receivers_setProc_out (fun _ _ => hb)

section

variable (hi : b.inside = some (i, call))

include hi

theorem blocked_setProc_in
    (hb : b.state = .waiting) : (s.setProc p b).blocked i = insert p (s.blocked i) := receivers_setProc_in hi hb

theorem woken_setProc_in
    (hb : b.state = .ready) : (s.setProc p b).woken i = insert p (s.woken i) := receivers_setProc_in hi hb

theorem blocked_setProc_other (hij : j ≠ i) :
    (s.setProc p b).blocked j = s.blocked j \ {p} := receivers_setProc_out (inside_ne hi hij)

theorem woken_setProc_other (hij : j ≠ i) :
    (s.setProc p b).woken j = s.woken j \ {p} := receivers_setProc_out (inside_ne hi hij)

end

end Processes

/-- The ring of a channel holds what was accepted and not yet delivered; its waiter array lists
those asleep; and no message lies unclaimed while one sleeps. -/
structure Kept (acc del : List Message) (c : IpcChannel) (blocked woken : Set Pid) : Prop where
  head : c.head < configIpcChannelQueueLen
  count : c.count ≤ configIpcChannelQueueLen
  tail : c.tail = (c.head + c.count) % configIpcChannelQueueLen
  books : acc = del ++ (ring c.queue configIpcChannelQueueLen c.head c.count).map Slot.message
  nodup : c.waiters.Nodup
  waiters : ∀ p, p ∈ c.waiters ↔ p ∈ blocked
  claimed : c.waiters ≠ [] → (c.count : ℕ∞) ≤ woken.encard

namespace Kept

variable {acc del : List Message} {c : IpcChannel} {B W : Set Pid} {p : Pid}

section

variable (h : Kept acc del c B W)

include h

theorem books_push (hc : c.count < configIpcChannelQueueLen) (slot : Slot) :
    acc ++ [slot.message] = del ++ (ring (c.push slot).queue configIpcChannelQueueLen (c.push slot).head
      (c.push slot).count).map Slot.message := by
  have hring : ring (c.push slot).queue configIpcChannelQueueLen (c.push slot).head (c.push slot).count =
      ring c.queue configIpcChannelQueueLen c.head c.count ++ [slot] := by
    simp only [IpcChannel.push, h.tail]
    exact ring_push c.queue hc slot
  rw [hring, map_append, ← append_assoc, ← h.books]
  rfl

theorem tail_push (slot : Slot) :
    (c.push slot).tail = ((c.push slot).head + (c.push slot).count) % configIpcChannelQueueLen := by
  simp only [IpcChannel.push, h.tail, Nat.mod_add_mod, Nat.add_assoc]

theorem stored (hc : c.count < configIpcChannelQueueLen) (hw : c.waiters = [])
    (slot : Slot) : Kept (acc ++ [slot.message]) del (c.push slot) B W where
  head := h.head
  count := hc
  tail := h.tail_push slot
  books := h.books_push hc slot
  nodup := h.nodup
  waiters := h.waiters
  claimed := fun hne => absurd hw hne

theorem handed (hc : c.count < configIpcChannelQueueLen) {rest : List Pid}
    (hw : c.waiters = p :: rest) (hp : p ∉ W) (slot : Slot) :
    Kept (acc ++ [slot.message]) del { c.push slot with waiters := rest } (B \ {p}) (insert p W) where
  head := h.head
  count := hc
  tail := h.tail_push slot
  books := h.books_push hc slot
  nodup := (nodup_cons.mp (hw ▸ h.nodup)).2
  waiters := by
    intro q
    have hq := h.waiters q
    have hout := (nodup_cons.mp (hw ▸ h.nodup)).1
    rw [hw, mem_cons] at hq
    simp only [Set.mem_sdiff, Set.mem_singleton_iff, ← hq]
    by_cases hqp : q = p
    · simp [hqp, hout]
    · simp [hqp]
  claimed := by
    intro _
    have hle := h.claimed (by simp [hw])
    rw [Set.encard_insert_of_notMem hp]
    show ((c.count + 1 : ℕ) : ℕ∞) ≤ _
    push_cast
    gcongr

theorem took (hc : 0 < c.count) (hp : p ∉ B) :
    Kept acc (del ++ [(c.queue c.head).message]) c.pop (B \ {p}) (W \ {p}) where
  head := Nat.mod_lt _ (by decide)
  count := by
    have := h.count
    simp only [IpcChannel.pop]
    omega
  tail := by
    simp only [IpcChannel.pop, h.tail, Nat.mod_add_mod]
    congr 1
    omega
  books := by
    obtain ⟨n, hn⟩ : ∃ n, c.count = n + 1 := ⟨c.count - 1, by omega⟩
    have hring := ring_pop c.queue h.head n
    simp only [IpcChannel.pop, hn, Nat.add_sub_cancel]
    rw [h.books, hn, hring]
    simp
  nodup := h.nodup
  waiters := by
    intro q
    rw [Set.sdiff_singleton_eq_self hp]
    exact h.waiters q
  claimed := by
    intro hne
    have hle := h.claimed hne
    have hcount : ((c.pop.count : ℕ) : ℕ∞) + 1 = c.count := by
      have hnat : c.pop.count + 1 = c.count := by
        simp only [IpcChannel.pop]
        omega
      exact_mod_cast hnat
    have hcard : W.encard ≤ (W \ {p}).encard + 1 := by
      have hsub : W ⊆ insert p (W \ {p}) := by
        intro q hq
        by_cases hqp : q = p <;> simp [hqp, hq]
      exact (Set.encard_le_encard hsub).trans (Set.encard_insert_le _ _)
    rw [← hcount] at hle
    exact (ENat.add_le_add_iff_right ENat.one_ne_top).mp (hle.trans hcard)

theorem gone (hc : c.count = 0) (hp : p ∉ B) (W' : Set Pid) : Kept acc del c (B \ {p}) W' where
  head := h.head
  count := h.count
  tail := h.tail
  books := h.books
  nodup := h.nodup
  waiters := by
    intro q
    rw [Set.sdiff_singleton_eq_self hp]
    exact h.waiters q
  claimed := by simp [hc]

theorem slept (hc : c.count = 0) (hp : p ∉ B) (W' : Set Pid) :
    Kept acc del { c with waiters := c.waiters ++ [p] } (insert p B) W' where
  head := h.head
  count := h.count
  tail := h.tail
  books := h.books
  nodup := by
    have hout : p ∉ c.waiters := fun hm => hp ((h.waiters p).mp hm)
    rw [nodup_append_comm]
    exact nodup_cons.mpr ⟨hout, h.nodup⟩
  waiters := by
    intro q
    rw [mem_append, mem_singleton, h.waiters q, Set.mem_insert_iff]
    exact or_comm
  claimed := by simp [hc]

end

theorem fresh (c : IpcChannel) (flags : UInt32) (id : Int) (W : Set Pid) :
    Kept [] []
      { c with
        used := true, id := id, flags := flags, head := 0, tail := 0, count := 0, waiters := []
        subscribers := [] } ∅ W where
  head := Nat.zero_lt_succ _
  count := Nat.zero_le _
  tail := rfl
  books := by simp
  nodup := nodup_nil
  waiters := by simp
  claimed := by simp

end Kept

structure Inv (tr : List Event) (s : State) : Prop extends Ids s where
  unborn : ∀ c, (∀ i, (s.channels i).used = true → (s.channels i).id ≠ c) →
    accepted c tr = [] ∧ delivered c tr = []
  inside : ∀ p proc i call, s.procs p = some proc → proc.inside = some (i, call) →
    (s.channels i).used = true ∧ (s.channels i).id = call.channelId ∧ proc.state ≠ .running
  kept : ∀ i, (s.channels i).used = true →
    Kept (accepted (s.channels i).id tr) (delivered (s.channels i).id tr) (s.channels i) (s.blocked i)
      (s.woken i)
  idle : ∀ i, (s.channels i).used = false → (s.channels i).count = 0 ∧ (s.channels i).waiters = []

theorem rouse_spec (hp : p ∈ s.blocked i) :
    ∃ a b call, s.procs p = some a ∧ a.inside = some (i, call) ∧ a.state = .waiting ∧
      b.inside = some (i, call) ∧ b.state = .ready ∧ s.rouse p = s.setProc p b := by
  obtain ⟨a, call, ha, hi, hw⟩ := hp
  refine ⟨a, { a with waitChannel := -1, state := .ready }, call, ha, hi, hw, hi, rfl, ?_⟩
  rw [State.rouse, ha]
  simp [hw]

theorem Inv.at (inv : Inv tr s) (hu : (s.channels i).used = true) (hnext : s'.nextChannelId = s.nextChannelId)
    (hother : ∀ j, j ≠ i → s'.channels j = s.channels j ∧ s'.blocked j = s.blocked j ∧ s'.woken j = s.woken j)
    (hused : (s'.channels i).used = true) (hid : (s'.channels i).id = (s.channels i).id)
    (hev : ∀ c, c ≠ (s.channels i).id → e.accepted c = [] ∧ e.delivered c = [])
    (hin : ∀ p proc j call, s'.procs p = some proc → proc.inside = some (j, call) →
      proc.state ≠ .running ∧ ((j = i ∧ (s.channels i).id = call.channelId) ∨
        ∃ a, s.procs p = some a ∧ a.inside = some (j, call)))
    (hkept : Kept (accepted (s.channels i).id (tr ++ [e])) (delivered (s.channels i).id (tr ++ [e]))
      (s'.channels i) (s'.blocked i) (s'.woken i)) : Inv (tr ++ [e]) s' := by
  have hsame : ∀ j, (s'.channels j).used = (s.channels j).used ∧ (s'.channels j).id = (s.channels j).id := by
    intro j
    by_cases hj : j = i
    · rw [hj, hused, hid, hu]
      exact ⟨rfl, rfl⟩
    · rw [(hother j hj).1]
      exact ⟨rfl, rfl⟩
  refine ⟨inv.toIds.of_same hnext (fun j => (hsame j).1) (fun j => (hsame j).2), ?_, ?_, ?_, ?_⟩
  · intro c hc
    have hnone : ∀ j, (s.channels j).used = true → (s.channels j).id ≠ c := by
      intro j hj
      rw [← (hsame j).1] at hj
      rw [← (hsame j).2]
      exact hc j hj
    have hne : c ≠ (s.channels i).id := (hnone i hu).symm
    rw [accepted_snoc, delivered_snoc, (hev c hne).1, (hev c hne).2, append_nil, append_nil]
    exact inv.unborn c hnone
  · intro p proc j call hp hi
    obtain ⟨hrun, h⟩ := hin p proc j call hp hi
    rw [(hsame j).1, (hsame j).2]
    rcases h with ⟨rfl, hc⟩ | ⟨a, ha, hai⟩
    · exact ⟨hu, hc, hrun⟩
    · have h := inv.inside p a j call ha hai
      exact ⟨h.1, h.2.1, hrun⟩
  · intro j hj
    by_cases hji : j = i
    · subst hji
      rw [hid]
      exact hkept
    · rw [(hsame j).1] at hj
      have hne : (s.channels j).id ≠ (s.channels i).id := fun he => hji (inv.distinct j i hj hu he)
      obtain ⟨hc, hb, hw⟩ := hother j hji
      rw [hc, hb, hw, accepted_snoc, delivered_snoc, (hev _ hne).1, (hev _ hne).2, append_nil,
        append_nil]
      exact inv.kept j hj
  · intro j hj
    have hji : j ≠ i := by
      rintro rfl
      rw [hused] at hj
      cases hj
    rw [(hother j hji).1] at hj ⊢
    exact inv.idle j hj

theorem Inv.stored {slot : Slot} (inv : Inv tr s)
    (hu : (s.channels i).used = true) (hc : (s.channels i).count < configIpcChannelQueueLen)
    (hw : (s.channels i).waiters = []) (hrc : 0 ≤ rc) :
    Inv (tr ++ [.sent (s.channels i).id slot.message rc]) (s.setChannel i ((s.channels i).push slot)) := by
  have hself : (s.setChannel i ((s.channels i).push slot)).channels i = (s.channels i).push slot := by
    simp [setChannel_channels]
  refine inv.at hu rfl ?_ (by rw [hself]; exact hu) (by rw [hself]; rfl) ?_ ?_ ?_
  · intro j hj
    rw [setChannel_channels, if_neg hj]
    exact ⟨rfl, rfl, rfl⟩
  · intro c hne
    simp [Event.accepted, Event.delivered, hne.symm]
  · intro p proc j call hp hi
    exact ⟨(inv.inside p proc j call hp hi).2.2, .inr ⟨proc, hp, hi⟩⟩
  · rw [hself, accepted_snoc, delivered_snoc]
    simp only [Event.accepted, Event.delivered, hrc, and_self, if_true, append_nil]
    exact (inv.kept i hu).stored hc hw slot

theorem Inv.handed {slot : Slot} {rest : List Pid} (inv : Inv tr s) (hu : (s.channels i).used = true)
    (hc : (s.channels i).count < configIpcChannelQueueLen) (hw : (s.channels i).waiters = p :: rest) (hrc : 0 ≤ rc) :
    Inv (tr ++ [.sent (s.channels i).id slot.message rc])
      ((s.setChannel i { (s.channels i).push slot with waiters := rest }).rouse p) := by
  have hk := inv.kept i hu
  have hp : p ∈ (s.setChannel i { (s.channels i).push slot with waiters := rest }).blocked i :=
    (hk.waiters p).mp (by simp [hw])
  obtain ⟨a, b, call, ha, hai, has, hbi, hbs, he⟩ := rouse_spec hp
  have hout : p ∉ s.woken i := notMem_receivers ha (fun _ _ hr => by rw [has] at hr; cases hr)
  rw [he]
  refine inv.at hu rfl ?_ ?_ ?_ ?_ ?_ ?_
  · intro j hj
    refine ⟨?_, ?_, ?_⟩
    · exact Function.update_of_ne hj _ _
    · rw [blocked_setProc_other hbi hj]
      apply Set.sdiff_singleton_eq_self
      rintro ⟨a', call', ha', hi', -⟩
      rw [ha] at ha'
      cases ha'
      rw [hai] at hi'
      exact hj (Prod.mk.inj (some.inj hi')).1.symm
    · rw [woken_setProc_other hbi hj]
      exact Set.sdiff_singleton_eq_self (notMem_receivers ha (fun _ _ hr => by rw [has] at hr; cases hr))
  · simpa [State.setProc, State.setChannel, IpcChannel.push] using hu
  · simp [State.setProc, State.setChannel, IpcChannel.push]
  · intro c hne
    simp [Event.accepted, Event.delivered, hne.symm]
  · intro q proc j call' hq hi
    rw [setProc_procs] at hq
    split_ifs at hq with hqp
    · cases hq
      rw [hbi] at hi
      refine ⟨by rw [hbs]; simp, .inr ⟨a, hqp ▸ ha, hai.trans hi⟩⟩
    · exact ⟨(inv.inside q proc j call' hq hi).2.2, .inr ⟨proc, hq, hi⟩⟩
  · have hself : ((s.setChannel i { (s.channels i).push slot with waiters := rest }).setProc p b).channels i =
        { (s.channels i).push slot with waiters := rest } := by
      simp [State.setProc, State.setChannel]
    rw [hself, accepted_snoc, delivered_snoc, woken_setProc_in hbi hbs,
      blocked_setProc_out (by rw [hbs]; simp), woken_setChannel, blocked_setChannel]
    simp only [Event.accepted, Event.delivered, hrc, and_self, if_true, append_nil]
    exact hk.handed hc hw hout slot

/-- Where a pass through the receive loop starts: `p` runs, and is in no other channel. -/
structure Entered (s : State) (p : Pid) (proc : Proc) (i : Index) (call : ReceiveCall) : Prop where
  lookup : s.procs p = some proc
  awake : proc.state ≠ .waiting
  inside : ∀ j call', proc.inside = some (j, call') → j = i
  used : (s.channels i).used = true
  id : (s.channels i).id = call.channelId

section Pass

variable {proc b : Proc}

theorem Inv.passed (inv : Inv tr s) (h : Entered s p proc i call) {c : IpcChannel} {o : Outcome}
    (hb : (b.inside = none ∧ b.state = .running) ∨ (b.inside = some (i, call) ∧ b.state = .waiting))
    (hused : c.used = true) (hid : c.id = (s.channels i).id)
    (hkept : Kept (accepted (s.channels i).id tr)
      (delivered (s.channels i).id tr ++ (Event.receive p call o).delivered (s.channels i).id) c
      (((s.setChannel i c).setProc p b).blocked i) (s.woken i \ {p})) :
    Inv (tr ++ [.receive p call o]) ((s.setChannel i c).setProc p b) := by
  have hready : b.state ≠ .ready := by
    rcases hb with ⟨-, h⟩ | ⟨-, h⟩ <;> simp [h]
  have hself : ((s.setChannel i c).setProc p b).channels i = c := by simp [State.setProc, State.setChannel]
  refine inv.at h.used rfl ?_ (by rw [hself, hused]) (by rw [hself, hid]) ?_ ?_ ?_
  · intro j hj
    refine ⟨Function.update_of_ne hj _ _, ?_, ?_⟩
    · have hdiff : ((s.setChannel i c).setProc p b).blocked j = s.blocked j \ {p} := by
        rcases hb with ⟨-, hs⟩ | ⟨hi, -⟩
        · exact blocked_setProc_out (by simp [hs])
        · exact blocked_setProc_other hi hj
      rw [hdiff]
      exact Set.sdiff_singleton_eq_self (notMem_receivers h.lookup (fun _ _ => h.awake))
    · rw [woken_setProc_out hready]
      apply Set.sdiff_singleton_eq_self
      exact notMem_receivers h.lookup (fun call' hi => absurd (h.inside j call' hi) hj)
  · intro c' hne
    refine ⟨rfl, ?_⟩
    cases o with
    | received m d =>
      rw [Event.delivered, if_neg]
      rw [← h.id]
      exact hne.symm
    | empty => rfl
    | refused => rfl
    | blocked => rfl
  · intro q proc' j call' hq hi
    rw [setProc_procs] at hq
    by_cases hqp : q = p
    · rw [if_pos hqp] at hq
      cases hq
      rcases hb with ⟨hn, -⟩ | ⟨hbi, hs⟩
      · rw [hn] at hi
        cases hi
      · rw [hbi] at hi
        cases hi
        exact ⟨by simp [hs], .inl ⟨rfl, h.id⟩⟩
    · rw [if_neg hqp] at hq
      exact ⟨(inv.inside q proc' j call' hq hi).2.2, .inr ⟨proc', hq, hi⟩⟩
  · rw [hself, accepted_snoc, delivered_snoc, woken_setProc_out hready, woken_setChannel]
    have hnone : (Event.receive p call o).accepted (s.channels i).id = [] := rfl
    rw [hnone, append_nil]
    exact hkept

theorem Inv.receivePass (inv : Inv tr s) (h : Entered s p proc i call) :
    Inv (tr ++ [.receive p call (receivePass s p proc i call).2]) (receivePass s p proc i call).1 := by
  have hk := inv.kept i h.used
  have hout : p ∉ s.blocked i := notMem_receivers h.lookup (fun _ _ => h.awake)
  simp only [Channel.receivePass]
  by_cases hc : 0 < (s.channels i).count
  · rw [if_pos hc]
    refine inv.passed h (.inl ⟨rfl, rfl⟩) h.used rfl ?_
    rw [blocked_setProc_out (by simp), blocked_setChannel]
    simp only [Event.delivered, h.id, if_true]
    rw [← h.id]
    exact hk.took hc hout
  · rw [if_neg hc]
    have h0 : (s.channels i).count = 0 := by omega
    -- a pass that only changes `p` writes the channel back as it was
    have hleave : ∀ o, (Event.receive p call o).delivered (s.channels i).id = [] →
        Inv (tr ++ [.receive p call o]) (s.setProc p { proc with state := .running, inside := none }) := by
      intro o ho
      have hset := inv.passed (b := { proc with state := .running, inside := none }) (o := o)
        (c := s.channels i) h (.inl ⟨rfl, rfl⟩) h.used rfl
      rw [setChannel_self, ho, append_nil, blocked_setProc_out (by simp)] at hset
      exact hset (hk.gone h0 hout _)
    split_ifs with hn hm hf
    · exact hleave .empty rfl
    · exact absurd ((hk.waiters p).mp hm) hout
    · exact hleave .refused rfl
    · refine inv.passed h (.inr ⟨rfl, rfl⟩) h.used rfl ?_
      rw [blocked_setProc_in rfl rfl, blocked_setChannel]
      simp only [Event.delivered, append_nil]
      exact hk.slept h0 hout _

end Pass

theorem Inv.quiet (inv : Inv tr s)
    (hev : ∀ c, e.accepted c = [] ∧ e.delivered c = []) (hnext : s'.nextChannelId = s.nextChannelId)
    (hch : ∀ i, s'.channels i = { s.channels i with subscribers := (s'.channels i).subscribers })
    (hproc : ∀ p, (s'.procs p).map (fun b => (b.inside, b.state)) = (s.procs p).map (fun a => (a.inside, a.state)) ∨
      s.procs p = none ∧ ∀ b, s'.procs p = some b → b.inside = none) : Inv (tr ++ [e]) s' := by
  have hback : ∀ p b j call, s'.procs p = some b → b.inside = some (j, call) →
      ∃ a, s.procs p = some a ∧ a.inside = some (j, call) ∧ a.state = b.state := by
    intro p b j call hb hi
    rcases hproc p with h | ⟨-, h⟩
    · rw [hb, map_some] at h
      obtain ⟨a, ha, he⟩ := map_eq_some_iff.mp h.symm
      exact ⟨a, ha, (Prod.mk.inj he).1.trans hi, (Prod.mk.inj he).2⟩
    · rw [h b hb] at hi
      cases hi
  have hforth : ∀ p a j call, s.procs p = some a → a.inside = some (j, call) →
      ∃ b, s'.procs p = some b ∧ b.inside = some (j, call) ∧ b.state = a.state := by
    intro p a j call ha hi
    rcases hproc p with h | ⟨h, -⟩
    · rw [ha, map_some] at h
      obtain ⟨b, hb, he⟩ := map_eq_some_iff.mp h
      exact ⟨b, hb, (Prod.mk.inj he).1.trans hi, (Prod.mk.inj he).2⟩
    · rw [ha] at h
      cases h
  have hsame : ∀ i st, s'.receivers i st = s.receivers i st := by
    intro i st
    ext p
    constructor
    · rintro ⟨b, call, hb, hi, hs⟩
      obtain ⟨a, ha, hai, has⟩ := hback p b i call hb hi
      exact ⟨a, call, ha, hai, has.trans hs⟩
    · rintro ⟨a, call, ha, hi, hs⟩
      obtain ⟨b, hb, hbi, hbs⟩ := hforth p a i call ha hi
      exact ⟨b, call, hb, hbi, hbs.trans hs⟩
  have hblocked : ∀ i, s'.blocked i = s.blocked i := fun i => hsame i .waiting
  have hwoken : ∀ i, s'.woken i = s.woken i := fun i => hsame i .ready
  have hused : ∀ i, (s'.channels i).used = (s.channels i).used := fun i => by rw [hch i]
  have hid : ∀ i, (s'.channels i).id = (s.channels i).id := fun i => by rw [hch i]
  have hacc : ∀ c, accepted c (tr ++ [e]) = accepted c tr ∧ delivered c (tr ++ [e]) = delivered c tr := by
    intro c
    simp [(hev c).1, (hev c).2]
  refine ⟨inv.toIds.of_same hnext hused hid, ?_, ?_, ?_, ?_⟩
  · intro c hc
    rw [(hacc c).1, (hacc c).2]
    apply inv.unborn c
    intro i hi
    rw [← hid]
    exact hc i (hused i ▸ hi)
  · intro p b i call hb hi
    obtain ⟨a, ha, hai, has⟩ := hback p b i call hb hi
    rw [hused, hid, ← has]
    exact inv.inside p a i call ha hai
  · intro i hi
    have hk := inv.kept i (hused i ▸ hi)
    rw [hid, (hacc _).1, (hacc _).2, hblocked, hwoken, hch i]
    exact ⟨hk.head, hk.count, hk.tail, hk.books, hk.nodup, hk.waiters, hk.claimed⟩
  · intro i hi
    have h := inv.idle i (hused i ▸ hi)
    rw [hch i]
    exact h

theorem Inv.unchanged (inv : Inv tr s) (hev : ∀ c, e.accepted c = [] ∧ e.delivered c = []) : Inv (tr ++ [e]) s :=
  inv.quiet hev rfl (fun _ => rfl) (fun _ => .inl rfl)

theorem quiet_history (c : Int) : Event.quiet.accepted c = [] ∧ Event.quiet.delivered c = [] := ⟨rfl, rfl⟩

section

variable (inv : Inv tr s)

include inv

theorem Inv.ipcChannelCreate (flags : UInt32) : Inv (tr ++ [.quiet]) (ipcChannelCreate s flags).1 := by
  rw [Channel.ipcChannelCreate]
  cases hfind : (List.finRange configIpcMaxChannels).find? (fun i => !(s.channels i).used) with
  | none => exact inv.unchanged quiet_history
  | some i =>
    have hunused : (s.channels i).used = false := by simpa using find?_some hfind
    -- nobody can be inside a channel that was not in use
    have hempty : s.blocked i = ∅ := by
      apply Set.eq_empty_of_forall_notMem
      rintro p ⟨a, call, ha, hi, -⟩
      have h := (inv.inside p a i call ha hi).1
      rw [hunused] at h
      cases h
    have hch : ∀ j, j ≠ i → ∀ c, (s.setChannel i c).channels j = s.channels j := by
      intro j hj c
      rw [setChannel_channels, if_neg hj]
    have hself : ∀ c, (s.setChannel i c).channels i = c := by
      intro c
      rw [setChannel_channels, if_pos rfl]
    refine ⟨inv.toIds.created rfl, ?_, ?_, ?_, ?_⟩
    · intro c hc
      have h : accepted c tr = [] ∧ delivered c tr = [] := by
        apply inv.unborn c
        intro j hj
        have hji : j ≠ i := by
          rintro rfl
          rw [hunused] at hj
          cases hj
        have hcj := hc j
        simp only [hch j hji] at hcj
        exact hcj hj
      simpa [Event.accepted, Event.delivered] using h
    · intro p proc j call hp hi
      have h := inv.inside p proc j call hp hi
      have hji : j ≠ i := by
        rintro rfl
        rw [hunused] at h
        cases h.1
      simp only [hch j hji]
      exact h
    · intro j hj
      by_cases hji : j = i
      · subst hji
        have h := inv.unborn s.nextChannelId (fun k hk => (inv.ids k hk).2.ne)
        simp only [hself]
        show Kept _ _ _ (s.blocked j) (s.woken j)
        rw [accepted_snoc, delivered_snoc, h.1, h.2, hempty]
        exact Kept.fresh (s.channels j) flags s.nextChannelId _
      · simp only [hch j hji] at hj ⊢
        show Kept _ _ _ (s.blocked j) (s.woken j)
        rw [accepted_snoc, delivered_snoc]
        simpa [Event.accepted, Event.delivered] using inv.kept j hj
    · intro j hj
      by_cases hji : j = i
      · subst hji
        simp only [hself] at hj
        cases hj
      · simp only [hch j hji] at hj ⊢
        exact inv.idle j hj

theorem Proc.Free.notMem_waiters
    (hp : s.procs p = some proc) (hf : proc.Free) (i : Index) : p ∉ (s.channels i).waiters := by
  intro hm
  cases hu : (s.channels i).used with
  | false =>
    rw [(inv.idle i hu).2] at hm
    cases hm
  | true =>
    have hb := ((inv.kept i hu).waiters p).mp hm
    exact notMem_receivers hp (by rw [hf.2]; simp) hb

theorem Inv.subscribed {b : Proc}
    (hp : s.procs p = some proc) (hb : b = { proc with channelSlots := b.channelSlots }) (subscribers : List Pid) :
    Inv (tr ++ [.quiet]) ((s.setProc p b).setChannel i { s.channels i with subscribers := subscribers }) := by
  refine inv.quiet quiet_history rfl ?_ ?_
  · intro j
    rw [setChannel_channels]
    split_ifs with hj
    · rw [hj]
    · rfl
  · intro q
    left
    show ((s.setProc p b).procs q).map _ = _
    rw [setProc_procs]
    by_cases hq : q = p
    · rw [if_pos hq, hq, hp, hb]
      rfl
    · rw [if_neg hq]

theorem Inv.enrolled (hp : s.procs p = some proc) (hf : proc.Free) (h : Enrols s p s') : Inv (tr ++ [.quiet]) s' := by
  cases h with
  | same => exact inv.unchanged quiet_history
  | @set a i ha slots subscribers ws hw =>
    -- a process that is free to join or leave waits nowhere
    have hsame : ws = (s.channels i).waiters := by
      rcases hw with hw | hw
      · exact hw
      · rw [hw, erase_of_not_mem (hf.notMem_waiters inv hp i)]
    rw [hsame]
    exact inv.subscribed ha rfl subscribers

theorem Inv.ipcChannelSend (channelId : Int) (senderPid : Pid)
    (header type : UInt32) (payload : Buffer) (size : Nat) (flags : UInt32) :
    Inv (tr ++ [.sent channelId ⟨header, type, senderPid, size, cells payload size⟩
        (ipcChannelSend s channelId senderPid header type (some payload) size flags).2])
      (ipcChannelSend s channelId senderPid header type (some payload) size flags).1 := by
  have hreject : ∀ m, Inv (tr ++ [.sent channelId m (-1)]) s := by
    intro m
    apply inv.unchanged
    intro c
    simp [Event.accepted, Event.delivered]
  generalize hr : Channel.ipcChannelSend s channelId senderPid header type (some payload) size flags = r
  have hsend := ipcChannelSend_sending s channelId senderPid header type (some payload) size flags
  rw [hr] at hsend
  cases hsend with
  | refused => exact hreject _
  | stored hf hc hw hm =>
    obtain ⟨hu, rfl⟩ := findChannel_some hf
    rw [← hm payload rfl]
    exact inv.stored hu hc hw (Int.natCast_nonneg _)
  | handed hf hc hw hm =>
    obtain ⟨hu, rfl⟩ := findChannel_some hf
    rw [← hm payload rfl]
    exact inv.handed hu hc hw (Int.natCast_nonneg _)

theorem Inv.ipcChannelReceive (hp : s.procs p = some proc) (hf : proc.Free) (call : ReceiveCall) :
    Inv (tr ++ [.receive p call (ipcChannelReceive s p proc call).2]) (ipcChannelReceive s p proc call).1 := by
  have hrefuse : Inv (tr ++ [.receive p call .refused]) s := inv.unchanged (fun c => ⟨rfl, rfl⟩)
  rw [Channel.ipcChannelReceive]
  cases hfind : findChannel s call.channelId with
  | none => exact hrefuse
  | some i =>
    obtain ⟨hu, hid⟩ := findChannel_some hfind
    simp only
    split_ifs
    · exact hrefuse
    · refine inv.receivePass ⟨hp, by rw [hf.2]; simp, ?_, hu, hid⟩
      intro j call' hi
      rw [hf.1] at hi
      cases hi

end

/-- What an action comes to, with the process that it needed. -/
inductive Effect (s : State) : Event → State → Prop
  | attached {p : Pid} : s.procs p = none → Effect s .quiet (s.setProc p ⟨.running, [], -1, none⟩)
  | created (flags : UInt32) : Effect s .quiet (ipcChannelCreate s flags).1
  | joined {p : Pid} {proc : Proc} (channelId : Int) : s.procs p = some proc → proc.Free →
      Effect s .quiet (ipcChannelJoin s p channelId).1
  | left {p : Pid} {proc : Proc} (channelId : Int) : s.procs p = some proc → proc.Free →
      Effect s .quiet (ipcChannelLeave s p channelId).1
  | sent (channelId : Int) (senderPid : Pid) (header type : UInt32) (payload : Buffer) (size : Nat)
      (flags : UInt32) :
      Effect s (.sent channelId ⟨header, type, senderPid, size, cells payload size⟩
          (ipcChannelSend s channelId senderPid header type (some payload) size flags).2)
        (ipcChannelSend s channelId senderPid header type (some payload) size flags).1
  | received {p : Pid} {proc : Proc} (call : ReceiveCall) : s.procs p = some proc → proc.Free →
      Effect s (.receive p call (ipcChannelReceive s p proc call).2) (ipcChannelReceive s p proc call).1
  | resumed {p : Pid} {proc : Proc} {i : Index} {call : ReceiveCall} : s.procs p = some proc →
      proc.inside = some (i, call) → proc.state = .ready →
      Effect s (.receive p call (receivePass s p proc i call).2) (receivePass s p proc i call).1

theorem Effect.of_step (h : Step s e s') : Effect s e s' := by
  obtain ⟨a, ha⟩ := h
  cases a with
  | attach p =>
    simp only [perform] at ha
    split_ifs at ha with hnew
    cases ha
    exact .attached (isNone_iff_eq_none.mp hnew.2)
  | create flags =>
    cases ha
    exact .created flags
  | join p channelId =>
    simp only [perform] at ha
    split at ha
    · cases ha
    · rename_i proc hp
      split_ifs at ha with hf
      cases ha
      exact .joined channelId hp hf
  | leave p channelId =>
    simp only [perform] at ha
    split at ha
    · cases ha
    · rename_i proc hp
      split_ifs at ha with hf
      cases ha
      exact .left channelId hp hf
  | send channelId senderPid header type payload size flags =>
    cases ha
    exact .sent channelId senderPid header type payload size flags
  | receive p call =>
    simp only [perform] at ha
    split at ha
    · cases ha
    · rename_i proc hp
      split_ifs at ha with hf
      cases ha
      exact .received call hp hf
  | resume p =>
    simp only [perform] at ha
    split at ha
    · cases ha
    · rename_i proc hp
      split at ha
      · rename_i i call hi
        split_ifs at ha with hr
        cases ha
        exact .resumed hp hi hr
      · cases ha

theorem Inv.step (inv : Inv tr s) (h : Step s e s') : Inv (tr ++ [e]) s' := by
  cases Effect.of_step h with
  | attached hnew =>
    refine inv.quiet quiet_history rfl (fun _ => rfl) ?_
    intro q
    rw [setProc_procs]
    split_ifs with hq
    · right
      refine ⟨hq ▸ hnew, ?_⟩
      rintro b hb
      cases hb
      rfl
    · exact .inl rfl
  | created flags => exact inv.ipcChannelCreate flags
  | joined channelId hp hf => exact inv.enrolled hp hf (ipcChannelJoin_enrols _ _ channelId)
  | left channelId hp hf => exact inv.enrolled hp hf (ipcChannelLeave_enrols _ _ channelId)
  | sent channelId senderPid header type payload size flags =>
    exact inv.ipcChannelSend channelId senderPid header type payload size flags
  | received call hp hf => exact inv.ipcChannelReceive hp hf call
  | @resumed p proc i call hp hi hr =>
    have hin := inv.inside p proc i call hp hi
    refine inv.receivePass ⟨hp, by rw [hr]; simp, ?_, hin.1, hin.2.1⟩
    intro j call' hj
    rw [hi] at hj
    exact (Prod.mk.inj (some.inj hj)).1.symm

theorem Ids.init (memory : Index → IpcChannel) : Ids (ipcSystemInit memory) where
  next := Int.one_pos
  ids := by
    intro i hi
    cases hi
  distinct := by
    intro i j hi
    cases hi

theorem Inv.init (memory : Index → IpcChannel) : Inv [] (ipcSystemInit memory) where
  toIds := .init memory
  unborn := fun _ _ => ⟨rfl, rfl⟩
  inside := by
    intro p proc i call hp
    cases hp
  kept := by
    intro i hi
    cases hi
  idle := fun _ _ => ⟨rfl, rfl⟩

theorem exec_inv {memory : Index → IpcChannel} (hx : Exec Step (ipcSystemInit memory) tr s) : Inv tr s :=
  hx.historyInvariant (Inv.init memory) (fun _ _ _ _ _ inv hstep => inv.step hstep)

/-- What a receiver is handed of a message that was `m` when it was sent. -/
structure Faithful (m : Message) (call : ReceiveCall) (d : Delivery) : Prop where
  out : call.hasOut = true → ∃ header, d.out = some (header, m.type, m.senderPid, m.size)
  copied : call.hasBuffer = true → d.copied = m.bytes.take (min m.size call.bufferLen)

theorem deliver_faithful (slot : Slot) (call : ReceiveCall) :
    Faithful slot.message call (slot.deliver call) where
  out := by
    intro ho
    simp only [Slot.deliver, ho, if_true]
    exact ⟨_, rfl⟩
  copied := by
    intro hb
    simp only [Slot.deliver, hb, if_true, Slot.message]
    rw [cells, cells, ← map_take, take_range]
    congr 2
    omega

theorem receivePass_outcome (s : State) (p : Pid) (proc : Proc) (i : Index) (call : ReceiveCall) :
    (∀ m d, (receivePass s p proc i call).2 = .received m d → Faithful m call d) ∧
      ((receivePass s p proc i call).2 = .empty → (receivePass s p proc i call).1.channels = s.channels) := by
  rw [receivePass]
  split_ifs
  · refine ⟨?_, by simp⟩
    intro m d h
    obtain ⟨rfl, rfl⟩ := Outcome.received.inj h
    exact deliver_faithful _ _
  all_goals exact ⟨by simp, by simp [State.setProc]⟩

theorem ipcChannelReceive_outcome (s : State) (p : Pid) (proc : Proc) (call : ReceiveCall) :
    (∀ m d, (ipcChannelReceive s p proc call).2 = .received m d → Faithful m call d) ∧
      ((ipcChannelReceive s p proc call).2 = .empty → (ipcChannelReceive s p proc call).1.channels = s.channels) := by
  rw [ipcChannelReceive]
  split
  · simp
  · split_ifs
    · simp
    · exact receivePass_outcome s p proc _ call

theorem ipcChannelSend_rejected (s : State) (channelId : Int) (senderPid : Pid) (header type : UInt32)
    (data : Option Buffer) (size : Nat) (flags : UInt32)
    (h : (ipcChannelSend s channelId senderPid header type data size flags).2 < 0) :
    (ipcChannelSend s channelId senderPid header type data size flags).1 = s := by
  have hsend := ipcChannelSend_sending s channelId senderPid header type data size flags
  generalize ipcChannelSend s channelId senderPid header type data size flags = r at h hsend ⊢
  cases hsend with
  | refused => rfl
  | stored _ _ _ _ => exact absurd h (by simp)
  | handed _ _ _ _ => exact absurd h (by simp)

theorem step_received {o : Outcome} (h : Step s (.receive p call o) s') :
    (∀ m d, o = .received m d → Faithful m call d) ∧ (o = .empty → s'.channels = s.channels) := by
  cases Effect.of_step h with
  | received _ _ _ => exact ipcChannelReceive_outcome _ _ _ _
  | resumed _ _ _ => exact receivePass_outcome _ _ _ _ _

theorem step_rejected {channelId : Int} {m : Message}
    (h : Step s (.sent channelId m rc) s') (hrc : rc < 0) : s' = s := by
  cases Effect.of_step h with
  | sent => exact ipcChannelSend_rejected _ _ _ _ _ _ _ _ hrc

theorem exec_faithful {s₀ : State} (hx : Exec Step s₀ tr s)
    {m : Message} {d : Delivery} (h : .receive p call (.received m d) ∈ tr) : Faithful m call d := by
  induction hx with
  | nil => cases h
  | snoc _ hstep ih =>
    rcases mem_append.mp h with h | h
    · exact ih h
    · obtain rfl := mem_singleton.mp h
      exact (step_received hstep).1 m d rfl

theorem Inv.delivered_isPrefix (inv : Inv tr s) (c : Int) : delivered c tr <+: accepted c tr := by
  by_cases hc : ∃ i, (s.channels i).used = true ∧ (s.channels i).id = c
  · obtain ⟨i, hu, rfl⟩ := hc
    rw [(inv.kept i hu).books]
    exact prefix_append _ _
  · push Not at hc
    rw [(inv.unborn c hc).2]
    exact nil_prefix

/-- Each channel delivers its accepted messages in order and once each, and no receiver sleeps
while a message has no receiver on its way to it. -/
theorem channel_delivers_in_order (memory : Index → IpcChannel) {tr : List Event} {s : State}
    (hx : Exec Step (ipcSystemInit memory) tr s) :
    (∀ c, delivered c tr <+: accepted c tr) ∧
      (∀ p call m d, .receive p call (.received m d) ∈ tr → Faithful m call d) ∧
      (∀ i, (s.channels i).count ≤ configIpcChannelQueueLen) ∧
      (∀ i, (s.channels i).waiters ≠ [] → ((s.channels i).count : ℕ∞) ≤ (s.woken i).encard) ∧
      (∀ c m rc s', Step s (.sent c m rc) s' → rc < 0 → s'.channels = s.channels) ∧
      ∀ p call s', Step s (.receive p call .empty) s' → s'.channels = s.channels := by
  have inv := exec_inv hx
  refine ⟨inv.delivered_isPrefix, fun p call m d h => exec_faithful hx h, ?_, ?_, ?_, ?_⟩
  · intro i
    cases hu : (s.channels i).used with
    | false => rw [(inv.idle i hu).1]; exact Nat.zero_le _
    | true => exact (inv.kept i hu).count
  · intro i hne
    cases hu : (s.channels i).used with
    | false => exact absurd (inv.idle i hu).2 hne
    | true => exact (inv.kept i hu).claimed hne
  · intro c m rc s' hstep hrc
    rw [step_rejected hstep hrc]
  · intro p call s' hstep
    exact (step_received hstep).2 rfl

/-- A receiver sleeps, is woken by a send, finds its message taken, and gets the next one. -/
def raceActs : List Action := List.flatten
  [[.create 0, .attach 1, .attach 2, .join 1 1, .join 2 1, .receive 2 ⟨1, true, true, 4, false⟩],
    [.send 1 1 0 5 (fun _ => 7) 2 0, .receive 1 ⟨1, true, true, 1, true⟩, .resume 2],
    [.send 1 1 0 6 (fun _ => 8) 1 0, .resume 2]]

def blankChannel : IpcChannel := ⟨false, 0, 0, fun _ => ⟨0, 0, 0, 0, 0, fun _ => 0⟩, 0, 0, 0, [], []⟩

theorem raceActs_isSome : (performAll perform (ipcSystemInit (fun _ => blankChannel)) raceActs).isSome = true := by
  decide +kernel

def raceTrace : List Event :=
  ((performAll perform (ipcSystemInit (fun _ => blankChannel)) raceActs).get raceActs_isSome).1

theorem channel_delivers_in_order_raced :
    accepted 1 raceTrace = [⟨0, 5, 1, 2, [7, 7]⟩, ⟨0, 6, 1, 1, [8]⟩] ∧
      delivered 1 raceTrace = accepted 1 raceTrace ∧ delivered 1 raceTrace <+: accepted 1 raceTrace :=
  ⟨by decide +kernel, by decide +kernel,
    (channel_delivers_in_order (fun _ => blankChannel)
      (performAll_get_exec perform raceActs (ipcSystemInit (fun _ => blankChannel)) raceActs_isSome)).1 1⟩

end ProOS.Channel
