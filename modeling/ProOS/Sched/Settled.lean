import ProOS.Sched.Queues
import ProOS.Sched.Program

namespace ProOS.Sched

open ProOS.Framework Function Option List

/-- The order of the scheduler's data. The processes in `H` are being handled, and may be
ready without being queued, or be running or a zombie. -/
structure Settled (s : State) (Q : Nat → List Ptr) (Z : List Ptr) (H : Set Ptr) : Prop where
  run : RunRep s Q
  sleep : SleepRep s Z
  queued : ∀ x, s.onRunQueue x = true → s.state x = .ready ∧ s.idleProcess ≠ some x
  sleeping : ∀ x ∈ Z, s.state x = .waiting
  idle : ∃ i, s.idleProcess = some i ∧ (s.state i = .ready ∨ s.state i = .running)
  others : ∀ x, x ∉ H → s.idleProcess ≠ some x →
    (s.state x = .ready ∧ s.onRunQueue x = true) ∨ s.state x = .waiting ∨ s.state x = .unused

variable {s s' : State} {Q : Nat → List Ptr} {Z : List Ptr} {H H' : Set Ptr} {x y : Ptr}

/-- The fields that `Settled` speaks of are the same. -/
structure SameQueues (s s' : State) : Prop where
  state : s'.state = s.state
  onRunQueue : s'.onRunQueue = s.onRunQueue
  nextRun : s'.nextRun = s.nextRun
  nextSleep : s'.nextSleep = s.nextSleep
  readyQueues : s'.readyQueues = s.readyQueues
  readyBitmap : s'.readyBitmap = s.readyBitmap
  idleProcess : s'.idleProcess = s.idleProcess
  sleepList : s'.sleepList = s.sleepList

theorem SameQueues.settled (hs : SameQueues s s') (h : Settled s Q Z H) : Settled s' Q Z H := by
  refine ⟨⟨?_, ?_, h.run.disjoint, ?_, ?_⟩, ?_, ?_, ?_, ?_, ?_⟩
  · rw [hs.nextRun, hs.readyQueues]
    exact h.run.linked
  · rw [hs.readyQueues]
    exact h.run.tail
  · rw [hs.onRunQueue]
    exact h.run.flag
  · rw [hs.readyBitmap]
    exact h.run.bitmap
  · rw [SleepRep, hs.nextSleep, hs.sleepList]
    exact h.sleep
  · rw [hs.onRunQueue, hs.state, hs.idleProcess]
    exact h.queued
  · rw [hs.state]
    exact h.sleeping
  · rw [hs.state, hs.idleProcess]
    exact h.idle
  · rw [hs.onRunQueue, hs.state, hs.idleProcess]
    exact h.others

section

variable (h : Settled s Q Z H)

include h

theorem Settled.mono (hH : H ⊆ H') : Settled s Q Z H' :=
  { h with others := fun x hx => h.others x (fun hm => hx (hH hm)) }

theorem Settled.release
    (hx : (s.state x = .ready ∧ s.onRunQueue x = true) ∨ s.state x = .waiting ∨ s.state x = .unused ∨
      s.idleProcess = some x) : Settled s Q Z (H \ {x}) := by
  refine { h with others := fun y hy hidle => ?_ }
  by_cases hyx : y = x
  · subst hyx
    rcases hx with hr | hw | hu | hi
    · exact .inl hr
    · exact .inr (.inl hw)
    · exact .inr (.inr hu)
    · exact absurd hi hidle
  · exact h.others y (fun hm => hy ⟨hm, hyx⟩) hidle

theorem Settled.not_queued (hx : s.state x ≠ .ready) : s.onRunQueue x = false := by
  rw [← Bool.not_eq_true]
  exact fun hq => hx (h.queued x hq).1

theorem Settled.not_sleeping (hx : s.state x ≠ .waiting) : x ∉ Z :=
  fun hz => hx (h.sleeping x hz)

theorem Settled.not_idle (hr : s.state x ≠ .ready) (hr' : s.state x ≠ .running) : s.idleProcess ≠ some x := by
  intro hi
  obtain ⟨i, hidle, hstate⟩ := h.idle
  obtain rfl : i = x := some.inj (hidle.symm.trans hi)
  exact hstate.elim hr hr'

theorem Settled.off_queue {v : ProcState} (hx : s.state x = v)
    (hr : v ≠ .ready) (hr' : v ≠ .running) : s.onRunQueue x = false ∧ s.idleProcess ≠ some x := by
  subst hx
  exact ⟨h.not_queued hr, h.not_idle hr hr'⟩

end

structure OnlyAt (x : Ptr) (s s' : State) : Prop where
  state : ∀ y, y ≠ x → s'.state y = s.state y
  onRunQueue : ∀ y, y ≠ x → s'.onRunQueue y = s.onRunQueue y
  nextRun : ∀ y, y ≠ x → s'.nextRun y = s.nextRun y
  nextSleep : ∀ y, y ≠ x → s'.nextSleep y = s.nextSleep y
  readyQueues : s'.readyQueues = s.readyQueues
  readyBitmap : s'.readyBitmap = s.readyBitmap
  idleProcess : s'.idleProcess = s.idleProcess
  sleepList : s'.sleepList = s.sleepList

theorem RunRep.only (h : RunRep s Q) (ho : OnlyAt x s s') (hq : s.onRunQueue x = false)
    (hq' : s'.onRunQueue x = false) : RunRep s' Q := by
  refine ⟨?_, ?_, h.disjoint, ?_, ?_⟩
  · intro p hp
    rw [ho.readyQueues]
    apply (h.linked p hp).congr
    intro y hy
    exact ho.nextRun y (fun he => h.not_mem hq hp (he ▸ hy))
  · rw [ho.readyQueues]
    exact h.tail
  · intro y
    by_cases hyx : y = x
    · subst hyx
      rw [hq', ← hq]
      exact h.flag y
    · rw [ho.onRunQueue y hyx]
      exact h.flag y
  · rw [ho.readyBitmap]
    exact h.bitmap

theorem Settled.only (h : Settled s Q Z H) (ho : OnlyAt x s s') (hq : s.onRunQueue x = false)
    (hq' : s'.onRunQueue x = false) (hz : x ∉ Z)
    (hi : s.idleProcess = some x → s'.state x = .ready ∨ s'.state x = .running)
    (hH : s.idleProcess ≠ some x → x ∉ H' → s'.state x = .waiting ∨ s'.state x = .unused)
    (hsub : ∀ y, y ≠ x → y ∈ H → y ∈ H') : Settled s' Q Z H' := by
  refine ⟨h.run.only ho hq hq', ?_, ?_, ?_, ?_, ?_⟩
  · show Linked s'.nextSleep s'.sleepList Z
    rw [ho.sleepList]
    apply Linked.congr h.sleep
    intro y hy
    exact ho.nextSleep y (fun he => hz (he ▸ hy))
  · intro y hy
    have hyx : y ≠ x := fun he => Bool.false_ne_true (hq'.symm.trans (he ▸ hy))
    rw [ho.onRunQueue y hyx] at hy
    rw [ho.state y hyx, ho.idleProcess]
    exact h.queued y hy
  · intro y hy
    rw [ho.state y (fun he => hz (he ▸ hy))]
    exact h.sleeping y hy
  · obtain ⟨i, hidle, hstate⟩ := h.idle
    refine ⟨i, ho.idleProcess.trans hidle, ?_⟩
    by_cases hix : i = x
    · subst hix
      exact hi hidle
    · rw [ho.state i hix]
      exact hstate
  · intro y hy hidle
    rw [ho.idleProcess] at hidle
    by_cases hyx : y = x
    · subst hyx
      exact .inr (hH hidle hy)
    · rw [ho.state y hyx, ho.onRunQueue y hyx]
      exact h.others y (fun hm => hy (hsub y hyx hm)) hidle

theorem Settled.setState (h : Settled s Q Z H) (hH : x ∈ H) (hq : s.onRunQueue x = false)
    (hz : x ∉ Z) (hi : s.idleProcess ≠ some x) (v : ProcState) :
    Settled { s with state := update s.state x v } Q Z H := by
  have ho : OnlyAt x s { s with state := update s.state x v } :=
    ⟨fun y hy => update_of_ne hy _ _, fun _ _ => rfl, fun _ _ => rfl, fun _ _ => rfl,
      rfl, rfl, rfl, rfl⟩
  exact h.only ho hq hq hz (fun he => absurd he hi) (fun _ hn => absurd hH hn) (fun _ _ hy => hy)

theorem schedulerEnqueueReady_onRunQueue (hi : s.idleProcess ≠ some x) :
    (schedulerEnqueueReady s x).onRunQueue = update s.onRunQueue x true := by
  unfold schedulerEnqueueReady
  rw [if_neg hi]
  split_ifs with hq
  · rw [← hq, update_eq_self]
  · rfl

theorem Settled.enqueue (h : Settled s Q Z H) (hx : s.state x = .ready) (hi : s.idleProcess ≠ some x) :
    ∃ Q', Settled (schedulerEnqueueReady s x) Q' Z (H \ {x}) := by
  by_cases hq : s.onRunQueue x = true
  · have hsame : schedulerEnqueueReady s x = s := by
      unfold schedulerEnqueueReady
      rw [if_neg hi, if_pos hq]
    rw [hsame]
    exact ⟨Q, h.release (.inl ⟨hx, hq⟩)⟩
  · have hrun := h.run.enqueue (x := x) hi (by simpa using hq)
    have honq := schedulerEnqueueReady_onRunQueue hi
    obtain ⟨n, r, b, f, he⟩ := schedulerEnqueueReady_only s x
    rw [he] at hrun honq ⊢
    have hf : f = update s.onRunQueue x true := honq
    refine ⟨_, hrun, h.sleep, ?_, h.sleeping, h.idle, ?_⟩
    · intro y hy
      by_cases hyx : y = x
      · subst hyx
        exact ⟨hx, hi⟩
      · have hy' : s.onRunQueue y = true := by
          have hfy : f y = true := hy
          rwa [hf, update_of_ne hyx] at hfy
        exact h.queued y hy'
    · intro y hy hidle
      by_cases hyx : y = x
      · subst hyx
        refine Or.inl ⟨hx, ?_⟩
        show f y = true
        rw [hf, update_self]
      · have hstay := h.others y (fun hm => hy ⟨hm, hyx⟩) hidle
        have hfy : f y = s.onRunQueue y := by rw [hf, update_of_ne hyx]
        show (s.state y = .ready ∧ f y = true) ∨ _
        rw [hfy]
        exact hstay

/-- What a wake-up changes: processes that were waiting may have become ready and queued. -/
structure Woken (s : State) (Z : List Ptr) (s' : State) (Z' : List Ptr) : Prop where
  current : s'.currentProcess = s.currentProcess
  idle : s'.idleProcess = s.idleProcess
  active : s'.schedulerActive = s.schedulerActive
  ticks : s'.ticks = s.ticks
  slice : s'.timeSliceRemaining = s.timeSliceRemaining
  each : ∀ y, (s'.state y = s.state y ∧ s'.onRunQueue y = s.onRunQueue y ∧ (y ∈ Z' ↔ y ∈ Z)) ∨
    (s.state y = .waiting ∧ s'.state y = .ready ∧ s'.onRunQueue y = true)

theorem Woken.refl (s : State) (Z : List Ptr) : Woken s Z s Z :=
  ⟨rfl, rfl, rfl, rfl, rfl, fun _ => .inl ⟨rfl, rfl, Iff.rfl⟩⟩

theorem Woken.trans {s'' : State} {Z' Z'' : List Ptr} (h₁ : Woken s Z s' Z') (h₂ : Woken s' Z' s'' Z'') :
    Woken s Z s'' Z'' := by
  refine ⟨h₂.current.trans h₁.current, h₂.idle.trans h₁.idle, h₂.active.trans h₁.active,
    h₂.ticks.trans h₁.ticks, h₂.slice.trans h₁.slice, fun y => ?_⟩
  rcases h₁.each y with ⟨hs, hq, hz⟩ | ⟨hw, hr, hq⟩
  · rcases h₂.each y with ⟨hs', hq', hz'⟩ | ⟨hw', hr', hq'⟩
    · exact .inl ⟨hs'.trans hs, hq'.trans hq, hz'.trans hz⟩
    · exact .inr ⟨hs.symm.trans hw', hr', hq'⟩
  · rcases h₂.each y with ⟨hs', hq', -⟩ | ⟨hw', -, -⟩
    · exact .inr ⟨hw, hs'.trans hr, hq'.trans hq⟩
    · rw [hr] at hw'
      cases hw'

theorem Woken.keeps {Z' : List Ptr} (h : Woken s Z s' Z') (hx : s.state x ≠ .waiting) :
    s'.state x = s.state x ∧ s'.onRunQueue x = s.onRunQueue x ∧ (x ∈ Z' ↔ x ∈ Z) := by
  rcases h.each x with hkeep | ⟨hw, -⟩
  · exact hkeep
  · exact absurd hw hx

theorem makeReady_only (s : State) (x : Ptr) :
    QueueOnly { schedulerBoostPriority s x with state := update s.state x .ready } (makeReady s x) :=
  schedulerEnqueueReady_only _ x

theorem makeReady_onRunQueue (hi : s.idleProcess ≠ some x) : (makeReady s x).onRunQueue = update s.onRunQueue x true :=
  schedulerEnqueueReady_onRunQueue
    (s := { schedulerBoostPriority s x with state := update s.state x .ready }) hi

theorem Settled.makeReady_spec (h : Settled s Q Z H) (hx : s.state x = .waiting) (hz : x ∉ Z) :
    ∃ Q', Settled (makeReady s x) Q' Z H := by
  obtain ⟨hq, hi⟩ := h.off_queue hx (by decide) (by decide)
  have hquiet : SameQueues s (schedulerBoostPriority s x) := ⟨rfl, rfl, rfl, rfl, rfl, rfl, rfl, rfl⟩
  have h₁ := (hquiet.settled h).mono (Set.subset_insert x H)
  have h₂ := h₁.setState (Set.mem_insert x H) hq hz hi .ready
  obtain ⟨Q', h₃⟩ := h₂.enqueue (update_self x _ _) hi
  refine ⟨Q', h₃.mono ?_⟩
  rintro y ⟨hy, hyx⟩
  exact Set.mem_of_mem_insert_of_ne hy hyx

theorem Settled.wakeUp (h : Settled s Q Z H) (hx : s.state x = .waiting) {n : Ptr → Option Ptr}
    {l : Option Ptr} {w : Ptr → Nat} (hl : Linked n l (Z.erase x)) :
    ∃ s' Q', makeReady { s with nextSleep := n, sleepList := l, wakeDeadline := w } x = s' ∧
      Settled s' Q' (Z.erase x) H ∧ Woken s Z s' (Z.erase x) ∧
      s'.state = update s.state x .ready ∧ s'.wakeDeadline = w := by
  generalize hs₁ : ({ s with nextSleep := n, sleepList := l, wakeDeadline := w } : State) = s₁
  have hnot : x ∉ Z.erase x := (Linked.nodup h.sleep).not_mem_erase
  have h₁ : Settled s₁ Q (Z.erase x) H := by
    subst hs₁
    exact ⟨⟨h.run.linked, h.run.tail, h.run.disjoint, h.run.flag, h.run.bitmap⟩, hl, h.queued,
      fun y hy => h.sleeping y (mem_of_mem_erase hy), h.idle, h.others⟩
  obtain ⟨Q', h₂⟩ := h₁.makeReady_spec (by subst hs₁; exact hx) hnot
  refine ⟨_, Q', rfl, h₂, ?_⟩
  have hi := (h.off_queue hx (by decide) (by decide)).2
  have honq := makeReady_onRunQueue (s := s₁) (x := x) (by subst hs₁; exact hi)
  obtain ⟨n', r, b, f, he⟩ := makeReady_only s₁ x
  rw [he] at honq ⊢
  subst hs₁
  have hf : f = update s.onRunQueue x true := honq
  refine ⟨⟨rfl, rfl, rfl, rfl, rfl, fun y => ?_⟩, rfl, rfl⟩
  show (update s.state x .ready y = s.state y ∧ f y = s.onRunQueue y ∧ _) ∨
    (_ ∧ update s.state x .ready y = .ready ∧ f y = true)
  rw [hf]
  by_cases hyx : y = x
  · subst hyx
    exact .inr ⟨hx, update_self _ _ _, update_self _ _ _⟩
  · rw [update_of_ne hyx, update_of_ne hyx]
    exact .inl ⟨rfl, rfl, mem_erase_of_ne hyx⟩

theorem Settled.processWake_spec (h : Settled s Q Z H) (x : Ptr) :
    ∃ s' Q' Z', processWake s x = some s' ∧ Settled s' Q' Z' H ∧ Woken s Z s' Z' := by
  by_cases hx : s.state x = .waiting
  · obtain ⟨s₁, hr, ⟨n, l, rfl⟩, hrep⟩ := schedulerRemoveFromSleep_spec (x := x) h.sleep
    obtain ⟨s', Q', hs', h', hw, -⟩ := h.wakeUp hx (w := s.wakeDeadline) hrep
    refine ⟨s', Q', Z.erase x, ?_, h', hw⟩
    rw [processWake, if_neg (not_not.mpr hx), hr, map_some, ← hs']
  · exact ⟨s, Q, Z, by rw [processWake, if_pos hx], h, Woken.refl s Z⟩

theorem Settled.processWakeAll_spec (h : Settled s Q Z H) (ys : List Ptr) :
    ∃ s' Q' Z', processWakeAll s ys = some s' ∧ Settled s' Q' Z' H ∧ Woken s Z s' Z' := by
  induction ys generalizing s Q Z with
  | nil => exact ⟨s, Q, Z, rfl, h, Woken.refl s Z⟩
  | cons y ys ih =>
    obtain ⟨s₁, Q₁, Z₁, hr₁, h₁, hw₁⟩ := h.processWake_spec y
    obtain ⟨s₂, Q₂, Z₂, hr₂, h₂, hw₂⟩ := ih h₁
    exact ⟨s₂, Q₂, Z₂, by simp only [processWakeAll, hr₁, hr₂], h₂, hw₁.trans hw₂⟩

/-- The wake-up of the sleepers whose deadline has passed. -/
structure WokenDue (now : Nat) (s : State) (Z : List Ptr) (s' : State) (Z' : List Ptr) : Prop extends
    Woken s Z s' Z' where
  due : ∀ y, s'.state y ≠ s.state y → y ∈ Z ∧ s.wakeDeadline y ≤ now
  asleep : ∀ y ∈ Z', y ∈ Z ∧ s'.wakeDeadline y = s.wakeDeadline y

theorem WokenDue.refl (now : Nat) (s : State) (Z : List Ptr) : WokenDue now s Z s Z :=
  ⟨Woken.refl s Z, fun _ hy => absurd rfl hy, fun _ hy => ⟨hy, rfl⟩⟩

theorem WokenDue.trans {now : Nat} {s'' : State} {Z' Z'' : List Ptr} (h₁ : WokenDue now s Z s' Z')
    (h₂ : WokenDue now s' Z' s'' Z'') : WokenDue now s Z s'' Z'' := by
  refine ⟨h₁.toWoken.trans h₂.toWoken, fun y hy => ?_, fun y hy => ?_⟩
  · by_cases hsame : s'.state y = s.state y
    · obtain ⟨hz, hle⟩ := h₂.due y (fun he => hy (he.trans hsame))
      obtain ⟨hz', hd⟩ := h₁.asleep y hz
      exact ⟨hz', hd ▸ hle⟩
    · exact h₁.due y hsame
  · obtain ⟨hz, hd⟩ := h₂.asleep y hy
    obtain ⟨hz', hd'⟩ := h₁.asleep y hz
    exact ⟨hz', hd.trans hd'⟩

theorem Settled.wakeFirst_spec {z : Ptr} {zs : List Ptr} {now : Nat} (h : Settled s Q (z :: zs) H)
    (hdue : s.wakeDeadline z ≤ now) :
    (∃ Q', Settled (wakeFirst s z) Q' zs H) ∧ WokenDue now s (z :: zs) (wakeFirst s z) zs := by
  have hl := Linked.bypass (show Linked s.nextSleep s.sleepList ([] ++ z :: zs) from h.sleep)
  have hz : s.state z = .waiting := h.sleeping z (by simp)
  have hrest : (z :: zs).erase z = zs := erase_cons_head z zs
  have hzs : z ∉ zs := (nodup_cons.mp (Linked.nodup h.sleep)).1
  obtain ⟨s₁, Q₁, hs₁, h₁, hw₁, hstate, hdead⟩ := h.wakeUp hz (w := update s.wakeDeadline z 0)
    (by rw [hrest]; exact hl)
  rw [hrest] at h₁ hw₁
  have hfirst : wakeFirst s z = s₁ := hs₁
  rw [hfirst]
  refine ⟨⟨Q₁, h₁⟩, hw₁, fun y hy => ?_, fun y hy => ?_⟩
  · have hyz : y = z := by
      by_contra hne
      exact hy (by rw [hstate, update_of_ne hne])
    subst hyz
    exact ⟨by simp, hdue⟩
  · have hyz : y ≠ z := fun he => hzs (he ▸ hy)
    refine ⟨mem_cons_of_mem z hy, ?_⟩
    rw [hdead, update_of_ne hyz]

theorem Settled.wakeSleepersLoop_spec (h : Settled s Q Z H) (now : Nat) {fuel : Nat} (hf : Z.length ≤ fuel) :
    ∃ s' Q' Z', wakeSleepersLoop now fuel s = some s' ∧ Settled s' Q' Z' H ∧ WokenDue now s Z s' Z' := by
  induction Z generalizing s Q fuel with
  | nil =>
    have hnone : s.sleepList = none := h.sleep
    refine ⟨s, Q, [], ?_, h, WokenDue.refl now s []⟩
    rw [wakeSleepersLoop, hnone]
  | cons z zs ih =>
    have hhead : s.sleepList = some z := h.sleep.1
    obtain ⟨fuel, rfl⟩ : ∃ m, fuel = m + 1 := ⟨fuel - 1, by simp at hf; omega⟩
    rw [wakeSleepersLoop, hhead]
    by_cases hdue : s.wakeDeadline z ≤ now
    · obtain ⟨⟨Q₁, h₁⟩, hw₁⟩ := h.wakeFirst_spec hdue
      obtain ⟨s₂, Q₂, Z₂, hr₂, h₂, hw₂⟩ := ih h₁ (Nat.le_of_succ_le_succ hf)
      exact ⟨s₂, Q₂, Z₂, by simp only [if_pos hdue, hr₂], h₂, hw₁.trans hw₂⟩
    · exact ⟨s, Q, z :: zs, by simp only [if_neg hdue], h, WokenDue.refl now s _⟩

theorem Settled.wakeSleepers_spec (h : Settled s Q Z H) (now : Nat) :
    ∃ s' Q' Z', wakeSleepers s now = some s' ∧ Settled s' Q' Z' H ∧ WokenDue now s Z s' Z' := by
  have hlen := length_le_maxProcs h.sleep
  exact h.wakeSleepersLoop_spec now (by simp only [listFuel]; omega)

/-- `r` has been taken from the queues, or they were all empty. -/
structure Taken (s s' : State) (r : Option Ptr) : Prop where
  only : QueueOnly s s'
  flag : ∀ y, s'.onRunQueue y = true ↔ s.onRunQueue y = true ∧ r ≠ some y
  queued : ∀ x, r = some x → s.onRunQueue x = true
  empty : r = none → ∀ y, s.onRunQueue y = false

theorem Settled.select (h : Settled s Q Z H) :
    ∃ s' r Q', schedulerSelectNext s = some (s', r) ∧ Settled s' Q' Z (H ∪ {x | r = some x}) ∧ Taken s s' r := by
  obtain ⟨r, hr, hsel, hempty⟩ := schedulerSelectNext_spec h.run
  cases hsel with
  | @none s' honly hrep =>
    have hflag : ∀ y, s'.onRunQueue y = true ↔ s.onRunQueue y = true :=
      fun y => (hrep.flag y).trans (h.run.flag y).symm
    refine ⟨s', none, Q, hr, ?_, honly, ?_, ?_, ?_⟩
    · obtain ⟨n, q, b, f, rfl⟩ := honly
      have hf : f = s.onRunQueue := funext fun y => Bool.eq_iff_iff.mpr (hflag y)
      subst hf
      have h' : Settled _ Q Z H := ⟨hrep, h.sleep, h.queued, h.sleeping, h.idle, h.others⟩
      exact h'.mono Set.subset_union_left
    · intro y
      rw [hflag]
      simp
    · intro x hx
      cases hx
    · intro _ y
      rw [← Bool.not_eq_true, h.run.flag]
      rintro ⟨p, hp, hy⟩
      rw [hempty rfl p hp] at hy
      cases hy
  | @some s' p x hp hx honly hrep =>
    have hflag : ∀ y, s'.onRunQueue y = true ↔ s.onRunQueue y = true ∧ y ≠ x := by
      intro y
      rw [hrep.flag, h.run.flag]
      constructor
      · rintro ⟨q, hq, hy⟩
        rw [mem_dropped (fun q hq => h.run.nodup hq) h.run.disjoint hp hx hq] at hy
        exact ⟨⟨q, hq, hy.1⟩, hy.2⟩
      · rintro ⟨⟨q, hq, hy⟩, hyx⟩
        refine ⟨q, hq, ?_⟩
        rw [mem_dropped (fun q hq => h.run.nodup hq) h.run.disjoint hp hx hq]
        exact ⟨hy, hyx⟩
    have honq : s.onRunQueue x = true := (h.run.flag x).mpr ⟨p, hp, hx⟩
    refine ⟨s', some x, dropped Q p x, hr, ?_, honly, ?_, ?_, ?_⟩
    · obtain ⟨n, q, b, f, rfl⟩ := honly
      refine ⟨hrep, h.sleep, ?_, h.sleeping, h.idle, ?_⟩
      · intro y hy
        exact h.queued y ((hflag y).mp hy).1
      · intro y hy hidle
        have hyx : y ≠ x := fun he => hy (.inr (by rw [he]; rfl))
        rcases h.others y (fun hm => hy (.inl hm)) hidle with ⟨hst, hq⟩ | hrest
        · exact .inl ⟨hst, (hflag y).mpr ⟨hq, hyx⟩⟩
        · exact .inr hrest
    · intro y
      rw [hflag]
      exact and_congr_right' ⟨fun hne he => hne (some.inj he).symm, fun hne he => hne (he ▸ rfl)⟩
    · intro y hy
      obtain rfl : x = y := some.inj hy
      exact honq
    · intro hn
      cases hn

theorem Settled.markRunning (h : Settled s Q Z H) (hH : s.idleProcess ≠ some x → x ∈ H)
    (hq : s.onRunQueue x = false) (hz : x ∉ Z) : Settled { s with state := update s.state x .running } Q Z H := by
  have ho : OnlyAt x s { s with state := update s.state x .running } :=
    ⟨fun y hy => update_of_ne hy _ _, fun _ _ => rfl, fun _ _ => rfl, fun _ _ => rfl,
      rfl, rfl, rfl, rfl⟩
  exact h.only ho hq hq hz (fun _ => .inr (update_self x _ _))
    (fun hi hn => absurd (hH hi) hn) (fun _ _ hy => hy)

theorem Settled.idle_loose (h : Settled s Q Z H) (hi : s.idleProcess = some x) : s.onRunQueue x = false ∧ x ∉ Z := by
  constructor
  · rw [← Bool.not_eq_true]
    exact fun hq => (h.queued x hq).2 hi
  · exact fun hz => (h.off_queue (h.sleeping x hz) (by decide) (by decide)).2 hi

/-- The fields that no bookkeeping of another process touches. -/
structure SameControl (s s' : State) : Prop where
  current : s'.currentProcess = s.currentProcess
  idle : s'.idleProcess = s.idleProcess
  active : s'.schedulerActive = s.schedulerActive
  ticks : s'.ticks = s.ticks

theorem schedulerAccountRuntime_same (s : State) (x : Ptr) :
    SameQueues s (schedulerAccountRuntime s x) ∧ SameControl s (schedulerAccountRuntime s x) := by
  unfold schedulerAccountRuntime
  dsimp only
  split_ifs <;> exact ⟨⟨rfl, rfl, rfl, rfl, rfl, rfl, rfl, rfl⟩, ⟨rfl, rfl, rfl, rfl⟩⟩

theorem schedulerAccountRuntime_wakeDeadline (s : State) (x : Ptr) :
    (schedulerAccountRuntime s x).wakeDeadline = s.wakeDeadline := by
  unfold schedulerAccountRuntime
  dsimp only
  split_ifs <;> rfl

theorem Settled.reclaimZombie_spec (h : Settled s Q Z H) (x : Ptr) :
    ∃ s', reclaimZombie s x = some s' ∧ SameControl s s' ∧ OnlyAt x s s' ∧
      ((s.state x ≠ .zombie ∧ s' = s) ∨ (s.state x = .zombie ∧ s'.state x = .unused ∧ Settled s' Q Z (H \ {x}))) := by
  by_cases hx : s.state x = .zombie
  · obtain ⟨hq, hi⟩ := h.off_queue hx (by decide) (by decide)
    have hz : x ∉ Z := h.not_sleeping (by rw [hx]; decide)
    have hr := schedulerRemoveFromSleep_absent h.sleep hz
    have ho : OnlyAt x s (s.reclaimSlot x) :=
      ⟨fun y hy => update_of_ne hy _ _, fun y hy => update_of_ne hy _ _,
        fun y hy => update_of_ne hy _ _, fun _ _ => rfl, rfl, rfl, rfl, rfl⟩
    refine ⟨s.reclaimSlot x, ?_, ⟨rfl, rfl, rfl, rfl⟩, ho,
      Or.inr ⟨hx, update_self x _ _, ?_⟩⟩
    · rw [reclaimZombie, if_neg (not_not.mpr hx), hr, map_some]
    · apply h.only ho hq (update_self x _ _) hz
      · exact fun he => absurd he hi
      · exact fun _ _ => .inr (update_self x _ _)
      · exact fun y hyx hy => ⟨hy, hyx⟩
  · refine ⟨s, by rw [reclaimZombie, if_pos hx], ⟨rfl, rfl, rfl, rfl⟩, ?_, .inl ⟨hx, rfl⟩⟩
    exact ⟨fun _ _ => rfl, fun _ _ => rfl, fun _ _ => rfl, fun _ _ => rfl, rfl, rfl, rfl, rfl⟩

theorem Settled.requeue_spec (h : Settled s Q Z H)
    (hx : s.state x = .ready ∨ s.state x = .waiting ∨ s.state x = .unused ∨ s.idleProcess = some x) :
    ∃ Q', Settled (requeue s x) Q' Z (H \ {x}) := by
  unfold requeue
  split_ifs with hc
  · exact h.enqueue hc.1 hc.2.1
  · refine ⟨Q, h.release ?_⟩
    by_cases hi : s.idleProcess = some x
    · exact .inr (.inr (.inr hi))
    · rcases hx with hr | hrest
      · have hq : s.onRunQueue x = true := by
          by_contra hq
          exact hc ⟨hr, hi, by simpa using hq⟩
        exact .inl ⟨hr, hq⟩
      · exact .inr hrest

theorem Settled.switchedBack_spec (h : Settled s Q Z {x}) (hc : s.currentProcess = some x)
    (hx : s.state x = .ready ∨ s.state x = .waiting ∨ s.state x = .zombie ∨ s.idleProcess = some x) :
    ∃ s' Q', switchedBack s = some s' ∧ Settled s' Q' Z ∅ ∧ s'.currentProcess = none := by
  obtain ⟨hquiet, hcontrol⟩ := schedulerAccountRuntime_same s x
  have h₁ := hquiet.settled h
  obtain ⟨s₂, hr₂, hcontrol₂, -, hcases⟩ := h₁.reclaimZombie_spec x
  have hback : ∀ Q', Settled (requeue s₂ x) Q' Z ∅ →
      ∃ s' Q', switchedBack s = some s' ∧ Settled s' Q' Z ∅ ∧ s'.currentProcess = none := by
    intro Q' h'
    refine ⟨{ requeue s₂ x with currentProcess := none }, Q', ?_, ?_, rfl⟩
    · simp only [switchedBack, hc, hr₂]
    · have hsame : SameQueues (requeue s₂ x) { requeue s₂ x with currentProcess := none } :=
        ⟨rfl, rfl, rfl, rfl, rfl, rfl, rfl, rfl⟩
      exact hsame.settled h'
  have hempty : ({x} : Set Ptr) \ {x} = ∅ := sdiff_self
  rcases hcases with ⟨hne, rfl⟩ | ⟨hz, hu, h₂⟩
  · rw [hquiet.state] at hne
    obtain ⟨Q', h₃⟩ := h₁.requeue_spec (x := x) (by
      rw [hquiet.state, hquiet.idleProcess]
      tauto)
    rw [hempty] at h₃
    exact hback Q' h₃
  · obtain ⟨Q', h₃⟩ := h₂.requeue_spec (x := x) (.inr (.inr (.inl hu)))
    rw [hempty, Set.empty_sdiff] at h₃
    exact hback Q' h₃

theorem Settled.create_spec (h : Settled s Q Z H) (hz : ∀ x, s.state x ≠ .zombie) (kind : ThreadKind)
    (basePriority : Nat) :
    schedulerCreateThread s kind basePriority false = (s, none) ∨
      ∃ s' x Q', schedulerCreateThread s kind basePriority false = (s', some x) ∧
        s.state x = .unused ∧ Settled s' Q' Z H ∧ SameControl s s' ∧ s'.state = update s.state x .ready ∧
        s'.onRunQueue = update s.onRunQueue x true := by
  cases halloc : allocProcessSlot s with
  | none => exact .inl (by simp only [schedulerCreateThread, halloc])
  | some x =>
    have hx : s.state x = .unused := by
      have hfound := find?_some halloc
      have hcases : s.state x = .unused ∨ s.state x = .zombie := by simpa using hfound
      exact hcases.resolve_right (hz x)
    obtain ⟨hq, hi⟩ := h.off_queue hx (by decide) (by decide)
    have hsleep : x ∉ Z := h.not_sleeping (by rw [hx]; decide)
    obtain ⟨s₁, hs₁, ho, hcontrol, hstate, honq⟩ : ∃ s₁,
        schedulerCreateThread s kind basePriority false = (schedulerEnqueueReady s₁ x, some x) ∧
        OnlyAt x s s₁ ∧ SameControl s s₁ ∧ s₁.state = update s.state x .ready ∧
        s₁.onRunQueue = update s.onRunQueue x false := by
      refine ⟨(acquirePid s).1.initThread x kind basePriority (acquirePid s).2, ?_, ?_,
        ⟨rfl, rfl, rfl, rfl⟩, ?_, rfl⟩
      · simp only [schedulerCreateThread, halloc, Bool.false_eq_true, if_false]
      · refine ⟨fun y hy => ?_, fun y hy => update_of_ne hy _ _,
          fun y hy => update_of_ne hy _ _, fun y hy => update_of_ne hy _ _,
          rfl, rfl, rfl, rfl⟩
        exact (update_of_ne hy _ _).trans (update_of_ne hy _ _)
      · exact update_idem _ _ _
    have h₁ : Settled s₁ Q Z (insert x H) :=
      h.only ho hq (by rw [honq, update_self]) hsleep (fun he => absurd he hi)
        (fun _ hn => absurd (Set.mem_insert x H) hn) (fun y _ hy => Set.mem_insert_of_mem x hy)
    have hi₁ : s₁.idleProcess ≠ some x := by
      rw [hcontrol.idle]
      exact hi
    obtain ⟨Q', h₂⟩ := h₁.enqueue (by rw [hstate, update_self]) hi₁
    refine Or.inr ⟨_, x, Q', hs₁, hx, h₂.mono ?_, ?_, ?_, ?_⟩
    · rintro y ⟨hy, hyx⟩
      exact Set.mem_of_mem_insert_of_ne hy hyx
    · obtain ⟨n, r, b, f, he⟩ := schedulerEnqueueReady_only s₁ x
      rw [he]
      exact ⟨hcontrol.current, hcontrol.idle, hcontrol.active, hcontrol.ticks⟩
    · obtain ⟨n, r, b, f, he⟩ := schedulerEnqueueReady_only s₁ x
      rw [he]
      exact hstate
    · rw [schedulerEnqueueReady_onRunQueue hi₁, honq, update_idem]

theorem preemptRunning_eq (hi : s.idleProcess ≠ some x) (demote : Bool) :
    ∃ s₁, preemptRunning s x demote = schedulerEnqueueReady { s₁ with state := update s₁.state x .ready } x ∧
      SameQueues s s₁ ∧ SameControl s s₁ ∧ s₁.wakeDeadline = s.wakeDeadline := by
  refine ⟨if demote then schedulerDemotePriority s x else s, ?_, ?_⟩
  · rw [preemptRunning, if_neg hi]
  · unfold schedulerDemotePriority
    split_ifs <;> exact ⟨⟨rfl, rfl, rfl, rfl, rfl, rfl, rfl, rfl⟩, ⟨rfl, rfl, rfl, rfl⟩, rfl⟩

theorem Settled.preempt_spec (h : Settled s Q Z H) (hH : x ∈ H) (hx : s.state x = .running)
    (hi : s.idleProcess ≠ some x) (demote : Bool) :
    ∃ Q', Settled (preemptRunning s x demote) Q' Z H ∧ SameControl s (preemptRunning s x demote) ∧
      (preemptRunning s x demote).state = update s.state x .ready ∧
      (preemptRunning s x demote).onRunQueue = update s.onRunQueue x true := by
  have hq : s.onRunQueue x = false := h.not_queued (by rw [hx]; decide)
  have hz : x ∉ Z := h.not_sleeping (by rw [hx]; decide)
  obtain ⟨s₁, hs₁, hsame, hcontrol, -⟩ := preemptRunning_eq hi demote
  have hi₁ : s₁.idleProcess ≠ some x := by
    rw [hsame.idleProcess]
    exact hi
  have h₁ := (hsame.settled h).setState hH (by rw [hsame.onRunQueue, hq]) hz hi₁ .ready
  obtain ⟨Q', h₂⟩ := h₁.enqueue (update_self x _ _) hi₁
  have honq := schedulerEnqueueReady_onRunQueue
    (s := { s₁ with state := update s₁.state x .ready }) hi₁
  obtain ⟨n, r, b, f, he⟩ :=
    schedulerEnqueueReady_only { s₁ with state := update s₁.state x .ready } x
  rw [he] at h₂ honq
  rw [hs₁, he]
  refine ⟨Q', h₂.mono Set.sdiff_subset, ?_, ?_, ?_⟩
  · exact ⟨hcontrol.current, hcontrol.idle, hcontrol.active, hcontrol.ticks⟩
  · show update s₁.state x .ready = _
    rw [hsame.state]
  · rw [honq]
    show update s₁.onRunQueue x true = _
    rw [hsame.onRunQueue]

theorem preemptRunning_wakeDeadline (hi : s.idleProcess ≠ some x) (demote : Bool) :
    (preemptRunning s x demote).wakeDeadline = s.wakeDeadline := by
  obtain ⟨s₁, hs₁, -, -, hdead⟩ := preemptRunning_eq hi demote
  obtain ⟨n, r, b, f, he⟩ :=
    schedulerEnqueueReady_only { s₁ with state := update s₁.state x .ready } x
  rw [hs₁, he]
  exact hdead

theorem Settled.someone_queued (h : Settled s Q Z H) (hb : s.readyBitmap ≠ 0#32) : ∃ y, s.onRunQueue y = true := by
  by_contra hnone
  apply hb
  apply BitVec.eq_of_getLsbD_eq
  intro p hp
  rw [BitVec.getLsbD_zero, ← Bool.not_eq_true, h.run.bitmap]
  rintro ⟨hp4, hne⟩
  obtain ⟨y, ys, hy⟩ := exists_cons_of_ne_nil hne
  exact hnone ⟨y, (h.run.flag y).mpr ⟨p, hp4, by simp [hy]⟩⟩

/-- The ways a tick goes on once it has woken the sleepers. -/
inductive TickResult (s : State) : State × Bool → Prop
  | noCurrent (hc : s.currentProcess = none) : TickResult s (s, false)
  | idleStays {x : Ptr} (hc : s.currentProcess = some x) (hi : s.idleProcess = some x)
      (hb : s.readyBitmap = 0#32) : TickResult s (s, false)
  | idleYields {x : Ptr} (hc : s.currentProcess = some x) (hi : s.idleProcess = some x)
      (hb : s.readyBitmap ≠ 0#32) : TickResult s (s, true)
  | goesOn {x : Ptr} (hc : s.currentProcess = some x) (hi : s.idleProcess ≠ some x)
      (hr : 1 < s.timeSliceRemaining x) : TickResult s (s.spendSlice x, false)
  | preempts {x : Ptr} (hc : s.currentProcess = some x) (hi : s.idleProcess ≠ some x)
      (hr : s.timeSliceRemaining x ≤ 1) :
      TickResult s (preemptRunning (s.spendSlice x) x true, true)

theorem processSchedulerTick_result {s₁ : State} (ha : s.schedulerActive = true)
    (hw : wakeSleepers s s.ticks = some s₁) : ∃ r, processSchedulerTick s = some r ∧ TickResult s₁ r := by
  cases hc : s₁.currentProcess with
  | none =>
    refine ⟨(s₁, false), ?_, .noCurrent hc⟩
    simp only [processSchedulerTick, ha, hw, hc, Bool.not_true, Bool.false_eq_true, if_false]
  | some x =>
    by_cases hi : s₁.idleProcess = some x
    · by_cases hb : s₁.readyBitmap = 0#32
      · refine ⟨(s₁, false), ?_, .idleStays hc hi hb⟩
        simp only [processSchedulerTick, ha, hw, hc, hi, hb, Bool.not_true, Bool.false_eq_true,
          if_false, if_true, ne_eq, not_true_eq_false]
      · have hkeep : preemptRunning s₁ x false = s₁ := by rw [preemptRunning, if_pos hi]
        refine ⟨(s₁, true), ?_, .idleYields hc hi hb⟩
        simp only [processSchedulerTick, ha, hw, hc, hi, hb, Bool.not_true, Bool.false_eq_true,
          if_false, if_true, ne_eq, not_false_eq_true, hkeep]
    · have hspent : (s₁.spendSlice x).timeSliceRemaining x = s₁.timeSliceRemaining x - 1 :=
        update_self x _ _
      by_cases hr : s₁.timeSliceRemaining x ≤ 1
      · refine ⟨_, ?_, .preempts hc hi hr⟩
        simp only [processSchedulerTick, ha, hw, hc, if_neg hi, hspent, Nat.sub_eq_zero_of_le hr,
          Bool.not_true, Bool.false_eq_true, if_false, if_true]
      · have hne : s₁.timeSliceRemaining x - 1 ≠ 0 := by omega
        refine ⟨_, ?_, .goesOn hc hi (by omega)⟩
        simp only [processSchedulerTick, ha, hw, hc, if_neg hi, hspent, if_neg hne,
          Bool.not_true, Bool.false_eq_true, if_false]

end ProOS.Sched
