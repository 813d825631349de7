import ProOS.Sched.Preemption

namespace ProOS.Sched

open ProOS.Framework Function Option

/-- A tick takes the processor only from a running process, and only when every process that
could run instead is itself suspended inside `irq_handler`. -/
def InsidersOnly (m : Machine) (a : Action) : Prop :=
  InTime m a ∧ (a = .tick → ∀ x, m.sched.currentProcess = some x → TakesOver m.sched x →
    ∀ y, ReadyAtTick m.sched y → m.inTick y = true)

instance (s : State) (y : Ptr) : Decidable (ReadyAtTick s y) :=
  inferInstanceAs (Decidable (s.onRunQueue y = true ∨
    (y ∈ sleeperList s ∧ s.wakeDeadline y ≤ (s.ticks + 1) % 2 ^ 64)))

instance (m : Machine) (a : Action) : Decidable (InsidersOnly m a) :=
  inferInstanceAs (Decidable (InTime m a ∧ (a = .tick → ∀ x, m.sched.currentProcess = some x →
    TakesOver m.sched x → ∀ y, ReadyAtTick m.sched y → m.inTick y = true)))

/-- The places of `process_schedule` from a context switch up to the next choice. -/
def Pc.BeforePick : Pc → Prop
  | .back | .accounted | .reclaimed | .requeued | .top | .woken => True
  | _ => False

/-- While the timer's interrupt is in service, only processes inside `irq_handler` can get
the processor. -/
structure Pending (m : Machine) : Prop where
  booted : m.pc ≠ .boot
  queued : ∀ y, m.sched.onRunQueue y = true → m.inTick y = true
  due : ∀ y ∈ sleeperList m.sched, m.sched.wakeDeadline y ≤ m.sched.ticks → m.inTick y = true
  hand : ∀ x, m.focus = some x → m.inTick x = true
  someone : m.pc.BeforePick → ∃ y, m.sched.onRunQueue y = true
  living : m.pc = .back ∨ m.pc = .accounted → ∀ x, m.sched.currentProcess = some x →
    m.sched.state x ≠ .zombie

variable {m m' : Machine} {s s' : State} {Q Q' : Nat → List Ptr} {Z Z' : List Ptr} {H : Set Ptr} {x : Ptr}
  {events : List Ptr}

theorem Pending.goto (h : Pending m) {pc : Pc} (hs : s.onRunQueue = m.sched.onRunQueue)
    (hl : sleeperList s = sleeperList m.sched) (hw : s.wakeDeadline = m.sched.wakeDeadline)
    (ht : s.ticks = m.sched.ticks) (hpc : pc ≠ .boot)
    (hhand : ∀ x, (m.goto s pc).focus = some x → m.inTick x = true) (hpick : pc.BeforePick → m.pc.BeforePick)
    (hlive : pc = .back ∨ pc = .accounted → ∀ x, s.currentProcess = some x → s.state x ≠ .zombie) :
    Pending (m.goto s pc) := by
  refine ⟨hpc, ?_, ?_, hhand, ?_, hlive⟩
  · intro y hy
    exact h.queued y (by rw [← hs]; exact hy)
  · intro y hy hdue
    have hdue' : s.wakeDeadline y ≤ s.ticks := hdue
    rw [hw, ht] at hdue'
    exact h.due y (by rw [← hl]; exact hy) hdue'
  · intro hb
    obtain ⟨y, hy⟩ := h.someone (hpick hb)
    exact ⟨y, by rw [← hs] at hy; exact hy⟩

theorem Pending.moved (h : Pending m) (hi : Inv m Q Z) {p pc : Pc} (hp : m.pc = p) (hpc : p.Moves pc)
    (hm : m.schedule events = some m') : Pending m' := by
  obtain ⟨s, x, rfl, hmoved⟩ := hi.moved hp hpc hm (fun hacc => h.living (.inr hacc))
  refine h.goto hmoved.same.onRunQueue ?_ hmoved.deadline hmoved.ticks ?_ ?_ ?_ ?_
  · rw [sleeperList, sleeperList, hmoved.same.nextSleep, hmoved.same.sleepList]
  · rintro rfl
    cases hpc
  · intro y hy
    obtain rfl : x = y := some.inj (hmoved.focus'.symm.trans hy)
    exact h.hand x hmoved.focus
  · rw [hp]
    cases hpc <;> exact id
  · -- the process accounted for is the one that came back
    rintro (rfl | rfl) y hy
    · cases hpc
    · cases hpc
      have hf := hmoved.focus
      simp only [Machine.focus, hp] at hf
      obtain rfl : x = y := some.inj (hmoved.focus'.symm.trans hy)
      rw [hmoved.same.state]
      exact h.living (.inl hp) x hf

theorem Pending.schedule_step (h : Pending m) (hi : Inv m Q Z) (hm : m.schedule events = some m') : Pending m' := by
  have hcon := hi.control
  cases hpc : m.pc with
  | boot => exact absurd hpc h.booted
  | running => simp [Machine.schedule, hpc] at hm
  | top =>
    simp only [Pc.Control, hpc] at hcon
    obtain ⟨hset, -⟩ := hi.handsFree (by simp only [Machine.focus, hpc, hcon.1])
    obtain ⟨s', Q', Z', hw, h', hwoken⟩ := hset.wakeSleepers_spec m.sched.ticks
    obtain rfl : m.goto s' .woken = m' := by
      simpa only [Machine.schedule, hpc, hw, map_some, some.injEq] using hm
    have hdue := h.due
    rw [hset.sleeperList_eq] at hdue
    refine ⟨Pc.noConfusion, ?_, ?_, ?_, ?_, ?_⟩
    · intro y hy
      have hy' : s'.onRunQueue y = true := hy
      by_cases hsame : s'.state y = m.sched.state y
      · rcases hwoken.each y with ⟨-, hq, -⟩ | ⟨hwait, hr, -⟩
        · exact h.queued y (hq.symm.trans hy')
        · rw [hwait, hr] at hsame
          cases hsame
      · obtain ⟨hz, hle⟩ := hwoken.due y hsame
        exact hdue y hz hle
    · intro y hy hle
      have hy' : y ∈ sleeperList s' := hy
      rw [h'.sleeperList_eq] at hy'
      obtain ⟨hz, hdead⟩ := hwoken.asleep y hy'
      have hle' : s'.wakeDeadline y ≤ s'.ticks := hle
      rw [hdead, hwoken.ticks] at hle'
      exact hdue y hz hle'
    · intro x hx
      have hx' : s'.currentProcess = some x := hx
      rw [hwoken.current, hcon.1] at hx'
      cases hx'
    · intro _
      obtain ⟨y, hy⟩ := h.someone (by rw [hpc]; trivial)
      refine ⟨y, ?_⟩
      show s'.onRunQueue y = true
      rcases hwoken.each y with ⟨-, hq, -⟩ | ⟨-, -, hq⟩
      · rw [hq, hy]
      · exact hq
    · rintro (hb | hb) <;> cases hb
  | woken =>
    simp only [Pc.Control, hpc] at hcon
    obtain ⟨hset, -⟩ := hi.handsFree (by simp only [Machine.focus, hpc, hcon.1])
    obtain ⟨s', r, Q', hsel, h', htaken⟩ := hset.select
    obtain ⟨next, hnext, rfl⟩ : ∃ next, r.or s'.idleProcess = some next ∧ m.goto s' (.picked next) = m' := by
      simpa only [Machine.schedule, hpc, hsel, map_eq_some_iff] using hm
    obtain ⟨y, hy⟩ := h.someone (by rw [hpc]; trivial)
    have hr : r = some next := by
      cases r with
      | none =>
        rw [htaken.empty rfl y] at hy
        cases hy
      | some z => exact hnext
    have hq := h.queued next (htaken.queued next hr)
    have hflag := htaken.flag
    obtain ⟨n, q, b, f, rfl⟩ := htaken.only
    refine ⟨Pc.noConfusion, ?_, h.due, ?_, fun hb => hb.elim, ?_⟩
    · intro z hz
      exact h.queued z ((hflag z).mp hz).1
    · intro x hx
      obtain rfl : next = x := some.inj hx
      exact hq
    · rintro (hb | hb) <;> cases hb
  | picked next => exact h.moved hi hpc (.enter next) hm
  | entered next =>
    obtain rfl : m.goto { m.sched with state := update m.sched.state next .running }
        (.marked next) = m' := by
      simpa only [Machine.schedule, hpc, some.injEq] using hm
    refine h.goto rfl rfl rfl rfl Pc.noConfusion ?_ (fun hb => hb.elim) ?_
    · intro x hx
      exact h.hand x (by simpa only [Machine.focus, Machine.goto, hpc] using hx)
    · rintro (hb | hb) <;> cases hb
  | marked next => exact h.moved hi hpc (.arm next) hm
  | armed next => exact h.moved hi hpc (.run next) hm
  | back => exact h.moved hi hpc .account hm
  | accounted => exact h.moved hi hpc .keep hm
  | reclaimed => exact h.moved hi hpc .queue hm
  | requeued =>
    obtain rfl : m.goto { m.sched with currentProcess := none } .top = m' := by
      simpa only [Machine.schedule, hpc, some.injEq] using hm
    refine h.goto rfl rfl rfl rfl Pc.noConfusion ?_ (fun _ => by rw [hpc]; trivial) ?_
    · intro y hy
      cases hy
    · rintro (hb | hb) <;> cases hb

theorem insiders_with (x : Ptr) {P : Ptr → Prop} {t : Ptr → Bool} (h : ∀ y, P y → t y = true) (y : Ptr) (hy : P y) :
    update t x true y = true := by
  by_cases hyx : y = x
  · rw [hyx, update_self]
  · rw [update_of_ne hyx]
    exact h y hy

/-- A tick that leaves its interrupt in service has put its process among those that wait
inside `irq_handler`. -/
theorem Pending.of_tick (hi : Inv m Q Z) (hk : InsidersOnly m .tick) (hm : m.tick = some m')
    (hs : m'.inService = true) : Pending m' := by
  have hfree : m.inService = false := by
    unfold Machine.tick at hm
    split_ifs at hm with hblocked
    rw [not_or] at hblocked
    simpa using hblocked.1
  cases (hi.tick_step hk.1 hm).2 with
  | stays s => exact absurd (hfree.symm.trans hs) Bool.false_ne_true
  | @takes s Q Z H x hcur htakes hc hset hready hdue hsome hlive =>
    have hin := insiders_with x (hk.2 rfl x hcur htakes)
    refine ⟨Pc.noConfusion, ?_, ?_, ?_, fun _ => hsome, ?_⟩
    · intro y hy
      rcases hready y hy with rfl | hr
      · exact update_self _ _ _
      · exact hin y hr
    · intro y hy hle
      have hy' : y ∈ sleeperList s := hy
      rw [hset.sleeperList_eq] at hy'
      exact hin y (hdue y hy' hle)
    · intro y hy
      obtain rfl : x = y := some.inj (hc.symm.trans hy)
      exact update_self _ _ _
    · intro _ y hy
      obtain rfl : x = y := some.inj (hc.symm.trans hy)
      exact hlive

theorem Machine.schedule_inService (hm : m.schedule events = some m') : m'.inService = m.inService := by
  unfold Machine.schedule at hm
  dsimp only at hm
  split at hm
  · obtain ⟨s, -, rfl⟩ := map_eq_some_iff.mp hm
    rfl
  · split at hm
    · cases hm
    · obtain ⟨next, -, rfl⟩ := map_eq_some_iff.mp hm
      rfl
  case h_8 =>
    split at hm
    · cases hm
    · obtain ⟨s, -, rfl⟩ := map_eq_some_iff.mp hm
      rfl
  case h_11 => cases hm
  all_goals
    cases hm
    rfl

theorem Machine.created_inService {r : State × Option Ptr} (hm : m.created r = some m') :
    (m.pc = .boot ∨ m.free.isSome = true) ∧ m'.inService = m.inService := by
  unfold Machine.created at hm
  split_ifs at hm with hwho
  refine ⟨hwho, ?_⟩
  split at hm
  · cases hm
    rfl
  · cases hm
    rfl

/-- An interrupt in service goes on to keep the processor for insiders. -/
def Kept (m : Machine) : Prop := m.inService = true → Pending m

theorem Kept.step (h : Kept m) (hi : Inv m Q Z) {a : Action} (hk : InsidersOnly m a)
    (hm : m.perform a = some m') : Kept m' := by
  intro hs
  unfold Machine.perform at hm
  rw [if_neg (by rw [hi.onTrack]; exact Bool.false_ne_true)] at hm
  -- a process at work cannot be in hand while the interrupt is in service
  have hwork : m.inService = true → m.atWork = none := by
    intro hin
    by_contra hne
    obtain ⟨x, hx⟩ := ne_none_iff_exists'.mp hne
    obtain ⟨hpc, hcur, ht⟩ := Machine.atWork_eq_some.mp hx
    have hhand := (h hin).hand x (by simp only [Machine.focus, hpc, hcur])
    rw [ht] at hhand
    cases hhand
  have hfree : m.inService = true → m.free = none := by
    intro hin
    rw [Machine.free, hwork hin]
  -- so only the scheduler itself takes steps, which keep the interrupt in service
  cases a with
  | create | createKernel =>
    obtain ⟨hwho, hsame⟩ := Machine.created_inService hm
    have hin : m.inService = true := hsame.symm.trans hs
    rcases hwho with hpc | hsome
    · exact absurd hpc (h hin).booted
    · rw [hfree hin] at hsome
      cases hsome
  | start =>
    dsimp only at hm
    split_ifs at hm with hpc
    cases hm
    exact absurd hpc (h hs).booted
  | schedule events =>
    have hin : m.inService = true := (Machine.schedule_inService hm).symm.trans hs
    exact (h hin).schedule_step hi hm
  | call c =>
    obtain ⟨x, hx, rfl⟩ := map_eq_some_iff.mp hm
    rw [hfree hs] at hx
    cases hx
  | stmt =>
    dsimp only [Machine.stmt] at hm
    split at hm
    · cases hm
    · rename_i x hx
      split at hm
      · cases hm
      · obtain ⟨s', -, rfl⟩ := map_eq_some_iff.mp hm
        rw [hwork hs] at hx
        cases hx
  | ret =>
    dsimp only [Machine.ret] at hm
    split at hm
    · cases hm
    · rename_i x hx
      split at hm
      · split_ifs at hm
        cases hm
        rw [hwork hs] at hx
        cases hx
      · cases hm
  | wake y =>
    dsimp only at hm
    split at hm
    · cases hm
    · rename_i x hx
      obtain ⟨s', -, rfl⟩ := map_eq_some_iff.mp hm
      rw [hfree hs] at hx
      cases hx
  | setScheduler pid policy weight deadlineTicks =>
    obtain ⟨x, hx, rfl⟩ := map_eq_some_iff.mp hm
    rw [hfree hs] at hx
    cases hx
  | tick => exact Pending.of_tick hi hk hm hs
  | irqReturn =>
    dsimp only [Machine.irqReturn] at hm
    split at hm
    · cases hm
    · cases hm
      cases hs

/-- In every run in which ticks take the processor only for processes inside `irq_handler`,
no process executes its own code while the timer's interrupt is in service. -/
theorem acknowledged_insidersOnly (acts : List Action) (m : Machine)
    (hk : EachStep Machine.Step Machine.init acts m InsidersOnly) :
    Always Machine.Step Machine.init acts m
      (fun _ m => ∀ x, m.atWork = some x → m.inService = false) := by
  have hinv : Always Machine.Step Machine.init acts m (fun _ m => (∃ Q Z, Inv m Q Z) ∧ Kept m) := by
    refine hk.always (P := fun _ m => (∃ Q Z, Inv m Q Z) ∧ Kept m) ?_ ?_
    · exact ⟨⟨_, _, Machine.init_inv⟩, fun hs => by cases hs⟩
    · rintro tr m₁ a m₂ - ⟨⟨Q, Z, h⟩, hkept⟩ hstep hin
      have hperform := performs_labelled.mp hstep
      exact ⟨(h.step hperform hin.1).1, hkept.step h hin hperform⟩
  intro pre post m₁ ht hpre hpost x hx
  obtain ⟨-, hkept⟩ := hinv pre post m₁ ht hpre hpost
  obtain ⟨hpc, hcur, htick⟩ := Machine.atWork_eq_some.mp hx
  by_contra hs
  have hhand := (hkept (by simpa using hs)).hand x (by simp only [Machine.focus, hpc, hcur])
  rw [htick] at hhand
  cases hhand

/-- Two threads; the first one's time slice runs out and the second one gets the processor. -/
def handedOver : List Action :=
  List.flatten [[.createKernel, .createKernel, .start], dispatchActs, [.tick, .tick, .tick, .tick],
    returnActs, dispatchActs]

theorem handedOver_isSome : (performAll Machine.performs Machine.init handedOver).isSome = true := by
  decide +kernel

def handedOverMachine : Machine :=
  ((performAll Machine.performs Machine.init handedOver).get handedOver_isSome).2

theorem handedOverMachine_end : handedOverMachine.atWork = some 2 ∧ handedOverMachine.inService = true := by
  decide +kernel

theorem interrupt_unacknowledged :
    ¬∀ (acts : List Action) (m : Machine), Exec Machine.Step Machine.init acts m →
      ∀ x, m.atWork = some x → m.inService = false := by
  intro hall
  have hrun : Exec Machine.Step Machine.init handedOver handedOverMachine :=
    performAll_labelled_exec handedOver Machine.init handedOver_isSome
  have hfalse := hall _ _ hrun 2 handedOverMachine_end.1
  rw [handedOverMachine_end.2] at hfalse
  cases hfalse

/-- A thread alone: its time slice runs out and it gets the processor again. -/
def handedBack : List Action :=
  List.flatten [[.createKernel, .start], dispatchActs, [.tick, .tick, .tick, .tick], returnActs,
    dispatchActs, [.irqReturn]]

theorem handedBack_isSome : (performAll Machine.performs Machine.init handedBack).isSome = true := by
  decide +kernel

def handedBackMachine : Machine :=
  ((performAll Machine.performs Machine.init handedBack).get handedBack_isSome).2

theorem handedBackMachine_end : handedBackMachine.atWork = some 1 := by
  decide +kernel

theorem handedBack_insidersOnly : allMeet Machine.perform InsidersOnly Machine.init handedBack = true := by
  decide +kernel

theorem acknowledged_handedBack :
    Exec Machine.Step Machine.init handedBack handedBackMachine ∧
      handedBackMachine.atWork = some 1 ∧ handedBackMachine.inService = false := by
  have hrun : Exec Machine.Step Machine.init handedBack handedBackMachine :=
    performAll_labelled_exec handedBack Machine.init handedBack_isSome
  have hk : EachStep Machine.Step Machine.init handedBack handedBackMachine InsidersOnly :=
    eachStep_of_allMeet handedBack_insidersOnly
  have hlast := (acknowledged_insidersOnly handedBack handedBackMachine hk).last hrun
  exact ⟨hrun, handedBackMachine_end, hlast 1 handedBackMachine_end⟩

end ProOS.Sched
