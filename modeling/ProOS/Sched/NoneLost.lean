import ProOS.Sched.Preemption

namespace ProOS.Sched

open ProOS.Framework

/-- Every live process but the idle thread is ready and in exactly one queue, or waiting: on
the sleep list if it is in `process_sleep`, and in any case within reach of `process_wake`. -/
structure Accounted (m : Machine) (Q : Nat → List Ptr) (Z : List Ptr) : Prop where
  queues : ∀ p < 4, Linked m.sched.nextRun (m.sched.readyQueues p).head (Q p)
  sleepers : Linked m.sched.nextSleep m.sched.sleepList Z
  live : ∀ x, m.sched.state x ≠ .unused → m.sched.idleProcess ≠ some x →
    (m.sched.state x = .ready ∧ ∃! p, p < 4 ∧ x ∈ Q p) ∨
    (m.sched.state x = .waiting ∧ (∀ t, m.call x = some (.sleep t) → x ∈ Z) ∧
      ∃ s', processWake m.sched x = some s' ∧ s'.state x = .ready ∧ s'.onRunQueue x = true)

theorem Settled.processWake_wakes {s : State} {Q : Nat → List Ptr} {Z : List Ptr} {H : Set Ptr} {x : Ptr}
    (h : Settled s Q Z H) (hx : s.state x = .waiting) :
    ∃ s', processWake s x = some s' ∧ s'.state x = .ready ∧ s'.onRunQueue x = true := by
  obtain ⟨s₁, hr, ⟨n, l, rfl⟩, hrep⟩ := schedulerRemoveFromSleep_spec (x := x) h.sleep
  obtain ⟨s', Q', hs', -, hw, hstate, -⟩ := h.wakeUp hx (w := s.wakeDeadline) hrep
  have hready : s'.state x = .ready := by rw [hstate, Function.update_self]
  refine ⟨s', ?_, hready, ?_⟩
  · rw [processWake, if_neg (not_not.mpr hx), hr, Option.map_some, ← hs']
  · rcases hw.each x with ⟨hsame, -⟩ | ⟨-, -, hq⟩
    · rw [hready, hx] at hsame
      cases hsame
    · exact hq

theorem Inv.accounted {m : Machine} {Q : Nat → List Ptr} {Z : List Ptr} (h : Inv m Q Z)
    (hpc : m.pc = .top) : Accounted m Q Z := by
  have hcon := h.control
  simp only [Pc.Control, hpc] at hcon
  obtain ⟨hset, hoth⟩ := h.handsFree (by simp only [Machine.focus, hpc, hcon.1])
  refine ⟨hset.run.linked, hset.sleep, ?_⟩
  intro x hlive hidle
  rcases hset.others x (Set.notMem_empty x) hidle with ⟨hready, hq⟩ | hw | hu
  · obtain ⟨p, hp, hx⟩ := (hset.run.flag x).mp hq
    refine Or.inl ⟨hready, p, ⟨hp, hx⟩, ?_⟩
    rintro q ⟨hq, hx'⟩
    exact hset.run.disjoint q hq p hp x hx' hx
  · refine Or.inr ⟨hw, ?_, hset.processWake_wakes hw⟩
    intro t hcall
    exact hoth.sleepers x (Set.notMem_empty x) hw (by rw [hcall]; rfl)
  · exact absurd hu hlive

/-- In every run whose preempting ticks come in time, no process is lost at the top of the
loop of `process_schedule`, and no zombie comes back to life. -/
theorem none_lost_inTime (acts : List Action) (m : Machine)
    (hk : EachStep Machine.Step Machine.init acts m InTime) :
    Always Machine.Step Machine.init acts m (fun _ m => m.pc = .top → ∃ Q Z, Accounted m Q Z) ∧
      ∀ pre a post m₁ m₂, acts = pre ++ a :: post → Exec Machine.Step Machine.init pre m₁ →
        Machine.Step m₁ a m₂ → Exec Machine.Step m₂ post m → ZombiesStay m₁.sched m₂.sched := by
  have hinv : Always Machine.Step Machine.init acts m (fun _ m => ∃ Q Z, Inv m Q Z) := by
    refine hk.always (P := fun _ m => ∃ Q Z, Inv m Q Z) ?_ ?_
    · exact ⟨_, _, Machine.init_inv⟩
    · rintro tr m₁ a m₂ - ⟨Q, Z, h⟩ hstep hin
      exact (h.step (performs_labelled.mp hstep) hin).1
  constructor
  · intro pre post m₁ ht hpre hpost hpc
    obtain ⟨Q, Z, h⟩ := hinv pre post m₁ ht hpre hpost
    exact ⟨Q, Z, h.accounted hpc⟩
  · intro pre a post m₁ m₂ ht hpre hstep hpost
    obtain ⟨Q, Z, h⟩ := hinv pre (a :: post) m₁ ht hpre ((Exec.single hstep).trans hpost)
    exact (h.step (performs_labelled.mp hstep) (hk pre a post m₁ m₂ ht hpre hstep hpost)).2

/-- A thread sets its state to `PROC_WAITING`, is preempted before its context switch, runs
again as `PROC_RUNNING`, and then makes that switch. -/
def blockInterrupted : List Action :=
  List.flatten [[.createKernel, .start], dispatchActs, [.call .block, .stmt, .stmt, .tick],
    returnActs, dispatchActs, [.irqReturn, .stmt], returnActs]

theorem blockInterrupted_isSome : (performAll Machine.performs Machine.init blockInterrupted).isSome = true := by
  decide +kernel

def lostMachine : Machine :=
  ((performAll Machine.performs Machine.init blockInterrupted).get blockInterrupted_isSome).2

theorem lostMachine_end : lostMachine.pc = .top ∧ lostMachine.sched.state 1 = .running ∧
    lostMachine.sched.idleProcess = some 0 := by
  decide +kernel

theorem process_lost_to_tick :
    ¬∀ (acts : List Action) (m : Machine), Exec Machine.Step Machine.init acts m → m.pc = .top →
      ∃ Q Z, Accounted m Q Z := by
  intro hall
  have hrun : Exec Machine.Step Machine.init blockInterrupted lostMachine :=
    performAll_labelled_exec blockInterrupted Machine.init blockInterrupted_isSome
  obtain ⟨htop, hstate, hidle⟩ := lostMachine_end
  obtain ⟨Q, Z, hacc⟩ := hall _ _ hrun htop
  have hlive := hacc.live 1
  rw [hstate, hidle] at hlive
  rcases hlive (by decide) (by decide) with ⟨hready, -⟩ | ⟨hw, -⟩
  · cases hready
  · cases hw

/-- A thread preempted at work, and then put to sleep. -/
def preemptedAtWork : List Action :=
  List.flatten [[.createKernel, .start], dispatchActs, [.tick, .tick, .tick, .tick], returnActs,
    dispatchActs, [.irqReturn, .call (.sleep 9), .stmt, .stmt, .stmt, .stmt, .stmt], returnActs]

theorem preemptedAtWork_isSome : (performAll Machine.performs Machine.init preemptedAtWork).isSome = true := by
  decide +kernel

def sleepingMachine : Machine :=
  ((performAll Machine.performs Machine.init preemptedAtWork).get preemptedAtWork_isSome).2

theorem sleepingMachine_end : sleepingMachine.pc = .top ∧ sleepingMachine.sched.state 1 = .waiting := by
  decide +kernel

theorem preemptedAtWork_inTime : allMeet Machine.perform InTime Machine.init preemptedAtWork = true := by
  decide +kernel

theorem none_lost_preemptedAtWork :
    Exec Machine.Step Machine.init preemptedAtWork sleepingMachine ∧
      sleepingMachine.sched.state 1 = .waiting ∧ ∃ Q Z, Accounted sleepingMachine Q Z := by
  have hrun : Exec Machine.Step Machine.init preemptedAtWork sleepingMachine :=
    performAll_labelled_exec preemptedAtWork Machine.init preemptedAtWork_isSome
  have hk : EachStep Machine.Step Machine.init preemptedAtWork sleepingMachine InTime :=
    eachStep_of_allMeet preemptedAtWork_inTime
  have hlast := (none_lost_inTime preemptedAtWork sleepingMachine hk).1.last hrun
  exact ⟨hrun, sleepingMachine_end.2, hlast sleepingMachine_end.1⟩

end ProOS.Sched
