import ProOS.Sched.Views
import ProOS.Sched.Machine

namespace ProOS.Sched

open ProOS.Framework Function Option

/-- A running process is on no list and has time left; a sleeper has none. -/
def View.Ok (v : View) : Prop := (v.state = .running → v = .atWork) ∧ (v.asleep = true → v.spent = true)

/-- The views in which a process may leave the processor. -/
def View.Leaves (sleeps : Bool) (v : View) : Prop :=
  (v.state = .ready ∧ v.queued = true) ∨
    (v.state = .waiting ∧ (sleeps = true → v.asleep = true)) ∨ v.state = .zombie

/-- The rest of a call goes well from view `v`; behind a context switch the process finds
itself as at work again. -/
def Safe (sleeps : Bool) : View → List Stmt → Prop
  | v, [] => v = .atWork
  | v, st :: rest => v.Ok ∧
    if st = .contextSwitch then v.Leaves sleeps ∧ Safe sleeps .atWork rest
    else ∃ v', st.onView v = some v' ∧ Safe sleeps v' rest

def sleeps : Option Call → Bool
  | some (.sleep _) => true
  | _ => false

theorem Call.program_safe (c : Call) : Safe (sleeps (some c)) .atWork c.program := by
  cases c with
  | block =>
    simp [Safe, Call.program, processBlockCurrent, Stmt.onView, View.Ok, View.Leaves, View.atWork, sleeps]
  | sleep t =>
    simp [Safe, Call.program, processSleep, Stmt.onView, View.Ok, View.Leaves, View.atWork, sleeps]
  | yield =>
    simp [Safe, Call.program, processYield, Stmt.onView, View.Ok, View.Leaves, View.atWork, sleeps]
  | exit code cleanup events =>
    simp [Safe, Call.program, processExit, Stmt.onView, View.Ok, View.Leaves, View.atWork, sleeps]

theorem Safe.ok {b : Bool} {v : View} {rest : List Stmt} (h : Safe b v rest) : v.Ok := by
  cases rest with
  | nil =>
    obtain rfl : v = .atWork := h
    exact ⟨fun _ => rfl, fun hf => by cases hf⟩
  | cons st rest => exact h.1

theorem Stmt.onView_zombie {st : Stmt} {v v' : View} (h : st.onView v = some v')
    (hz : v.state = .zombie) : v'.state = .zombie := by
  cases st with
  | setState w =>
    simp only [Stmt.onView, hz, if_true] at h
    split_ifs at h
  | clearSlice =>
    cases h
    exact hz
  | resetPriority | setWakeDeadline t | setExitCode code | contextSwitch =>
    cases h
    exact hz
  | insertSleep | enqueueReady =>
    simp only [Stmt.onView, hz] at h
    cases h
  | removeFromSleep | clearOnRunQueue | clearNextRun | wakeOthers ys =>
    simp only [Stmt.onView] at h
    split_ifs at h
    cases h
    exact hz

/-- The processes that are not in hand: their calls go well once they run again, and those
waiting in `process_sleep` are on the sleep list. -/
structure Others (m : Machine) (s : State) (Z : List Ptr) (H : Set Ptr) : Prop where
  resumes : ∀ y, y ∉ H → s.idleProcess ≠ some y → s.state y ≠ .unused →
    Safe (sleeps (m.call y)) .atWork (m.rest y)
  sleepers : ∀ y, y ∉ H → s.state y = .waiting → sleeps (m.call y) = true → y ∈ Z

/-- A process that has left the processor. -/
def Left (m : Machine) (Z : List Ptr) (x : Ptr) : Prop :=
  ((m.sched.state x = .ready ∧ m.sched.onRunQueue x = true) ∨
    (m.sched.state x = .waiting ∧ (sleeps (m.call x) = true → x ∈ Z))) ∧
  Safe (sleeps (m.call x)) .atWork (m.rest x)

/-- What holds of the process in hand, by the place where `process_schedule` is. -/
def Held (m : Machine) (Z : List Ptr) (x : Ptr) : Prop :=
  match m.pc with
  | .picked _ | .entered _ => m.sched.onRunQueue x = false ∧ x ∉ Z ∧
      (m.sched.idleProcess = some x ∨
        (m.sched.state x = .ready ∧ Safe (sleeps (m.call x)) .atWork (m.rest x)))
  | .marked _ | .armed _ => m.sched.state x = .running ∧
      (m.sched.idleProcess ≠ some x → Safe (sleeps (m.call x)) .atWork (m.rest x))
  | .running => (m.inTick x = true ∨ m.sched.idleProcess = some x → m.sched.state x = .running) ∧
      (m.sched.idleProcess ≠ some x →
        ∃ v : View, v.Of m.sched Z x ∧ Safe (sleeps (m.call x)) v (m.rest x))
  | .back | .accounted => m.sched.idleProcess = some x ∨ Left m Z x ∨ m.sched.state x = .zombie
  | .reclaimed | .requeued => m.sched.idleProcess = some x ∨ Left m Z x ∨ m.sched.state x = .unused
  | _ => True

def Pc.Control (pc : Pc) (s : State) : Prop :=
  match pc with
  | .boot => s.currentProcess = none ∧ s.schedulerActive = false
  | .top | .woken | .picked _ => s.currentProcess = none ∧ s.schedulerActive = true
  | .entered next | .marked next | .armed next =>
    s.currentProcess = some next ∧ s.schedulerActive = true
  | _ => (∃ x, s.currentProcess = some x) ∧ s.schedulerActive = true

def Machine.hand (m : Machine) : Set Ptr := {x | m.focus = some x}

structure Inv (m : Machine) (Q : Nat → List Ptr) (Z : List Ptr) : Prop where
  settled : Settled m.sched Q Z m.hand
  control : m.pc.Control m.sched
  held : ∀ x, m.focus = some x → Held m Z x
  others : Others m m.sched Z m.hand
  uncalled : ∀ x, m.call x = none → m.rest x = []
  idle : ∀ i, m.sched.idleProcess = some i → m.call i = none
  onTrack : m.derailed = false

/-- A tick takes the processor from the current process: it ends its time slice, or finds
another process for the idle thread to make room for. -/
def TakesOver (s : State) (x : Ptr) : Prop :=
  if s.idleProcess = some x then
    s.readyBitmap ≠ 0#32 ∨ ∃ z, s.sleepList = some z ∧ s.wakeDeadline z ≤ (s.ticks + 1) % 2 ^ 64
  else s.timeSliceRemaining x ≤ 1

/-- A tick that takes the processor from the current process finds it running: not in the
middle of leaving, and not while `process_schedule` still handles it. -/
def InTime (m : Machine) (a : Action) : Prop :=
  a = .tick → ∀ x, m.sched.currentProcess = some x → TakesOver m.sched x →
    m.pc = .running ∧ m.sched.state x = .running

instance (s : State) (x : Ptr) : Decidable (TakesOver s x) :=
  inferInstanceAs (Decidable (if s.idleProcess = some x then
    s.readyBitmap ≠ 0#32 ∨ ∃ z, s.sleepList = some z ∧ s.wakeDeadline z ≤ (s.ticks + 1) % 2 ^ 64
  else s.timeSliceRemaining x ≤ 1))

instance (m : Machine) (a : Action) : Decidable (InTime m a) :=
  inferInstanceAs (Decidable (a = .tick → ∀ x, m.sched.currentProcess = some x → TakesOver m.sched x →
    m.pc = .running ∧ m.sched.state x = .running))

def ZombiesStay (s s' : State) : Prop :=
  ∀ x, s.state x = .zombie → s'.state x = .zombie ∨ s'.state x = .unused

variable {m m' : Machine} {s s' : State} {Q Q' : Nat → List Ptr} {Z Z' : List Ptr} {H H' : Set Ptr}
  {x : Ptr}

theorem Machine.hand_some (h : m.focus = some x) : m.hand = {x} := by
  ext y
  show m.focus = some y ↔ y = x
  rw [h]
  exact ⟨fun he => (some.inj he).symm, fun he => he ▸ rfl⟩

theorem Machine.hand_none (h : m.focus = none) : m.hand = ∅ := by
  ext y
  show m.focus = some y ↔ False
  rw [h]
  exact iff_of_false (some_ne_none y).symm not_false

theorem Others.kept (h : Others m s Z H) (hi : s'.idleProcess = s.idleProcess)
    (he : ∀ y, y ∉ H →
      (s'.state y = s.state y ∧ s'.onRunQueue y = s.onRunQueue y ∧ (y ∈ Z' ↔ y ∈ Z)) ∨
        (s.state y = .waiting ∧ s'.state y = .ready ∧ s'.onRunQueue y = true)) : Others m s' Z' H := by
  constructor
  · intro y hy hidle hlive
    rw [hi] at hidle
    apply h.resumes y hy hidle
    rcases he y hy with ⟨hs, -, -⟩ | ⟨hw, -, -⟩
    · rw [← hs]
      exact hlive
    · rw [hw]
      decide
  · intro y hy hwait hsleep
    rcases he y hy with ⟨hs, -, hz⟩ | ⟨-, hr, -⟩
    · exact hz.mpr (h.sleepers y hy (hs.symm.trans hwait) hsleep)
    · rw [hwait] at hr
      cases hr

theorem Others.woken (h : Others m s Z H) (hw : Woken s Z s' Z') : Others m s' Z' H :=
  h.kept hw.idle (fun y _ => hw.each y)

theorem Others.frame (h : Others m s Z {x}) (hf : Frame x s Z s' Z') : Others m s' Z' {x} :=
  h.kept hf.control.idle hf.each

theorem Others.same (h : Others m s Z H) (hs : SameQueues s s') : Others m s' Z H :=
  h.kept hs.idleProcess (fun y _ => .inl ⟨by rw [hs.state], by rw [hs.onRunQueue], Iff.rfl⟩)

theorem Others.mono (h : Others m s Z H) (hH : H ⊆ H') : Others m s Z H' :=
  ⟨fun y hy => h.resumes y (fun hm => hy (hH hm)), fun y hy => h.sleepers y (fun hm => hy (hH hm))⟩

theorem Others.change (h : Others m s Z H)
    (hnew : ∀ y, y ∈ H → y ∉ H' → s.idleProcess ≠ some y →
      (s.state y ≠ .unused → Safe (sleeps (m.call y)) .atWork (m.rest y)) ∧
        (s.state y = .waiting → sleeps (m.call y) = true → y ∈ Z))
    (hidle : ∀ y, s.idleProcess = some y → s.state y ≠ .waiting) : Others m s Z H' := by
  constructor
  · intro y hy hi hlive
    by_cases hyH : y ∈ H
    · exact (hnew y hyH hy hi).1 hlive
    · exact h.resumes y hyH hi hlive
  · intro y hy hwait hsleep
    by_cases hyH : y ∈ H
    · have hi : s.idleProcess ≠ some y := fun hi => hidle y hi hwait
      exact (hnew y hyH hy hi).2 hwait hsleep
    · exact h.sleepers y hyH hwait hsleep

theorem Settled.idle_awake (h : Settled s Q Z H) (hi : s.idleProcess = some x) : s.state x ≠ .waiting :=
  fun hw => (h.off_queue hw (by decide) (by decide)).2 hi

theorem WokenDue.keeps_awake {now : Nat} (h : WokenDue now s Z s' Z') (hx : x ∉ Z) :
    s'.state x = s.state x ∧ s'.onRunQueue x = s.onRunQueue x ∧ x ∉ Z' := by
  have hst : s'.state x = s.state x := by
    by_contra hne
    exact hx (h.due x hne).1
  rcases h.each x with ⟨-, hq, hz⟩ | ⟨hw, hr, -⟩
  · exact ⟨hst, hq, fun hz' => hx (hz.mp hz')⟩
  · rw [hw, hr] at hst
    cases hst

theorem Woken.zombies (h : Woken s Z s' Z') : ZombiesStay s s' := by
  intro y hy
  rw [(h.keeps (x := y) (by rw [hy]; decide)).1]
  exact .inl hy

theorem SameQueues.zombies (h : SameQueues s s') : ZombiesStay s s' := by
  intro y hy
  rw [h.state]
  exact .inl hy

def Outcome (m m' : Machine) : Prop := (∃ Q Z, Inv m' Q Z) ∧ ZombiesStay m.sched m'.sched

section Schedule

variable {events : List Ptr} {next : Ptr} {pc : Pc}

theorem Inv.goto_held (h : Inv m Q Z) (hf : (m.goto s pc).focus = some x) (hset : Settled s Q' Z' {x})
    (hcon : pc.Control s) (hheld : Held (m.goto s pc) Z' x) (hoth : Others m s Z' {x})
    (hi : s.idleProcess = m.sched.idleProcess) : Inv (m.goto s pc) Q' Z' := by
  refine ⟨?_, hcon, ?_, ?_, h.uncalled, fun i hidle => h.idle i (hi.symm.trans hidle), h.onTrack⟩
  · rw [Machine.hand_some hf]
    exact hset
  · intro y hy
    obtain rfl : x = y := some.inj (hf.symm.trans hy)
    exact hheld
  · rw [Machine.hand_some hf]
    exact ⟨hoth.resumes, hoth.sleepers⟩

theorem Inv.goto_free (h : Inv m Q Z) (hf : (m.goto s pc).focus = none) (hset : Settled s Q' Z' ∅)
    (hcon : pc.Control s) (hoth : Others m s Z' ∅) (hi : s.idleProcess = m.sched.idleProcess) :
    Inv (m.goto s pc) Q' Z' := by
  refine ⟨?_, hcon, ?_, ?_, h.uncalled, fun i hidle => h.idle i (hi.symm.trans hidle), h.onTrack⟩
  · rw [Machine.hand_none hf]
    exact hset
  · intro y hy
    rw [hf] at hy
    cases hy
  · rw [Machine.hand_none hf]
    exact ⟨hoth.resumes, hoth.sleepers⟩

theorem Inv.holding (h : Inv m Q Z) (hf : m.focus = some x) :
    Settled m.sched Q Z {x} ∧ Others m m.sched Z {x} ∧ Held m Z x := by
  have hset := h.settled
  have hoth := h.others
  rw [Machine.hand_some hf] at hset hoth
  exact ⟨hset, hoth, h.held x hf⟩

theorem Inv.handsFree (h : Inv m Q Z) (hf : m.focus = none) : Settled m.sched Q Z ∅ ∧ Others m m.sched Z ∅ := by
  have hset := h.settled
  have hoth := h.others
  rw [Machine.hand_none hf] at hset hoth
  exact ⟨hset, hoth⟩

/-- The statements of `process_schedule` that only move on with the process in hand. -/
inductive Pc.Moves : Pc → Pc → Prop
  | enter (next : Ptr) : Moves (.picked next) (.entered next)
  | arm (next : Ptr) : Moves (.marked next) (.armed next)
  | run (next : Ptr) : Moves (.armed next) .running
  | account : Moves .back .accounted
  | keep : Moves .accounted .reclaimed
  | queue : Moves .reclaimed .requeued

/-- What such a statement leaves as it was. -/
structure Moved (m : Machine) (Z : List Ptr) (s : State) (pc : Pc) (x : Ptr) : Prop where
  focus : m.focus = some x
  focus' : (m.goto s pc).focus = some x
  same : SameQueues m.sched s
  control : pc.Control s
  held : Held (m.goto s pc) Z x
  deadline : s.wakeDeadline = m.sched.wakeDeadline
  ticks : s.ticks = m.sched.ticks

theorem Left.same (h : Left m Z x) (hs : SameQueues m.sched s) : Left (m.goto s pc) Z x := by
  obtain ⟨hcase, hsafe⟩ := h
  refine ⟨?_, hsafe⟩
  show (s.state x = .ready ∧ s.onRunQueue x = true) ∨ (s.state x = .waiting ∧ _)
  rw [hs.state, hs.onRunQueue]
  exact hcase

theorem Settled.atWork_of (h : Settled s Q Z H) (hx : s.state x = .running) : View.atWork.Of s Z x := by
  have hq := h.not_queued (x := x) (by rw [hx]; decide)
  have hz : x ∉ Z := h.not_sleeping (by rw [hx]; decide)
  exact ⟨hx, hq, by simp [hz, View.atWork], fun hf => by cases hf⟩

theorem requeue_same (h : m.sched.idleProcess = some x ∨ Left m Z x ∨ m.sched.state x = .unused) :
    requeue m.sched x = m.sched := by
  rw [requeue, if_neg]
  rintro ⟨hready, hi, hq⟩
  rcases h with hidle | ⟨⟨-, hq'⟩ | ⟨hw, -⟩, -⟩ | hu
  · exact hi hidle
  · rw [hq'] at hq
    cases hq
  · rw [hready] at hw
    cases hw
  · rw [hready] at hu
    cases hu

section

variable (h : Inv m Q Z)

include h

theorem Inv.moved {p : Pc} (hp : m.pc = p) (hpc : p.Moves pc) (hm : m.schedule events = some m')
    (hlive : m.pc = .accounted → ∀ x, m.sched.currentProcess = some x → m.sched.state x ≠ .zombie) :
    ∃ s x, m' = m.goto s pc ∧ Moved m Z s pc x := by
  obtain ⟨s, _, call, rest, inTick, inService, derailed⟩ := m
  subst hp
  cases hpc with
  | enter next =>
    obtain rfl := some.inj hm
    exact ⟨_, next, rfl, rfl, rfl, ⟨rfl, rfl, rfl, rfl, rfl, rfl, rfl, rfl⟩, ⟨rfl, h.control.2⟩, h.held next rfl, rfl, rfl⟩
  | arm next =>
    obtain rfl := some.inj hm
    have hcur : s.currentProcess = some next := h.control.1
    exact ⟨_, next, rfl, hcur, hcur, ⟨rfl, rfl, rfl, rfl, rfl, rfl, rfl, rfl⟩, h.control, h.held next hcur, rfl, rfl⟩
  | run next =>
    obtain rfl := some.inj hm
    have hcur : s.currentProcess = some next := h.control.1
    obtain ⟨hrun, hsafe⟩ := h.held next hcur
    refine ⟨s, next, rfl, hcur, hcur, ⟨rfl, rfl, rfl, rfl, rfl, rfl, rfl, rfl⟩, ⟨⟨next, hcur⟩, h.control.2⟩, ?_, rfl, rfl⟩
    exact ⟨fun _ => hrun, fun hi => ⟨.atWork, h.settled.atWork_of hrun, hsafe hi⟩⟩
  | account =>
    obtain ⟨⟨x, hx⟩, hact⟩ : (∃ x, s.currentProcess = some x) ∧ _ := h.control
    obtain rfl : Machine.goto _ (schedulerAccountRuntime s x) .accounted = m' := by
      simpa only [Machine.schedule, hx, some.injEq] using hm
    obtain ⟨hsame, hcontrol⟩ := schedulerAccountRuntime_same s x
    have hcur := hcontrol.current.trans hx
    refine ⟨_, x, rfl, hx, hcur, hsame, ⟨⟨x, hcur⟩, hcontrol.active.trans hact⟩, ?_,
      schedulerAccountRuntime_wakeDeadline s x, hcontrol.ticks⟩
    rcases h.held x hx with hi | hl | hz
    · exact .inl (hcontrol.idle.trans hi)
    · exact .inr (.inl (hl.same hsame))
    · exact .inr (.inr ((congrFun hsame.state x).trans hz))
  | keep =>
    obtain ⟨⟨x, hx⟩, hact⟩ : (∃ x, s.currentProcess = some x) ∧ _ := h.control
    have hne := hlive rfl x hx
    have hkeep : reclaimZombie s x = some s := by rw [reclaimZombie, if_pos hne]
    obtain rfl : Machine.goto _ s .reclaimed = m' := by
      simpa only [Machine.schedule, hx, hkeep, if_neg hne, processWakeAll, map_some, some.injEq] using hm
    refine ⟨s, x, rfl, hx, hx, ⟨rfl, rfl, rfl, rfl, rfl, rfl, rfl, rfl⟩, ⟨⟨x, hx⟩, hact⟩, ?_, rfl, rfl⟩
    rcases h.held x hx with hi | hl | hz
    · exact .inl hi
    · exact .inr (.inl hl)
    · exact absurd hz hne
  | queue =>
    obtain ⟨⟨x, hx⟩, hact⟩ : (∃ x, s.currentProcess = some x) ∧ _ := h.control
    have hheld := h.held x hx
    have hsame : requeue s x = s := requeue_same (m := ⟨s, .reclaimed, call, rest, inTick, inService, derailed⟩) hheld
    obtain rfl : Machine.goto _ s .requeued = m' := by
      simpa only [Machine.schedule, hx, hsame, some.injEq] using hm
    exact ⟨s, x, rfl, hx, hx, ⟨rfl, rfl, rfl, rfl, rfl, rfl, rfl, rfl⟩, ⟨⟨x, hx⟩, hact⟩, hheld, rfl, rfl⟩

theorem Inv.moves_step {p : Pc} (hp : m.pc = p) (hpc : p.Moves pc) (hm : m.schedule events = some m')
    (hlive : m.pc = .accounted → ∀ x, m.sched.currentProcess = some x → m.sched.state x ≠ .zombie) : Outcome m m' := by
  obtain ⟨s, x, rfl, hmoved⟩ := h.moved hp hpc hm hlive
  obtain ⟨hset, hoth, -⟩ := h.holding hmoved.focus
  exact ⟨⟨Q, Z, h.goto_held hmoved.focus' (hmoved.same.settled hset) hmoved.control hmoved.held
    (hoth.same hmoved.same) hmoved.same.idleProcess⟩, hmoved.same.zombies⟩

theorem Inv.top_step (hpc : m.pc = .top) (hm : m.schedule events = some m') : Outcome m m' := by
  have hcon := h.control
  simp only [Pc.Control, hpc] at hcon
  obtain ⟨hset, hoth⟩ := h.handsFree (by simp only [Machine.focus, hpc, hcon.1])
  obtain ⟨s', Q', Z', hw, h', hwoken⟩ := hset.wakeSleepers_spec m.sched.ticks
  obtain rfl : m.goto s' .woken = m' := by
    simpa only [Machine.schedule, hpc, hw, map_some, some.injEq] using hm
  have hcon' := And.intro (hwoken.current.trans hcon.1) (hwoken.active.trans hcon.2)
  exact ⟨⟨Q', Z', h.goto_free hcon'.1 h' hcon' (hoth.woken hwoken.toWoken) hwoken.idle⟩,
    hwoken.toWoken.zombies⟩

theorem Inv.woken_step (hpc : m.pc = .woken) (hm : m.schedule events = some m') : Outcome m m' := by
  have hcon := h.control
  simp only [Pc.Control, hpc] at hcon
  obtain ⟨hset, hoth⟩ := h.handsFree (by simp only [Machine.focus, hpc, hcon.1])
  obtain ⟨s', r, Q', hsel, h', htaken⟩ := hset.select
  obtain ⟨next, hnext, rfl⟩ : ∃ next, r.or s'.idleProcess = some next ∧ m.goto s' (.picked next) = m' := by
    simpa only [Machine.schedule, hpc, hsel, map_eq_some_iff] using hm
  have hpick : ∀ y, r = some y → y = next := by
    rintro y rfl
    exact some.inj hnext
  have hflag : ∀ y, y ≠ next → s'.onRunQueue y = m.sched.onRunQueue y := by
    intro y hy
    rw [Bool.eq_iff_iff, htaken.flag]
    exact and_iff_left (fun hr => hy (hpick y hr))
  have hset' : Settled s' Q' Z {next} := by
    apply h'.mono
    rintro y (hy | hy)
    · cases hy
    · exact hpick y hy
  have hqueued := htaken.queued
  have hfound := htaken.flag
  obtain ⟨n, q, b, f, rfl⟩ := htaken.only
  have hoth' : Others m { m.sched with nextRun := n, readyQueues := q, readyBitmap := b, onRunQueue := f }
      Z {next} := by
    refine (hoth.mono (Set.empty_subset {next})).kept rfl ?_
    intro y hy
    exact .inl ⟨rfl, hflag y hy, Iff.rfl⟩
  refine ⟨⟨Q', Z, h.goto_held rfl hset' hcon ?_ hoth' rfl⟩, fun y hy => .inl hy⟩
  cases r with
  | none =>
    have hi : m.sched.idleProcess = some next := hnext
    obtain ⟨hq, hz⟩ := h'.idle_loose hi
    exact ⟨hq, hz, .inl hi⟩
  | some z =>
    obtain rfl : z = next := hpick z rfl
    have hready := hset.queued z (hqueued z rfl)
    have hq : f z = false := by
      rw [← Bool.not_eq_true]
      exact fun hf => ((hfound z).mp hf).2 rfl
    refine ⟨hq, hset.not_sleeping (by rw [hready.1]; decide), .inr ⟨hready.1, ?_⟩⟩
    exact hoth.resumes z (Set.notMem_empty z) hready.2 (by rw [hready.1]; decide)

theorem Inv.entered_step (hpc : m.pc = .entered next) (hm : m.schedule events = some m') : Outcome m m' := by
  have hcon := h.control
  simp only [Pc.Control, hpc] at hcon
  obtain ⟨hset, hoth, hheld⟩ := h.holding (x := next) (by simp only [Machine.focus, hpc, hcon.1])
  simp only [Held, hpc] at hheld
  obtain ⟨hq, hz, hkind⟩ := hheld
  obtain rfl : m.goto { m.sched with state := update m.sched.state next .running }
      (.marked next) = m' := by
    simpa only [Machine.schedule, hpc, some.injEq] using hm
  have hset' := hset.markRunning (fun _ => rfl) hq hz
  have hoth' : Others m { m.sched with state := update m.sched.state next .running } Z {next} := by
    refine hoth.kept rfl ?_
    intro y hy
    exact .inl ⟨update_of_ne hy _ _, rfl, Iff.rfl⟩
  refine ⟨⟨Q, Z, h.goto_held hcon.1 hset' hcon ⟨update_self next _ _, ?_⟩ hoth' rfl⟩, ?_⟩
  · intro hi
    rcases hkind with hidle | hready
    · exact absurd hidle hi
    · exact hready.2
  · intro y hy
    have hne : y ≠ next := by
      rintro rfl
      rcases hkind with hidle | hready
      · exact (hset.off_queue hy (by decide) (by decide)).2 hidle
      · rw [hready.1] at hy
        cases hy
    exact .inl ((update_of_ne hne _ _).trans hy)

theorem Inv.accounted_step (hpc : m.pc = .accounted) (hm : m.schedule events = some m') : Outcome m m' := by
  have hcon := h.control
  simp only [Pc.Control, hpc] at hcon
  obtain ⟨⟨x, hx⟩, hact⟩ := hcon
  obtain ⟨hset, hoth, hheld⟩ := h.holding (x := x) (by simp only [Machine.focus, hpc, hx])
  simp only [Held, hpc] at hheld
  obtain ⟨s₁, hr, hcontrol, honly, hcase⟩ := hset.reclaimZombie_spec x
  rcases hcase with ⟨hne, rfl⟩ | ⟨hz, hu, h₁⟩
  · exact h.moves_step hpc .keep hm fun _ y hy => some.inj (hx.symm.trans hy) ▸ hne
  · -- the reclaimed process is of no concern to the processes that its event wakes
    obtain ⟨s₂, Q₂, Z₂, hw, h₂, hwoken⟩ := h₁.processWakeAll_spec events
    obtain rfl : m.goto s₂ .reclaimed = m' := by
      simpa only [Machine.schedule, hpc, hx, hr, if_pos hz, hw, map_some,
        some.injEq] using hm
    have hcur := hwoken.current.trans (hcontrol.current.trans hx)
    have hoth₁ : Others m s₁ Z {x} := hoth.frame (Frame.of_only hcontrol honly)
    have hu₂ : s₂.state x = .unused := by rw [(hwoken.keeps (by rw [hu]; decide)).1, hu]
    refine ⟨⟨Q₂, Z₂, h.goto_held hcur (h₂.mono Set.sdiff_subset)
      ⟨⟨x, hcur⟩, hwoken.active.trans (hcontrol.active.trans hact)⟩ (.inr (.inr hu₂))
      (hoth₁.woken hwoken) (hwoken.idle.trans hcontrol.idle)⟩, ?_⟩
    intro y hy
    by_cases hyx : y = x
    · subst hyx
      exact .inr hu₂
    · have hy₁ : s₁.state y = .zombie := (honly.state y hyx).trans hy
      exact .inl ((hwoken.keeps (by rw [hy₁]; decide)).1.trans hy₁)

theorem Inv.requeued_step (hpc : m.pc = .requeued) (hm : m.schedule events = some m') : Outcome m m' := by
  have hcon := h.control
  simp only [Pc.Control, hpc] at hcon
  obtain ⟨⟨x, hx⟩, hact⟩ := hcon
  obtain ⟨hset, hoth, hheld⟩ := h.holding (x := x) (by simp only [Machine.focus, hpc, hx])
  simp only [Held, hpc] at hheld
  obtain rfl : m.goto { m.sched with currentProcess := none } .top = m' := by
    simpa only [Machine.schedule, hpc, some.injEq] using hm
  have hsame : SameQueues m.sched { m.sched with currentProcess := none } :=
    ⟨rfl, rfl, rfl, rfl, rfl, rfl, rfl, rfl⟩
  have hfree : ({x} : Set Ptr) \ {x} = ∅ := sdiff_self
  have hset' := hset.release (x := x) (by
    rcases hheld with hi | ⟨hready | hw, -⟩ | hu
    · exact .inr (.inr (.inr hi))
    · exact .inl hready
    · exact .inr (.inl hw.1)
    · exact .inr (.inr (.inl hu)))
  rw [hfree] at hset'
  have hoth' : Others m m.sched Z ∅ := by
    apply hoth.change
    · rintro y rfl - hi
      rcases hheld with hidle | ⟨hcase, hsafe⟩ | hu
      · exact absurd hidle hi
      · refine ⟨fun _ => hsafe, fun hw hs => ?_⟩
        rcases hcase with ⟨hready, -⟩ | ⟨-, hz⟩
        · rw [hready] at hw
          cases hw
        · exact hz hs
      · refine ⟨fun hne => absurd hu hne, fun hw => ?_⟩
        rw [hu] at hw
        cases hw
    · exact fun y hi => hset.idle_awake hi
  exact ⟨⟨Q, Z, h.goto_free rfl (hsame.settled hset') ⟨rfl, hact⟩ (hoth'.same hsame) rfl⟩, hsame.zombies⟩

theorem Inv.schedule_step (hm : m.schedule events = some m') : Outcome m m' := by
  cases hpc : m.pc with
  | boot => simp [Machine.schedule, hpc] at hm
  | running => simp [Machine.schedule, hpc] at hm
  | top => exact h.top_step hpc hm
  | woken => exact h.woken_step hpc hm
  | picked next => exact h.moves_step hpc (.enter next) hm (by simp [hpc])
  | entered next => exact h.entered_step hpc hm
  | marked next => exact h.moves_step hpc (.arm next) hm (by simp [hpc])
  | armed next => exact h.moves_step hpc (.run next) hm (by simp [hpc])
  | back => exact h.moves_step hpc .account hm (by simp [hpc])
  | accounted => exact h.accounted_step hpc hm
  | reclaimed => exact h.moves_step hpc .queue hm (by simp [hpc])
  | requeued => exact h.requeued_step hpc hm

end

end Schedule

end ProOS.Sched
