import ProOS.Sched.Settled

namespace ProOS.Sched

open ProOS.Framework Function

/-- What the statements of a process depend on in its own entry. -/
structure View where
  state : ProcState
  queued : Bool
  asleep : Bool
  -- the time slice is known to be used up
  spent : Bool
  deriving DecidableEq, Repr

/-- A process that executes outside the functions that give up the processor. -/
def View.atWork : View := ⟨.running, false, false, false⟩

structure View.Of (v : View) (s : State) (Z : List Ptr) (x : Ptr) : Prop where
  state : s.state x = v.state
  queued : s.onRunQueue x = v.queued
  asleep : x ∈ Z ↔ v.asleep = true
  spent : v.spent = true → s.timeSliceRemaining x = 0

/-- The effect of a statement on the view, `none` where it would break the order of the lists. -/
def Stmt.onView (v : View) : Stmt → Option View
  | .resetPriority => some v
  | .setState w =>
    if v.queued ∨ v.asleep then none
    else if v.state = .zombie then none
    else some { v with state := w }
  | .setWakeDeadline _ => some v
  | .clearSlice => some { v with spent := true }
  | .insertSleep => if v.state = .waiting then some { v with asleep := true } else none
  | .removeFromSleep => if v.asleep then none else some v
  | .clearOnRunQueue => if v.queued ∨ v.asleep then none else some v
  | .clearNextRun => if v.queued ∨ v.asleep then none else some v
  | .setExitCode _ => some v
  | .wakeOthers _ => if v.state = .waiting then none else some v
  | .enqueueReady => if v.state = .ready then some { v with queued := true } else none
  | .contextSwitch => some v

/-- What a step of `x` leaves as it was, up to wake-ups of others. -/
structure Frame (x : Ptr) (s : State) (Z : List Ptr) (s' : State) (Z' : List Ptr) : Prop where
  control : SameControl s s'
  each : ∀ y, y ≠ x →
    (s'.state y = s.state y ∧ s'.onRunQueue y = s.onRunQueue y ∧ (y ∈ Z' ↔ y ∈ Z)) ∨
      (s.state y = .waiting ∧ s'.state y = .ready ∧ s'.onRunQueue y = true)

theorem Woken.frame {s s' : State} {Z Z' : List Ptr} (h : Woken s Z s' Z') (x : Ptr) : Frame x s Z s' Z' :=
  ⟨⟨h.current, h.idle, h.active, h.ticks⟩, fun y _ => h.each y⟩

variable {s s' : State} {Q : Nat → List Ptr} {Z : List Ptr} {x : Ptr} {v v' : View}

theorem Frame.of_only (hc : SameControl s s') (ho : OnlyAt x s s') : Frame x s Z s' Z :=
  ⟨hc, fun y hy => .inl ⟨ho.state y hy, ho.onRunQueue y hy, Iff.rfl⟩⟩

def Executes (st : Stmt) (x : Ptr) (s : State) (Z : List Ptr) (v : View) : Prop :=
  ∃ s' Q' Z', st.exec s x = some s' ∧ Settled s' Q' Z' {x} ∧ v.Of s' Z' x ∧ Frame x s Z s' Z'

theorem executes_quiet {st : Stmt} (h : Settled s Q Z {x}) (hv : v.Of s Z x)
    (he : st.exec s x = some s') (hs : SameQueues s s') (hc : SameControl s s')
    (hslice : v'.spent = true → s'.timeSliceRemaining x = 0)
    (hview : v'.state = v.state ∧ v'.queued = v.queued ∧ v'.asleep = v.asleep) : Executes st x s Z v' := by
  obtain ⟨hst, hqu, has⟩ := hview
  refine ⟨s', Q, Z, he, hs.settled h, ⟨?_, ?_, ?_, hslice⟩, hc, fun y _ => ?_⟩
  · rw [hs.state, hst]
    exact hv.state
  · rw [hs.onRunQueue, hqu]
    exact hv.queued
  · rw [has]
    exact hv.asleep
  · rw [hs.state, hs.onRunQueue]
    exact .inl ⟨rfl, rfl, Iff.rfl⟩

theorem executes_only {st : Stmt} (h : Settled s Q Z {x}) (hi : s.idleProcess ≠ some x)
    (hv : v.Of s Z x) (hq : v.queued = false) (hz : v.asleep = false)
    (he : st.exec s x = some s') (ho : OnlyAt x s s') (hc : SameControl s s')
    (hq' : s'.onRunQueue x = false) (hstate : s'.state x = v'.state)
    (hslice : s'.timeSliceRemaining = s.timeSliceRemaining)
    (hview : v'.queued = v.queued ∧ v'.asleep = v.asleep ∧ v'.spent = v.spent) : Executes st x s Z v' := by
  obtain ⟨hqu, has, hsp⟩ := hview
  have hzx : x ∉ Z := fun hm => by
    have := hv.asleep.mp hm
    rw [hz] at this
    cases this
  have h' : Settled s' Q Z {x} :=
    h.only ho (hv.queued.trans hq) hq' hzx (fun he => absurd he hi)
      (fun _ hn => absurd rfl hn) (fun _ _ hy => hy)
  refine ⟨s', Q, Z, he, h', ⟨hstate, ?_, ?_, ?_⟩, Frame.of_only hc ho⟩
  · rw [hq', hqu, hq]
  · rw [has]
    exact hv.asleep
  · rw [hsp, hslice]
    exact hv.spent

theorem off_lists (h : ¬(v.queued = true ∨ v.asleep = true)) : v.queued = false ∧ v.asleep = false := by
  simpa using h

theorem Stmt.executes (st : Stmt) (h : Settled s Q Z {x}) (hi : s.idleProcess ≠ some x)
    (hv : v.Of s Z x) (hst : st.onView v = some v') : Executes st x s Z v' := by
  cases st with
  | resetPriority | setWakeDeadline t | setExitCode code | contextSwitch =>
    obtain rfl : v = v' := by simpa [Stmt.onView] using hst
    exact executes_quiet h hv rfl ⟨rfl, rfl, rfl, rfl, rfl, rfl, rfl, rfl⟩ ⟨rfl, rfl, rfl, rfl⟩
      hv.spent ⟨rfl, rfl, rfl⟩
  | clearSlice =>
    obtain rfl : { v with spent := true } = v' := by simpa [Stmt.onView] using hst
    exact executes_quiet h hv rfl ⟨rfl, rfl, rfl, rfl, rfl, rfl, rfl, rfl⟩ ⟨rfl, rfl, rfl, rfl⟩
      (fun _ => update_self x _ _) ⟨rfl, rfl, rfl⟩
  | setState w =>
    simp only [Stmt.onView] at hst
    split_ifs at hst with hc hzombie
    cases hst
    obtain ⟨hq, hz⟩ := off_lists hc
    exact executes_only h hi hv hq hz rfl
      ⟨fun y hy => update_of_ne hy _ _, fun _ _ => rfl, fun _ _ => rfl, fun _ _ => rfl,
        rfl, rfl, rfl, rfl⟩ ⟨rfl, rfl, rfl, rfl⟩ (hv.queued.trans hq) (update_self x _ _) rfl
      ⟨rfl, rfl, rfl⟩
  | insertSleep =>
    simp only [Stmt.onView] at hst
    split_ifs at hst with hw
    cases hst
    obtain ⟨s', Z', he, ⟨n, l, rfl⟩, hrep, hmem⟩ := schedulerInsertSleep_spec (x := x) h.sleep
    have hstate : s.state x = .waiting := hv.state.trans hw
    have h' : Settled { s with nextSleep := n, sleepList := l } Q Z' {x} := by
      refine ⟨SleepOnly.runRep ⟨n, l, rfl⟩ h.run, hrep, h.queued, ?_, h.idle, h.others⟩
      intro y hy
      rcases (hmem y).mp hy with rfl | hy
      · exact hstate
      · exact h.sleeping y hy
    refine ⟨_, Q, Z', he, h', ⟨hv.state, hv.queued, ?_, hv.spent⟩, ⟨rfl, rfl, rfl, rfl⟩, ?_⟩
    · simp [hmem]
    · intro y hy
      exact .inl ⟨rfl, rfl, by simp [hmem, hy]⟩
  | removeFromSleep =>
    simp only [Stmt.onView] at hst
    split_ifs at hst with hz
    cases hst
    have hzx : x ∉ Z := fun hm => hz (hv.asleep.mp hm)
    exact executes_quiet h hv (schedulerRemoveFromSleep_absent h.sleep hzx)
      ⟨rfl, rfl, rfl, rfl, rfl, rfl, rfl, rfl⟩ ⟨rfl, rfl, rfl, rfl⟩ hv.spent ⟨rfl, rfl, rfl⟩
  | clearOnRunQueue =>
    simp only [Stmt.onView] at hst
    split_ifs at hst with hc
    cases hst
    obtain ⟨hq, hz⟩ := off_lists hc
    exact executes_only h hi hv hq hz rfl
      ⟨fun _ _ => rfl, fun y hy => update_of_ne hy _ _, fun _ _ => rfl, fun _ _ => rfl,
        rfl, rfl, rfl, rfl⟩ ⟨rfl, rfl, rfl, rfl⟩ (update_self x _ _) hv.state rfl
      ⟨rfl, rfl, rfl⟩
  | clearNextRun =>
    simp only [Stmt.onView] at hst
    split_ifs at hst with hc
    cases hst
    obtain ⟨hq, hz⟩ := off_lists hc
    exact executes_only h hi hv hq hz rfl
      ⟨fun _ _ => rfl, fun _ _ => rfl, fun y hy => update_of_ne hy _ _, fun _ _ => rfl,
        rfl, rfl, rfl, rfl⟩ ⟨rfl, rfl, rfl, rfl⟩ (hv.queued.trans hq) hv.state rfl
      ⟨rfl, rfl, rfl⟩
  | wakeOthers ys =>
    simp only [Stmt.onView] at hst
    split_ifs at hst with hw
    cases hst
    obtain ⟨s', Q', Z', he, h', hwoken⟩ := h.processWakeAll_spec ys
    have hkeep := hwoken.keeps (x := x) (by rw [hv.state]; exact hw)
    refine ⟨s', Q', Z', he, h', ⟨?_, ?_, ?_, ?_⟩, hwoken.frame x⟩
    · rw [hkeep.1]
      exact hv.state
    · rw [hkeep.2.1]
      exact hv.queued
    · rw [hkeep.2.2]
      exact hv.asleep
    · rw [hwoken.slice]
      exact hv.spent
  | enqueueReady =>
    simp only [Stmt.onView] at hst
    split_ifs at hst with hr
    cases hst
    obtain ⟨Q', h'⟩ := h.enqueue (hv.state.trans hr) hi
    have honq := schedulerEnqueueReady_onRunQueue hi
    obtain ⟨n, q, b, f, heq⟩ := schedulerEnqueueReady_only s x
    have he : Stmt.enqueueReady.exec s x = _ := congrArg some heq
    rw [heq] at h' honq
    have hf : f = update s.onRunQueue x true := honq
    subst hf
    refine ⟨_, Q', Z, he, h'.mono Set.sdiff_subset,
      ⟨hv.state, update_self x _ _, hv.asleep, hv.spent⟩, ⟨rfl, rfl, rfl, rfl⟩, ?_⟩
    intro y hy
    exact .inl ⟨rfl, update_of_ne hy _ _, Iff.rfl⟩

theorem SameControl.trans {s'' : State} (h₁ : SameControl s s') (h₂ : SameControl s' s'') : SameControl s s'' :=
  ⟨h₂.current.trans h₁.current, h₂.idle.trans h₁.idle, h₂.active.trans h₁.active,
    h₂.ticks.trans h₁.ticks⟩

/-- The view at the context switch that ends the statements. -/
def viewAtSwitch (v : View) : List Stmt → Option View
  | [] => some v
  | .contextSwitch :: _ => some v
  | st :: rest =>
    match st.onView v with
    | none => none
    | some v => viewAtSwitch v rest

theorem runToSwitch_spec {program : List Stmt} (h : Settled s Q Z {x}) (hi : s.idleProcess ≠ some x)
    (hv : v.Of s Z x) (hp : viewAtSwitch v program = some v') :
    ∃ s' Q' Z', runToSwitch s x program = some s' ∧ Settled s' Q' Z' {x} ∧ v'.Of s' Z' x ∧ SameControl s s' := by
  induction program generalizing s Q Z v with
  | nil =>
    obtain rfl : v = v' := by simpa [viewAtSwitch] using hp
    exact ⟨s, Q, Z, rfl, h, hv, ⟨rfl, rfl, rfl, rfl⟩⟩
  | cons st rest ih =>
    by_cases hsw : st = .contextSwitch
    · subst hsw
      obtain rfl : v = v' := by simpa [viewAtSwitch] using hp
      exact ⟨s, Q, Z, rfl, h, hv, ⟨rfl, rfl, rfl, rfl⟩⟩
    · have hnext : viewAtSwitch v (st :: rest) = (st.onView v).bind (viewAtSwitch · rest) := by
        rw [viewAtSwitch]
        · cases st.onView v <;> rfl
        · exact hsw
      have hrun : runToSwitch s x (st :: rest) = (st.exec s x).bind (runToSwitch · x rest) := by
        rw [runToSwitch]
        · cases st.exec s x <;> rfl
        · exact hsw
      rw [hnext] at hp
      cases hview : st.onView v with
      | none =>
        rw [hview] at hp
        cases hp
      | some v₁ =>
        rw [hview] at hp
        obtain ⟨s₁, Q₁, Z₁, he, h₁, hv₁, hframe⟩ := st.executes h hi hv hview
        obtain ⟨s', Q', Z', he', h', hv', hc⟩ :=
          ih h₁ (by rw [hframe.control.idle]; exact hi) hv₁ hp
        exact ⟨s', Q', Z', by rw [hrun, he]; exact he', h', hv', hframe.control.trans hc⟩

end ProOS.Sched
