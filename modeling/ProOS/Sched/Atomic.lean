import ProOS.Sched.Views

namespace ProOS.Sched

open ProOS.Framework Function Option

/-- The order of the ready queues `Q` and the sleep list `Z` between two operations. -/
structure Ordered (s : State) (Q : Nat → List Ptr) (Z : List Ptr) : Prop where
  links : ∀ p < 4, Linked s.nextRun (s.readyQueues p).head (Q p)
  disjoint : ∀ p < 4, ∀ q < 4, p ≠ q → (Q p).Disjoint (Q q)
  flag : ∀ x, s.onRunQueue x = true ↔ ∃! p, p < 4 ∧ x ∈ Q p
  bitmap : ∀ p < 4, s.readyBitmap.getLsbD p = true ↔ Q p ≠ []
  tail : ∀ p < 4, ∀ h : Q p ≠ [], (s.readyQueues p).tail = some ((Q p).getLast h)
  queued : ∀ p < 4, ∀ x ∈ Q p,
    s.state x = .ready ∧ s.currentProcess ≠ some x ∧ s.idleProcess ≠ some x
  sleep : Linked s.nextSleep s.sleepList Z
  sleeping : ∀ x ∈ Z, s.state x = .waiting ∧ ∀ p < 4, x ∉ Q p
  ready : ∀ x, s.state x = .ready → s.idleProcess ≠ some x → ∃ p < 4, x ∈ Q p

/-- Between two operations only the current process is in hand, and it is running. -/
structure AtRest (s : State) (Q : Nat → List Ptr) (Z : List Ptr) : Prop where
  settled : Settled s Q Z {x | s.currentProcess = some x}
  running : ∀ x, s.currentProcess = some x → s.state x = .running

variable {s s' : State} {Q : Nat → List Ptr} {Z : List Ptr} {x : Ptr}

theorem AtRest.ordered (h : AtRest s Q Z) : Ordered s Q Z := by
  have hflag := h.settled.run.flag
  refine ⟨h.settled.run.linked, ?_, ?_, ?_, ?_, ?_, h.settled.sleep, ?_, ?_⟩
  · intro p hp q hq hne x hx hy
    exact hne (h.settled.run.disjoint p hp q hq x hx hy)
  · intro x
    rw [hflag]
    constructor
    · rintro ⟨p, hp, hx⟩
      refine ⟨p, ⟨hp, hx⟩, ?_⟩
      rintro q ⟨hq, hy⟩
      exact h.settled.run.disjoint q hq p hp x hy hx
    · rintro ⟨p, hp, -⟩
      exact ⟨p, hp⟩
  · intro p hp
    rw [h.settled.run.bitmap]
    exact and_iff_right hp
  · intro p hp hne
    rw [h.settled.run.tail p hp]
    exact List.getLast?_eq_some_getLast hne
  · intro p hp x hx
    have hq := h.settled.queued x ((hflag x).mpr ⟨p, hp, hx⟩)
    refine ⟨hq.1, ?_, hq.2⟩
    intro hc
    have hrun := h.running x hc
    rw [hq.1] at hrun
    cases hrun
  · intro x hx
    have hw := h.settled.sleeping x hx
    refine ⟨hw, ?_⟩
    intro p hp hm
    have hr := (h.settled.queued x ((hflag x).mpr ⟨p, hp, hm⟩)).1
    rw [hw] at hr
    cases hr
  · intro x hx hidle
    have hnot : x ∉ {x | s.currentProcess = some x} := by
      intro hc
      have hrun := h.running x hc
      rw [hx] at hrun
      cases hrun
    rcases h.settled.others x hnot hidle with ⟨-, hq⟩ | hw | hu
    · exact (hflag x).mp hq
    · rw [hx] at hw
      cases hw
    · rw [hx] at hu
      cases hu

theorem processSystemInit_atRest : AtRest processSystemInit (fun _ => []) [] := by
  have hinit : processSystemInit =
      { emptySystem.initThread 0 .kernel schedPriorityMax 0 with idleProcess := some 0 } := rfl
  have hclear : ∀ x, update emptySystem.onRunQueue 0 false x ≠ true := by
    intro x
    by_cases hx : x = 0
    · rw [hx, update_self]
      exact Bool.false_ne_true
    · rw [update_of_ne hx]
      exact Bool.false_ne_true
  rw [hinit]
  refine ⟨⟨⟨fun _ _ => rfl, fun _ _ => rfl, ?_, ?_, ?_⟩, rfl, ?_, ?_, ⟨0, rfl, .inl rfl⟩, ?_⟩, ?_⟩
  · intro p _ q _ x hx
    cases hx
  · intro x
    refine ⟨fun hq => absurd hq (hclear x), ?_⟩
    rintro ⟨p, -, hx⟩
    cases hx
  · intro p
    refine ⟨fun hb => ?_, fun hp => absurd rfl hp.2⟩
    have hzero : (0#32).getLsbD p = true := hb
    rw [BitVec.getLsbD_zero] at hzero
    cases hzero
  · intro x hq
    exact absurd hq (hclear x)
  · intro x hx
    cases hx
  · intro x _ hidle
    have hx : x ≠ 0 := fun he => hidle (by rw [he])
    refine Or.inr (.inr ?_)
    show update (update emptySystem.state 0 .unused) 0 .ready x = .unused
    rw [update_of_ne hx, update_of_ne hx]
    rfl
  · intro x hx
    cases hx

theorem AtRest.no_zombie (h : AtRest s Q Z) (x : Ptr) : s.state x ≠ .zombie := by
  intro hz
  have hnot : x ∉ {x | s.currentProcess = some x} := by
    intro hc
    have hrun := h.running x hc
    rw [hz] at hrun
    cases hrun
  have hidle := (h.settled.off_queue hz (by decide) (by decide)).2
  rcases h.settled.others x hnot hidle with ⟨hr, -⟩ | hw | hu
  · rw [hz] at hr
    cases hr
  · rw [hz] at hw
    cases hw
  · rw [hz] at hu
    cases hu

theorem AtRest.of_empty (h : Settled s Q Z ∅) (hc : s.currentProcess = none) : AtRest s Q Z := by
  refine ⟨h.mono (Set.empty_subset _), ?_⟩
  intro x hx
  rw [hc] at hx
  cases hx

section

variable (h : AtRest s Q Z)

include h

theorem AtRest.quiet (hs : SameQueues s s') (hc : s'.currentProcess = s.currentProcess) : AtRest s' Q Z := by
  constructor
  · rw [hc]
    exact hs.settled h.settled
  · rw [hc, hs.state]
    exact h.running

theorem AtRest.woken {Q' : Nat → List Ptr} {Z' : List Ptr}
    (h' : Settled s' Q' Z' {x | s.currentProcess = some x}) (hw : Woken s Z s' Z') : AtRest s' Q' Z' := by
  constructor
  · rw [hw.current]
    exact h'
  · intro x hx
    rw [hw.current] at hx
    have hrun := h.running x hx
    rw [(hw.keeps (x := x) (by rw [hrun]; decide)).1, hrun]

theorem AtRest.create (kind : ThreadKind) (basePriority : Nat) :
    ∃ Q', AtRest (schedulerCreateThread s kind basePriority false).1 Q' Z := by
  rcases h.settled.create_spec h.no_zombie kind basePriority with
    hsame | ⟨s', x, Q', he, hu, h', hcontrol, hstate, -⟩
  · rw [hsame]
    exact ⟨Q, h⟩
  · rw [he]
    refine ⟨Q', ?_, ?_⟩
    · rw [hcontrol.current]
      exact h'
    · intro y hy
      rw [hcontrol.current] at hy
      have hrun := h.running y hy
      have hyx : y ≠ x := by
        rintro rfl
        rw [hu] at hrun
        cases hrun
      rw [hstate, update_of_ne hyx, hrun]

theorem AtRest.current_view (hc : s.currentProcess = some x) : View.atWork.Of s Z x := by
  have hrun := h.running x hc
  refine ⟨hrun, h.settled.not_queued (by rw [hrun]; decide), ?_, fun hf => by cases hf⟩
  have hz : x ∉ Z := h.settled.not_sleeping (by rw [hrun]; decide)
  simp [hz, View.atWork]

theorem AtRest.in_hand (hc : s.currentProcess = some x) : Settled s Q Z {x} := by
  apply h.settled.mono
  intro y hy
  exact some.inj (hy.symm.trans hc)

theorem AtRest.giveUp_spec (program : List Stmt) {v : View} (hp : viewAtSwitch .atWork program = some v)
    (hv : v.state = .ready ∨ v.state = .waiting ∨ v.state = .zombie) :
    ∃ s' Q' Z', giveUp s program = some s' ∧ AtRest s' Q' Z' := by
  cases hc : s.currentProcess with
  | none => exact ⟨s, Q, Z, by simp only [giveUp, hc], h⟩
  | some x =>
    by_cases hi : s.idleProcess = some x
    · exact ⟨s, Q, Z, by simp only [giveUp, hc, if_pos hi], h⟩
    · obtain ⟨s₁, Q₁, Z₁, hr, h₁, hv₁, hcontrol⟩ :=
        runToSwitch_spec (h.in_hand hc) hi (h.current_view hc) hp
      obtain ⟨s₂, Q₂, hb, h₂, hnone⟩ := h₁.switchedBack_spec (hcontrol.current.trans hc) (by
        rw [hv₁.state]
        tauto)
      exact ⟨s₂, Q₂, Z₁, by simp only [giveUp, hc, if_neg hi, hr, hb], AtRest.of_empty h₂ hnone⟩

theorem AtRest.dispatch_spec (hc : s.currentProcess = none) : ∃ s' Q' Z', dispatch s = some s' ∧ AtRest s' Q' Z' := by
  have hempty : Settled s Q Z ∅ := by
    apply h.settled.mono
    intro x hx
    have hx' : s.currentProcess = some x := hx
    rw [hc] at hx'
    cases hx'
  obtain ⟨s₁, Q₁, Z₁, hw, h₁, hwoken⟩ := hempty.wakeSleepers_spec s.ticks
  obtain ⟨s₂, r, Q₂, hsel, h₂, htaken⟩ := h₁.select
  obtain ⟨next, hnext, hheld, hq, hz, hsub⟩ : ∃ next, r.or s₂.idleProcess = some next ∧
      (s₂.idleProcess ≠ some next → next ∈ (∅ ∪ {x | r = some x} : Set Ptr)) ∧
      s₂.onRunQueue next = false ∧ next ∉ Z₁ ∧ ∀ y, r = some y → y = next := by
    cases r with
    | none =>
      obtain ⟨i, hi, -⟩ := h₂.idle
      obtain ⟨hq, hz⟩ := h₂.idle_loose hi
      exact ⟨i, hi, fun hne => absurd hi hne, hq, hz, fun y hy => by cases hy⟩
    | some y =>
      have hq : s₂.onRunQueue y = false := by
        rw [← Bool.not_eq_true, htaken.flag]
        simp
      have hready := (h₁.queued y (htaken.queued y rfl)).1
      exact ⟨y, rfl, fun _ => by simp, hq, h₁.not_sleeping (by rw [hready]; decide),
        fun z hz => (some.inj hz).symm⟩
  have h₃ := h₂.markRunning hheld hq hz
  have hsame : SameQueues { s₂ with state := update s₂.state next .running }
      (schedulerArmTimeslice { s₂ with
        currentProcess := some next, state := update s₂.state next .running } next) :=
    ⟨rfl, rfl, rfl, rfl, rfl, rfl, rfl, rfl⟩
  refine ⟨_, Q₂, Z₁, by simp only [dispatch, hw, hsel, hnext]; rfl, ?_, ?_⟩
  · apply (hsame.settled h₃).mono
    rintro y (hy | hy)
    · cases hy
    · exact congrArg some (hsub y hy).symm
  · intro y hy
    obtain rfl : next = y := some.inj hy
    exact update_self next _ _

theorem AtRest.tick_spec : ∃ s' Q' Z', timerTick s = some s' ∧ AtRest s' Q' Z' := by
  have h₀ : AtRest { s with ticks := (s.ticks + 1) % 2 ^ 64 } Q Z :=
    h.quiet ⟨rfl, rfl, rfl, rfl, rfl, rfl, rfl, rfl⟩ rfl
  unfold timerTick
  generalize ({ s with ticks := (s.ticks + 1) % 2 ^ 64 } : State) = s₀ at h₀ ⊢
  cases ha : s₀.schedulerActive with
  | false => exact ⟨s₀, Q, Z, by simp only [processSchedulerTick, ha, Bool.not_false, if_true], h₀⟩
  | true =>
    obtain ⟨s₁, Q₁, Z₁, hw, h₁, hwoken⟩ := h₀.settled.wakeSleepers_spec s₀.ticks
    have hrest := h₀.woken h₁ hwoken.toWoken
    obtain ⟨r, hr, hres⟩ := processSchedulerTick_result ha hw
    rw [hr]
    cases hres with
    | noCurrent hc => exact ⟨s₁, Q₁, Z₁, rfl, hrest⟩
    | idleStays hc hi hb => exact ⟨s₁, Q₁, Z₁, rfl, hrest⟩
    | idleYields hc hi hb =>
      -- the idle thread leaves the processor as it is
      obtain ⟨s₂, Q₂, hback, h₂, hnone⟩ :=
        (hrest.in_hand hc).switchedBack_spec hc (.inr (.inr (.inr hi)))
      exact ⟨s₂, Q₂, Z₁, hback, AtRest.of_empty h₂ hnone⟩
    | @goesOn x hc hi hr =>
      exact ⟨s₁.spendSlice x, Q₁, Z₁, rfl, hrest.quiet ⟨rfl, rfl, rfl, rfl, rfl, rfl, rfl, rfl⟩ rfl⟩
    | @preempts x hc hi hr =>
      have h₂ : AtRest (s₁.spendSlice x) Q₁ Z₁ :=
        hrest.quiet ⟨rfl, rfl, rfl, rfl, rfl, rfl, rfl, rfl⟩ rfl
      obtain ⟨Q₃, h₃, hcontrol, hstate, -⟩ :=
        (h₂.in_hand hc).preempt_spec rfl (h₂.running x hc) hi true
      obtain ⟨s₄, Q₄, hback, h₄, hnone⟩ := h₃.switchedBack_spec (hcontrol.current.trans hc)
        (.inl (by rw [hstate, update_self]))
      exact ⟨s₄, Q₄, Z₁, hback, AtRest.of_empty h₄ hnone⟩

end

theorem processSetScheduler_same (s : State) (pid : Pid) (policy weight deadlineTicks : Nat) :
    SameQueues s (processSetScheduler s pid policy weight deadlineTicks).1 ∧
      SameControl s (processSetScheduler s pid policy weight deadlineTicks).1 := by
  unfold processSetScheduler
  dsimp only
  split
  · exact ⟨⟨rfl, rfl, rfl, rfl, rfl, rfl, rfl, rfl⟩, ⟨rfl, rfl, rfl, rfl⟩⟩
  · split_ifs <;> exact ⟨⟨rfl, rfl, rfl, rfl, rfl, rfl, rfl, rfl⟩, ⟨rfl, rfl, rfl, rfl⟩⟩

theorem AtRest.perform (h : AtRest s Q Z) (op : Op) (he : op.Enabled s) :
    ∃ s' Q' Z', op.perform s = some s' ∧ AtRest s' Q' Z' := by
  cases op with
  | create =>
    obtain ⟨Q', h'⟩ := h.create .user schedulerDefaultUserPriority
    exact ⟨_, Q', Z, rfl, h'⟩
  | createKernel =>
    obtain ⟨Q', h'⟩ := h.create .kernel schedulerDefaultKernelPriority
    exact ⟨_, Q', Z, rfl, h'⟩
  | start =>
    have hoff : s.schedulerActive = false := he
    refine ⟨{ s with schedulerActive := true }, Q, Z, ?_, ?_⟩
    · simp only [Op.perform, hoff, Bool.false_eq_true, if_false]
    · exact h.quiet ⟨rfl, rfl, rfl, rfl, rfl, rfl, rfl, rfl⟩ rfl
  | dispatch =>
    obtain ⟨s', Q', Z', hd, h'⟩ := h.dispatch_spec he.2
    have hgo : s.schedulerActive = true ∧ s.currentProcess = none := he
    exact ⟨s', Q', Z', by rw [Op.perform, if_pos hgo, hd], h'⟩
  | yield => exact h.giveUp_spec processYield rfl (.inl rfl)
  | block => exact h.giveUp_spec processBlockCurrent rfl (.inr (.inl rfl))
  | sleep ticks => exact h.giveUp_spec (processSleep ticks) rfl (.inr (.inl rfl))
  | exit code cleanup events =>
    exact h.giveUp_spec (processExit code cleanup events) rfl (.inr (.inr rfl))
  | wake x =>
    obtain ⟨s', Q', Z', hr, h', hw⟩ := h.settled.processWake_spec x
    exact ⟨s', Q', Z', hr, h.woken h' hw⟩
  | wakeSleepers =>
    obtain ⟨s', Q', Z', hr, h', hw⟩ := h.settled.wakeSleepers_spec s.ticks
    exact ⟨s', Q', Z', hr, h.woken h' hw.toWoken⟩
  | tick => exact h.tick_spec
  | setScheduler pid policy weight deadlineTicks =>
    obtain ⟨hsame, hcontrol⟩ := processSetScheduler_same s pid policy weight deadlineTicks
    exact ⟨_, Q, Z, rfl, h.quiet hsame hcontrol.current⟩

theorem Op.enabled_of_perform {op : Op} (h : op.perform s = some s') : op.Enabled s := by
  cases op with
  | start =>
    by_contra hoff
    have hon : s.schedulerActive = true := by simpa [Op.Enabled] using hoff
    simp [Op.perform, hon] at h
  | dispatch =>
    by_contra hne
    have hstop : ¬(s.schedulerActive = true ∧ s.currentProcess = none) := hne
    rw [Op.perform, if_neg hstop] at h
    cases h
  | _ => exact trivial

/-- After any sequence of operations the ready queues and the sleep list are in order, and
every operation that may come next ends. -/
theorem scheduler_lists_ordered (ops : List Op) (s : State)
    (hx : Exec Op.Step processSystemInit ops s) :
    (∃ Q Z, Ordered s Q Z) ∧ ∀ op : Op, op.Enabled s → ∃ s', op.perform s = some s' := by
  have hinv : ∃ Q Z, AtRest s Q Z := by
    apply hx.invariant
    · exact ⟨_, _, processSystemInit_atRest⟩
    · rintro s₁ op s₂ ⟨Q, Z, h⟩ hstep
      have hperform := performs_labelled.mp hstep
      obtain ⟨s₂', Q', Z', hr, h'⟩ := h.perform op (Op.enabled_of_perform hperform)
      obtain rfl : s₂' = s₂ := some.inj (hr.symm.trans hperform)
      exact ⟨Q', Z', h'⟩
  obtain ⟨Q, Z, h⟩ := hinv
  refine ⟨⟨Q, Z, h.ordered⟩, ?_⟩
  intro op he
  obtain ⟨s', -, -, hr, -⟩ := h.perform op he
  exact ⟨s', hr⟩

/-- Two threads that run, sleep, are woken and exit. -/
def mixedOps : List Op :=
  [.createKernel, .create, .start, .dispatch, .sleep 2, .tick, .dispatch, .yield, .tick, .dispatch,
    .setScheduler 0 1 0 5, .block, .dispatch, .exit 3 [] [1], .wake 2, .dispatch]

theorem mixedOps_isSome : (performAll Op.performs processSystemInit mixedOps).isSome = true := by
  decide +kernel

def mixedRun : List Op × State := (performAll Op.performs processSystemInit mixedOps).get mixedOps_isSome

theorem scheduler_lists_ordered_mixed :
    Exec Op.Step processSystemInit mixedRun.1 mixedRun.2 ∧
      (∃ Q Z, Ordered mixedRun.2 Q Z) ∧
      ∀ op : Op, op.Enabled mixedRun.2 → ∃ s', op.perform mixedRun.2 = some s' := by
  have hrun : Exec Op.Step processSystemInit mixedRun.1 mixedRun.2 :=
    performAll_get_exec Op.performs mixedOps processSystemInit mixedOps_isSome
  exact ⟨hrun, scheduler_lists_ordered _ _ hrun⟩

end ProOS.Sched
