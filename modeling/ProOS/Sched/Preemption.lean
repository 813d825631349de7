import ProOS.Sched.Invariant
import ProOS.Sched.Atomic

namespace ProOS.Sched

open ProOS.Framework Function Option

variable {m m' : Machine} {s s' : State} {Q Q' : Nat → List Ptr} {Z Z' : List Ptr} {H : Set Ptr}
  {x : Ptr}

section Process

theorem Machine.atWork_eq_some : m.atWork = some x ↔
    m.pc = .running ∧ m.sched.currentProcess = some x ∧ m.inTick x = false := by
  unfold Machine.atWork
  constructor
  · intro h
    split at h
    · rename_i y hpc hy
      split_ifs at h with ht
      cases h
      exact ⟨hpc, hy, by simpa using ht⟩
    · cases h
  · rintro ⟨hpc, hx, ht⟩
    simp only [hpc, hx, ht, Bool.false_eq_true, if_false]

theorem Machine.returning_eq_some : m.returning = some x ↔
    m.pc = .running ∧ m.sched.currentProcess = some x ∧ m.inTick x = true := by
  unfold Machine.returning
  constructor
  · intro h
    split at h
    · rename_i y hpc hy
      split_ifs at h with ht
      cases h
      exact ⟨hpc, hy, ht⟩
    · cases h
  · rintro ⟨hpc, hx, ht⟩
    simp only [hpc, hx, ht, if_true]

theorem Machine.free_eq_some : m.free = some x ↔
    m.atWork = some x ∧ m.sched.idleProcess ≠ some x ∧ m.call x = none := by
  unfold Machine.free
  constructor
  · intro h
    split at h
    · rename_i y hy
      split_ifs at h with hc
      cases h
      exact ⟨hy, hc⟩
    · cases h
  · rintro ⟨hx, hc⟩
    simp only [hx, if_pos hc]

theorem Inv.of_running (hpc : m.pc = .running) (hx : m.sched.currentProcess = some x)
    (hact : m.sched.schedulerActive = true) (hset : Settled m.sched Q Z {x})
    (hoth : Others m m.sched Z {x}) (hheld : Held m Z x) (hun : ∀ y, m.call y = none → m.rest y = [])
    (hidle : ∀ i, m.sched.idleProcess = some i → m.call i = none) (htrack : m.derailed = false) : Inv m Q Z := by
  have hf : m.focus = some x := by simp only [Machine.focus, hpc, hx]
  refine ⟨?_, ?_, ?_, ?_, hun, hidle, htrack⟩
  · rw [Machine.hand_some hf]
    exact hset
  · rw [hpc]
    exact ⟨⟨x, hx⟩, hact⟩
  · intro y hy
    obtain rfl : x = y := some.inj (hf.symm.trans hy)
    exact hheld
  · rw [Machine.hand_some hf]
    exact hoth

theorem Inv.running (h : Inv m Q Z) (hpc : m.pc = .running) (hx : m.sched.currentProcess = some x) :
    Settled m.sched Q Z {x} ∧ Others m m.sched Z {x} ∧ m.sched.schedulerActive = true ∧
      (m.inTick x = true ∨ m.sched.idleProcess = some x → m.sched.state x = .running) ∧
      (m.sched.idleProcess ≠ some x → ∃ v : View, v.Of m.sched Z x ∧ Safe (sleeps (m.call x)) v (m.rest x)) := by
  obtain ⟨hset, hoth, hheld⟩ := h.holding (x := x) (by simp only [Machine.focus, hpc, hx])
  have hcon := h.control
  simp only [Pc.Control, hpc] at hcon
  simp only [Held, hpc] at hheld
  exact ⟨hset, hoth, hcon.2, hheld.1, hheld.2⟩

theorem Inv.free_running (h : Inv m Q Z) (hfree : m.free = some x) : m.sched.state x = .running := by
  obtain ⟨hwork, hi, hcall⟩ := Machine.free_eq_some.mp hfree
  obtain ⟨hpc, hx, -⟩ := Machine.atWork_eq_some.mp hwork
  obtain ⟨-, -, -, -, hview⟩ := h.running hpc hx
  obtain ⟨v, hv, hsafe⟩ := hview hi
  rw [h.uncalled x hcall] at hsafe
  obtain rfl : v = .atWork := hsafe
  exact hv.state

/-- The process at work changes the data, and goes on with what is left of its call. -/
theorem Inv.work (h : Inv m Q Z) (hwork : m.atWork = some x) (hi : m.sched.idleProcess ≠ some x) {c : Option Call}
    {rest : List Stmt} {v : View} (hset : Settled s Q' Z' {x}) (hoth : Others m s Z' {x}) (hc : SameControl m.sched s)
    (hv : v.Of s Z' x) (hsafe : Safe (sleeps c) v rest) (hrest : c = none → rest = []) :
    Inv { m with sched := s, call := update m.call x c, rest := update m.rest x rest } Q' Z' := by
  obtain ⟨hpc, hx, ht⟩ := Machine.atWork_eq_some.mp hwork
  obtain ⟨-, -, hact, -⟩ := h.running hpc hx
  refine Inv.of_running (x := x) hpc (hc.current.trans hx) (hc.active.trans hact) hset ?_ ?_ ?_ ?_ h.onTrack
  · constructor
    · intro y hy hidle hlive
      have hyx : y ≠ x := hy
      simp only [update_of_ne hyx]
      exact hoth.resumes y hy hidle hlive
    · intro y hy hw
      have hyx : y ≠ x := hy
      simp only [update_of_ne hyx]
      exact hoth.sleepers y hy hw
  · simp only [Held, hpc, update_self]
    refine ⟨?_, fun _ => ⟨v, hv, hsafe⟩⟩
    rintro (hin | hidle)
    · rw [ht] at hin
      cases hin
    · exact absurd (hc.idle.symm.trans hidle) hi
  · intro y
    by_cases hyx : y = x
    · subst hyx
      simp only [update_self]
      exact hrest
    · simp only [update_of_ne hyx]
      exact h.uncalled y
  · intro i hidle
    have hidle := hc.idle.symm.trans hidle
    have hix : i ≠ x := fun he => hi (he ▸ hidle)
    simp only [update_of_ne hix]
    exact h.idle i hidle

theorem Inv.free_step (h : Inv m Q Z) (hfree : m.free = some x) (hset : Settled s Q' Z' {x})
    (hoth : Others m s Z' {x}) (hc : SameControl m.sched s) (hx : s.state x = .running) :
    Inv { m with sched := s } Q' Z' := by
  obtain ⟨hwork, hi, hcall⟩ := Machine.free_eq_some.mp hfree
  have hstay := h.work hwork hi hset hoth hc (hset.atWork_of hx) (v := .atWork) (c := m.call x)
    (by rw [h.uncalled x hcall]; rfl) (h.uncalled x)
  rwa [update_eq_self, update_eq_self] at hstay

theorem Inv.wake_step (h : Inv m Q Z) (hfree : m.free = some x) {y : Ptr}
    (hw : processWake m.sched y = some s) : Outcome m { m with sched := s } := by
  obtain ⟨hwork, -⟩ := Machine.free_eq_some.mp hfree
  obtain ⟨hpc, hx, -⟩ := Machine.atWork_eq_some.mp hwork
  obtain ⟨hset, hoth, -⟩ := h.running hpc hx
  have hrun := h.free_running hfree
  obtain ⟨s', Q', Z', hw', h', hwoken⟩ := hset.processWake_spec y
  obtain rfl : s' = s := some.inj (hw'.symm.trans hw)
  refine ⟨⟨Q', Z', h.free_step hfree h' (hoth.woken hwoken)
    ⟨hwoken.current, hwoken.idle, hwoken.active, hwoken.ticks⟩ ?_⟩, hwoken.zombies⟩
  rw [(hwoken.keeps (by rw [hrun]; decide)).1, hrun]

theorem Inv.setScheduler_step (h : Inv m Q Z) (hfree : m.free = some x) (pid : Pid)
    (policy weight deadlineTicks : Nat) :
    Outcome m { m with sched := (processSetScheduler m.sched pid policy weight deadlineTicks).1 } := by
  obtain ⟨hwork, -⟩ := Machine.free_eq_some.mp hfree
  obtain ⟨hpc, hx, -⟩ := Machine.atWork_eq_some.mp hwork
  obtain ⟨hset, hoth, -⟩ := h.running hpc hx
  obtain ⟨hsame, hcontrol⟩ := processSetScheduler_same m.sched pid policy weight deadlineTicks
  refine ⟨⟨Q, Z, h.free_step hfree (hsame.settled hset) (hoth.same hsame) hcontrol ?_⟩, hsame.zombies⟩
  rw [hsame.state]
  exact h.free_running hfree

theorem Inv.call_step (h : Inv m Q Z) (hfree : m.free = some x) (c : Call) :
    Outcome m { m with call := update m.call x (some c), rest := update m.rest x c.program } := by
  obtain ⟨hwork, hi, -⟩ := Machine.free_eq_some.mp hfree
  obtain ⟨hpc, hx, -⟩ := Machine.atWork_eq_some.mp hwork
  obtain ⟨hset, hoth, -⟩ := h.running hpc hx
  exact ⟨⟨Q, Z, h.work hwork hi hset hoth ⟨rfl, rfl, rfl, rfl⟩ (hset.atWork_of (h.free_running hfree)) c.program_safe
    (fun hn => by cases hn)⟩, fun y hy => .inl hy⟩

theorem Others.created (h : Others m s Z H) {y : Ptr} (hu : s.state y = .unused)
    (hs : s'.state = update s.state y .ready) (hq : s'.onRunQueue = update s.onRunQueue y true)
    (hi : s'.idleProcess = s.idleProcess) :
    Others { m with
      sched := s', call := update m.call y none, rest := update m.rest y []
      inTick := update m.inTick y false } s' Z H := by
  constructor
  · intro z hz hidle hlive
    by_cases hzy : z = y
    · subst hzy
      simp only [update_self]
      rfl
    · simp only [update_of_ne hzy]
      rw [hi] at hidle
      rw [hs, update_of_ne hzy] at hlive
      exact h.resumes z hz hidle hlive
  · intro z hz hw
    by_cases hzy : z = y
    · subst hzy
      rw [hs, update_self] at hw
      cases hw
    · simp only [update_of_ne hzy]
      rw [hs, update_of_ne hzy] at hw
      exact h.sleepers z hz hw

theorem Inv.no_zombie (h : Inv m Q Z) (hwho : m.pc = .boot ∨ m.free.isSome = true) (y : Ptr) :
    m.sched.state y ≠ .zombie := by
  intro hz
  have hidle := (h.settled.off_queue hz (by decide) (by decide)).2
  have hnot : y ∉ m.hand := by
    intro hy
    rcases hwho with hpc | hfree
    · have hcon := h.control
      simp only [Pc.Control, hpc] at hcon
      have hf : m.focus = none := by simp only [Machine.focus, hpc, hcon.1]
      rw [Machine.hand_none hf] at hy
      cases hy
    · obtain ⟨x, hx⟩ := isSome_iff_exists.mp hfree
      obtain ⟨hwork, -⟩ := Machine.free_eq_some.mp hx
      obtain ⟨hpc, hcur, -⟩ := Machine.atWork_eq_some.mp hwork
      have hf : m.focus = some x := by simp only [Machine.focus, hpc, hcur]
      rw [Machine.hand_some hf] at hy
      obtain rfl : y = x := hy
      have hrun := h.free_running hx
      rw [hz] at hrun
      cases hrun
  rcases h.settled.others y hnot hidle with ⟨hr, -⟩ | hw | hu
  · rw [hz] at hr
    cases hr
  · rw [hz] at hw
    cases hw
  · rw [hz] at hu
    cases hu

theorem Inv.create_step (h : Inv m Q Z) {kind : ThreadKind} {basePriority : Nat}
    (hm : m.created (schedulerCreateThread m.sched kind basePriority false) = some m') : Outcome m m' := by
  unfold Machine.created at hm
  split_ifs at hm with hwho
  have hnz := h.no_zombie hwho
  rcases h.settled.create_spec hnz kind basePriority with
    hfull | ⟨s', y, Q', he, hu, h', hcontrol, hstate, honq⟩
  · rw [hfull] at hm
    cases hm
    exact ⟨⟨Q, Z, h⟩, fun y hy => .inl hy⟩
  · rw [he] at hm
    cases hm
    have hfocus : ({ m with
        sched := s'
        call := update m.call y none
        rest := update m.rest y []
        inTick := update m.inTick y false } : Machine).focus = m.focus := by
      simp only [Machine.focus, hcontrol.current]
    have hoth := h.others.created hu hstate honq hcontrol.idle
    have hcon : m.pc.Control s' := by
      have hcon := h.control
      cases hpc : m.pc <;> simp only [Pc.Control, hpc, hcontrol.current, hcontrol.active] at hcon ⊢ <;>
        exact hcon
    refine ⟨⟨Q', Z, ?_, hcon, ?_, ?_, ?_, ?_, h.onTrack⟩, ?_⟩
    · show Settled s' Q' Z {x | _}
      rw [hfocus]
      exact h'
    · intro x hx
      rw [hfocus] at hx
      rcases hwho with hpc | hfree
      · simp only [Held, hpc]
      · obtain ⟨x', hx'⟩ := isSome_iff_exists.mp hfree
        obtain ⟨hwork, hi, hcall⟩ := Machine.free_eq_some.mp hx'
        obtain ⟨hpc, hcur, -⟩ := Machine.atWork_eq_some.mp hwork
        have hf : m.focus = some x' := by simp only [Machine.focus, hpc, hcur]
        obtain rfl : x' = x := some.inj (hf.symm.trans hx)
        have hrun := h.free_running hx'
        have hxy : x' ≠ y := by
          rintro rfl
          rw [hu] at hrun
          cases hrun
        have hrun' : s'.state x' = .running := by rw [hstate, update_of_ne hxy, hrun]
        simp only [Held, hpc, update_of_ne hxy]
        refine ⟨fun _ => hrun', fun _ => ⟨.atWork, h'.atWork_of hrun', ?_⟩⟩
        rw [h.uncalled x' hcall]
        rfl
    · show Others _ s' Z {x | _}
      rw [hfocus]
      exact hoth
    · intro z
      by_cases hzy : z = y
      · subst hzy
        exact fun _ => update_self _ _ _
      · simp only [update_of_ne hzy]
        exact h.uncalled z
    · intro i hi
      by_cases hiy : i = y
      · subst hiy
        exact update_self _ _ _
      · simp only [update_of_ne hiy]
        exact h.idle i (hcontrol.idle.symm.trans hi)
    · exact fun z hz => absurd hz (hnz z)

theorem Inv.start_step (h : Inv m Q Z) (hpc : m.pc = .boot) :
    Outcome m { m with sched := { m.sched with schedulerActive := true }, pc := .top } := by
  have hcon := h.control
  simp only [Pc.Control, hpc] at hcon
  obtain ⟨hset, hoth⟩ := h.handsFree (by simp only [Machine.focus, hpc, hcon.1])
  have hsame : SameQueues m.sched { m.sched with schedulerActive := true } :=
    ⟨rfl, rfl, rfl, rfl, rfl, rfl, rfl, rfl⟩
  have hfree : Inv (m.goto { m.sched with schedulerActive := true } .top) Q Z :=
    h.goto_free hcon.1 (hsame.settled hset) ⟨hcon.1, rfl⟩ (hoth.same hsame) rfl
  exact ⟨⟨Q, Z, hfree⟩, hsame.zombies⟩

theorem Inv.ret_step (h : Inv m Q Z) (hm : m.ret = some m') : Outcome m m' := by
  unfold Machine.ret at hm
  split at hm
  · cases hm
  · rename_i x hwork
    obtain ⟨hpc, hx, -⟩ := Machine.atWork_eq_some.mp hwork
    obtain ⟨hset, hoth, -, -, hview⟩ := h.running hpc hx
    obtain ⟨hrest, hcall, rfl⟩ : m.rest x = [] ∧ m.call x ≠ none ∧
        { m with call := update m.call x none } = m' := by
      split at hm
      · rename_i c hc hr
        split_ifs at hm
        exact ⟨hr, by rw [hc]; exact some_ne_none c, some.inj hm⟩
      · cases hm
    have hi : m.sched.idleProcess ≠ some x := fun hi => hcall (h.idle x hi)
    obtain ⟨v, hv, hsafe⟩ := hview hi
    rw [hrest] at hsafe
    have hdone := h.work hwork hi hset hoth ⟨rfl, rfl, rfl, rfl⟩ hv (c := none) (show Safe _ v [] from hsafe) (fun _ => rfl)
    rw [← hrest, update_eq_self] at hdone
    exact ⟨⟨Q, Z, hdone⟩, fun y hy => .inl hy⟩

theorem Others.advance (h : Others m s Z {x}) (rest : List Stmt) {pc : Pc} :
    Others { m with sched := s, rest := update m.rest x rest, pc := pc } s Z {x} := by
  refine ⟨fun y hy hidle hlive => ?_, h.sleepers⟩
  have hyx : y ≠ x := hy
  simp only [update_of_ne hyx]
  exact h.resumes y hy hidle hlive

theorem uncalled_advance (hun : ∀ y, m.call y = none → m.rest y = []) (hx : m.call x ≠ none)
    (rest : List Stmt) (y : Ptr) : m.call y = none → update m.rest x rest y = [] := by
  intro hy
  have hyx : y ≠ x := fun he => hx (he ▸ hy)
  rw [update_of_ne hyx]
  exact hun y hy

theorem Inv.stmt_step (h : Inv m Q Z) (hm : m.stmt = some m') : Outcome m m' := by
  unfold Machine.stmt at hm
  split at hm
  · cases hm
  · rename_i x hwork
    obtain ⟨hpc, hx, -⟩ := Machine.atWork_eq_some.mp hwork
    obtain ⟨hset, hoth, hact, -, hview⟩ := h.running hpc hx
    split at hm
    · cases hm
    · rename_i st rest hrest
      have hcall : m.call x ≠ none := by
        intro hn
        rw [h.uncalled x hn] at hrest
        cases hrest
      have hi : m.sched.idleProcess ≠ some x := fun hi => hcall (h.idle x hi)
      obtain ⟨v, hv, hsafe⟩ := hview hi
      rw [hrest] at hsafe
      obtain ⟨s', hexec, rfl⟩ := map_eq_some_iff.mp hm
      by_cases hsw : st = .contextSwitch
      · -- the process leaves the processor
        subst hsw
        obtain rfl : m.sched = s' := some.inj hexec
        obtain ⟨hleaves, hsafe'⟩ : v.Leaves (sleeps (m.call x)) ∧ Safe (sleeps (m.call x)) .atWork rest := by
          simpa only [if_true] using hsafe.2
        have hf : ({ m with rest := update m.rest x rest, pc := .back } : Machine).focus = some x := hx
        refine ⟨⟨Q, Z, ?_, ?_, ?_, ?_, uncalled_advance h.uncalled hcall rest, h.idle, h.onTrack⟩,
          fun y hy => .inl hy⟩
        · simp only [if_true]
          rw [Machine.hand_some hf]
          exact hset
        · exact ⟨⟨x, hx⟩, hact⟩
        · intro y hy
          obtain rfl : x = y := some.inj (hf.symm.trans hy)
          have hself : Safe (sleeps (m.call x)) .atWork (update m.rest x rest x) := by
            rw [update_self]
            exact hsafe'
          rcases hleaves with ⟨hr, hq⟩ | ⟨hw, has⟩ | hz
          · exact .inr (.inl ⟨.inl ⟨hv.state.trans hr, hv.queued.trans hq⟩, hself⟩)
          · exact .inr (.inl ⟨.inr ⟨hv.state.trans hw, fun hs => hv.asleep.mpr (has hs)⟩, hself⟩)
          · exact .inr (.inr (hv.state.trans hz))
        · simp only [if_true]
          rw [Machine.hand_some hf]
          exact hoth.advance rest
      · obtain ⟨v', hstep, hsafe'⟩ : ∃ v', st.onView v = some v' ∧ Safe (sleeps (m.call x)) v' rest := by
          simpa only [if_neg hsw] using hsafe.2
        obtain ⟨s₁, Q₁, Z₁, hexec₁, h₁, hv₁, hframe⟩ := st.executes hset hi hv hstep
        obtain rfl : s₁ = s' := some.inj (hexec₁.symm.trans hexec)
        have hstep' := h.work hwork hi h₁ (hoth.frame hframe) hframe.control hv₁ hsafe' (fun hn => absurd hn hcall)
        rw [update_eq_self] at hstep'
        simp only [if_neg hsw]
        refine ⟨⟨Q₁, Z₁, hstep'⟩, ?_⟩
        intro y hy
        by_cases hyx : y = x
        · subst hyx
          rw [hv.state] at hy
          exact .inl (hv₁.state.trans (Stmt.onView_zombie hstep hy))
        · rcases hframe.each y hyx with ⟨hs, -, -⟩ | ⟨hw, -, -⟩
          · exact .inl (hs.trans hy)
          · rw [hy] at hw
            cases hw

theorem Inv.irqReturn_step (h : Inv m Q Z) (hm : m.irqReturn = some m') : Outcome m m' := by
  unfold Machine.irqReturn at hm
  split at hm
  · cases hm
  · rename_i x hret
    cases hm
    obtain ⟨hpc, hx, ht⟩ := Machine.returning_eq_some.mp hret
    obtain ⟨hset, hoth, hact, hstate, hview⟩ := h.running hpc hx
    have hrun := hstate (.inl ht)
    have hkeep : update m.sched.state x .running = m.sched.state := by
      rw [← hrun, update_eq_self]
    have hself : ({ m.sched with state := m.sched.state } : State) = m.sched := rfl
    rw [hkeep, hself]
    refine ⟨⟨Q, Z, Inv.of_running (m := { m with
      inTick := update m.inTick x false
      inService := false }) (x := x) hpc hx hact hset ⟨hoth.resumes, hoth.sleepers⟩ ?_ h.uncalled
      h.idle h.onTrack⟩, fun y hy => .inl hy⟩
    simp only [Held, hpc]
    exact ⟨fun _ => hrun, hview⟩

end Process

section Tick

theorem Held.same (h : Held m Z x) (hs : SameQueues m.sched s)
    (hslice : m.sched.timeSliceRemaining x = 0 → s.timeSliceRemaining x = 0) : Held { m with sched := s } Z x := by
  unfold Held Left at h ⊢
  rw [hs.state, hs.onRunQueue, hs.idleProcess]
  cases hpc : m.pc with
  | running =>
    simp only [hpc] at h ⊢
    refine ⟨h.1, fun hi => ?_⟩
    obtain ⟨v, hv, hsafe⟩ := h.2 hi
    refine ⟨v, ⟨?_, ?_, hv.asleep, fun hsp => hslice (hv.spent hsp)⟩, hsafe⟩
    · rw [hs.state]
      exact hv.state
    · rw [hs.onRunQueue]
      exact hv.queued
  | _ =>
    simp only [hpc] at h ⊢
    try exact h

theorem Pc.Control.same {pc : Pc} (h : pc.Control s) (hc : s'.currentProcess = s.currentProcess)
    (ha : s'.schedulerActive = s.schedulerActive) : pc.Control s' := by
  unfold Pc.Control at h ⊢
  rw [hc, ha]
  exact h

theorem Machine.focus_same (hc : s.currentProcess = m.sched.currentProcess) :
    ({ m with sched := s } : Machine).focus = m.focus := by
  simp only [Machine.focus, hc]

theorem Inv.replace (h : Inv m Q Z) (hc : s.currentProcess = m.sched.currentProcess)
    (ha : s.schedulerActive = m.sched.schedulerActive) (hi : s.idleProcess = m.sched.idleProcess)
    (hset : Settled s Q' Z' m.hand) (hoth : Others m s Z' m.hand)
    (hheld : ∀ x, m.focus = some x → Held { m with sched := s } Z' x) : Inv { m with sched := s } Q' Z' := by
  have hf := Machine.focus_same hc
  have hhand : ({ m with sched := s } : Machine).hand = m.hand := by
    unfold Machine.hand
    rw [hf]
  refine ⟨?_, h.control.same hc ha, ?_, ?_, h.uncalled, fun i hidle => h.idle i (hi.symm.trans hidle),
    h.onTrack⟩
  · rw [hhand]
    exact hset
  · intro x hx
    rw [hf] at hx
    exact hheld x hx
  · rw [hhand]
    exact ⟨hoth.resumes, hoth.sleepers⟩

theorem Inv.quiet (h : Inv m Q Z) (hs : SameQueues m.sched s) (hc : s.currentProcess = m.sched.currentProcess)
    (ha : s.schedulerActive = m.sched.schedulerActive)
    (hslice : ∀ x, m.sched.timeSliceRemaining x = 0 → s.timeSliceRemaining x = 0) : Inv { m with sched := s } Q Z :=
  h.replace hc ha hs.idleProcess (hs.settled h.settled) (h.others.same hs)
    (fun x hx => (h.held x hx).same hs (hslice x))

theorem Held.woken {now : Nat} (h : Held m Z x) (hset : Settled m.sched Q Z H) (hw : WokenDue now m.sched Z s Z')
    (hz : m.pc = .running → m.sched.idleProcess ≠ some x → x ∉ Z) : Held { m with sched := s } Z' x := by
  have hleft : Left m Z x → Left { m with sched := s } Z' x := by
    rintro ⟨hcase, hsafe⟩
    refine ⟨?_, hsafe⟩
    rcases hw.each x with ⟨hs, hq, hzz⟩ | ⟨-, hr, hq⟩
    · show (s.state x = .ready ∧ s.onRunQueue x = true) ∨ (s.state x = .waiting ∧ _)
      rw [hs, hq, hzz]
      exact hcase
    · exact .inl ⟨hr, hq⟩
  have hkeep : m.sched.state x ≠ .waiting → s.state x = m.sched.state x ∧
      s.onRunQueue x = m.sched.onRunQueue x ∧ (x ∈ Z' ↔ x ∈ Z) := fun hne => hw.keeps hne
  unfold Held at h ⊢
  cases hpc : m.pc with
  | boot | top | woken => exact trivial
  | picked next | entered next =>
    simp only [hpc] at h ⊢
    obtain ⟨hq, hzx, hkind⟩ := h
    have hne : m.sched.state x ≠ .waiting := by
      rcases hkind with hi | ⟨hr, -⟩
      · exact hset.idle_awake hi
      · rw [hr]
        decide
    obtain ⟨hs, hq', hz'⟩ := hkeep hne
    rw [hs, hq', hz', hw.idle]
    exact ⟨hq, hzx, hkind⟩
  | marked next | armed next =>
    simp only [hpc] at h ⊢
    rw [(hkeep (by rw [h.1]; decide)).1, hw.idle]
    exact h
  | running =>
    simp only [hpc] at h ⊢
    rw [hw.idle]
    refine ⟨fun hin => ?_, fun hi => ?_⟩
    · have hrun := h.1 hin
      rw [(hkeep (by rw [hrun]; decide)).1, hrun]
    · obtain ⟨v, hv, hsafe⟩ := h.2 hi
      have hzx := hz hpc hi
      obtain ⟨hs, hq, hz'⟩ := hw.keeps_awake hzx
      refine ⟨v, ⟨?_, ?_, ?_, ?_⟩, hsafe⟩
      · rw [hs]
        exact hv.state
      · rw [hq]
        exact hv.queued
      · rw [← hv.asleep]
        exact iff_of_false hz' hzx
      · rw [hw.slice]
        exact hv.spent
  | back | accounted =>
    simp only [hpc] at h ⊢
    rw [hw.idle]
    rcases h with hi | hl | hzom
    · exact .inl hi
    · exact .inr (.inl (hleft hl))
    · exact .inr (.inr (by rw [(hkeep (by rw [hzom]; decide)).1, hzom]))
  | reclaimed | requeued =>
    simp only [hpc] at h ⊢
    rw [hw.idle]
    rcases h with hi | hl | hu
    · exact .inl hi
    · exact .inr (.inl (hleft hl))
    · exact .inr (.inr (by rw [(hkeep (by rw [hu]; decide)).1, hu]))

theorem Inv.asleep_spent (h : Inv m Q Z) (hpc : m.pc = .running) (hx : m.sched.currentProcess = some x)
    (hi : m.sched.idleProcess ≠ some x) (hz : x ∈ Z) : m.sched.timeSliceRemaining x = 0 := by
  obtain ⟨-, -, -, -, hview⟩ := h.running hpc hx
  obtain ⟨v, hv, hsafe⟩ := hview hi
  exact hv.spent (hsafe.ok.2 (hv.asleep.mp hz))

theorem wakeSleepers_none_due {now : Nat} (h : ∀ z, s.sleepList = some z → now < s.wakeDeadline z) :
    wakeSleepers s now = some s := by
  rw [wakeSleepers, wakeSleepersLoop]
  cases hl : s.sleepList with
  | none => rfl
  | some z => simp only [if_neg (not_le.mpr (h z hl))]

theorem Inv.interrupted (h : Inv m Q Z) (hpc : m.pc = .back) (t : Ptr → Bool) (b : Bool) :
    Inv { m with inTick := t, inService := b } Q Z := by
  refine ⟨h.settled, h.control, ?_, ⟨h.others.resumes, h.others.sleepers⟩, h.uncalled, h.idle, h.onTrack⟩
  intro x hx
  have hheld := h.held x hx
  simp only [Held, hpc] at hheld ⊢
  exact hheld

theorem Inv.wake_due (h : Inv m Q Z) (hk : InTime m .tick)
    (hs₀ : { m.sched with ticks := (m.sched.ticks + 1) % 2 ^ 64 } = s) :
    ∃ s₁ Q₁ Z₁, wakeSleepers s s.ticks = some s₁ ∧ WokenDue s.ticks s Z s₁ Z₁ ∧ Inv { m with sched := s₁ } Q₁ Z₁ := by
  have h₀ : Inv { m with sched := s } Q Z := by
    subst hs₀
    exact h.quiet ⟨rfl, rfl, rfl, rfl, rfl, rfl, rfl, rfl⟩ rfl rfl (fun _ hx => hx)
  obtain ⟨s₁, Q₁, Z₁, hw, h₁, hwoken⟩ := h₀.settled.wakeSleepers_spec s.ticks
  refine ⟨s₁, Q₁, Z₁, hw, hwoken, ?_⟩
  apply h₀.replace (s := s₁) hwoken.current hwoken.active hwoken.idle h₁ (h₀.others.woken hwoken.toWoken)
  intro x hx
  apply (h₀.held x hx).woken h₀.settled hwoken
  intro hpc hi hz
  -- a process in hand that sleeps has no time left, so the tick would find it running
  subst hs₀
  have hcur : m.sched.currentProcess = some x := by
    simpa only [Machine.focus, show m.pc = .running from hpc] using hx
  have hspent := h.asleep_spent hpc hcur hi hz
  have htakes : TakesOver m.sched x := by
    rw [TakesOver, if_neg hi, hspent]
    exact Nat.zero_le 1
  have hrun := (hk rfl x hcur htakes).2
  exact h.settled.not_sleeping (by rw [hrun]; decide) hz

theorem takesOver_of_idle {s₀ s₁ : State} (hs₀ : { m.sched with ticks := (m.sched.ticks + 1) % 2 ^ 64 } = s₀)
    (hw : wakeSleepers s₀ s₀.ticks = some s₁) (hidle : s₁.idleProcess = m.sched.idleProcess)
    (hi : s₁.idleProcess = some x) (hb : s₁.readyBitmap ≠ 0#32) : TakesOver m.sched x := by
  rw [TakesOver, if_pos (hidle.symm.trans hi)]
  by_contra hnot
  rw [not_or, not_not, not_exists] at hnot
  have hnone : wakeSleepers s₀ s₀.ticks = some s₀ := wakeSleepers_none_due (by
    intro z hz
    subst hs₀
    exact not_le.mp (fun hle => hnot.2 z ⟨hz, hle⟩))
  obtain rfl : s₀ = s₁ := some.inj (hnone.symm.trans hw)
  exact hb (by rw [← hs₀]; exact hnot.1)

/-- The processes that a walk of the sleep list meets. -/
def sleeperList (s : State) : List Ptr := (chain s.nextSleep listFuel s.sleepList).getD []

/-- The processes that are ready, or that the next tick makes ready. -/
def ReadyAtTick (s : State) (y : Ptr) : Prop :=
  s.onRunQueue y = true ∨ (y ∈ sleeperList s ∧ s.wakeDeadline y ≤ (s.ticks + 1) % 2 ^ 64)

theorem Settled.sleeperList_eq (h : Settled s Q Z H) : sleeperList s = Z := by
  have hlen := length_le_maxProcs h.sleep
  have hchain := chain_of_linked h.sleep (n := listFuel) (by simp only [listFuel]; omega)
  rw [sleeperList, hchain, getD_some]

theorem readyAtTick_of_woken (hset : Settled m.sched Q Z H)
    (hs : { m.sched with ticks := (m.sched.ticks + 1) % 2 ^ 64 } = s)
    (hw : WokenDue s.ticks s Z s' Z') (y : Ptr) (hy : s'.onRunQueue y = true) : ReadyAtTick m.sched y := by
  subst hs
  by_cases hsame : s'.state y = m.sched.state y
  · rcases hw.each y with ⟨-, hq, -⟩ | ⟨hwait, hr, -⟩
    · exact .inl (hq.symm.trans hy)
    · rw [hr] at hsame
      rw [← hsame] at hwait
      cases hwait
  · obtain ⟨hz, hle⟩ := hw.due y hsame
    exact .inr ⟨by rw [hset.sleeperList_eq]; exact hz, hle⟩

/-- What a tick does: it lets the current process go on, or takes the processor from it. -/
inductive Ticked (m : Machine) : Machine → Prop
  | stays (s : State) : Ticked m { m with sched := s }
  | takes {s : State} {Q : Nat → List Ptr} {Z : List Ptr} {H : Set Ptr} {x : Ptr}
      (hcur : m.sched.currentProcess = some x) (htakes : TakesOver m.sched x) (hc : s.currentProcess = some x)
      (hset : Settled s Q Z H) (hready : ∀ y, s.onRunQueue y = true → y = x ∨ ReadyAtTick m.sched y)
      (hdue : ∀ y ∈ Z, s.wakeDeadline y ≤ s.ticks → ReadyAtTick m.sched y)
      (hsome : ∃ y, s.onRunQueue y = true) (hlive : s.state x ≠ .zombie) :
      Ticked m { m with sched := s, pc := .back, inTick := update m.inTick x true, inService := true }

theorem Inv.tick_step (h : Inv m Q Z) (hk : InTime m .tick) (hm : m.tick = some m') : Outcome m m' ∧ Ticked m m' := by
  unfold Machine.tick at hm
  split_ifs at hm with hblocked
  generalize hs₀ : ({ m.sched with ticks := (m.sched.ticks + 1) % 2 ^ 64 } : State) = s₀ at hm
  have hact₀ : s₀.schedulerActive = m.sched.schedulerActive := by rw [← hs₀]
  have hstate₀ : s₀.state = m.sched.state := by rw [← hs₀]
  cases ha : m.sched.schedulerActive with
  | false =>
    have htick : processSchedulerTick s₀ = some (s₀, false) := by
      simp only [processSchedulerTick, hact₀, ha, Bool.not_false, if_true]
    rw [htick] at hm
    cases hm
    refine ⟨⟨⟨Q, Z, ?_⟩, fun x hx => .inl ((congrFun hstate₀ x).trans hx)⟩, .stays s₀⟩
    subst hs₀
    exact h.quiet ⟨rfl, rfl, rfl, rfl, rfl, rfl, rfl, rfl⟩ rfl rfl (fun _ hx => hx)
  | true =>
    obtain ⟨s₁, Q₁, Z₁, hw, hwoken, h₁⟩ := h.wake_due hk hs₀
    have hzom : ZombiesStay m.sched s₁ := by
      intro x hx
      exact hwoken.toWoken.zombies x ((congrFun hstate₀ x).trans hx)
    have hcur : s₁.currentProcess = m.sched.currentProcess := by rw [hwoken.current, ← hs₀]
    have hidle : s₁.idleProcess = m.sched.idleProcess := by rw [hwoken.idle, ← hs₀]
    have hslice : s₁.timeSliceRemaining = m.sched.timeSliceRemaining := by rw [hwoken.slice, ← hs₀]
    have hready := readyAtTick_of_woken h.settled hs₀ hwoken
    have hdue : ∀ y ∈ Z₁, s₁.wakeDeadline y ≤ s₁.ticks → ReadyAtTick m.sched y := by
      intro y hy hle
      obtain ⟨hz, hdead⟩ := hwoken.asleep y hy
      rw [hdead, hwoken.ticks] at hle
      subst hs₀
      exact .inr ⟨by rw [h.settled.sleeperList_eq]; exact hz, hle⟩
    obtain ⟨r, htick, hres⟩ := processSchedulerTick_result (hact₀.trans ha) hw
    rw [htick] at hm
    cases hres with
    | noCurrent hc =>
      cases hm
      exact ⟨⟨⟨Q₁, Z₁, h₁⟩, hzom⟩, .stays s₁⟩
    | idleStays hc hi hb =>
      cases hm
      exact ⟨⟨⟨Q₁, Z₁, h₁⟩, hzom⟩, .stays s₁⟩
    | @goesOn x hc hi hr =>
      cases hm
      refine ⟨⟨⟨Q₁, Z₁, ?_⟩, hzom⟩, .stays _⟩
      apply h₁.quiet (s := s₁.spendSlice x) ⟨rfl, rfl, rfl, rfl, rfl, rfl, rfl, rfl⟩ rfl rfl
      intro y hy
      have hzero : s₁.timeSliceRemaining y = 0 := hy
      show update s₁.timeSliceRemaining x _ y = 0
      by_cases hyx : y = x
      · rw [hyx, update_self, ← hyx, hzero]
      · rw [update_of_ne hyx, hzero]
    | @idleYields x hc hi hb =>
      have htakes := takesOver_of_idle hs₀ hw hidle hi hb
      obtain ⟨hpc, -⟩ := hk rfl x (hcur.symm.trans hc) htakes
      simp only [hpc, hc] at hm
      cases hm
      obtain ⟨hset, hoth, hact, -⟩ := h₁.running hpc hc
      have hback : Inv (({ m with sched := s₁ } : Machine).goto s₁ .back) Q₁ Z₁ :=
        h₁.goto_held hc hset ⟨⟨x, hc⟩, hact⟩ (.inl hi) hoth rfl
      exact ⟨⟨⟨Q₁, Z₁, hback.interrupted rfl _ true⟩, hzom⟩, .takes (hcur.symm.trans hc) htakes hc hset
        (fun y hy => .inr (hready y hy)) hdue (h₁.settled.someone_queued hb)
        (fun hz => (hset.off_queue hz (by decide) (by decide)).2 hi)⟩
    | @preempts x hc hi hr =>
      have htakes : TakesOver m.sched x := by
        rw [TakesOver, ← hidle, if_neg hi, ← hslice]
        exact hr
      obtain ⟨hpc, hrun⟩ := hk rfl x (hcur.symm.trans hc) htakes
      obtain ⟨hset, hoth, hact, -, hview⟩ := h₁.running hpc hc
      have hrun₁ : s₁.state x = .running := by
        rw [(hwoken.keeps (by rw [hstate₀, hrun]; decide)).1, hstate₀, hrun]
      have hsafe : Safe (sleeps (m.call x)) .atWork (m.rest x) := by
        obtain ⟨v, hv, hsafe⟩ := hview hi
        obtain rfl : v = .atWork := hsafe.ok.1 (hv.state.symm.trans hrun₁)
        exact hsafe
      have hsame : SameQueues s₁ (s₁.spendSlice x) := ⟨rfl, rfl, rfl, rfl, rfl, rfl, rfl, rfl⟩
      obtain ⟨Q₂, h₂, hcontrol, hstate, honq⟩ := (hsame.settled hset).preempt_spec rfl hrun₁ hi true
      have hdead : (preemptRunning (s₁.spendSlice x) x true).wakeDeadline = s₁.wakeDeadline :=
        preemptRunning_wakeDeadline (s := s₁.spendSlice x) hi true
      generalize preemptRunning (s₁.spendSlice x) x true = s₂ at hm h₂ hcontrol hstate honq hdead
      have hc₂ : s₂.currentProcess = some x := hcontrol.current.trans hc
      simp only [hpc, hc₂] at hm
      cases hm
      have hoth₂ : Others { m with sched := s₁ } s₂ Z₁ {x} := by
        apply hoth.kept hcontrol.idle
        intro y hy
        have hyx : y ≠ x := hy
        exact .inl ⟨by rw [hstate, update_of_ne hyx]; rfl,
          by rw [honq, update_of_ne hyx]; rfl, Iff.rfl⟩
      have hleft : Left (({ m with sched := s₁ } : Machine).goto s₂ .back) Z₁ x :=
        ⟨.inl ⟨by rw [← update_self x .ready s₁.state]; exact congrFun hstate x,
          by rw [← update_self x true s₁.onRunQueue]; exact congrFun honq x⟩, hsafe⟩
      have hback : Inv (({ m with sched := s₁ } : Machine).goto s₂ .back) Q₂ Z₁ :=
        h₁.goto_held hc₂ h₂ ⟨⟨x, hc₂⟩, hcontrol.active.trans hact⟩ (.inr (.inl hleft)) hoth₂
          hcontrol.idle
      have honq' : s₂.onRunQueue = update s₁.onRunQueue x true := honq
      refine ⟨⟨⟨Q₂, Z₁, hback.interrupted rfl _ true⟩, ?_⟩, .takes (hcur.symm.trans hc) htakes hc₂ h₂ ?_ ?_
        ⟨x, by rw [honq', update_self]⟩ (by rw [hstate, update_self]; decide)⟩
      rotate_left
      · intro y hy
        by_cases hyx : y = x
        · exact .inl hyx
        · rw [honq', update_of_ne hyx] at hy
          exact .inr (hready y hy)
      · rw [hdead, hcontrol.ticks]
        exact hdue
      intro y hy
      have hyx : y ≠ x := by
        rintro rfl
        rw [hrun] at hy
        cases hy
      have hy₂ : s₂.state y = s₁.state y := by
        rw [hstate, update_of_ne hyx]
        rfl
      rw [hy₂]
      exact hzom y hy

end Tick

theorem Inv.step (h : Inv m Q Z) {a : Action} (hm : m.perform a = some m') (hk : InTime m a) : Outcome m m' := by
  unfold Machine.perform at hm
  rw [if_neg (by rw [h.onTrack]; exact Bool.false_ne_true)] at hm
  cases a with
  | create => exact h.create_step hm
  | createKernel => exact h.create_step hm
  | start =>
    dsimp only at hm
    split_ifs at hm with hpc
    cases hm
    exact h.start_step hpc
  | schedule events => exact h.schedule_step hm
  | call c =>
    obtain ⟨x, hfree, rfl⟩ := map_eq_some_iff.mp hm
    exact h.call_step hfree c
  | stmt => exact h.stmt_step hm
  | ret => exact h.ret_step hm
  | wake y =>
    dsimp only at hm
    split at hm
    · cases hm
    · rename_i x hfree
      obtain ⟨s', hw, rfl⟩ := map_eq_some_iff.mp hm
      exact h.wake_step hfree hw
  | setScheduler pid policy weight deadlineTicks =>
    obtain ⟨x, hfree, rfl⟩ := map_eq_some_iff.mp hm
    exact h.setScheduler_step hfree pid policy weight deadlineTicks
  | tick => exact (h.tick_step hk hm).1
  | irqReturn => exact h.irqReturn_step hm

theorem Machine.init_inv : Inv Machine.init (fun _ => []) [] := by
  have h := processSystemInit_atRest
  have hf : Machine.init.focus = none := rfl
  refine ⟨?_, ⟨rfl, rfl⟩, ?_, ⟨fun _ _ _ _ => rfl, ?_⟩, fun _ _ => rfl, fun _ _ => rfl, rfl⟩
  · exact h.settled
  · intro x hx
    cases hx
  · intro y hy hw hs
    cases hs

end ProOS.Sched
