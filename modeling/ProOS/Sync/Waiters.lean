import ProOS.Sync.Steps

namespace ProOS.Sync

open ProOS.Framework Function

def configMaxProcs : Int := 32

def State.waiters (s : State) : Call → List Pid
  | .lock i => (s.mutexes i).waiters
  | .wait i => (s.semaphores i).waiters

def State.used (s : State) : Call → Bool
  | .lock i => (s.mutexes i).used
  | .wait i => (s.semaphores i).used

/-- The index of an object that a call can reach. -/
def Call.Valid : Call → Prop
  | .lock i => i < configSyncMaxMutexes
  | .wait i => i < configSyncMaxSemaphores

/-- What a step does to the waiter array of the object that `c` is about. -/
inductive WaitersStep (c : Call) (used : Bool) : List Pid → Event → List Pid → Prop
  | keep {l : List Pid} {e : Event} (h : ∀ p r q, e ≠ c.event p r (.blocked q)) :
      WaitersStep c used l e l
  | clear {l : List Pid} {e : Event} (hu : used = false)
      (h : ∀ p r q, e ≠ c.event p r (.blocked q)) : WaitersStep c used l e []
  | block {l : List Pid} (p : Pid) (r : Bool) (hu : used = true) :
      WaitersStep c used l (c.event p r (.blocked (queueSelf l p).2)) (queueSelf l p).1
  | take {e : Event} (w : Pid) (ws : List Pid) (hu : used = true) (hw : e.wakes = some w) :
      WaitersStep c used (w :: ws) e ws

variable {s s' : State} {e : Event} {p q : Pid} {c : Call}

theorem step_waiters (c : Call) (h : Step s e s') : WaitersStep c (s.used c) (s.waiters c) e (s'.waiters c) := by
  cases c with
  | lock i =>
    simp only [State.waiters, State.used]
    have hm := step_mutex i h
    generalize s'.mutexes i = v' at hm
    generalize s.mutexes i = v at hm
    cases hm with
    | quiet hl hu =>
      apply WaitersStep.keep
      intro p r q he
      exact absurd (hl p r _ he).2 (by simp)
    | create p _ hf => exact .clear hf (by simp [Call.event])
    | acquire p r => exact .keep (by simp [Call.event])
    | again p r => exact .keep (by simp [Call.event])
    | block p r hu => exact .block (c := .lock i) p r hu
    | handOver p w ws hu _ _ hw =>
      rw [hw]
      exact .take w ws hu rfl
    | release p => exact .keep (by simp [Call.event])
  | wait i =>
    simp only [State.waiters, State.used]
    have hm := step_semaphore i h
    generalize s'.semaphores i = v' at hm
    generalize s.semaphores i = v at hm
    cases hm with
    | quiet hw hp =>
      apply WaitersStep.keep
      intro p r q he
      exact absurd (hw p r _ he).2 (by simp)
    | create p n _ hf => exact .clear hf (by simp [Call.event])
    | take p r => exact .keep (by simp [Call.event])
    | block p r hu => exact .block (c := .wait i) p r hu
    | wake p w ws hu hw =>
      rw [hw]
      exact .take w ws hu rfl
    | count p => exact .keep (by simp [Call.event])

theorem step_used (c : Call) (h : Step s e s') : s'.used c = s.used c ∨ (s'.used c = true ∧ c.Valid) := by
  cases c with
  | lock i =>
    simp only [State.used, Call.Valid]
    have hm := step_mutex i h
    generalize s'.mutexes i = v' at hm
    generalize s.mutexes i = v at hm
    cases hm with
    | create _ hi => exact .inr ⟨rfl, hi⟩
    | _ => exact .inl rfl
  | wait i =>
    simp only [State.used, Call.Valid]
    have hm := step_semaphore i h
    generalize s'.semaphores i = v' at hm
    generalize s.semaphores i = v at hm
    cases hm with
    | create _ _ hi => exact .inr ⟨rfl, hi⟩
    | _ => exact .inl rfl

/-- Only objects of the tables are ever created, and nobody waits for one that was not. -/
structure State.Fresh (s : State) : Prop where
  empty : ∀ c, s.used c = false → s.waiters c = []
  valid : ∀ c, s.used c = true → c.Valid

theorem syncInit_fresh : syncInit.Fresh where
  empty := by
    intro c _
    cases c <;> rfl
  valid := by
    intro c h
    cases c <;> cases h

theorem State.Fresh.step (hs : s.Fresh) (h : Step s e s') : s'.Fresh := by
  constructor
  · intro c hu
    have hold : s.used c = false := by
      rcases step_used c h with heq | ⟨htrue, -⟩
      · rw [← heq, hu]
      · rw [hu] at htrue
        cases htrue
    have hw := step_waiters c h
    rw [hold] at hw
    generalize hl : s.waiters c = l at hw
    generalize s'.waiters c = l' at hw
    cases hw with
    | keep => exact hl.symm.trans (hs.empty c hold)
    | clear => rfl
    | block _ _ hu => cases hu
    | take _ _ hu => cases hu
  · intro c hu
    rcases step_used c h with heq | ⟨-, hv⟩
    · exact hs.valid c (heq.symm.trans hu)
    · exact hv

/-- Every process that sleeps inside a call is in the waiter array of its object. -/
def State.NoStranded (s : State) : Prop :=
  ∀ p c, s.procs p = ⟨.waiting, some c⟩ → p ∈ s.waiters c

/-- A pass of `p` through the loop of `c` is going to end in `process_block_current`. -/
def State.Blocks (s : State) (p : Pid) : Call → Prop
  | .lock i => (s.mutexes i).used = true ∧ (s.mutexes i).locked = true ∧ (s.mutexes i).owner ≠ p
  | .wait i => (s.semaphores i).used = true ∧ (s.semaphores i).count ≤ 0

/-- Before a step: if it is a pass that will block, the waiter array has a place left for the
process or already holds it. -/
def HasRoom (s : State) (e : Event) : Prop :=
  ∀ p r o c, e = Call.event p r o c → s.Blocks p c →
    p ∈ s.waiters c ∨ (s.waiters c).length < configSyncMaxWaiters

theorem Woken.waiting_eq {a b : Proc} (h : Woken a b) (hb : b.state = .waiting) : b = a := by
  rcases h with rfl | ⟨-, rfl⟩
  · rfl
  · cases hb

theorem mem_queueSelf {l : List Pid} (h : p ∈ l) : p ∈ (queueSelf l q).1 := by
  rcases queueSelf_cases l q with ⟨-, hq⟩ | ⟨-, -, hq⟩ | ⟨-, -, hq⟩
  · rw [hq]
    exact h
  · rw [hq]
    exact List.mem_append_left _ h
  · rw [hq]
    exact h

theorem self_mem_queueSelf {l : List Pid} : p ∈ (queueSelf l p).1 ↔ p ∈ l ∨ l.length < configSyncMaxWaiters := by
  rcases queueSelf_cases l p with ⟨hm, hq⟩ | ⟨hm, hl, hq⟩ | ⟨hm, hl, hq⟩
  · rw [hq]
    simp [hm]
  · rw [hq]
    simp [hl]
  · rw [hq]
    simp only [hm, false_or]
    exact ⟨fun h => h.elim, fun h => absurd h (not_lt.mpr hl)⟩

theorem step_blocks {r : Bool} {o : Outcome} (h : Step s (c.event p r o) s') (hv : c.Valid) (hb : s.Blocks p c) :
    s'.procs p = ⟨.waiting, some c⟩ ∧ s'.waiters c = (queueSelf (s.waiters c) p).1 := by
  generalize he : c.event p r o = e at h
  cases c with
  | lock i =>
    obtain ⟨hu, hl, ho⟩ := hb
    cases step_took h with
    | lock q j r' =>
      obtain ⟨rfl, hij, -⟩ := Event.lock.inj he
      obtain rfl : i = j := by exact_mod_cast hij
      have hpass : lockPass s p i =
          (s.setMutex i { s.mutexes i with waiters := (queueSelf (s.mutexes i).waiters p).1 },
            .blocked (queueSelf (s.mutexes i).waiters p).2) := by
        simp [lockPass, hu, hl, ho]
      rw [hpass]
      refine ⟨?_, ?_⟩
      · rw [finish_procs, update_self]
        rfl
      · simp only [State.waiters, finish_mutexes, setMutex_mutexes, if_true]
    | lockRefused q id _ hid =>
      obtain ⟨-, rfl, -⟩ := Event.lock.inj he
      simp only [Call.Valid] at hv
      omega
    | _ => cases he
  | wait i =>
    obtain ⟨hu, hc⟩ := hb
    cases step_took h with
    | wait q j r' =>
      obtain ⟨rfl, hij, -⟩ := Event.wait.inj he
      obtain rfl : i = j := by exact_mod_cast hij
      have hpass : waitPass s p i =
          (s.setSemaphore i
              { s.semaphores i with waiters := (queueSelf (s.semaphores i).waiters p).1 },
            .blocked (queueSelf (s.semaphores i).waiters p).2) := by
        simp [waitPass, hu, not_lt.mpr hc]
      rw [hpass]
      refine ⟨?_, ?_⟩
      · rw [finish_procs, update_self]
        rfl
      · simp only [State.waiters, finish_semaphores, setSemaphore_semaphores, if_true]
    | waitRefused q id _ hid =>
      obtain ⟨-, rfl, -⟩ := Event.wait.inj he
      simp only [Call.Valid] at hv
      omega
    | _ => cases he

theorem Call.event_wakes (p : Pid) (r : Bool) (o : Outcome) (c : Call) :
    (c.event p r o).wakes = none := by cases c <;> rfl

theorem State.NoStranded.step (hs : s.NoStranded) (hset : s.Settled)
    (hfresh : s.Fresh) (h : Step s e s') (hroom : ∀ p r q c, e = Call.event p r (.blocked q) c →
      p ∈ s'.waiters c) : s'.NoStranded := by
  intro p c hp
  have hw := step_waiters c h
  have hproc := step_procs h
  -- unless the step is the pass that put `p` to sleep, `p` slept and was queued before
  by_cases hself : ∃ r q, e = c.event p r (.blocked q)
  · obtain ⟨r, q, rfl⟩ := hself
    exact hroom p r q c rfl
  · have hold : s.procs p = ⟨.waiting, some c⟩ ∧ ∀ w, e.wakes = some w → 0 < w → p ≠ w := by
      cases hproc with
      | other hq _ _ hk =>
        have heq := (hq p).waiting_eq (by rw [hp])
        refine ⟨heq.symm.trans hp, ?_⟩
        rintro w hw hpos rfl
        exact hk p hw hpos (by rw [hp])
      | pass q d r o hq hpr =>
        by_cases hpq : p = q
        · subst hpq
          rw [hpr, update_self] at hp
          cases o with
          | returned rc => cases hp
          | blocked x =>
            obtain rfl : d = c := by simpa [Call.after] using hp
            exact absurd ⟨r, x, rfl⟩ hself
        · rw [hpr, update_of_ne hpq] at hp
          refine ⟨hp, ?_⟩
          intro w hw
          rw [Call.event_wakes] at hw
          cases hw
    have hmem := hs p c hold.1
    have hpos := (hset p (by simp [hold.1])).1
    generalize hl : s.waiters c = l at hw hmem
    generalize s'.waiters c = l' at hw
    cases hw with
    | keep => exact hmem
    | clear hu =>
      rw [← hl, hfresh.empty c hu] at hmem
      cases hmem
    | block q r => exact mem_queueSelf hmem
    | take w ws _ hwake =>
      rcases List.mem_cons.mp hmem with rfl | hm
      · exact absurd rfl (hold.2 p hwake hpos)
      · exact hm

theorem blocks_of_blocked {r : Bool} {q : Queued} (h : Step s (c.event p r (.blocked q)) s') : s.Blocks p c := by
  generalize he : c.event p r (.blocked q) = e at h
  cases c with
  | lock i =>
    have hm := step_mutex i h
    simp only [State.Blocks]
    generalize s'.mutexes i = v' at hm
    generalize s.mutexes i = v at hm
    cases hm with
    | quiet hl => exact absurd (hl _ _ _ he.symm).2 (by simp)
    | block p' r' hu hl ho =>
      obtain ⟨rfl, -⟩ := Event.lock.inj he
      exact ⟨hu, hl, ho⟩
    | _ => simp [Call.event] at he
  | wait i =>
    have hm := step_semaphore i h
    simp only [State.Blocks]
    generalize s'.semaphores i = v' at hm
    generalize s.semaphores i = v at hm
    cases hm with
    | quiet hw => exact absurd (hw _ _ _ he.symm).2 (by simp)
    | block p' r' hu hc => exact ⟨hu, hc⟩
    | _ => simp [Call.event] at he

theorem State.Blocks.used (h : s.Blocks p c) : s.used c = true := by
  cases c <;> exact h.1

/-- From a state without stranded waiters, a step strands one exactly when a blocking pass
finds the waiter array full. -/
theorem noStranded_step_iff (hs : s.NoStranded) (hset : s.Settled)
    (hfresh : s.Fresh) (h : Step s e s') : s'.NoStranded ↔ HasRoom s e := by
  constructor
  · intro hs' p r o c he hb
    subst he
    obtain ⟨hsleep, hq⟩ := step_blocks h (hfresh.valid c hb.used) hb
    have hmem := hs' p c hsleep
    rw [hq, self_mem_queueSelf] at hmem
    exact hmem
  · intro hroom
    apply hs.step hset hfresh h
    intro p r q c he
    subst he
    have hb := blocks_of_blocked h
    obtain ⟨-, hq⟩ := step_blocks h (hfresh.valid c hb.used) hb
    rw [hq, self_mem_queueSelf]
    exact hroom p r _ c rfl hb

theorem exec_settled {tr : List Event} (hx : Exec Step syncInit tr s) : s.Settled ∧ s.Fresh :=
  hx.invariant (P := fun s => s.Settled ∧ s.Fresh) ⟨syncInit_settled, syncInit_fresh⟩
    (fun _ _ _ ih h => ⟨ih.1.step (step_procs h), ih.2.step h⟩)

/-- In exactly those runs whose blocking passes all find room in the waiter array, no state
has a process asleep in a call that its object's array does not list. -/
theorem noStranded_iff_hasRoom (tr : List Event) (s : State) :
    Always Step syncInit tr s (fun _ s' => s'.NoStranded) ↔ EachStep Step syncInit tr s HasRoom := by
  constructor
  · intro h pre e post s₁ s₂ ht hpre hstep hpost
    obtain ⟨hset, hfresh⟩ := exec_settled hpre
    have h₁ := h pre (e :: post) s₁ ht hpre ((Exec.single hstep).trans hpost)
    have h₂ := h (pre ++ [e]) post s₂ (by simpa using ht) (hpre.snoc hstep) hpost
    exact (noStranded_step_iff h₁ hset hfresh hstep).mp h₂
  · intro h
    apply h.always (P := fun _ s' => s'.NoStranded)
    · intro p c hp
      cases hp
    · intro tr s e s' hx hs hstep hroom
      obtain ⟨hset, hfresh⟩ := exec_settled hx
      exact (noStranded_step_iff hs hset hfresh hstep).mpr hroom

/-- Process 1 holds a mutex and nine more processes ask for it. -/
def crowd : List Action :=
  .mutexCreate 1 :: (List.range 10).map (fun k => .mutexLock (k + 1) 0)

def Event.actor : Event → Pid
  | .mutexCreated p _ => p
  | .semaphoreCreated p _ _ => p
  | .lock p _ _ _ => p
  | .unlock p _ _ _ => p
  | .wait p _ _ _ => p
  | .post p _ _ _ => p
  | .woken p => p

theorem crowd_isSome : (performAll perform syncInit crowd).isSome = true := by decide

def crowded : State := ((performAll perform syncInit crowd).get crowd_isSome).2

/-- The tenth contender sleeps in `sync_mutex_lock` and is in no waiter array. -/
theorem crowd_stranded :
    ∃ tr, Exec Step syncInit tr crowded ∧
      (∀ e ∈ tr, 0 < e.actor ∧ e.actor ≤ configMaxProcs) ∧
      crowded.procs 10 = ⟨.waiting, some (.lock 0)⟩ ∧ 10 ∉ (crowded.mutexes 0).waiters ∧
      ¬crowded.NoStranded := by
  have hrun := performAll_exec perform crowd _ _ _ (Option.some_get crowd_isSome).symm
  have hsleep : crowded.procs 10 = ⟨.waiting, some (.lock 0)⟩ := by decide
  have hout : 10 ∉ (crowded.mutexes 0).waiters := by decide
  refine ⟨_, hrun, by decide, hsleep, hout, ?_⟩
  intro h
  exact hout (h 10 (.lock 0) hsleep)

/-! ## Waiters and processes -/

theorem processWake_waiters (s : State) (w : Pid) (c : Call) : (processWake s w).waiters c = s.waiters c := by
  cases c with
  | lock i => simp only [State.waiters, processWake_mutexes]
  | wait i => simp only [State.waiters, processWake_semaphores]

theorem processWake_other {w : Pid} (hq : q ≠ w) : (processWake s w).procs q = s.procs q := by
  unfold processWake
  split
  · rw [setProc_procs, if_neg hq]
  · rfl

theorem finish_waiters (s : State) (p : Pid) (c d : Call) (o : Outcome) : (s.finish p c o).waiters d = s.waiters d := by
  cases d with
  | lock i => simp only [State.waiters, finish_mutexes]
  | wait i => simp only [State.waiters, finish_semaphores]

theorem setMutex_waiters (s : State) (i : Nat) (m : Mutex) (d : Call) :
    (s.setMutex i m).waiters d = if d = .lock i then m.waiters else s.waiters d := by
  cases d with
  | lock j =>
    simp only [State.waiters, setMutex_mutexes, Call.lock.injEq]
    split_ifs <;> rfl
  | wait j => simp [State.waiters]

theorem setSemaphore_waiters (s : State) (i : Nat) (m : Semaphore) (d : Call) :
    (s.setSemaphore i m).waiters d = if d = .wait i then m.waiters else s.waiters d := by
  cases d with
  | wait j =>
    simp only [State.waiters, setSemaphore_semaphores, Call.wait.injEq]
    split_ifs <;> rfl
  | lock j => simp [State.waiters]

theorem queueSelf_list (l : List Pid) (p : Pid) : (queueSelf l p).1 = l ∨ (queueSelf l p).1 = l ++ [p] := by
  rcases queueSelf_cases l p with ⟨-, h⟩ | ⟨-, -, h⟩ | ⟨-, -, h⟩
  · exact .inl (by rw [h])
  · exact .inr (by rw [h])
  · exact .inl (by rw [h])

/-- What a call by `p` does to the arrays and the processes: nobody is added, the first of one array is
woken, or `p` itself makes a pass and may be added. -/
inductive Effect (s : State) (p : Pid) : State → Prop
  | quiet {s' : State} (hl : ∀ c, (s'.waiters c).Sublist (s.waiters c)) (hp : s'.procs = s.procs) :
      Effect s p s'
  | take {s' : State} {c : Call} {w : Pid} {ws : List Pid} (hw : s.waiters c = w :: ws)
      (hc : s'.waiters c = ws) (ho : ∀ d, d ≠ c → s'.waiters d = s.waiters d) (hp : s'.procs = s.procs) :
      Effect s p (processWake s' w)
  | pass {s' : State} {c : Call} {o : Outcome} (hp : s'.procs = s.procs)
      (ho : ∀ d, d ≠ c → s'.waiters d = s.waiters d)
      (hc : s'.waiters c = s.waiters c ∨ (∃ x, o = .blocked x) ∧ s'.waiters c = s.waiters c ++ [p]) :
      Effect s p (s'.finish p c o)

section Effects

variable (s : State) (p : Pid)

theorem Effect.refl : Effect s p s := .quiet (fun _ => .refl _) rfl

theorem Effect.setMutex {i : Nat} {m : Mutex} (hm : m.waiters.Sublist (s.mutexes i).waiters) :
    Effect s p (s.setMutex i m) := by
  refine .quiet (fun c => ?_) rfl
  rw [setMutex_waiters]
  split_ifs with hc
  · rw [hc]
    exact hm
  · exact .refl _

theorem Effect.setSemaphore {i : Nat} {m : Semaphore} (hm : m.waiters.Sublist (s.semaphores i).waiters) :
    Effect s p (s.setSemaphore i m) := by
  refine .quiet (fun c => ?_) rfl
  rw [setSemaphore_waiters]
  split_ifs with hc
  · rw [hc]
    exact hm
  · exact .refl _

theorem lockPassEvent_effect (i : Nat) (r : Bool) : Effect s p (lockPassEvent s p i r).2 := by
  have hother (m : Mutex) (d : Call) (hd : d ≠ .lock i) : (s.setMutex i m).waiters d = s.waiters d := by
    rw [setMutex_waiters, if_neg hd]
  have hself (m : Mutex) : (s.setMutex i m).waiters (.lock i) = m.waiters := by
    rw [setMutex_waiters, if_pos rfl]
  unfold lockPassEvent lockPass
  dsimp only
  split
  · exact .pass rfl (fun _ _ => rfl) (.inl rfl)
  split
  · exact .pass rfl (hother _) (.inl (hself _))
  split
  · exact .pass rfl (fun _ _ => rfl) (.inl rfl)
  · refine .pass rfl (hother _) ?_
    rw [hself]
    rcases queueSelf_list (s.mutexes i).waiters p with hq | hq
    · exact .inl hq
    · exact .inr ⟨⟨_, rfl⟩, hq⟩

theorem waitPassEvent_effect (i : Nat) (r : Bool) : Effect s p (waitPassEvent s p i r).2 := by
  have hother (m : Semaphore) (d : Call) (hd : d ≠ .wait i) : (s.setSemaphore i m).waiters d = s.waiters d := by
    rw [setSemaphore_waiters, if_neg hd]
  have hself (m : Semaphore) : (s.setSemaphore i m).waiters (.wait i) = m.waiters := by
    rw [setSemaphore_waiters, if_pos rfl]
  unfold waitPassEvent waitPass
  dsimp only
  split
  · exact .pass rfl (fun _ _ => rfl) (.inl rfl)
  split
  · exact .pass rfl (hother _) (.inl (hself _))
  · refine .pass rfl (hother _) ?_
    rw [hself]
    rcases queueSelf_list (s.semaphores i).waiters p with hq | hq
    · exact .inl hq
    · exact .inr ⟨⟨_, rfl⟩, hq⟩

theorem syncMutexUnlock_effect (id : Int) : Effect s p (syncMutexUnlock s p id).1 := by
  unfold syncMutexUnlock
  dsimp only
  split
  · exact .refl s p
  split
  · exact .refl s p
  split
  · rename_i hpos
    obtain ⟨w, ws, hw⟩ := List.exists_cons_of_length_pos hpos
    rw [hw]
    refine .take (c := .lock id.toNat) hw ?_ (fun d hd => ?_) rfl
    · rw [setMutex_waiters, if_pos rfl]
      rfl
    · rw [setMutex_waiters, if_neg hd]
  · exact .setMutex s p (.refl _)

theorem syncSemaphorePost_effect (id : Int) : Effect s p (syncSemaphorePost s id).1 := by
  unfold syncSemaphorePost
  dsimp only
  split
  · exact .refl s p
  split
  · exact .refl s p
  split
  · rename_i hpos
    obtain ⟨w, ws, hw⟩ := List.exists_cons_of_length_pos hpos
    rw [hw]
    refine .take (c := .wait id.toNat) hw ?_ (fun d hd => ?_) rfl
    · rw [setSemaphore_waiters, if_pos rfl]
      rfl
    · rw [setSemaphore_waiters, if_neg hd]
  · exact .setSemaphore s p (.refl _)

theorem resumeCall_effect {r : Event × State} (h : resumeCall s p = some r) : Effect s p r.2 := by
  unfold resumeCall at h
  split at h
  · split at h
    · cases h
      exact lockPassEvent_effect s p _ _
    · cases h
      exact waitPassEvent_effect s p _ _
    · cases h
  · cases h

end Effects

theorem Effect.zombie (h : Effect s p s') (hz : (s'.procs q).state = .zombie) : (s.procs q).state = .zombie := by
  cases h with
  | quiet _ hp => rwa [hp] at hz
  | @take s₁ _ w _ _ _ _ hp =>
    rw [← hp]
    rcases processWake_procs s₁ w q with h | ⟨-, h⟩
    · rwa [h] at hz
    · rw [h] at hz
      cases hz
  | @pass s₁ c o hp _ _ =>
    rw [finish_procs, update_apply] at hz
    split_ifs at hz
    · cases o <;> cases hz
    · rwa [hp] at hz

end ProOS.Sync
