import ProOS.Sync.Model

namespace ProOS.Sync

open ProOS.Framework Function

/-- What a step does to mutex `i`, together with what its event says. -/
inductive MutexStep (i : Nat) : Mutex → Event → Mutex → Prop
  | quiet {v : Mutex} {e : Event}
      (hl : ∀ p r o, e = .lock p i r o → (r = true → v.used = false) ∧ o = .returned (-1))
      (hu : ∀ p rc w, e = .unlock p i rc w → rc = -1 ∧ w = none) : MutexStep i v e v
  | create {v : Mutex} (p : Pid) (hi : i < configSyncMaxMutexes) (h : v.used = false) :
      MutexStep i v (.mutexCreated p i) ⟨true, false, -1, []⟩
  | acquire {v : Mutex} (p : Pid) (r : Bool) (hu : v.used = true) (h : v.locked = false) :
      MutexStep i v (.lock p i r (.returned 0)) { v with locked := true, owner := p }
  | again {v : Mutex} (p : Pid) (r : Bool) (h : v.locked = true) (ho : v.owner = p) :
      MutexStep i v (.lock p i r (.returned 0)) v
  | block {v : Mutex} (p : Pid) (r : Bool) (hu : v.used = true) (h : v.locked = true) (ho : v.owner ≠ p) :
      MutexStep i v (.lock p i r (.blocked (queueSelf v.waiters p).2))
        { v with waiters := (queueSelf v.waiters p).1 }
  | handOver {v : Mutex} (p w : Pid) (ws : List Pid) (hu : v.used = true) (h : v.locked = true)
      (ho : v.owner = p) (hw : v.waiters = w :: ws) :
      MutexStep i v (.unlock p i 0 (some w)) { v with owner := w, locked := true, waiters := ws }
  | release {v : Mutex} (p : Pid) (h : v.locked = true) (ho : v.owner = p) (hw : v.waiters = []) :
      MutexStep i v (.unlock p i 0 none) { v with locked := false, owner := -1 }

theorem lockPass_mutex (s : State) (p : Pid) (j i : Nat) (r : Bool) :
    MutexStep i (s.mutexes i) (.lock p j r (lockPass s p j).2) ((lockPass s p j).1.mutexes i) := by
  by_cases hj : j = i
  · subst hj
    unfold lockPass
    dsimp only
    split
    · rename_i hu
      refine .quiet ?_ (by simp)
      intro q r' o he
      exact ⟨fun _ => by simpa using hu, (Event.lock.inj he).2.2.2.symm⟩
    rename_i hu
    split
    · rename_i hl
      rw [setMutex_mutexes, if_pos rfl]
      exact .acquire p r (by simpa using hu) (by simpa using hl)
    rename_i hl
    split
    · rename_i ho
      exact .again p r (by simpa using hl) ho
    · rename_i ho
      rw [setMutex_mutexes, if_pos rfl]
      exact .block p r (by simpa using hu) (by simpa using hl) ho
  · have hs : (lockPass s p j).1.mutexes i = s.mutexes i := by
      unfold lockPass
      dsimp only
      split_ifs <;> simp [setMutex_mutexes, Ne.symm hj]
    rw [hs]
    refine .quiet ?_ (by simp)
    intro q r' o he
    have hid := (Event.lock.inj he).2.1
    exact absurd (by exact_mod_cast hid) hj

theorem syncMutexUnlock_refused (s : State) (p : Pid) (id : Int)
    (h : (s.mutexes id.toNat).owner ≠ p) : syncMutexUnlock s p id = (s, -1, none) := by
  unfold syncMutexUnlock
  split
  · rfl
  · simp [h]

theorem syncMutexUnlock_mutex (s : State) (p : Pid) (id : Int) (i : Nat) :
    MutexStep i (s.mutexes i) (.unlock p id (syncMutexUnlock s p id).2.1 (syncMutexUnlock s p id).2.2)
      ((syncMutexUnlock s p id).1.mutexes i) := by
  have hquiet : MutexStep i (s.mutexes i) (.unlock p id (-1) none) (s.mutexes i) := by
    refine .quiet (by simp) ?_
    intro q rc w he
    obtain ⟨-, -, rfl, rfl⟩ := Event.unlock.inj he
    exact ⟨rfl, rfl⟩
  unfold syncMutexUnlock
  split
  · exact hquiet
  dsimp only
  split
  · exact hquiet
  rename_i hr hg
  obtain ⟨⟨hu, hl⟩, ho⟩ : ((s.mutexes id.toNat).used = true ∧
      (s.mutexes id.toNat).locked = true) ∧ (s.mutexes id.toNat).owner = p := by
    simpa using hg
  by_cases hid : id = i
  · subst hid
    rw [Int.toNat_natCast] at *
    split
    · rename_i hw
      obtain ⟨w, ws, he⟩ := List.exists_cons_of_length_pos hw
      rw [processWake_mutexes, setMutex_mutexes, if_pos rfl, he]
      exact .handOver p w ws hu hl ho he
    · rename_i hw
      rw [setMutex_mutexes, if_pos rfl]
      exact .release p hl ho (by simpa using hw)
  · have hne : i ≠ id.toNat := by omega
    have heu : ∀ (rc : Int) (w : Option Pid) (q : Pid) (rc' : Int) (w' : Option Pid),
        Event.unlock p id rc w = .unlock q i rc' w' → rc' = -1 ∧ w' = none := by
      intro rc w q rc' w' he
      exact absurd (Event.unlock.inj he).2.1 hid
    split
    · rw [processWake_mutexes, setMutex_mutexes, if_neg hne]
      exact .quiet (by simp) (heu _ _)
    · rw [setMutex_mutexes, if_neg hne]
      exact .quiet (by simp) (heu _ _)

theorem syncMutexCreate_mutex (s : State) (p : Pid) (i : Nat) :
    MutexStep i (s.mutexes i) (.mutexCreated p (syncMutexCreate s).2) ((syncMutexCreate s).1.mutexes i) := by
  unfold syncMutexCreate
  split
  · rename_i m hm
    by_cases hmi : m = i
    · subst hmi
      simp only [setMutex_mutexes, if_pos]
      obtain ⟨hlt, hun⟩ := firstUnused_some hm
      exact .create p (by omega) hun
    · simp only [setMutex_mutexes, if_neg (Ne.symm hmi)]
      exact .quiet (by simp) (by simp)
  · exact .quiet (by simp) (by simp)

variable {s s' : State} {e : Event}

theorem step_mutex (i : Nat) (h : Step s e s') : MutexStep i (s.mutexes i) e (s'.mutexes i) := by
  cases step_took h with
  | mutexCreate p => exact syncMutexCreate_mutex s p i
  | semaphoreCreate p n =>
    rw [syncSemaphoreCreate_mutexes]
    exact .quiet (by simp) (by simp)
  | lockRefused p id _ hid =>
    apply MutexStep.quiet
    · intro q r o he
      obtain ⟨-, -, rfl, rfl⟩ := Event.lock.inj he
      exact ⟨by simp, rfl⟩
    · simp
  | lock p j r =>
    rw [finish_mutexes]
    exact lockPass_mutex s p j i r
  | unlock p id => exact syncMutexUnlock_mutex s p id i
  | waitRefused p id => exact .quiet (by simp) (by simp)
  | wait p j r =>
    rw [finish_mutexes, waitPass_mutexes]
    exact .quiet (by simp) (by simp)
  | post p id =>
    rw [syncSemaphorePost_mutexes]
    exact .quiet (by simp) (by simp)
  | wake p =>
    rw [processWake_mutexes]
    exact .quiet (by simp) (by simp)

/-- What a step does to semaphore `i`, together with what its event says. -/
inductive SemStep (i : Nat) : Semaphore → Event → Semaphore → Prop
  | quiet {v : Semaphore} {e : Event}
      (hw : ∀ p r o, e = .wait p i r o → (r = true → v.used = false) ∧ o = .returned (-1))
      (hp : ∀ p rc x, e = .post p i rc x → rc = -1 ∧ x = .refused) : SemStep i v e v
  | create {v : Semaphore} (p : Pid) (n : Int) (hi : i < configSyncMaxSemaphores)
      (h : v.used = false) :
      SemStep i v (.semaphoreCreated p n i) ⟨true, n, []⟩
  | take {v : Semaphore} (p : Pid) (r : Bool) (hu : v.used = true) (h : 0 < v.count) :
      SemStep i v (.wait p i r (.returned 0)) { v with count := int32 (v.count - 1) }
  | block {v : Semaphore} (p : Pid) (r : Bool) (hu : v.used = true) (h : v.count ≤ 0) :
      SemStep i v (.wait p i r (.blocked (queueSelf v.waiters p).2))
        { v with waiters := (queueSelf v.waiters p).1 }
  | wake {v : Semaphore} (p w : Pid) (ws : List Pid) (hu : v.used = true)
      (h : v.waiters = w :: ws) :
      SemStep i v (.post p i 0 (.woke w)) { v with waiters := ws }
  | count {v : Semaphore} (p : Pid) (hu : v.used = true) (h : v.waiters = []) :
      SemStep i v (.post p i 0 (if v.count = intMax then .wrapped else .counted))
        { v with count := int32 (v.count + 1) }

theorem waitPass_sem (s : State) (p : Pid) (j i : Nat) (r : Bool) :
    SemStep i (s.semaphores i) (.wait p j r (waitPass s p j).2) ((waitPass s p j).1.semaphores i) := by
  by_cases hj : j = i
  · subst hj
    unfold waitPass
    dsimp only
    split
    · rename_i hu
      refine .quiet ?_ (by simp)
      intro q r' o he
      exact ⟨fun _ => by simpa using hu, (Event.wait.inj he).2.2.2.symm⟩
    rename_i hu
    split
    · rename_i hc
      rw [setSemaphore_semaphores, if_pos rfl]
      exact .take p r (by simpa using hu) hc
    · rename_i hc
      rw [setSemaphore_semaphores, if_pos rfl]
      exact .block p r (by simpa using hu) (not_lt.mp hc)
  · have hs : (waitPass s p j).1.semaphores i = s.semaphores i := by
      unfold waitPass
      dsimp only
      split_ifs <;> simp [setSemaphore_semaphores, Ne.symm hj]
    rw [hs]
    refine .quiet ?_ (by simp)
    intro q r' o he
    have hid := (Event.wait.inj he).2.1
    exact absurd (by exact_mod_cast hid) hj

theorem syncSemaphorePost_sem (s : State) (p : Pid) (id : Int) (i : Nat) :
    SemStep i (s.semaphores i) (.post p id (syncSemaphorePost s id).2.1 (syncSemaphorePost s id).2.2)
      ((syncSemaphorePost s id).1.semaphores i) := by
  have hquiet : SemStep i (s.semaphores i) (.post p id (-1) .refused) (s.semaphores i) := by
    refine .quiet (by simp) ?_
    intro q rc x he
    obtain ⟨-, -, rfl, rfl⟩ := Event.post.inj he
    exact ⟨rfl, rfl⟩
  unfold syncSemaphorePost
  split
  · exact hquiet
  dsimp only
  split
  · exact hquiet
  rename_i hr hg
  have hu : (s.semaphores id.toNat).used = true := by simpa using hg
  by_cases hid : id = i
  · subst hid
    rw [Int.toNat_natCast] at *
    split
    · rename_i hw
      obtain ⟨w, ws, he⟩ := List.exists_cons_of_length_pos hw
      rw [processWake_semaphores, setSemaphore_semaphores, if_pos rfl, he]
      exact .wake p w ws hu he
    · rename_i hw
      rw [setSemaphore_semaphores, if_pos rfl]
      exact .count p hu (by simpa using hw)
  · have hne : i ≠ id.toNat := by omega
    have hq : ∀ (rc : Int) (x : PostEffect) (q : Pid) (rc' : Int) (x' : PostEffect),
        Event.post p id rc x = .post q i rc' x' → rc' = -1 ∧ x' = .refused := by
      intro rc x q rc' x' he
      exact absurd (Event.post.inj he).2.1 hid
    split
    · rw [processWake_semaphores, setSemaphore_semaphores, if_neg hne]
      exact .quiet (by simp) (hq _ _)
    · rw [setSemaphore_semaphores, if_neg hne]
      exact .quiet (by simp) (hq _ _)

theorem syncSemaphoreCreate_sem (s : State) (p : Pid) (n : Int) (i : Nat) :
    SemStep i (s.semaphores i) (.semaphoreCreated p n (syncSemaphoreCreate s n).2)
      ((syncSemaphoreCreate s n).1.semaphores i) := by
  unfold syncSemaphoreCreate
  split
  · exact .quiet (by simp) (by simp)
  · split
    · rename_i m hm
      by_cases hmi : m = i
      · subst hmi
        simp only [setSemaphore_semaphores, if_pos]
        obtain ⟨hlt, hun⟩ := firstUnused_some hm
        exact .create p n (by omega) hun
      · simp only [setSemaphore_semaphores, if_neg (Ne.symm hmi)]
        exact .quiet (by simp) (by simp)
    · exact .quiet (by simp) (by simp)

theorem step_semaphore (i : Nat) (h : Step s e s') : SemStep i (s.semaphores i) e (s'.semaphores i) := by
  cases step_took h with
  | mutexCreate p =>
    rw [syncMutexCreate_semaphores]
    exact .quiet (by simp) (by simp)
  | semaphoreCreate p n => exact syncSemaphoreCreate_sem s p n i
  | lockRefused p id => exact .quiet (by simp) (by simp)
  | lock p j r =>
    rw [finish_semaphores, lockPass_semaphores]
    exact .quiet (by simp) (by simp)
  | unlock p id =>
    rw [syncMutexUnlock_semaphores]
    exact .quiet (by simp) (by simp)
  | waitRefused p id _ hid =>
    apply SemStep.quiet
    · intro q r o he
      obtain ⟨-, -, rfl, rfl⟩ := Event.wait.inj he
      exact ⟨by simp, rfl⟩
    · simp
  | wait p j r =>
    rw [finish_semaphores]
    exact waitPass_sem s p j i r
  | post p id => exact syncSemaphorePost_sem s p id i
  | wake p =>
    rw [processWake_semaphores]
    exact .quiet (by simp) (by simp)

/-- The event of a pass through the loop of a blocking call. -/
def Call.event (p : Pid) (r : Bool) (o : Outcome) : Call → Event
  | .lock i => .lock p i r o
  | .wait i => .wait p i r o

def Call.after (c : Call) : Outcome → Proc
  | .returned _ => ⟨.running, none⟩
  | .blocked _ => ⟨.waiting, some c⟩

/-- The process an unlock or a post has taken from a waiter array. -/
def Event.wakes : Event → Option Pid
  | .unlock _ _ _ heir => heir
  | .post _ _ _ (.woke p) => some p
  | _ => none

def Woken (a b : Proc) : Prop := b = a ∨ a.state = .waiting ∧ b = { a with state := .ready }

/-- What a step does to the processes: it is a pass of one process through its loop, or it
makes waiting processes ready. -/
inductive ProcStep (s : State) : Event → State → Prop
  | pass {s' : State} (p : Pid) (c : Call) (r : Bool) (o : Outcome) (h : s.Enters p c r)
      (hp : s'.procs = update s.procs p (c.after o)) : ProcStep s (c.event p r o) s'
  | other {s' : State} {e : Event} (h : ∀ p, Woken (s.procs p) (s'.procs p))
      (hl : ∀ p id r o, e = .lock p id r o → r = false ∧ o = .returned (-1))
      (hw : ∀ p id r o, e = .wait p id r o → r = false ∧ o = .returned (-1))
      (hk : ∀ p, e.wakes = some p → 0 < p → (s'.procs p).state ≠ .waiting) : ProcStep s e s'

theorem ProcStep.pass_lock {p : Pid} {i : Nat} {r : Bool} {o : Outcome}
    (h : ProcStep s (.lock p i r o) s') (ho : o ≠ .returned (-1)) :
    s.Enters p (.lock i) r ∧ s'.procs = update s.procs p ((Call.lock i).after o) := by
  generalize he : Event.lock p i r o = e at h
  cases h with
  | pass q c r' o' hq hp =>
    cases c with
    | lock j =>
      obtain ⟨rfl, hij, rfl, rfl⟩ := Event.lock.inj he
      obtain rfl : i = j := by exact_mod_cast hij
      exact ⟨hq, hp⟩
    | wait j => simp [Call.event] at he
  | other _ hl => exact absurd (hl _ _ _ _ he.symm).2 ho

theorem ProcStep.woken (h : ProcStep s e s')
    (he : ∀ p c r o, e ≠ Call.event p r o c) (p : Pid) : Woken (s.procs p) (s'.procs p) := by
  cases h with
  | pass q c r o => exact absurd rfl (he q c r o)
  | other hq => exact hq p

theorem ProcStep.inside_kept (h : ProcStep s e s') {p : Pid} {c : Call}
    (hc : (s.procs p).inside = some c) (he : ∀ o, e ≠ Call.event p true o c) : Woken (s.procs p) (s'.procs p) := by
  cases h with
  | other hq => exact hq p
  | pass q d r o hq hp =>
    by_cases hpq : p = q
    · subst hpq
      cases r with
      | false =>
        have hn : (s.procs p).inside = none := hq.2
        rw [hn] at hc
        cases hc
      | true =>
        have hd : s.procs p = ⟨.ready, some d⟩ := hq
        obtain rfl : d = c := by simpa [hd] using hc
        exact absurd rfl (he o)
    · rw [hp, update_of_ne hpq]
      exact .inl rfl

/-- Inside a blocking call a process is asleep, or woken and about to run on. -/
def State.Settled (s : State) : Prop :=
  ∀ p, (s.procs p).inside ≠ none →
    0 < p ∧ ((s.procs p).state = .waiting ∨ (s.procs p).state = .ready)

theorem Woken.inside_eq {a b : Proc} (h : Woken a b) : b.inside = a.inside := by
  rcases h with rfl | ⟨-, rfl⟩ <;> rfl

theorem State.Settled.step (hs : s.Settled) (h : ProcStep s e s') : s'.Settled := by
  intro p hp
  cases h with
  | other hq =>
    have hin := (hq p).inside_eq
    obtain ⟨hpos, hst⟩ := hs p (by rw [← hin]; exact hp)
    rcases hq p with heq | ⟨-, heq⟩
    · rw [heq]
      exact ⟨hpos, hst⟩
    · rw [heq]
      exact ⟨hpos, .inr rfl⟩
  | pass q c r o hq hpr =>
    rw [hpr] at hp ⊢
    by_cases hpq : p = q
    · subst hpq
      have hpos : 0 < p := by
        cases r with
        | false => exact hq.1
        | true =>
          have hd : s.procs p = ⟨.ready, some c⟩ := hq
          exact (hs p (by simp [hd])).1
      rw [update_self] at hp ⊢
      cases o with
      | returned rc => exact absurd rfl hp
      | blocked x => exact ⟨hpos, .inl rfl⟩
    · rw [update_of_ne hpq] at hp ⊢
      exact hs p hp

theorem syncInit_settled : syncInit.Settled := by
  intro p hp
  exact absurd rfl hp

theorem processWake_procs (s : State) (p q : Pid) : Woken (s.procs q) ((processWake s p).procs q) := by
  unfold processWake
  split
  · rename_i h
    rw [setProc_procs]
    split
    · rename_i hq
      subst hq
      exact .inr ⟨h.2, rfl⟩
    · exact .inl rfl
  · exact .inl rfl

theorem processWake_not_waiting (s : State) (p : Pid) (hp : 0 < p) : ((processWake s p).procs p).state ≠ .waiting := by
  unfold processWake
  by_cases h : (s.procs p).state = .waiting
  · rw [if_pos ⟨hp, h⟩, setProc_procs, if_pos rfl]
    simp
  · rw [if_neg (by tauto)]
    exact h

theorem finish_procs (s : State) (p : Pid) (c : Call) (o : Outcome) :
    (s.finish p c o).procs = update s.procs p (c.after o) := by
  cases o <;> rfl

theorem syncMutexUnlock_procs (s : State) (p : Pid) (id : Int) :
    (∀ q, Woken (s.procs q) ((syncMutexUnlock s p id).1.procs q)) ∧
      ∀ q, (syncMutexUnlock s p id).2.2 = some q → 0 < q → ((syncMutexUnlock s p id).1.procs q).state ≠ .waiting := by
  unfold syncMutexUnlock
  dsimp only
  split_ifs
  · exact ⟨fun q => .inl rfl, by simp⟩
  · exact ⟨fun q => .inl rfl, by simp⟩
  · refine ⟨fun q => processWake_procs _ _ _, ?_⟩
    intro q hq hpos
    cases hq
    exact processWake_not_waiting _ _ hpos
  · exact ⟨fun q => .inl rfl, by simp⟩

theorem syncSemaphorePost_procs (s : State) (p : Pid) (id : Int) :
    (∀ q, Woken (s.procs q) ((syncSemaphorePost s id).1.procs q)) ∧
      ∀ q, (Event.post p id (syncSemaphorePost s id).2.1 (syncSemaphorePost s id).2.2).wakes =
        some q → 0 < q → ((syncSemaphorePost s id).1.procs q).state ≠ .waiting := by
  unfold syncSemaphorePost
  dsimp only
  split_ifs
  · exact ⟨fun q => .inl rfl, by simp [Event.wakes]⟩
  · exact ⟨fun q => .inl rfl, by simp [Event.wakes]⟩
  · refine ⟨fun q => processWake_procs _ _ _, ?_⟩
    intro q hq hpos
    cases hq
    exact processWake_not_waiting _ _ hpos
  · exact ⟨fun q => .inl rfl, by simp [Event.wakes]⟩
  · exact ⟨fun q => .inl rfl, by simp [Event.wakes]⟩

theorem step_procs (h : Step s e s') : ProcStep s e s' := by
  cases step_took h with
  | mutexCreate p =>
    have hp : (syncMutexCreate s).1.procs = s.procs := by
      unfold syncMutexCreate
      split <;> rfl
    exact .other (fun q => .inl (congrFun hp q)) (by simp) (by simp) (by simp [Event.wakes])
  | semaphoreCreate p n =>
    have hp : (syncSemaphoreCreate s n).1.procs = s.procs := by
      unfold syncSemaphoreCreate
      split
      · rfl
      · split <;> rfl
    exact .other (fun q => .inl (congrFun hp q)) (by simp) (by simp) (by simp [Event.wakes])
  | lockRefused p id =>
    exact .other (fun q => .inl rfl) (by simp) (by simp) (by simp [Event.wakes])
  | lock p j r hr =>
    refine .pass p (.lock j) r _ hr ?_
    rw [finish_procs, lockPass_procs]
  | unlock p id =>
    obtain ⟨h1, h2⟩ := syncMutexUnlock_procs s p id
    exact .other h1 (by simp) (by simp) h2
  | waitRefused p id =>
    exact .other (fun q => .inl rfl) (by simp) (by simp) (by simp [Event.wakes])
  | wait p j r hr =>
    refine .pass p (.wait j) r _ hr ?_
    rw [finish_procs, waitPass_procs]
  | post p id =>
    obtain ⟨h1, h2⟩ := syncSemaphorePost_procs s p id
    exact .other h1 (by simp) (by simp) h2
  | wake p => exact .other (processWake_procs s p) (by simp) (by simp) (by simp [Event.wakes])

end ProOS.Sync
