import ProOS.Sync.Steps

namespace ProOS.Sync

open ProOS.Framework List

/-- What a successful call says about who has mutex `i`: a lock that returned 0 takes it, an
unlock that returned 0 gives it up. -/
def Event.verdict (i : Nat) (p : Pid) : Event → Option Bool
  | .lock q id _ (.returned rc) => if q = p ∧ id = i ∧ rc = 0 then some true else none
  | .unlock q id rc _ => if q = p ∧ id = i ∧ rc = 0 then some false else none
  | _ => none

/-- The latest successful call of `p` on mutex `i` is a lock that returned 0. -/
def Holds (i : Nat) (tr : List Event) (p : Pid) : Prop :=
  (tr.filterMap (Event.verdict i p)).getLast? = some true

/-- The process an event adds to the waiter array of mutex `i`. -/
def Event.arrival (i : Nat) : Event → Option Pid
  | .lock p id _ (.blocked .appended) => if id = i then some p else none
  | _ => none

def Event.heir (i : Nat) : Event → Option Pid
  | .unlock _ id _ (some w) => if id = i then some w else none
  | _ => none

def arrivals (i : Nat) (tr : List Event) : List Pid := tr.filterMap (Event.arrival i)

def heirs (i : Nat) (tr : List Event) : List Pid := tr.filterMap (Event.heir i)

theorem holds_snoc (i : Nat) (tr : List Event) (e : Event) (p : Pid) :
    Holds i (tr ++ [e]) p ↔ e.verdict i p = some true ∨ (e.verdict i p = none ∧ Holds i tr p) := by
  unfold Holds
  rw [filterMap_append]
  cases h : e.verdict i p with
  | none => simp [h]
  | some b => simp [h]

theorem arrivals_snoc (i : Nat) (tr : List Event) (e : Event) :
    arrivals i (tr ++ [e]) = arrivals i tr ++ (e.arrival i).toList := by
  unfold arrivals
  rw [filterMap_append]
  cases h : e.arrival i <;> simp [h]

theorem heirs_snoc (i : Nat) (tr : List Event) (e : Event) : heirs i (tr ++ [e]) = heirs i tr ++ (e.heir i).toList := by
  unfold heirs
  rw [filterMap_append]
  cases h : e.heir i <;> simp [h]

section Quiet

variable {i : Nat} {v : Mutex} {e : Event}
  (hl : ∀ p r o, e = .lock p i r o → (r = true → v.used = false) ∧ o = .returned (-1))
  (hu : ∀ p rc w, e = .unlock p i rc w → rc = -1 ∧ w = none)

include hl hu

theorem verdict_quiet (p : Pid) : e.verdict i p = none := by
  unfold Event.verdict
  split
  · rename_i q id r rc
    rw [if_neg]
    rintro ⟨-, rfl, rfl⟩
    exact absurd (hl _ _ _ rfl).2 (by simp)
  · rename_i q id rc w
    rw [if_neg]
    rintro ⟨-, rfl, rfl⟩
    exact absurd (hu _ _ _ rfl).1 (by decide)
  · rfl

theorem arrival_quiet : e.arrival i = none := by
  unfold Event.arrival
  split
  · rw [if_neg]
    rintro rfl
    exact absurd (hl _ _ _ rfl).2 (by simp)
  · rfl

theorem heir_quiet : e.heir i = none := by
  unfold Event.heir
  split
  · rw [if_neg]
    rintro rfl
    exact absurd (hu _ _ _ rfl).2 (by simp)
  · rfl

end Quiet

structure Mutex.Ok (v : Mutex) : Prop where
  unused : v.used = false → v.locked = false
  unlocked : v.locked = false → v.owner = -1 ∧ v.waiters = []
  nodup : v.waiters.Nodup
  owner_not_queued : v.owner ∉ v.waiters

variable {i : Nat} {s : State} {w : Pid}

theorem MutexStep.ok {v v' : Mutex} {e : Event} (h : MutexStep i v e v') (hv : v.Ok) : v'.Ok := by
  cases h with
  | quiet => exact hv
  | create p _ hf => exact ⟨by simp, by simp, nodup_nil, by simp⟩
  | acquire p r hu hl =>
    have hw := (hv.unlocked hl).2
    refine ⟨?_, by simp, hv.nodup, ?_⟩
    · intro hf
      exact absurd (hu.symm.trans hf) (by decide)
    · rw [hw]
      exact not_mem_nil
  | again => exact hv
  | block p r _ hl ho =>
    have hunl : v.locked = false → False := by simp [hl]
    rcases queueSelf_cases v.waiters p with ⟨-, hq⟩ | ⟨hp, -, hq⟩ | ⟨-, -, hq⟩
    · rw [hq]
      exact hv
    · rw [hq]
      refine ⟨hv.unused, fun h => (hunl h).elim, ?_, ?_⟩
      · exact nodup_append'.mpr ⟨hv.nodup, nodup_singleton p, by simpa using hp⟩
      · intro hmem
        rcases mem_append.mp hmem with hm | hm
        · exact hv.owner_not_queued hm
        · exact ho (by simpa using hm)
    · rw [hq]
      exact hv
  | handOver p w ws _ hl ho hw =>
    have hnd := hv.nodup
    rw [hw, nodup_cons] at hnd
    refine ⟨?_, by simp, hnd.2, hnd.1⟩
    intro hf
    exact absurd (hl.symm.trans (hv.unused hf)) (by decide)
  | release p hl ho hw => exact ⟨fun _ => rfl, fun _ => ⟨rfl, hw⟩, hv.nodup, by simp [hw]⟩

/-- Mutex `i`, its processes and the history agree. A process that was handed the mutex in
its sleep is the recorded owner before it can know. -/
structure MutexInv (i : Nat) (tr : List Event) (s : State) : Prop where
  ok : (s.mutexes i).Ok
  settled : s.Settled
  queued : ∀ p ∈ (s.mutexes i).waiters, (s.procs p).inside = some (.lock i)
  owned : (s.mutexes i).locked = true →
    Holds i tr (s.mutexes i).owner ∨ s.procs (s.mutexes i).owner = ⟨.ready, some (.lock i)⟩
  holder : ∀ p, Holds i tr p → (s.mutexes i).locked = true ∧ (s.mutexes i).owner = p
  fifo : arrivals i tr = heirs i tr ++ (s.mutexes i).waiters

theorem mutexInv_init (i : Nat) : MutexInv i [] syncInit where
  ok := ⟨by simp [syncInit], by simp [syncInit], by simp [syncInit], by simp [syncInit]⟩
  settled := syncInit_settled
  queued := by simp [syncInit]
  owned := by simp [syncInit]
  holder := by simp [Holds]
  fifo := rfl

theorem Woken.ready_eq {a b : Proc} (h : Woken a b) (ha : a.state = .ready) : b = a := by
  rcases h with rfl | ⟨hw, -⟩
  · rfl
  · rw [ha] at hw
    cases hw

theorem Woken.woken_ready {a b : Proc} {c : Call} (h : Woken a b) (hc : a.inside = some c)
    (ha : a.state = .waiting ∨ a.state = .ready) (hb : b.state ≠ .waiting) : b = ⟨.ready, some c⟩ := by
  obtain ⟨st, ins⟩ := a
  rcases h with rfl | ⟨-, rfl⟩
  · rcases ha with ha | ha
    · exact absurd ha hb
    · dsimp only at ha hc
      rw [ha, hc]
  · dsimp only at hc ⊢
    rw [hc]

section Step

variable {tr : List Event} {s s' : State} {e : Event}

theorem MutexInv.queued_step (inv : MutexInv i tr s)
    (hm : MutexStep i (s.mutexes i) e (s'.mutexes i)) (hp : ProcStep s e s') :
    ∀ p ∈ (s'.mutexes i).waiters, (s'.procs p).inside = some (.lock i) := by
  intro p hmem
  -- a waiter that does not itself make the pass keeps its place inside the call
  have keep : p ∈ (s.mutexes i).waiters → (∀ o, e ≠ .lock p i true o) →
      (s'.procs p).inside = some (.lock i) := by
    intro hq he
    have hin := inv.queued p hq
    rw [(hp.inside_kept hin he).inside_eq]
    exact hin
  generalize hv' : s'.mutexes i = v' at hm hmem
  generalize hv : s.mutexes i = v at hm keep
  have ok : v.Ok := hv ▸ inv.ok
  cases hm with
  | quiet hl hu =>
    apply keep hmem
    intro o he
    have hw := (ok.unlocked (ok.unused ((hl _ _ _ he).1 rfl))).2
    rw [hw] at hmem
    cases hmem
  | create => cases hmem
  | acquire q r _ hl =>
    have hw := (ok.unlocked hl).2
    rw [hw] at hmem
    cases hmem
  | again q r hl ho =>
    apply keep hmem
    intro o he
    obtain ⟨rfl, -⟩ := Event.lock.inj he
    exact ok.owner_not_queued (ho ▸ hmem)
  | block q r _ hl ho =>
    by_cases hpq : p = q
    · subst hpq
      rw [(hp.pass_lock (by simp)).2, Function.update_self]
      rfl
    · apply keep
      · rcases queueSelf_cases v.waiters q with ⟨-, hq⟩ | ⟨-, -, hq⟩ | ⟨-, -, hq⟩
        · rw [hq] at hmem
          exact hmem
        · rw [hq] at hmem
          rcases mem_append.mp hmem with hm | hm
          · exact hm
          · exact absurd (by simpa using hm) hpq
        · rw [hq] at hmem
          exact hmem
      · intro o he
        exact hpq (Event.lock.inj he).1.symm
  | handOver q w ws _ hl ho hw =>
    apply keep
    · rw [hw]
      exact mem_cons_of_mem w hmem
    · simp
  | release q hl ho hw => exact keep hmem (by simp)

theorem MutexInv.fifo_step (inv : MutexInv i tr s) (hm : MutexStep i (s.mutexes i) e (s'.mutexes i)) :
    arrivals i (tr ++ [e]) = heirs i (tr ++ [e]) ++ (s'.mutexes i).waiters := by
  have hf := inv.fifo
  have ok := inv.ok
  rw [arrivals_snoc, heirs_snoc]
  generalize s'.mutexes i = v' at hm
  generalize s.mutexes i = v at hm hf ok
  cases hm with
  | quiet hl hu =>
    rw [arrival_quiet hl hu, heir_quiet hl hu]
    simpa using hf
  | create p _ hu =>
    rw [(ok.unlocked (ok.unused hu)).2] at hf
    simpa [Event.arrival, Event.heir] using hf
  | acquire p r _ hl => simpa [Event.arrival, Event.heir] using hf
  | again p r => simpa [Event.arrival, Event.heir] using hf
  | block p r _ hl ho =>
    rcases queueSelf_cases v.waiters p with ⟨-, hq⟩ | ⟨-, -, hq⟩ | ⟨-, -, hq⟩
    · rw [hq]
      simpa [Event.arrival, Event.heir] using hf
    · rw [hq]
      simp [Event.arrival, Event.heir, hf]
    · rw [hq]
      simpa [Event.arrival, Event.heir] using hf
  | handOver p w ws _ hl ho hw =>
    simp [Event.arrival, Event.heir, hf, hw]
  | release p hl ho hw => simpa [Event.arrival, Event.heir] using hf

theorem MutexInv.holder_step (inv : MutexInv i tr s) (hm : MutexStep i (s.mutexes i) e (s'.mutexes i)) :
    ∀ p, Holds i (tr ++ [e]) p → (s'.mutexes i).locked = true ∧ (s'.mutexes i).owner = p := by
  intro p hp
  rw [holds_snoc] at hp
  have hh := inv.holder p
  have ok := inv.ok
  generalize s'.mutexes i = v' at hm
  generalize s.mutexes i = v at hm hh ok
  cases hm with
  | quiet hl hu =>
    rw [verdict_quiet hl hu] at hp
    rcases hp with hp | ⟨-, hp⟩
    · cases hp
    · exact hh hp
  | create q _ hu =>
    rcases hp with hp | ⟨-, hp⟩
    · cases hp
    · exact absurd ((hh hp).1.symm.trans (ok.unused hu)) (by decide)
  | acquire q r _ hl =>
    by_cases hqp : q = p
    · exact ⟨rfl, hqp⟩
    · rcases hp with hp | ⟨-, hp⟩
      · simp [Event.verdict, hqp] at hp
      · exact absurd ((hh hp).1.symm.trans hl) (by decide)
  | again q r hl ho =>
    by_cases hqp : q = p
    · exact ⟨hl, ho.trans hqp⟩
    · rcases hp with hp | ⟨-, hp⟩
      · simp [Event.verdict, hqp] at hp
      · exact hh hp
  | block q r _ hl ho =>
    rcases hp with hp | ⟨-, hp⟩
    · simp [Event.verdict] at hp
    · exact hh hp
  | handOver q w ws _ hl ho hw =>
    -- the only holder there could be is the owner `q`, and `q` has just given the mutex up
    rcases hp with hp | ⟨hn, hp⟩
    · simp [Event.verdict] at hp
    · obtain rfl : q = p := ho.symm.trans (hh hp).2
      simp [Event.verdict] at hn
  | release q hl ho hw =>
    rcases hp with hp | ⟨hn, hp⟩
    · simp [Event.verdict] at hp
    · obtain rfl : q = p := ho.symm.trans (hh hp).2
      simp [Event.verdict] at hn

theorem holds_of_lock (r : Bool) (p : Pid) : Holds i (tr ++ [.lock p i r (.returned 0)]) p := by
  rw [holds_snoc]
  exact .inl (by simp [Event.verdict])

theorem MutexInv.owned_step (inv : MutexInv i tr s)
    (hm : MutexStep i (s.mutexes i) e (s'.mutexes i)) (hp : ProcStep s e s') (hlocked : (s'.mutexes i).locked = true) :
    Holds i (tr ++ [e]) (s'.mutexes i).owner ∨ s'.procs (s'.mutexes i).owner = ⟨.ready, some (.lock i)⟩ := by
  -- an owner that neither locks nor unlocks in this step stays as it was
  have keep : ∀ o, (s.mutexes i).locked = true → (s.mutexes i).owner = o →
      e.verdict i o = none → (∀ x, e ≠ .lock o i true x) →
      Holds i (tr ++ [e]) o ∨ s'.procs o = ⟨.ready, some (.lock i)⟩ := by
    intro o hl ho hv he
    subst ho
    rcases inv.owned hl with h | h
    · exact .inl ((holds_snoc i tr e _).mpr (.inr ⟨hv, h⟩))
    · right
      have hk := hp.inside_kept (c := .lock i) (by rw [h]) he
      rw [hk.ready_eq (by rw [h]), h]
  have ok := inv.ok
  have hq := inv.queued
  generalize s'.mutexes i = v' at hm hlocked
  generalize s.mutexes i = v at hm keep ok hq
  cases hm with
  | quiet hl hu =>
    apply keep _ hlocked rfl (verdict_quiet hl hu _)
    intro x he
    have hf := ok.unused ((hl _ _ _ he).1 rfl)
    rw [hlocked] at hf
    cases hf
  | create => cases hlocked
  | acquire p r => exact .inl (holds_of_lock r p)
  | again p r hl ho =>
    rw [ho]
    exact .inl (holds_of_lock r p)
  | block p r _ hl ho =>
    apply keep _ hl rfl
    · simp [Event.verdict]
    · intro x he
      exact ho (Event.lock.inj he).1.symm
  | handOver p w ws _ hl ho hw =>
    right
    have hmem : w ∈ v.waiters := by simp [hw]
    have hin := hq w hmem
    have hset := inv.settled w (by simp [hin])
    have hwoken := hp.woken (by intro q c; cases c <;> simp [Call.event]) w
    apply hwoken.woken_ready hin hset.2
    generalize he : Event.unlock p i 0 (some w) = e at hp
    cases hp with
    | pass q c => cases c <;> simp [Call.event] at he
    | other _ _ _ hk =>
      apply hk w _ hset.1
      rw [← he]
      rfl
  | release => cases hlocked

theorem MutexInv.step (inv : MutexInv i tr s) (h : Step s e s') : MutexInv i (tr ++ [e]) s' := by
  have hm := step_mutex i h
  have hp := step_procs h
  exact {
    ok := hm.ok inv.ok
    settled := inv.settled.step hp
    queued := inv.queued_step hm hp
    owned := inv.owned_step hm hp
    holder := inv.holder_step hm
    fifo := inv.fifo_step hm }

end Step

theorem exec_mutexInv {tr : List Event} (hx : Exec Step syncInit tr s) : MutexInv i tr s :=
  hx.historyInvariant (P := MutexInv i) (mutexInv_init i) (fun _ _ _ _ _ inv h => inv.step h)

theorem step_unlock {s' : State} {p : Pid} {id rc : Int} {heir : Option Pid}
    (h : Step s (.unlock p id rc heir) s') : s.Free p ∧ syncMutexUnlock s p id = (s', rc, heir) := by
  generalize he : Event.unlock p id rc heir = e at h
  cases step_took h with
  | unlock q id' hf =>
    obtain ⟨rfl, rfl, rfl, rfl⟩ := Event.unlock.inj he
    exact ⟨hf, rfl⟩
  | _ => cases he

/-- `w` owns mutex `i` and will find out when it runs on. -/
structure Pending (i : Nat) (w : Pid) (s : State) : Prop where
  used : (s.mutexes i).used = true
  locked : (s.mutexes i).locked = true
  owner : (s.mutexes i).owner = w
  proc : s.procs w = ⟨.ready, some (.lock i)⟩

theorem Pending.step {s' : State} {e : Event} (hs : Pending i w s) (h : Step s e s') :
    (Pending i w s' ∧ ∀ p r, e ≠ .lock p i r (.returned 0)) ∨ e = .lock w i true (.returned 0) := by
  obtain ⟨hused, hlocked, howner, hproc⟩ := hs
  have hp := step_procs h
  have hm := step_mutex i h
  have keep : (∀ o, e ≠ .lock w i true o) → s'.procs w = ⟨.ready, some (.lock i)⟩ := by
    intro he
    have hk := hp.inside_kept (c := .lock i) (by rw [hproc]) he
    rw [hk.ready_eq (by rw [hproc]), hproc]
  have free : ∀ rc heir, e = .unlock w i rc heir → False := by
    intro rc heir he
    subst he
    have hf := (step_unlock h).1.2
    rw [hproc] at hf
    cases hf
  generalize hv' : s'.mutexes i = v' at hm
  generalize s.mutexes i = v at hm hused hlocked howner
  cases hm with
  | quiet hl hu =>
    left
    refine ⟨⟨?_, ?_, ?_, ?_⟩, ?_⟩
    · rw [hv', hused]
    · rw [hv', hlocked]
    · rw [hv', howner]
    · apply keep
      intro o he
      exact absurd (hused.symm.trans ((hl _ _ _ he).1 rfl)) (by decide)
    · intro p r he
      exact absurd (hl _ _ _ he).2 (by simp)
  | create p _ hf => exact absurd (hused.symm.trans hf) (by decide)
  | acquire p r _ hf => exact absurd (hlocked.symm.trans hf) (by decide)
  | again p r _ ho =>
    right
    obtain rfl : p = w := ho.symm.trans howner
    cases r with
    | true => rfl
    | false =>
      have hf := (hp.pass_lock (by simp)).1.2
      rw [hproc] at hf
      cases hf
  | block p r _ _ ho =>
    left
    refine ⟨⟨?_, ?_, ?_, ?_⟩, by simp⟩
    · rw [hv', ← hused]
    · rw [hv', ← hlocked]
    · rw [hv', ← howner]
    · apply keep
      intro o he
      obtain ⟨rfl, -⟩ := Event.lock.inj he
      exact ho howner
  | handOver p _ ws _ _ ho =>
    obtain rfl : p = w := ho.symm.trans howner
    exact (free _ _ rfl).elim
  | release p _ ho =>
    obtain rfl : p = w := ho.symm.trans howner
    exact (free _ _ rfl).elim

/-- In every continuation in which `w` has not yet returned from its lock call, `w` stays the
owner, no process acquires the mutex, and the next pass of `w` can be made and returns 0. -/
def FirstToAcquire (i : Nat) (w : Pid) (s : State) : Prop :=
  ∀ tr s', Exec Step s tr s' → (∀ r, .lock w i r (.returned 0) ∉ tr) →
    (s'.mutexes i).locked = true ∧ (s'.mutexes i).owner = w ∧
    (∀ p r, .lock p i r (.returned 0) ∉ tr) ∧
    (∃ s'', Step s' (.lock w i true (.returned 0)) s'') ∧
    ∀ r o s'', Step s' (.lock w i r o) s'' → o = .returned 0

theorem Pending.lock_returns (hs : Pending i w s) : lockPass s w i = (s, .returned 0) := by
  unfold lockPass
  simp [hs.used, hs.locked, hs.owner]

theorem Pending.firstToAcquire (hi : i < configSyncMaxMutexes) (hs : Pending i w s) : FirstToAcquire i w s := by
  intro tr s' hx hno
  have key := hx.historyInvariant
    (P := fun tr s' => (∀ r, .lock w i r (.returned 0) ∉ tr) →
      Pending i w s' ∧ ∀ p r, .lock p i r (.returned 0) ∉ tr)
    (fun _ => ⟨hs, by simp⟩)
    (by
      intro tr s e s' _ ih hstep hno
      obtain ⟨hpend, hothers⟩ := ih (fun r hr => hno r (mem_append_left _ hr))
      rcases hpend.step hstep with ⟨hpend', hne⟩ | rfl
      · refine ⟨hpend', ?_⟩
        intro p r hmem
        rcases mem_append.mp hmem with hm | hm
        · exact hothers p r hm
        · exact hne p r (mem_singleton.mp hm).symm
      · exact absurd (by simp) (hno true))
  obtain ⟨hpend, hothers⟩ := key hno
  refine ⟨hpend.locked, hpend.owner, hothers, ?_, ?_⟩
  · refine ⟨s'.finish w (.lock i) (.returned 0), .resume w, ?_⟩
    simp [perform, resumeCall, hpend.proc, lockPassEvent, hpend.lock_returns]
  · intro r o s'' hstep
    rcases hpend.step hstep with ⟨⟨hu, hl, ho, hpr⟩, -⟩ | heq
    · -- a pass of `w` that left it inside the call would have been refused the mutex it owns
      generalize he : Event.lock w i r o = e at hstep
      cases step_took hstep with
      | lock p j r' =>
        obtain ⟨rfl, hij, rfl, rfl⟩ := Event.lock.inj he
        obtain rfl : i = j := by exact_mod_cast hij
        rw [hpend.lock_returns]
      | lockRefused p id _ hid =>
        obtain ⟨-, rfl, -⟩ := Event.lock.inj he
        omega
      | _ => cases he
    · exact (Event.lock.inj heq).2.2.2

theorem syncMutexUnlock_handOver {p : Pid} {ws : List Pid}
    (hi : i < configSyncMaxMutexes) (hu : (s.mutexes i).used = true)
    (hl : (s.mutexes i).locked = true) (ho : (s.mutexes i).owner = p) (hw : (s.mutexes i).waiters = w :: ws) :
    syncMutexUnlock s p i =
      (processWake (s.setMutex i { s.mutexes i with owner := w, locked := true, waiters := ws }) w, 0, some w) := by
  have hr : ¬((i : Int) < 0 ∨ (configSyncMaxMutexes : Int) ≤ i) := by omega
  have hn : ¬(!(s.mutexes i).used || !(s.mutexes i).locked ||
      decide ((s.mutexes i).owner ≠ p)) = true := by simp [hu, hl, ho]
  have hlen : 0 < (s.mutexes i).waiters.length := by simp [hw]
  unfold syncMutexUnlock
  dsimp only
  rw [if_neg hr, Int.toNat_natCast, if_neg hn, if_pos hlen, hw]
  rfl

theorem MutexInv.handOver_pending {tr : List Event}
    {ws : List Pid} (inv : MutexInv i tr s) (hu : (s.mutexes i).used = true) (hw : (s.mutexes i).waiters = w :: ws) :
    Pending i w (processWake (s.setMutex i { s.mutexes i with owner := w, locked := true, waiters := ws }) w) := by
  generalize ht : s.setMutex i { s.mutexes i with owner := w, locked := true, waiters := ws } = t
  have hcell : (processWake t w).mutexes i =
      { s.mutexes i with owner := w, locked := true, waiters := ws } := by
    rw [processWake_mutexes, ← ht, setMutex_mutexes, if_pos rfl]
  have hprocs : t.procs = s.procs := by rw [← ht, setMutex_procs]
  have hin := inv.queued w (by simp [hw])
  have hset := inv.settled w (by simp [hin])
  rw [← hprocs] at hin hset
  refine ⟨by rw [hcell, hu], by rw [hcell], by rw [hcell], ?_⟩
  exact (processWake_procs t w w).woken_ready hin hset.2 (processWake_not_waiting t w hset.1)

/-- Safety of every mutex along every run: at most one holder, who is the recorded owner; an
unlock by anyone else fails and changes nothing; an unlock with waiters hands the mutex to
the first arrival not yet served, who is the next to return from `sync_mutex_lock`. -/
theorem mutex_safety {i : Nat} (hi : i < configSyncMaxMutexes) {tr : List Event} {s : State}
    (hx : Exec Step syncInit tr s) :
    (∀ p q, Holds i tr p → Holds i tr q → p = q) ∧
    (∀ p, Holds i tr p → (s.mutexes i).locked = true ∧ (s.mutexes i).owner = p) ∧
    (∀ p rc heir s', Step s (.unlock p i rc heir) s' → (s.mutexes i).owner ≠ p →
      rc = -1 ∧ s' = s) ∧
    (∀ p rc heir s', Step s (.unlock p i rc heir) s' → (s.mutexes i).owner = p →
      (s.mutexes i).waiters ≠ [] →
      ∃ w later, rc = 0 ∧ heir = some w ∧ arrivals i tr = heirs i tr ++ w :: later ∧
        (s.mutexes i).waiters = w :: later ∧ (s'.mutexes i).owner = w ∧
        FirstToAcquire i w s') := by
  have inv := exec_mutexInv (i := i) hx
  refine ⟨?_, inv.holder, ?_, ?_⟩
  · intro p q hp hq
    exact (inv.holder p hp).2.symm.trans (inv.holder q hq).2
  · intro p rc heir s' h hne
    obtain ⟨-, hu⟩ := step_unlock h
    rw [syncMutexUnlock_refused s p i (by simpa using hne)] at hu
    obtain ⟨rfl, hrest⟩ := Prod.mk.inj hu
    cases hrest
    exact ⟨rfl, rfl⟩
  · intro p rc heir s' h ho hw
    obtain ⟨hfree, hcall⟩ := step_unlock h
    obtain ⟨w, later, hws⟩ := exists_cons_of_ne_nil hw
    -- an unlocked or unused mutex has no waiters
    have hlocked : (s.mutexes i).locked = true := by
      by_contra hl
      exact hw (inv.ok.unlocked (by simpa using hl)).2
    have hused : (s.mutexes i).used = true := by
      by_contra hu
      have hf := inv.ok.unused (by simpa using hu)
      rw [hlocked] at hf
      cases hf
    rw [syncMutexUnlock_handOver hi hused hlocked ho hws] at hcall
    obtain ⟨rfl, hrest⟩ := Prod.mk.inj hcall
    cases hrest
    have hpend := inv.handOver_pending hused hws
    refine ⟨w, later, rfl, rfl, ?_, hws, hpend.owner, hpend.firstToAcquire hi⟩
    rw [inv.fifo, hws]

/-- Process 1 takes a new mutex and process 2 asks for it. -/
def contend : List Action := [.mutexCreate 1, .mutexLock 1 0, .mutexLock 2 0]

theorem mutex_safety_contend :
    ∃ s tr s', Exec Step syncInit tr s ∧ Holds 0 tr 1 ∧ Step s (.unlock 1 0 0 (some 2)) s' ∧
      (s'.mutexes 0).owner = 2 ∧ FirstToAcquire 0 2 s' := by
  have hsome : (performAll perform syncInit contend).isSome = true := by decide
  have hrun := performAll_exec perform contend _ _ _ (Option.some_get hsome).symm
  have hunlock : Step ((performAll perform syncInit contend).get hsome).2
      (.unlock 1 0 0 (some 2))
      (syncMutexUnlock ((performAll perform syncInit contend).get hsome).2 1 0).1 :=
    ⟨.mutexUnlock 1 0, rfl⟩
  obtain ⟨w, later, -, hheir, -, -, howner, hfirst⟩ :=
    (mutex_safety (i := 0) (by decide) hrun).2.2.2 1 0 (some 2) _ hunlock (by decide) (by decide)
  cases hheir
  exact ⟨_, _, _, hrun, by unfold Holds; decide, hunlock, howner, hfirst⟩

end ProOS.Sync
