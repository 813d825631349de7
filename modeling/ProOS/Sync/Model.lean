import ProOS.Kernel.Types
import ProOS.Framework.Exec

namespace ProOS.Sync

open ProOS.Framework Function Option

def configSyncMaxMutexes : Nat := 32
def configSyncMaxSemaphores : Nat := 32
def configSyncMaxWaiters : Nat := 8

/-- `struct sync_mutex`; `waiters` holds the first `wait_count` cells of the array. -/
structure Mutex where
  used : Bool
  locked : Bool
  owner : Pid
  waiters : List Pid
  deriving DecidableEq, Repr

structure Semaphore where
  used : Bool
  count : Int
  waiters : List Pid
  deriving DecidableEq, Repr

/-- The calls of sync.c that can block their caller, at a valid index. -/
inductive Call
  | lock (id : Nat)
  | wait (id : Nat)
  deriving DecidableEq, Repr

/-- A process as this subsystem sees it: its scheduler state, and the retry loop it is in. -/
structure Proc where
  state : ProcState
  inside : Option Call
  deriving DecidableEq, Repr

structure State where
  mutexes : Nat → Mutex
  semaphores : Nat → Semaphore
  procs : Pid → Proc

def State.setMutex (s : State) (i : Nat) (m : Mutex) : State :=
  { s with mutexes := update s.mutexes i m }

def State.setSemaphore (s : State) (i : Nat) (m : Semaphore) : State :=
  { s with semaphores := update s.semaphores i m }

def State.setProc (s : State) (p : Pid) (q : Proc) : State :=
  { s with procs := update s.procs p q }

section Fields

variable (s : State) (i j : Nat) (m : Mutex) (v : Semaphore) (p r : Pid) (q : Proc)

@[simp] theorem setMutex_procs : (s.setMutex i m).procs = s.procs := rfl
@[simp] theorem setMutex_semaphores : (s.setMutex i m).semaphores = s.semaphores := rfl
@[simp] theorem setSemaphore_procs : (s.setSemaphore i v).procs = s.procs := rfl
@[simp] theorem setSemaphore_mutexes : (s.setSemaphore i v).mutexes = s.mutexes := rfl
@[simp] theorem setProc_mutexes : (s.setProc p q).mutexes = s.mutexes := rfl
@[simp] theorem setProc_semaphores : (s.setProc p q).semaphores = s.semaphores := rfl

theorem setMutex_mutexes : (s.setMutex i m).mutexes j = if j = i then m else s.mutexes j := by
  simp [State.setMutex, update_apply]

theorem setSemaphore_semaphores : (s.setSemaphore i v).semaphores j = if j = i then v else s.semaphores j := by
  simp [State.setSemaphore, update_apply]

theorem setProc_procs : (s.setProc p q).procs r = if r = p then q else s.procs r := by
  simp [State.setProc, update_apply]

end Fields

/-- `process_wake` on the process found under a positive pid. -/
def processWake (s : State) (p : Pid) : State :=
  if 0 < p ∧ (s.procs p).state = .waiting then
    s.setProc p { s.procs p with state := .ready }
  else s

/-- What a pass through a retry loop did to the waiter array before blocking. -/
inductive Queued
  | already
  | appended
  | full
  deriving DecidableEq, Repr

inductive Outcome
  | returned (rc : Int)
  | blocked (q : Queued)
  deriving DecidableEq, Repr

def enqueueWaiter (list : List Pid) (pid : Pid) : Option (List Pid) :=
  if configSyncMaxWaiters ≤ list.length then none else some (list ++ [pid])

/-- The guarded `enqueue_waiter` of both retry loops; its result is ignored there. -/
def queueSelf (list : List Pid) (self : Pid) : List Pid × Queued :=
  if self ∈ list then (list, .already)
  else
    match enqueueWaiter list self with
    | some l => (l, .appended)
    | none => (list, .full)

theorem queueSelf_cases (list : List Pid) (self : Pid) : (self ∈ list ∧ queueSelf list self = (list, .already)) ∨
    (self ∉ list ∧ list.length < configSyncMaxWaiters ∧ queueSelf list self = (list ++ [self], .appended)) ∨
    (self ∉ list ∧ configSyncMaxWaiters ≤ list.length ∧ queueSelf list self = (list, .full)) := by
  unfold queueSelf enqueueWaiter
  by_cases hm : self ∈ list
  · exact .inl ⟨hm, by rw [if_pos hm]⟩
  · by_cases hl : configSyncMaxWaiters ≤ list.length
    · exact .inr (.inr ⟨hm, hl, by rw [if_neg hm, if_pos hl]⟩)
    · exact .inr (.inl ⟨hm, not_le.mp hl, by rw [if_neg hm, if_neg hl]⟩)

def dequeueWaiter : List Pid → Pid × List Pid
  | [] => (-1, [])
  | p :: ps => (p, ps)

/-- A process leaves its call, or blocks inside it. -/
def State.finish (s : State) (self : Pid) (c : Call) : Outcome → State
  | .returned _ => s.setProc self ⟨.running, none⟩
  | .blocked _ => s.setProc self ⟨.waiting, some c⟩

/-- One pass of the loop of `sync_mutex_lock`, up to its return or to `process_block_current`. -/
def lockPass (s : State) (self : Pid) (i : Nat) : State × Outcome :=
  let mtx := s.mutexes i
  if !mtx.used then (s, .returned (-1))
  else if !mtx.locked then
    (s.setMutex i { mtx with locked := true, owner := self }, .returned 0)
  else if mtx.owner = self then (s, .returned 0)
  else
    let q := queueSelf mtx.waiters self
    (s.setMutex i { mtx with waiters := q.1 }, .blocked q.2)

def syncMutexUnlock (s : State) (self : Pid) (id : Int) : State × Int × Option Pid :=
  if id < 0 ∨ (configSyncMaxMutexes : Int) ≤ id then (s, -1, none)
  else
    let mtx := s.mutexes id.toNat
    if !mtx.used || !mtx.locked || mtx.owner ≠ self then (s, -1, none)
    else if 0 < mtx.waiters.length then
      let d := dequeueWaiter mtx.waiters
      (processWake (s.setMutex id.toNat { mtx with owner := d.1, locked := true, waiters := d.2 }) d.1,
        0, some d.1)
    else (s.setMutex id.toNat { mtx with locked := false, owner := -1 }, 0, none)

def waitPass (s : State) (self : Pid) (i : Nat) : State × Outcome :=
  let sem := s.semaphores i
  if !sem.used then (s, .returned (-1))
  else if 0 < sem.count then
    (s.setSemaphore i { sem with count := int32 (sem.count - 1) }, .returned 0)
  else
    let q := queueSelf sem.waiters self
    (s.setSemaphore i { sem with waiters := q.1 }, .blocked q.2)

/-- What a post did: it took a waiter from the array, or added to the counter, which
leaves the range of `int` when the counter was `INT_MAX`. -/
inductive PostEffect
  | refused
  | woke (p : Pid)
  | counted
  | wrapped
  deriving DecidableEq, Repr

def syncSemaphorePost (s : State) (id : Int) : State × Int × PostEffect :=
  if id < 0 ∨ (configSyncMaxSemaphores : Int) ≤ id then (s, -1, .refused)
  else
    let sem := s.semaphores id.toNat
    if !sem.used then (s, -1, .refused)
    else if 0 < sem.waiters.length then
      let d := dequeueWaiter sem.waiters
      (processWake (s.setSemaphore id.toNat { sem with waiters := d.2 }) d.1, 0, .woke d.1)
    else
      (s.setSemaphore id.toNat { sem with count := int32 (sem.count + 1) }, 0,
        if sem.count = intMax then .wrapped else .counted)

/-- The first free cell of a table, as the creation loops search it. -/
def firstUnused (used : Nat → Bool) : Nat → Nat → Option Nat
  | 0, _ => none
  | n + 1, i => if used i then firstUnused used n (i + 1) else some i

def syncMutexCreate (s : State) : State × Int :=
  match firstUnused (fun i => (s.mutexes i).used) configSyncMaxMutexes 0 with
  | some i => (s.setMutex i ⟨true, false, -1, []⟩, i)
  | none => (s, -1)

def syncSemaphoreCreate (s : State) (initialCount : Int) : State × Int :=
  if initialCount < 0 then (s, -1)
  else
    match firstUnused (fun i => (s.semaphores i).used) configSyncMaxSemaphores 0 with
    | some i => (s.setSemaphore i ⟨true, initialCount, []⟩, i)
    | none => (s, -1)

/-- `sync_init`, with every process outside the subsystem. -/
def syncInit : State where
  mutexes := fun _ => ⟨false, false, -1, []⟩
  semaphores := fun _ => ⟨false, 0, []⟩
  procs := fun _ => ⟨.running, none⟩

/-- What can happen next: a call by a process outside any retry loop, a woken process
running on inside its loop, or a `process_wake` from elsewhere in the kernel. -/
inductive Action
  | mutexCreate (p : Pid)
  | semaphoreCreate (p : Pid) (initialCount : Int)
  | mutexLock (p : Pid) (id : Int)
  | mutexUnlock (p : Pid) (id : Int)
  | semaphoreWait (p : Pid) (id : Int)
  | semaphorePost (p : Pid) (id : Int)
  | resume (p : Pid)
  | wake (p : Pid)
  deriving DecidableEq, Repr

/-- The trace of a run. `resumed` tells a pass of a woken process from a fresh call. -/
inductive Event
  | mutexCreated (p : Pid) (rc : Int)
  | semaphoreCreated (p : Pid) (initialCount rc : Int)
  | lock (p : Pid) (id : Int) (resumed : Bool) (o : Outcome)
  | unlock (p : Pid) (id : Int) (rc : Int) (heir : Option Pid)
  | wait (p : Pid) (id : Int) (resumed : Bool) (o : Outcome)
  | post (p : Pid) (id : Int) (rc : Int) (e : PostEffect)
  | woken (p : Pid)
  deriving DecidableEq, Repr

/-- A live process that is not inside a blocking call. -/
def State.Free (s : State) (p : Pid) : Prop := 0 < p ∧ (s.procs p).inside = none

instance (s : State) (p : Pid) : Decidable (s.Free p) := by unfold State.Free; infer_instance

def lockPassEvent (s : State) (p : Pid) (i : Nat) (resumed : Bool) : Event × State :=
  let r := lockPass s p i
  (.lock p i resumed r.2, r.1.finish p (.lock i) r.2)

def waitPassEvent (s : State) (p : Pid) (i : Nat) (resumed : Bool) : Event × State :=
  let r := waitPass s p i
  (.wait p i resumed r.2, r.1.finish p (.wait i) r.2)

def syncMutexLock (s : State) (p : Pid) (id : Int) : Event × State :=
  if id < 0 ∨ (configSyncMaxMutexes : Int) ≤ id then (.lock p id false (.returned (-1)), s)
  else lockPassEvent s p id.toNat false

def syncSemaphoreWait (s : State) (p : Pid) (id : Int) : Event × State :=
  if id < 0 ∨ (configSyncMaxSemaphores : Int) ≤ id then (.wait p id false (.returned (-1)), s)
  else waitPassEvent s p id.toNat false

/-- A woken process continues after `process_block_current`, at the top of its loop. -/
def resumeCall (s : State) (p : Pid) : Option (Event × State) :=
  if (s.procs p).state = .ready then
    match (s.procs p).inside with
    | some (.lock i) => some (lockPassEvent s p i true)
    | some (.wait i) => some (waitPassEvent s p i true)
    | none => none
  else none

def perform (s : State) : Action → Option (Event × State)
  | .mutexCreate p =>
    if s.Free p then
      let r := syncMutexCreate s
      some (.mutexCreated p r.2, r.1)
    else none
  | .semaphoreCreate p n =>
    if s.Free p ∧ n ≤ intMax then
      let r := syncSemaphoreCreate s n
      some (.semaphoreCreated p n r.2, r.1)
    else none
  | .mutexLock p id => if s.Free p then some (syncMutexLock s p id) else none
  | .mutexUnlock p id =>
    if s.Free p then
      let r := syncMutexUnlock s p id
      some (.unlock p id r.2.1 r.2.2, r.1)
    else none
  | .semaphoreWait p id => if s.Free p then some (syncSemaphoreWait s p id) else none
  | .semaphorePost p id =>
    if s.Free p then
      let r := syncSemaphorePost s id
      some (.post p id r.2.1 r.2.2, r.1)
    else none
  | .resume p => resumeCall s p
  | .wake p => some (.woken p, processWake s p)

/-- One step of any interleaving, each call atomic up to the point where it blocks. -/
abbrev Step : State → Event → State → Prop := Performs perform

/-- Who may make a pass through the loop of `c`: a free process on a fresh call, or a woken
process inside that very call. -/
def State.Enters (s : State) (p : Pid) (c : Call) : Bool → Prop
  | false => s.Free p
  | true => s.procs p = ⟨.ready, some c⟩

inductive Took (s : State) : Event → State → Prop
  | mutexCreate (p : Pid) (h : s.Free p) :
      Took s (.mutexCreated p (syncMutexCreate s).2) (syncMutexCreate s).1
  | semaphoreCreate (p : Pid) (n : Int) (h : s.Free p) (hn : n ≤ intMax) :
      Took s (.semaphoreCreated p n (syncSemaphoreCreate s n).2) (syncSemaphoreCreate s n).1
  | lockRefused (p : Pid) (id : Int) (h : s.Free p)
      (hid : id < 0 ∨ (configSyncMaxMutexes : Int) ≤ id) :
      Took s (.lock p id false (.returned (-1))) s
  | lock (p : Pid) (i : Nat) (r : Bool) (h : s.Enters p (.lock i) r) :
      Took s (.lock p i r (lockPass s p i).2)
        ((lockPass s p i).1.finish p (.lock i) (lockPass s p i).2)
  | unlock (p : Pid) (id : Int) (h : s.Free p) :
      Took s (.unlock p id (syncMutexUnlock s p id).2.1 (syncMutexUnlock s p id).2.2)
        (syncMutexUnlock s p id).1
  | waitRefused (p : Pid) (id : Int) (h : s.Free p)
      (hid : id < 0 ∨ (configSyncMaxSemaphores : Int) ≤ id) :
      Took s (.wait p id false (.returned (-1))) s
  | wait (p : Pid) (i : Nat) (r : Bool) (h : s.Enters p (.wait i) r) :
      Took s (.wait p i r (waitPass s p i).2)
        ((waitPass s p i).1.finish p (.wait i) (waitPass s p i).2)
  | post (p : Pid) (id : Int) (h : s.Free p) :
      Took s (.post p id (syncSemaphorePost s id).2.1 (syncSemaphorePost s id).2.2)
        (syncSemaphorePost s id).1
  | wake (p : Pid) : Took s (.woken p) (processWake s p)

theorem step_took {s s' : State} {e : Event} (h : Step s e s') : Took s e s' := by
  obtain ⟨a, ha⟩ := h
  cases a with
  | mutexCreate p =>
    simp only [perform, ite_none_right_eq_some, some.injEq, Prod.mk.injEq] at ha
    obtain ⟨hf, rfl, rfl⟩ := ha
    exact .mutexCreate p hf
  | semaphoreCreate p n =>
    simp only [perform, ite_none_right_eq_some, some.injEq, Prod.mk.injEq] at ha
    obtain ⟨hf, rfl, rfl⟩ := ha
    exact .semaphoreCreate p n hf.1 hf.2
  | mutexLock p id =>
    simp only [perform, ite_none_right_eq_some, some.injEq] at ha
    obtain ⟨hf, ha⟩ := ha
    unfold syncMutexLock at ha
    split at ha
    · rename_i hid
      cases ha
      exact .lockRefused p id hf hid
    · cases ha
      exact .lock p id.toNat false hf
  | mutexUnlock p id =>
    simp only [perform, ite_none_right_eq_some, some.injEq, Prod.mk.injEq] at ha
    obtain ⟨hf, rfl, rfl⟩ := ha
    exact .unlock p id hf
  | semaphoreWait p id =>
    simp only [perform, ite_none_right_eq_some, some.injEq] at ha
    obtain ⟨hf, ha⟩ := ha
    unfold syncSemaphoreWait at ha
    split at ha
    · rename_i hid
      cases ha
      exact .waitRefused p id hf hid
    · cases ha
      exact .wait p id.toNat false hf
  | semaphorePost p id =>
    simp only [perform, ite_none_right_eq_some, some.injEq, Prod.mk.injEq] at ha
    obtain ⟨hf, rfl, rfl⟩ := ha
    exact .post p id hf
  | resume p =>
    simp only [perform, resumeCall, ite_none_right_eq_some] at ha
    obtain ⟨hr, ha⟩ := ha
    have hp : ∀ c, (s.procs p).inside = some c → s.procs p = ⟨.ready, some c⟩ := by
      intro c hc
      rw [← hc, ← hr]
    split at ha
    · rename_i i hi
      cases ha
      exact .lock p i true (hp _ hi)
    · rename_i i hi
      cases ha
      exact .wait p i true (hp _ hi)
    · simp at ha
  | wake p =>
    cases ha
    exact .wake p

theorem processWake_semaphores (s : State) (p : Pid) : (processWake s p).semaphores = s.semaphores := by
  unfold processWake
  split <;> rfl

theorem processWake_mutexes (s : State) (p : Pid) : (processWake s p).mutexes = s.mutexes := by
  unfold processWake
  split <;> rfl

theorem finish_semaphores (s : State) (p : Pid) (c : Call) (o : Outcome) :
    (s.finish p c o).semaphores = s.semaphores := by cases o <;> rfl

theorem finish_mutexes (s : State) (p : Pid) (c : Call) (o : Outcome) :
    (s.finish p c o).mutexes = s.mutexes := by cases o <;> rfl

theorem lockPass_semaphores (s : State) (p : Pid) (j : Nat) : (lockPass s p j).1.semaphores = s.semaphores := by
  unfold lockPass
  dsimp only
  split_ifs <;> rfl

theorem waitPass_mutexes (s : State) (p : Pid) (j : Nat) : (waitPass s p j).1.mutexes = s.mutexes := by
  unfold waitPass
  dsimp only
  split_ifs <;> rfl

theorem lockPass_procs (s : State) (p : Pid) (j : Nat) : (lockPass s p j).1.procs = s.procs := by
  unfold lockPass
  dsimp only
  split_ifs <;> rfl

theorem waitPass_procs (s : State) (p : Pid) (j : Nat) : (waitPass s p j).1.procs = s.procs := by
  unfold waitPass
  dsimp only
  split_ifs <;> rfl

theorem firstUnused_some {used : Nat → Bool} {k j m : Nat} (h : firstUnused used k j = some m) :
    m < j + k ∧ used m = false := by
  induction k generalizing j with
  | zero => simp [firstUnused] at h
  | succ k ih =>
    simp only [firstUnused] at h
    split at h
    · have := ih h
      exact ⟨by omega, this.2⟩
    · rename_i hn
      obtain rfl : j = m := by simpa using h
      exact ⟨by omega, by simpa using hn⟩

theorem syncMutexCreate_semaphores (s : State) : (syncMutexCreate s).1.semaphores = s.semaphores := by
  unfold syncMutexCreate
  split <;> rfl

theorem syncSemaphoreCreate_mutexes (s : State) (n : Int) : (syncSemaphoreCreate s n).1.mutexes = s.mutexes := by
  unfold syncSemaphoreCreate
  split
  · rfl
  · split <;> rfl

theorem syncMutexUnlock_semaphores (s : State) (p : Pid) (id : Int) :
    (syncMutexUnlock s p id).1.semaphores = s.semaphores := by
  unfold syncMutexUnlock
  dsimp only
  split_ifs <;> simp [processWake_semaphores]

theorem syncSemaphorePost_mutexes (s : State) (id : Int) : (syncSemaphorePost s id).1.mutexes = s.mutexes := by
  unfold syncSemaphorePost
  dsimp only
  split_ifs <;> simp [processWake_mutexes]

end ProOS.Sync
