import ProOS.Kernel.Types
import ProOS.Framework.Exec
import ProOS.Framework.ListWalk

namespace ProOS.Sched

open ProOS.Framework Function

abbrev maxProcs : Nat := 32

def schedPriorityLevels : Nat := 4
def schedPriorityMax : Nat := 3
def configSchedDefaultTimeslice : Nat := 4
def configSchedMaxDynamicBoost : Nat := 1
def configSchedBaseWeight : Nat := 1024
def configSchedDefaultWeight : Nat := 1024

/-- A pointer into the array `processes`. -/
abbrev Ptr := Fin maxProcs

inductive Policy
  | fair
  | deadline
  deriving DecidableEq, Repr

structure RunQueue where
  head : Option Ptr
  tail : Option Ptr
  deriving DecidableEq, Repr

/-- The scheduler's globals. The array of `struct process` is kept by column, so that
`s.state x` is `x->state`. -/
structure State where
  pid : Ptr → Pid
  state : Ptr → ProcState
  exitCode : Ptr → Int
  kind : Ptr → ThreadKind
  basePriority : Ptr → Nat
  dynamicPriority : Ptr → Nat
  schedPolicy : Ptr → Policy
  schedWeight : Ptr → Nat
  schedDeadline : Ptr → Nat
  vruntime : Ptr → Nat
  onRunQueue : Ptr → Bool
  timeSliceTicks : Ptr → Nat
  timeSliceRemaining : Ptr → Nat
  wakeDeadline : Ptr → Nat
  nextRun : Ptr → Option Ptr
  nextSleep : Ptr → Option Ptr
  readyQueues : Nat → RunQueue
  readyBitmap : BitVec 32
  currentProcess : Option Ptr
  idleProcess : Option Ptr
  sleepList : Option Ptr
  nextPid : Int
  schedulerActive : Bool
  ticks : Nat

def levels : List Nat := List.range schedPriorityLevels

/-- Enough rounds for a loop over a list of distinct processes. -/
def listFuel : Nat := maxProcs + 1

def bitOf (priority : Nat) : BitVec 32 := 1#32 <<< priority

def schedulerClampPriority (value : Int) : Nat :=
  if value < 0 then 0
  else if (schedPriorityMax : Int) < value then schedPriorityMax
  else value.toNat

def schedulerTimesliceFor (priority : Nat) : Nat :=
  let offset := min (schedulerClampPriority priority) 4
  let slice := configSchedDefaultTimeslice <<< offset
  if slice = 0 then 1 else slice

def schedulerResetPriority (s : State) (x : Ptr) : State :=
  { s with dynamicPriority := update s.dynamicPriority x (s.basePriority x) }

def schedulerDemotePriority (s : State) (x : Ptr) : State :=
  if s.dynamicPriority x < schedPriorityMax then
    { s with dynamicPriority := update s.dynamicPriority x (s.dynamicPriority x + 1) }
  else s

def schedulerBoostPriority (s : State) (x : Ptr) : State :=
  let base := s.basePriority x
  let target := if 0 < base then base - min configSchedMaxDynamicBoost base else base
  { s with dynamicPriority := update s.dynamicPriority x (schedulerClampPriority target) }

def schedulerArmTimeslice (s : State) (x : Ptr) : State :=
  let slice := schedulerTimesliceFor (s.dynamicPriority x)
  { s with
    timeSliceTicks := update s.timeSliceTicks x slice
    timeSliceRemaining := update s.timeSliceRemaining x slice }

/-- `queue->tail->next_run = x`, unless the queue is empty. -/
def linkBehind (queue : RunQueue) (next : Ptr → Option Ptr) (x : Ptr) : Ptr → Option Ptr :=
  match queue.head, queue.tail with
  | some _, some t => update next t (some x)
  | _, _ => next

def schedulerEnqueueReady (s : State) (x : Ptr) : State :=
  if s.idleProcess = some x then s
  else if s.onRunQueue x then s
  else
    let priority := schedulerClampPriority (s.dynamicPriority x)
    let queue := s.readyQueues priority
    { s with
      nextRun := linkBehind queue (update s.nextRun x none) x
      readyQueues := update s.readyQueues priority
        ⟨some (queue.head.getD x), some x⟩
      readyBitmap := s.readyBitmap ||| bitOf priority
      onRunQueue := update s.onRunQueue x true }

/-- One level of the search in `scheduler_remove_from_ready`. -/
def removeAtLevel (s : State) (x : Ptr) (priority : Nat) : Option (Option State) :=
  let queue := s.readyQueues priority
  match seek s.nextRun x listFuel none queue.head with
  | none => none
  | some none => some none
  | some (some prev) =>
    let head := bypassHead s.nextRun queue.head prev x
    let tail := if queue.tail = some x then prev else queue.tail
    some (some { s with
      nextRun := bypass s.nextRun prev x
      readyQueues := update s.readyQueues priority ⟨head, tail⟩
      readyBitmap := if head = none then s.readyBitmap &&& ~~~bitOf priority else s.readyBitmap
      onRunQueue := update s.onRunQueue x false })

def removeFromLevels (s : State) (x : Ptr) : List Nat → Option State
  | [] => some s
  | p :: ps =>
    match removeAtLevel s x p with
    | none => none
    | some (some s') => some s'
    | some none => removeFromLevels s x ps

def schedulerRemoveFromReady (s : State) (x : Ptr) : Option State := removeFromLevels s x levels

def dequeueFromLevels (s : State) : List Nat → State × Option Ptr
  | [] => (s, none)
  | p :: ps =>
    if s.readyBitmap &&& bitOf p = 0#32 then dequeueFromLevels s ps
    else
      match (s.readyQueues p).head with
      | none =>
        dequeueFromLevels { s with
          readyBitmap := s.readyBitmap &&& ~~~bitOf p
          readyQueues := update s.readyQueues p ⟨none, none⟩ } ps
      | some x =>
        let head := s.nextRun x
        let tail := if head = none then none else (s.readyQueues p).tail
        ({ s with
          readyQueues := update s.readyQueues p ⟨head, tail⟩
          readyBitmap := if head = none then s.readyBitmap &&& ~~~bitOf p else s.readyBitmap
          nextRun := update s.nextRun x none
          onRunQueue := update s.onRunQueue x false }, some x)

def schedulerDequeueNext (s : State) : State × Option Ptr := dequeueFromLevels s levels

/-- The processes that the scans of the ready queues meet, level after level. -/
def queuedProcesses (s : State) : List Nat → Option (List Ptr)
  | [] => some []
  | p :: ps =>
    match chain s.nextRun listFuel (s.readyQueues p).head, queuedProcesses s ps with
    | some xs, some ys => some (xs ++ ys)
    | _, _ => none

def betterDeadline (s : State) (best : Option Ptr) (x : Ptr) : Option Ptr :=
  if s.schedPolicy x ≠ .deadline ∨ s.schedDeadline x = 0 then best
  else
    match best with
    | none => some x
    | some b => if s.schedDeadline x < s.schedDeadline b then some x else best

def betterFair (s : State) (best : Option Ptr) (x : Ptr) : Option Ptr :=
  if s.schedPolicy x ≠ .fair then best
  else
    match best with
    | none => some x
    | some b => if s.vruntime x < s.vruntime b then some x else best

def schedulerPick (better : State → Option Ptr → Ptr → Option Ptr) (s : State) :
    Option (State × Option Ptr) :=
  match queuedProcesses s levels with
  | none => none
  | some xs =>
    match xs.foldl (better s) none with
    | none => some (s, none)
    | some b => (schedulerRemoveFromReady s b).map (fun s' => (s', some b))

def schedulerPickDeadline : State → Option (State × Option Ptr) := schedulerPick betterDeadline

def schedulerPickFair : State → Option (State × Option Ptr) := schedulerPick betterFair

def schedulerSelectNext (s : State) : Option (State × Option Ptr) :=
  match schedulerPickDeadline s with
  | none => none
  | some (s, some x) => some (s, some x)
  | some (s, none) =>
    match schedulerPickFair s with
    | none => none
    | some (s, some x) => some (s, some x)
    | some (s, none) => some (schedulerDequeueNext s)

def schedulerAccountRuntime (s : State) (x : Ptr) : State :=
  if s.idleProcess = some x then s
  else if s.schedPolicy x ≠ .fair then s
  else
    let used := if s.timeSliceRemaining x ≤ s.timeSliceTicks x
      then s.timeSliceTicks x - s.timeSliceRemaining x else s.timeSliceTicks x
    if used = 0 then s
    else
      let weight := if s.schedWeight x = 0 then configSchedDefaultWeight else s.schedWeight x
      let scaled := used * configSchedBaseWeight / weight
      let scaled := if scaled = 0 then 1 else scaled
      { s with vruntime := update s.vruntime x ((s.vruntime x + scaled) % 2 ^ 64) }

def schedulerRemoveFromSleep (s : State) (x : Ptr) : Option State :=
  match s.sleepList with
  | none => some s
  | some h =>
    if h = x then
      some { s with sleepList := s.nextSleep x, nextSleep := update s.nextSleep x none }
    else
      match seek s.nextSleep x listFuel (some h) (s.nextSleep h) with
      | none => none
      | some (some (some prev)) =>
        some { s with nextSleep := bypass s.nextSleep (some prev) x }
      | some _ => some s

def schedulerInsertSleep (s : State) (x : Ptr) : Option State :=
  match schedulerRemoveFromSleep s x with
  | none => none
  | some s =>
    match s.sleepList with
    | none =>
      some { s with nextSleep := update s.nextSleep x none, sleepList := some x }
    | some h =>
      if s.wakeDeadline x < s.wakeDeadline h then
        some { s with nextSleep := update s.nextSleep x (some h), sleepList := some x }
      else
        match advance s.nextSleep (fun y => s.wakeDeadline y ≤ s.wakeDeadline x) listFuel h with
        | none => none
        | some iter =>
          some { s with
            nextSleep := update (update s.nextSleep x (s.nextSleep iter)) iter
              (some x) }

/-- The end of a wake-up, in `wake_sleepers` as in `process_wake`. -/
def makeReady (s : State) (x : Ptr) : State :=
  let s := schedulerBoostPriority s x
  schedulerEnqueueReady { s with state := update s.state x .ready } x

/-- Takes the first sleeper off its list and makes it ready. -/
def wakeFirst (s : State) (x : Ptr) : State :=
  makeReady { s with
    sleepList := s.nextSleep x
    nextSleep := update s.nextSleep x none
    wakeDeadline := update s.wakeDeadline x 0 } x

def wakeSleepersLoop (now : Nat) : Nat → State → Option State
  | fuel, s =>
    match s.sleepList with
    | none => some s
    | some x =>
      if s.wakeDeadline x ≤ now then
        match fuel with
        | 0 => none
        | fuel + 1 => wakeSleepersLoop now fuel (wakeFirst s x)
      else some s

def wakeSleepers (s : State) (now : Nat) : Option State := wakeSleepersLoop now listFuel s

def processWake (s : State) (x : Ptr) : Option State :=
  if s.state x ≠ .waiting then some s
  else
    (schedulerRemoveFromSleep s x).map (fun s => makeReady s x)

/-- `zero_memory` on the slot and the fields that `alloc_process_slot` sets afterwards. -/
def State.zeroSlot (s : State) (x : Ptr) : State :=
  { s with
    pid := update s.pid x (-1)
    state := update s.state x .unused
    exitCode := update s.exitCode x 0
    kind := update s.kind x .kernel
    basePriority := update s.basePriority x 0
    dynamicPriority := update s.dynamicPriority x 0
    schedPolicy := update s.schedPolicy x .fair
    schedWeight := update s.schedWeight x configSchedDefaultWeight
    schedDeadline := update s.schedDeadline x 0
    vruntime := update s.vruntime x 0
    onRunQueue := update s.onRunQueue x false
    timeSliceTicks := update s.timeSliceTicks x 0
    timeSliceRemaining := update s.timeSliceRemaining x 0
    wakeDeadline := update s.wakeDeadline x 0
    nextRun := update s.nextRun x none
    nextSleep := update s.nextSleep x none }

def allocProcessSlot (s : State) : Option Ptr :=
  (List.finRange maxProcs).find? (fun i => s.state i = .unused ∨ s.state i = .zombie)

def acquirePid (s : State) : State × Pid :=
  let next := if s.nextPid ≤ 0 then 1 else s.nextPid
  ({ s with nextPid := int32 (next + 1) }, next)

/-- The slot of a new thread, from `zero_memory` to the arming of its time slice. -/
def State.initThread (s : State) (x : Ptr) (kind : ThreadKind) (basePriority : Nat) (pid : Pid) :
    State :=
  let base := schedulerClampPriority basePriority
  let s := s.zeroSlot x
  schedulerArmTimeslice { s with
    kind := update s.kind x kind
    basePriority := update s.basePriority x base
    dynamicPriority := update s.dynamicPriority x base
    state := update s.state x .ready
    pid := update s.pid x pid } x

/-- `scheduler_create_thread` with a non-null entry, up to the events it emits. -/
def schedulerCreateThread (s : State) (kind : ThreadKind) (basePriority : Nat) (isIdle : Bool) :
    State × Option Ptr :=
  match allocProcessSlot s with
  | none => (s, none)
  | some x =>
    if isIdle then ({ s.initThread x kind basePriority 0 with idleProcess := some x }, some x)
    else
      let r := acquirePid s
      (schedulerEnqueueReady (r.1.initThread x kind basePriority r.2) x, some x)

def schedulerDefaultUserPriority : Nat :=
  schedulerClampPriority (if schedPriorityMax < 1 then schedPriorityMax else 1)

def schedulerDefaultKernelPriority : Nat := schedulerClampPriority 0

def processCreate (s : State) : State × Option Ptr :=
  schedulerCreateThread s .user schedulerDefaultUserPriority false

def processCreateKernel (s : State) : State × Option Ptr :=
  schedulerCreateThread s .kernel schedulerDefaultKernelPriority false

/-- The globals as `process_system_init` sets them, before it creates the idle thread. -/
def emptySystem : State where
  pid := fun _ => -1
  state := fun _ => .unused
  exitCode := fun _ => 0
  kind := fun _ => .kernel
  basePriority := fun _ => 0
  dynamicPriority := fun _ => 0
  schedPolicy := fun _ => .fair
  schedWeight := fun _ => configSchedDefaultWeight
  schedDeadline := fun _ => 0
  vruntime := fun _ => 0
  onRunQueue := fun _ => false
  timeSliceTicks := fun _ => 0
  timeSliceRemaining := fun _ => 0
  wakeDeadline := fun _ => 0
  nextRun := fun _ => none
  nextSleep := fun _ => none
  readyQueues := fun _ => ⟨none, none⟩
  readyBitmap := 0#32
  currentProcess := none
  idleProcess := none
  sleepList := none
  nextPid := 1
  schedulerActive := false
  ticks := 0

def processSystemInit : State :=
  (schedulerCreateThread emptySystem .kernel schedPriorityMax true).1

def State.reclaimSlot (s : State) (x : Ptr) : State :=
  { s with
    onRunQueue := update s.onRunQueue x false
    nextRun := update s.nextRun x none
    pid := update s.pid x (-1)
    state := update s.state x .unused
    exitCode := update s.exitCode x 0
    timeSliceTicks := update s.timeSliceTicks x 0
    timeSliceRemaining := update s.timeSliceRemaining x 0
    wakeDeadline := update s.wakeDeadline x 0
    kind := update s.kind x .kernel
    basePriority := update s.basePriority x schedPriorityMax
    dynamicPriority := update s.dynamicPriority x schedPriorityMax
    schedPolicy := update s.schedPolicy x .fair
    schedWeight := update s.schedWeight x configSchedDefaultWeight
    schedDeadline := update s.schedDeadline x 0
    vruntime := update s.vruntime x 0 }

def reclaimZombie (s : State) (x : Ptr) : Option State :=
  if s.state x ≠ .zombie then some s
  else (schedulerRemoveFromSleep s x).map (fun s => s.reclaimSlot x)

/-- The body of the loop of `process_schedule` up to its context switch. -/
def dispatch (s : State) : Option State :=
  match wakeSleepers s s.ticks with
  | none => none
  | some s =>
    match schedulerSelectNext s with
    | none => none
    | some (s, selected) =>
      match selected.or s.idleProcess with
      | none => none
      | some next =>
        let s := { s with
          currentProcess := some next
          state := update s.state next .running }
        some (schedulerArmTimeslice s next)

/-- The last test of that body: a process that comes back ready is queued. -/
def requeue (s : State) (finished : Ptr) : State :=
  if s.state finished = .ready ∧ s.idleProcess ≠ some finished ∧ !s.onRunQueue finished then
    schedulerEnqueueReady s finished
  else s

/-- The rest of that body, after `finished` has switched back. -/
def switchedBack (s : State) : Option State :=
  match s.currentProcess with
  | none => none
  | some finished =>
    match reclaimZombie (schedulerAccountRuntime s finished) finished with
    | none => none
    | some s => some { requeue s finished with currentProcess := none }

/-- Wake-ups by messages that a step sends on its way. -/
def processWakeAll (s : State) : List Ptr → Option State
  | [] => some s
  | x :: xs =>
    match processWake s x with
    | none => none
    | some s => processWakeAll s xs

def processSetScheduler (s : State) (pid : Pid) (policy weight deadlineTicks : Nat) : State × Int :=
  let target := if pid ≤ 0 then s.currentProcess
    else (List.finRange maxProcs).find? (fun i => s.pid i = pid ∧ s.state i ≠ .unused)
  match target with
  | none => (s, -1)
  | some x =>
    let effective := if weight = 0 then configSchedDefaultWeight else weight
    if policy = 0 then
      ({ s with
        schedPolicy := update s.schedPolicy x .fair
        schedWeight := update s.schedWeight x effective
        schedDeadline := update s.schedDeadline x 0 }, 0)
    else if policy = 1 then
      let deadline := if deadlineTicks ≠ 0 ∧ deadlineTicks < s.ticks
        then (s.ticks + deadlineTicks) % 2 ^ 64 else deadlineTicks
      ({ s with
        schedPolicy := update s.schedPolicy x .deadline
        schedWeight := update s.schedWeight x effective
        schedDeadline := update s.schedDeadline x deadline }, 0)
    else (s, -1)

/-- The bookkeeping of `scheduler_preempt_running` before its context switch. -/
def preemptRunning (s : State) (x : Ptr) (demote : Bool) : State :=
  if s.idleProcess = some x then s
  else
    let s := if demote then schedulerDemotePriority s x else s
    schedulerEnqueueReady { s with state := update s.state x .ready } x

/-- `if (x->time_slice_remaining > 0) --x->time_slice_remaining`. -/
def State.spendSlice (s : State) (x : Ptr) : State :=
  { s with timeSliceRemaining :=
      update s.timeSliceRemaining x (s.timeSliceRemaining x - 1) }

/-- `process_scheduler_tick` up to a context switch; the flag tells whether it makes one. -/
def processSchedulerTick (s : State) : Option (State × Bool) :=
  if !s.schedulerActive then some (s, false)
  else
    match wakeSleepers s s.ticks with
    | none => none
    | some s =>
      match s.currentProcess with
      | none => some (s, false)
      | some x =>
        if s.idleProcess = some x then
          if s.readyBitmap ≠ 0#32 then some (preemptRunning s x false, true) else some (s, false)
        else
          let s := s.spendSlice x
          if s.timeSliceRemaining x = 0 then some (preemptRunning s x true, true)
          else some (s, false)

end ProOS.Sched
