import ProOS.Sched.Model

namespace ProOS.Sched

open ProOS.Framework Function

/-- The statements of the functions by which a process gives up the processor, each
acting on the process that executes it. -/
inductive Stmt
  | resetPriority
  | setState (v : ProcState)
  | setWakeDeadline (ticks : Nat)
  | clearSlice
  | insertSleep
  | removeFromSleep
  | clearOnRunQueue
  | clearNextRun
  | setExitCode (code : Int)
  -- messages sent on the way, by the processes whose wait they end
  | wakeOthers (ys : List Ptr)
  | enqueueReady
  | contextSwitch
  deriving DecidableEq, Repr

/-- The effect on the scheduler's data; where the processor goes at a context switch is
left to the machine that runs the statements. -/
def Stmt.exec (s : State) (x : Ptr) : Stmt → Option State
  | .resetPriority => some (schedulerResetPriority s x)
  | .setState v => some { s with state := update s.state x v }
  | .setWakeDeadline t => some { s with
      wakeDeadline := update s.wakeDeadline x
        ((s.ticks + if t = 0 then 1 else t) % 2 ^ 64) }
  | .clearSlice => some { s with
      timeSliceRemaining := update s.timeSliceRemaining x 0 }
  | .insertSleep => schedulerInsertSleep s x
  | .removeFromSleep => schedulerRemoveFromSleep s x
  | .clearOnRunQueue => some { s with onRunQueue := update s.onRunQueue x false }
  | .clearNextRun => some { s with nextRun := update s.nextRun x none }
  | .setExitCode code => some { s with exitCode := update s.exitCode x code }
  | .wakeOthers ys => processWakeAll s ys
  | .enqueueReady => some (schedulerEnqueueReady s x)
  | .contextSwitch => some s

def processBlockCurrent : List Stmt :=
  [.setState .waiting, .clearSlice, .contextSwitch, .setState .running]

def processSleep (ticks : Nat) : List Stmt :=
  [.setWakeDeadline ticks, .setState .waiting, .clearSlice, .insertSleep, .contextSwitch,
    .setState .running]

def processYield : List Stmt :=
  [.resetPriority, .setState .ready, .clearSlice, .enqueueReady, .contextSwitch, .setState .running]

/-- `cleanup` are the processes woken by `ipc_process_cleanup` and `service_handle_exit`,
`events` those woken by the exit event and the published task list. -/
def processExit (code : Int) (cleanup events : List Ptr) : List Stmt :=
  [.wakeOthers cleanup, .removeFromSleep, .clearOnRunQueue, .clearNextRun, .setExitCode code,
    .setState .zombie, .wakeOthers events, .contextSwitch]

def runToSwitch (s : State) (x : Ptr) : List Stmt → Option State
  | [] => some s
  | .contextSwitch :: _ => some s
  | st :: rest =>
    match st.exec s x with
    | none => none
    | some s => runToSwitch s x rest

/-- The operations of the scheduler, each taken as atomic. -/
inductive Op
  | create
  | createKernel
  | start
  | dispatch
  | yield
  | block
  | sleep (ticks : Nat)
  | exit (code : Int) (cleanup events : List Ptr)
  | wake (x : Ptr)
  | wakeSleepers
  | tick
  | setScheduler (pid : Pid) (policy weight deadlineTicks : Nat)
  deriving DecidableEq, Repr

/-- A function that gives up the processor, up to the point where `process_schedule` is back
at the top of its loop; without a current process, or in the idle thread, it returns at once. -/
def giveUp (s : State) (program : List Stmt) : Option State :=
  match s.currentProcess with
  | none => some s
  | some x =>
    if s.idleProcess = some x then some s
    else
      match runToSwitch s x program with
      | none => none
      | some s => switchedBack s

/-- The interrupt of the timer, with the context switch it may end in. -/
def timerTick (s : State) : Option State :=
  match processSchedulerTick { s with ticks := (s.ticks + 1) % 2 ^ 64 } with
  | none => none
  | some (s, false) => some s
  | some (s, true) => switchedBack s

/-- `none` when the operation cannot happen in this state, or when one of its loops did
not end. The idle thread never exits. -/
def Op.perform (s : State) : Op → Option State
  | .create => some (processCreate s).1
  | .createKernel => some (processCreateKernel s).1
  | .start => if s.schedulerActive then none else some { s with schedulerActive := true }
  | .dispatch => if s.schedulerActive ∧ s.currentProcess = none then Sched.dispatch s else none
  | .yield => giveUp s processYield
  | .block => giveUp s processBlockCurrent
  | .sleep ticks => giveUp s (processSleep ticks)
  | .exit code cleanup events => giveUp s (processExit code cleanup events)
  | .wake x => processWake s x
  | .wakeSleepers => Sched.wakeSleepers s s.ticks
  | .tick => timerTick s
  | .setScheduler pid policy weight deadlineTicks =>
    some (processSetScheduler s pid policy weight deadlineTicks).1

/-- The operations that the kernel's control flow allows in a state. -/
def Op.Enabled (s : State) : Op → Prop
  | .start => s.schedulerActive = false
  | .dispatch => s.schedulerActive = true ∧ s.currentProcess = none
  | _ => True

def Op.performs : State → Op → Option (Op × State) := labelled (fun s op => op.perform s)

def Op.Step : State → Op → State → Prop := Performs Op.performs

end ProOS.Sched
