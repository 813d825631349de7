import ProOS.Sched.Program

namespace ProOS.Sched

open ProOS.Framework Function

/-- The calls by which a process gives up the processor. -/
inductive Call
  | block
  | sleep (ticks : Nat)
  | yield
  | exit (code : Int) (cleanup events : List Ptr)
  deriving DecidableEq, Repr

def Call.program : Call → List Stmt
  | .block => processBlockCurrent
  | .sleep ticks => processSleep ticks
  | .yield => processYield
  | .exit code cleanup events => processExit code cleanup events

/-- All calls return but `process_exit`, which halts behind its context switch. -/
def Call.returns : Call → Bool
  | .exit _ _ _ => false
  | _ => true

/-- Where `process_schedule` is; the argument is its local variable `next`. -/
inductive Pc
  | boot
  | top
  | woken
  | picked (next : Ptr)
  | entered (next : Ptr)
  | marked (next : Ptr)
  | armed (next : Ptr)
  -- the current process has the processor
  | running
  | back
  | accounted
  | reclaimed
  | requeued
  deriving DecidableEq, Repr

/-- The scheduler with interrupts: what each process is in the middle of, and whether the
interrupt controller still waits for the end of the timer's interrupt. -/
structure Machine where
  sched : State
  pc : Pc
  call : Ptr → Option Call
  -- the statements of its call that a process has yet to execute
  rest : Ptr → List Stmt
  -- the process is inside `irq_handler`
  inTick : Ptr → Bool
  inService : Bool
  -- a tick has switched contexts on the stack of `process_schedule` itself
  derailed : Bool

def Machine.init : Machine where
  sched := processSystemInit
  pc := .boot
  call := fun _ => none
  rest := fun _ => []
  inTick := fun _ => false
  inService := false
  derailed := false

inductive Action
  | create
  | createKernel
  | start
  -- the next statement of `process_schedule`, with the processes its events wake
  | schedule (events : List Ptr)
  | call (c : Call)
  | stmt
  | ret
  | wake (y : Ptr)
  | setScheduler (pid : Pid) (policy weight deadlineTicks : Nat)
  | tick
  | irqReturn
  deriving DecidableEq, Repr

/-- The process that executes its own code, outside of `irq_handler`. -/
def Machine.atWork (m : Machine) : Option Ptr :=
  match m.pc, m.sched.currentProcess with
  | .running, some x => if m.inTick x then none else some x
  | _, _ => none

/-- The process that executes the end of `irq_handler`. -/
def Machine.returning (m : Machine) : Option Ptr :=
  match m.pc, m.sched.currentProcess with
  | .running, some x => if m.inTick x then some x else none
  | _, _ => none

/-- The same, for a process that is in none of the calls. The idle thread makes none. -/
def Machine.free (m : Machine) : Option Ptr :=
  match m.atWork with
  | some x => if m.sched.idleProcess ≠ some x ∧ m.call x = none then some x else none
  | none => none

/-- A thread created by the boot code or by a process at work. -/
def Machine.created (m : Machine) (r : State × Option Ptr) : Option Machine :=
  if m.pc = .boot ∨ m.free.isSome then
    match r.2 with
    | none => some m
    | some x => some { m with
        sched := r.1
        call := update m.call x none
        rest := update m.rest x []
        inTick := update m.inTick x false }
  else none

def Machine.goto (m : Machine) (s : State) (pc : Pc) : Machine := { m with sched := s, pc := pc }

/-- The loop of `process_schedule`, statement by statement. -/
def Machine.schedule (m : Machine) (events : List Ptr) : Option Machine :=
  let s := m.sched
  match m.pc, s.currentProcess with
  | .top, _ => (wakeSleepers s s.ticks).map (fun s => m.goto s .woken)
  | .woken, _ =>
    match schedulerSelectNext s with
    | none => none
    | some (s, selected) => (selected.or s.idleProcess).map (fun next => m.goto s (.picked next))
  | .picked next, _ => some (m.goto { s with currentProcess := some next } (.entered next))
  | .entered next, _ =>
    some (m.goto { s with state := update s.state next .running } (.marked next))
  | .marked next, _ => some (m.goto (schedulerArmTimeslice s next) (.armed next))
  | .armed _, _ => some (m.goto s .running)
  | .back, some finished => some (m.goto (schedulerAccountRuntime s finished) .accounted)
  | .accounted, some finished =>
    match reclaimZombie s finished with
    | none => none
    | some s' =>
      (processWakeAll s' (if s.state finished = .zombie then events else [])).map
        (fun s => m.goto s .reclaimed)
  | .reclaimed, some finished => some (m.goto (requeue s finished) .requeued)
  | .requeued, _ => some (m.goto { s with currentProcess := none } .top)
  | _, _ => none

/-- `irq_handler` on the timer's line. The controller delivers no interrupt while one is in
service, nor does a processor inside `irq_handler` accept one. A handler that returns at once
ends with the acknowledgement; one that preempts keeps it for when its process is back. -/
def Machine.tick (m : Machine) : Option Machine :=
  if m.inService ∨ m.returning.isSome then none
  else
    match processSchedulerTick { m.sched with ticks := (m.sched.ticks + 1) % 2 ^ 64 } with
    | none => none
    | some (s, false) => some { m with sched := s }
    | some (s, true) =>
      match m.pc, s.currentProcess with
      | .running, some x => some { m with
          sched := s, pc := .back, inTick := update m.inTick x true, inService := true }
      | _, _ => some { m with sched := s, inService := true, derailed := true }

/-- The next statement of the call that the process at work is in. -/
def Machine.stmt (m : Machine) : Option Machine :=
  match m.atWork with
  | none => none
  | some x =>
    match m.rest x with
    | [] => none
    | st :: rest =>
      (st.exec m.sched x).map (fun s => { m with
        sched := s
        rest := update m.rest x rest
        pc := if st = .contextSwitch then .back else m.pc })

def Machine.ret (m : Machine) : Option Machine :=
  match m.atWork with
  | none => none
  | some x =>
    match m.call x, m.rest x with
    | some c, [] =>
      if c.returns then some { m with call := update m.call x none } else none
    | _, _ => none

/-- The end of `scheduler_preempt_running` and of `irq_handler`. -/
def Machine.irqReturn (m : Machine) : Option Machine :=
  match m.returning with
  | none => none
  | some x => some { m with
      sched := { m.sched with state := update m.sched.state x .running }
      inTick := update m.inTick x false
      inService := false }

def Machine.perform (m : Machine) (a : Action) : Option Machine :=
  if m.derailed then none
  else
    match a with
    | .create => m.created (processCreate m.sched)
    | .createKernel => m.created (processCreateKernel m.sched)
    | .start =>
      if m.pc = .boot then
        some { m with sched := { m.sched with schedulerActive := true }, pc := .top }
      else none
    | .schedule events => m.schedule events
    | .call c => m.free.map (fun x => { m with
        call := update m.call x (some c)
        rest := update m.rest x c.program })
    | .stmt => m.stmt
    | .ret => m.ret
    | .wake y =>
      match m.free with
      | none => none
      | some _ => (processWake m.sched y).map (fun s => { m with sched := s })
    | .setScheduler pid policy weight deadlineTicks =>
      m.free.map (fun _ => { m with
        sched := (processSetScheduler m.sched pid policy weight deadlineTicks).1 })
    | .tick => m.tick
    | .irqReturn => m.irqReturn

def Machine.performs : Machine → Action → Option (Action × Machine) := labelled Machine.perform

def Machine.Step : Machine → Action → Machine → Prop := Performs Machine.performs

/-- From the top of the loop to the processor. -/
def dispatchActs : List Action := List.replicate 6 (.schedule [])

/-- From the context switch back to the top of the loop. -/
def returnActs : List Action := List.replicate 4 (.schedule [])

/-- The process that `process_schedule` has in hand. -/
def Machine.focus (m : Machine) : Option Ptr :=
  match m.pc with
  | .picked next => some next
  | _ => m.sched.currentProcess

end ProOS.Sched
