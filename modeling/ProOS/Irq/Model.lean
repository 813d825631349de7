import ProOS.Framework.SpinLock
import ProOS.Syscall.Model

/-! The interrupt table, its mailboxes and the keyboard, statement by statement. -/

namespace ProOS.Irq

open ProOS.Framework Function

def irqMaxLines : Nat := 16
def irqMaxMailboxSubscribers : Nat := 4
def irqMailboxCapacity : Nat := 32
def kbBufferSize : Nat := 256
def kbIrqLine : Nat := 1

structure IrqEvent where
  irq : Nat
  data : UInt32
  timestamp : UInt32
  deriving DecidableEq, Repr

structure IrqMailbox where
  entries : Nat → IrqEvent
  head : Nat
  tail : Nat
  count : Nat

/-- Mailboxes are numbered; `keyboard` says that `keyboard_irq_handler` is installed on its line. -/
structure Data where
  mailboxes : Nat → Nat → Option Nat
  boxes : Nat → IrqMailbox
  keyboard : Bool
  ticks : UInt32
  buffer : Nat → UInt8
  head : Nat
  tail : Nat
  shiftActive : Bool
  extendedActive : Bool

/-- `irq_table_lock`, and the lock of each mailbox. -/
inductive Lock
  | table
  | box (b : Nat)
  deriving DecidableEq, Repr

inductive Result
  | void
  | status (rc : Int)
  | event (e : Option IrqEvent)
  deriving DecidableEq, Repr

abbrev IrqCode := Code Lock Data Result

/-- An assignment to fields of the mailbox `b`. -/
def setBox (b : Nat) (f : IrqMailbox → IrqMailbox) (d : Data) : Data :=
  { d with boxes := update d.boxes b (f (d.boxes b)) }

def setMailbox (irq i : Nat) (b : Option Nat) (d : Data) : Data :=
  { d with mailboxes := update d.mailboxes irq (update (d.mailboxes irq) i b) }

/-! ## Mailboxes -/

def irqMailboxInit (b : Nat) : IrqCode :=
  .stmt (setBox b (fun box => { box with head := 0 })) <|
  .stmt (setBox b (fun box => { box with tail := 0 })) <|
  .stmt (setBox b (fun box => { box with count := 0 })) <|
  -- `spinlock_init` clears the word of the lock
  .unlock (.box b) (.ret .void)

/-- The slots of a line that hold `b`. -/
def slotOf (d : Data) (irq : Nat) (b : Option Nat) : Option Nat :=
  (List.range irqMaxMailboxSubscribers).find? (fun i => d.mailboxes irq i == b)

def irqMailboxSubscribe (irq b : Nat) : IrqCode :=
  if irqMaxLines ≤ irq then .ret (.status (-1))
  else
    .lockIrqsave .table (fun flags =>
      .branch (fun d =>
        match slotOf d irq (some b) with
        | some _ => .unlockIrqrestore .table flags (.ret (.status 0))
        | none =>
          match slotOf d irq none with
          | some i => .stmt (setMailbox irq i (some b)) (.unlockIrqrestore .table flags (.ret (.status 0)))
          | none => .unlockIrqrestore .table flags (.ret (.status (-1)))))

def irqMailboxUnsubscribe (irq b : Nat) : IrqCode :=
  if irqMaxLines ≤ irq then .ret (.status (-1))
  else
    .lockIrqsave .table (fun flags =>
      .branch (fun d =>
        match slotOf d irq (some b) with
        | some i => .stmt (setMailbox irq i none) (.unlockIrqrestore .table flags (.ret (.status 0)))
        | none => .unlockIrqrestore .table flags (.ret (.status (-1)))))

def mailboxPush (b : Nat) (event : IrqEvent) (next : IrqCode) : IrqCode :=
  let store : IrqCode :=
    .stmt (setBox b (fun box => { box with entries := update box.entries box.tail event })) <|
    .stmt (setBox b (fun box => { box with tail := (box.tail + 1) % irqMailboxCapacity })) <|
    .stmt (setBox b (fun box => { box with count := box.count + 1 })) <|
    .unlock (.box b) next
  .lock (.box b) <|
  .branch (fun d =>
    if irqMailboxCapacity ≤ (d.boxes b).count then
      .stmt (setBox b (fun box => { box with head := (box.head + 1) % irqMailboxCapacity })) <|
      .stmt (setBox b (fun box => { box with count := box.count - 1 })) store
    else store)

def irqMailboxReceive (b : Nat) : IrqCode :=
  .lock (.box b) <|
  .branch (fun d =>
    if 0 < (d.boxes b).count then
      let out := (d.boxes b).entries (d.boxes b).head
      .stmt (setBox b (fun box => { box with head := (box.head + 1) % irqMailboxCapacity })) <|
      .stmt (setBox b (fun box => { box with count := box.count - 1 })) <|
      .unlock (.box b) (.ret (.event (some out)))
    else .unlock (.box b) (.ret (.event none)))

def irqMailboxPeek (b : Nat) : IrqCode :=
  .lock (.box b) <|
  .branch (fun d =>
    let count := (d.boxes b).count
    .unlock (.box b) (.ret (.status count)))

def irqMailboxFlush (b : Nat) : IrqCode :=
  .lock (.box b) <|
  .stmt (setBox b (fun box => { box with head := 0 })) <|
  .stmt (setBox b (fun box => { box with tail := 0 })) <|
  .stmt (setBox b (fun box => { box with count := 0 })) <|
  .unlock (.box b) (.ret .void)

/-- The loop over `targets` at the end of `irq_dispatch_event`. -/
def pushAll (event : IrqEvent) (next : IrqCode) : List (Option Nat) → IrqCode
  | [] => next
  | none :: targets => pushAll event next targets
  | some b :: targets => mailboxPush b event (pushAll event next targets)

def irqDispatchEvent (irq : Nat) (data : UInt32) (next : IrqCode) : IrqCode :=
  if irqMaxLines ≤ irq then next
  else
    .lock .table <|
    .branch (fun d =>
      let targets := (List.range irqMaxMailboxSubscribers).map (d.mailboxes irq)
      .unlock .table <|
      .branch (fun d => pushAll ⟨irq, data, d.ticks⟩ next targets))

/-! ## The keyboard -/

def bufferPush (c : UInt8) (next : IrqCode) : IrqCode :=
  .branch (fun d =>
    let newHead := (d.head + 1) % kbBufferSize
    if newHead ≠ d.tail then
      .stmt (fun d => { d with buffer := update d.buffer d.head c }) <|
      .stmt (fun d => { d with head := newHead }) next
    else next)

def dispatchScancode (scancode : UInt8) (release extended : Bool) (next : IrqCode) : IrqCode :=
  let payload := scancode.toUInt32
  let payload := if release then payload ||| 0x100 else payload
  let payload := if extended then payload ||| 0x200 else payload
  irqDispatchEvent kbIrqLine payload next

/-- The tables of keyboard.c are those of the driver module. -/
def translateScancode (d : Data) (scancode : UInt8) : UInt8 :=
  if 128 ≤ scancode.toNat then 0
  else (if d.shiftActive then Syscall.keymapShift else Syscall.keymap).getD scancode.toNat 0

def keyboardHandleScancode (scancode : UInt8) (next : IrqCode) : IrqCode :=
  if scancode = 0xE0 then .stmt (fun d => { d with extendedActive := true }) next
  else
    let release := scancode &&& 0x80 != 0
    let code := scancode &&& 0x7F
    .branch (fun d =>
      if d.extendedActive then
        let finish : IrqCode := .stmt (fun d => { d with extendedActive := false }) next
        if release then dispatchScancode code true true finish
        else
          let key := Syscall.arrowKey code.toNat
          let dispatch := dispatchScancode code false true finish
          if key ≠ 0 then bufferPush key dispatch else dispatch
      else if release then
        dispatchScancode code true false <|
          if code = 0x2A ∨ code = 0x36 then .stmt (fun d => { d with shiftActive := false }) next else next
      else if code = 0x2A ∨ code = 0x36 then
        .stmt (fun d => { d with shiftActive := true }) (dispatchScancode code false false next)
      else if code = 0x0E then bufferPush 8 (dispatchScancode code false false next)
      else if code = 0x1C then bufferPush 10 (dispatchScancode code false false next)
      else
        .branch (fun d =>
          let c := translateScancode d code
          if c ≠ 0 then bufferPush c (dispatchScancode code false false next) else next))

def keyboardIrqHandler (scancode : UInt8) : IrqCode := keyboardHandleScancode scancode (.ret .void)

/-- `input` is what the controller has for a poll. -/
def kbPoll (input : Option UInt8) : IrqCode :=
  match input with
  | none => .ret (.status 0)
  | some scancode => keyboardHandleScancode scancode (.ret (.status 1))

/-- `irq_install_handler` and `irq_uninstall_handler` for the keyboard's line. -/
def installKeyboard (installed : Bool) (next : IrqCode) : IrqCode :=
  .lockIrqsave .table (fun flags =>
    .stmt (fun d => { d with keyboard := installed }) (.unlockIrqrestore .table flags next))

def kbInit : IrqCode :=
  .stmt (fun d => { d with head := 0 }) <|
  .stmt (fun d => { d with tail := 0 }) <|
  .stmt (fun d => { d with shiftActive := false }) <|
  .stmt (fun d => { d with extendedActive := false }) <|
  installKeyboard true (.ret .void)

/-! ## The machine -/

/-- What a kernel thread does between other things. -/
inductive Call
  | init (b : Nat)
  | subscribe (irq b : Nat)
  | unsubscribe (irq b : Nat)
  | receive (b : Nat)
  | peek (b : Nat)
  | flush (b : Nat)
  | dispatch (irq : Nat) (data : UInt32)
  | poll (input : Option UInt8)
  | kbInit
  | uninstall
  | sti
  | cli
  deriving DecidableEq, Repr

def Call.code : Call → IrqCode
  | .init b => irqMailboxInit b
  | .subscribe irq b => irqMailboxSubscribe irq b
  | .unsubscribe irq b => irqMailboxUnsubscribe irq b
  | .receive b => irqMailboxReceive b
  | .peek b => irqMailboxPeek b
  | .flush b => irqMailboxFlush b
  | .dispatch irq data => irqDispatchEvent irq data (.ret .void)
  | .poll input => kbPoll input
  | .kbInit => Irq.kbInit
  | .uninstall => installKeyboard false (.ret .void)
  | .sti => .popf true (.ret .void)
  | .cli => .cli (.ret .void)

/-- Interrupts: a key, whose scancode the handler reads, and the timer. -/
inductive Interrupt
  | key (scancode : UInt8)
  | tick
  deriving DecidableEq, Repr

def irqHandler : Interrupt → Data → Option IrqCode
  | .key scancode, d => if d.keyboard then some (keyboardIrqHandler scancode) else none
  | .tick, _ => some (.stmt (fun d => { d with ticks := d.ticks + 1 }) (.ret .void))

abbrev IrqMachine := Machine Lock Data Result
abbrev IrqAction := Machine.Action Call Interrupt

def perform : IrqMachine → IrqAction → Option IrqMachine := Machine.perform Call.code irqHandler

abbrev Step : IrqMachine → IrqAction → IrqMachine → Prop := Performs (labelled perform)

/-- No lock is taken and every thread is between calls. -/
def start (d : Data) (enabled : Bool) : IrqMachine where
  cpu := ⟨d, fun _ => none, enabled⟩
  current := 0
  threads := fun _ => ⟨.ret .void, [], true⟩

end ProOS.Irq
