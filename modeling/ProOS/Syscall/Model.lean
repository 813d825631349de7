import ProOS.Kernel.Model
import ProOS.Framework.Prog

/-! The system calls: each handler as a program over user memory and calls of the kernel. -/

namespace ProOS.Syscall

open ProOS.Framework ProOS.Kernel

def configIpcChannelNameMax : Nat := 32
def configMsgDataMax : Nat := 256
def syscallMaxArgs : Nat := 4
def syscallTableSize : Nat := 64
def sysDynamicBase : Nat := 32
def ipcMessageSize : Nat := 20
def envelopeSize : Nat := 32

def syscallValidateUserPointer (addr : Nat) : Bool :=
  decide (addr ≠ 0) && decide (addr < configUserSpaceLimit)

/-- The sum is a `uintptr_t` and wraps. -/
def syscallValidateUserBuffer (addr length : Nat) : Bool :=
  if length = 0 then true
  else if !syscallValidateUserPointer addr then false
  else if (addr + length) % 2 ^ 32 < addr then false
  else if configUserSpaceLimit ≤ (addr + length) % 2 ^ 32 then false
  else true

/-! ## The keyboard driver -/

structure IrqEvent where
  data : UInt32
  timestamp : UInt32
  deriving DecidableEq, Repr

structure KeyFifoEntry where
  payload : UInt32
  timestamp : UInt32
  ch : UInt8
  deriving DecidableEq, Repr

def keyFifoCapacity : Nat := 64

/-- The state of the ps2kbd module; `mailbox` are the events that `irq_mailbox_receive` will return. -/
structure Keyboard where
  mailbox : List IrqEvent
  fifo : Nat → KeyFifoEntry
  head : Nat
  tail : Nat
  shift : Bool

def keymap : List UInt8 :=
  [0, 27, 49, 50, 51, 52, 53, 54, 55, 56, 57, 48, 45, 61, 8, 9, 113, 119, 101, 114, 116, 121, 117,
    105, 111, 112, 91, 93, 10, 0, 97, 115, 100, 102, 103, 104, 106, 107, 108, 59, 39, 96, 0, 92,
    122, 120, 99, 118, 98, 110, 109, 44, 46, 47, 0, 42, 0, 32]

def keymapShift : List UInt8 :=
  [0, 27, 33, 64, 35, 36, 37, 94, 38, 42, 40, 41, 95, 43, 8, 9, 81, 87, 69, 82, 84, 89, 85, 73,
    79, 80, 123, 125, 10, 0, 65, 83, 68, 70, 71, 72, 74, 75, 76, 58, 34, 126, 0, 124, 90, 88, 67,
    86, 66, 78, 77, 60, 62, 63, 0, 42, 0, 32]

def fifoPush (d : Keyboard) (payload : UInt32) (ch : UInt8) (timestamp : UInt32) : Keyboard :=
  let next := (d.tail + 1) % keyFifoCapacity
  if next = d.head then d
  else { d with fifo := Function.update d.fifo d.tail ⟨payload, timestamp, ch⟩, tail := next }

def fifoPop (d : Keyboard) : Option KeyFifoEntry × Keyboard :=
  if d.head = d.tail then (none, d)
  else (some (d.fifo d.head), { d with head := (d.head + 1) % keyFifoCapacity })

def arrowKey (scancode : Nat) : UInt8 :=
  if scancode = 0x48 then 0x80
  else if scancode = 0x50 then 0x81
  else if scancode = 0x4B then 0x82
  else if scancode = 0x4D then 0x83
  else 0

/-- The body of the loop of `process_pending_events`. -/
def pendingEvent (d : Keyboard) (event : IrqEvent) : Keyboard :=
  let scancode := (event.data &&& 0xFF).toNat
  let release := event.data &&& 0x100 != 0
  let extended := event.data &&& 0x200 != 0
  if extended then fifoPush d event.data (if release then 0 else arrowKey scancode) event.timestamp
  else if scancode = 0x2A ∨ scancode = 0x36 then
    fifoPush { d with shift := !release } event.data 0 event.timestamp
  else if release then fifoPush d event.data 0 event.timestamp
  else if scancode = 0x0E then fifoPush d event.data 8 event.timestamp
  else if scancode = 0x1C then fifoPush d event.data 10 event.timestamp
  else if 128 ≤ scancode then d
  else
    let translated := (if d.shift then keymapShift else keymap).getD scancode 0
    if translated ≠ 0 then fifoPush d event.data translated event.timestamp else d

def processPendingEvents (d : Keyboard) : Keyboard :=
  { d.mailbox.foldl pendingEvent d with mailbox := [] }

def Keyboard.poll (d : Keyboard) : Option KeyFifoEntry := (fifoPop (processPendingEvents d)).1

/-! ## Calls of the kernel -/

/-- What handlers call, on behalf of the process that is current. -/
inductive KernelCall : Type → Type
  | vgaWrite (text : List UInt8) : KernelCall Unit
  | processCurrent : KernelCall (Option Pid)
  | processYield : KernelCall Unit
  | processCreate (entry stackSize : Nat) : KernelCall Int
  | processSleep (ticks : Nat) : KernelCall Unit
  | processExit (code : Int) : KernelCall Unit
  | processSetScheduler (pid : Int) (policy weight deadline : Nat) : KernelCall Int
  | ipcSend (target : Pid) (msg : Option (List UInt8)) (size : Nat) : KernelCall Int
  | ipcRecv (call : Ipc.RecvCall) : KernelCall (Int × List UInt8)
  | ipcShare (target : Pid) (addr pages : Nat) : KernelCall Int
  | serviceGrantCapabilities (service : Nat) (rights : UInt32) : KernelCall Int
  | servicePid (service : Nat) : KernelCall Int
  | ipcChannelCreate (name : List UInt8) (flags : UInt32) : KernelCall Int
  | ipcChannelJoin (channelId : Int) : KernelCall Int
  | ipcChannelLeave (channelId : Int) : KernelCall Int
  | ipcChannelPeek (channelId : Int) : KernelCall Int
  | ipcGetServiceChannel (service : Int) : KernelCall Int
  | ipcChannelSend (channelId : Int) (sender : Pid) (header type : UInt32) (data : Option (List UInt8))
      (size : Nat) (flags : UInt32) : KernelCall Int
  | ipcChannelReceive (call : Channel.ReceiveCall) : KernelCall (Int × Channel.Delivery)
  | sync (call : SyncCall) : KernelCall Int
  | pollKey : KernelCall (Option KeyFifoEntry)

abbrev Handler := Prog KernelCall Int

/-- `struct syscall_envelope`, without what the kernel writes into it. -/
structure Envelope where
  address : Nat
  number : Nat
  argc : Nat
  arg0 : UInt32
  arg1 : UInt32
  arg2 : UInt32
  arg3 : UInt32
  deriving DecidableEq, Repr

def signed (x : UInt32) : Int := if x.toNat < 2 ^ 31 then x.toNat else x.toNat - 2 ^ 32

def fail : Handler := .ret (-1)

/-- `process_current()` with the test that there is one. -/
def withCurrent (f : Pid → Handler) : Handler :=
  .call .processCurrent (fun proc => proc.elim fail f)

/-! ## Handlers -/

def sysWriteHandler (msg : Envelope) : Handler :=
  if msg.argc < 2 then fail
  else
    let buf := msg.arg0.toNat
    let len := msg.arg1.toNat
    if len = 0 then .ret 0
    else if !syscallValidateUserBuffer buf len then fail
    else .load buf len (fun bytes => .call (.vgaWrite bytes) (fun _ => .ret (signed msg.arg1)))

def sysYieldHandler (_ : Envelope) : Handler := .call .processYield (fun _ => .ret 0)

def sysSpawnHandler (msg : Envelope) : Handler :=
  if msg.argc < 2 then fail
  else if !syscallValidateUserPointer msg.arg0.toNat then fail
  else .call (.processCreate msg.arg0.toNat msg.arg1.toNat) .ret

def sysSleepHandler (msg : Envelope) : Handler :=
  if msg.argc < 1 then fail else .call (.processSleep msg.arg0.toNat) (fun _ => .ret 0)

def sysIpcSendHandler (msg : Envelope) : Handler :=
  if msg.argc < 3 then fail
  else
    let target := signed msg.arg0
    let buffer := msg.arg1.toNat
    let size := msg.arg2.toNat
    if configMsgDataMax < size then fail
    else if 0 < size ∧ !syscallValidateUserBuffer buffer size then fail
    else if 0 < size then
      .load buffer size (fun bytes => .call (.ipcSend target (some bytes) size) .ret)
    else .call (.ipcSend target none size) .ret

/-- The answer of `ipc_recv` is its result and what it left in `scratch`. -/
def sysIpcRecvHandler (msg : Envelope) : Handler :=
  if msg.argc < 3 then fail
  else
    let source := signed msg.arg0
    let buffer := msg.arg1.toNat
    let max := msg.arg2.toNat
    if 0 < max ∧ !syscallValidateUserBuffer buffer max then fail
    else
      let scratchCap := if configMsgDataMax < max then configMsgDataMax else max
      .call (.ipcRecv ⟨source, decide (0 < scratchCap), scratchCap⟩) (fun r =>
        let rc := r.1
        if rc ≤ 0 then .ret rc
        else if buffer ≠ 0 ∧ 0 < max ∧ 0 < scratchCap then
          let available := rc.toNat
          let copyLen := if max < available then max else available
          let copyLen := if scratchCap < copyLen then scratchCap else copyLen
          if 0 < copyLen then .store buffer (r.2.take copyLen) (.ret rc) else .ret rc
        else .ret rc)

def sysIpcShareHandler (msg : Envelope) : Handler :=
  if msg.argc < 3 then fail
  else
    let target := signed msg.arg0
    let addr := msg.arg1.toNat
    let pages := msg.arg2.toNat
    if pages = 0 then fail
    else if !syscallValidateUserPointer addr then fail
    else
      let endAddr := (addr + pages * configIpcPageSize % 2 ^ 32) % 2 ^ 32
      if endAddr < addr then fail
      else if configUserSpaceLimit ≤ endAddr then fail
      else .call (.ipcShare target addr pages) .ret

def sysServiceConnectHandler (msg : Envelope) : Handler :=
  if msg.argc < 2 then fail
  else
    withCurrent (fun pid =>
      if pid ≤ 0 then fail
      else
        .call (.serviceGrantCapabilities msg.arg0.toNat msg.arg1) (fun rc =>
          if rc < 0 then fail else .call (.servicePid msg.arg0.toNat) .ret))

/-- The word at `offset` of a structure that was copied in. -/
def word (bytes : List UInt8) (offset : Nat) : Nat := get32 (fun i => bytes.getD i 0) offset

def sysSendHandler (msg : Envelope) : Handler :=
  if msg.argc < 3 then fail
  else
    let channelId := signed msg.arg0
    let userMessage := msg.arg1.toNat
    let flags := msg.arg2
    if !syscallValidateUserBuffer userMessage ipcMessageSize then fail
    else
      .load userMessage ipcMessageSize (fun message =>
        let header := UInt32.ofNat (word message 0)
        let type := UInt32.ofNat (word message 8)
        let size := word message 12
        let data := word message 16
        let send (bytes : Option (List UInt8)) : Handler :=
          withCurrent (fun sender =>
            .call (.ipcChannelSend channelId sender header type bytes size flags) .ret)
        if configMsgDataMax < size then fail
        else if 0 < size then
          if !syscallValidateUserBuffer data size then fail
          else .load data size (fun bytes => send (some bytes))
        else send none)

def messageBytes (header : UInt32) (sender : Pid) (type : UInt32) (size data : Nat) : List UInt8 :=
  bytes32 header.toNat ++ bytes32 (sender % 2 ^ 32).toNat ++ bytes32 type.toNat ++ bytes32 size ++
    bytes32 data

/-- `sys_recv_handler` from the return of `ipc_channel_receive` on. -/
def sysRecvDeliver (userMessage userBuffer userCapacity : Nat) (rc : Int) (d : Channel.Delivery) :
    Handler :=
  if rc ≤ 0 then .ret rc
  else
    match d.out with
    | none => fail
    | some (header, type, sender, size) =>
      let copyLen := if configMsgDataMax < size then configMsgDataMax else size
      if userBuffer ≠ 0 ∧ 0 < userCapacity then
        let toCopy := if copyLen < userCapacity then copyLen else userCapacity
        let header := if userCapacity < copyLen then header ||| Channel.ipcMessageTruncated else header
        let leave : Handler :=
          .store userMessage (messageBytes header sender type toCopy userBuffer) (.ret 1)
        if 0 < toCopy then .store userBuffer (d.copied.take toCopy) leave else leave
      else .store userMessage (messageBytes header sender type 0 0) (.ret 1)

/-- The arguments with which `sys_recv_handler` calls `ipc_channel_receive`. -/
def receiveCall (channelId : Int) (userBuffer userCapacity : Nat) (flags : UInt32) :
    Channel.ReceiveCall :=
  let hasBuffer := decide (userBuffer ≠ 0 ∧ 0 < userCapacity)
  ⟨channelId, true, hasBuffer, if hasBuffer then configMsgDataMax else 0, flags &&& 1 != 0⟩

def sysRecvHandler (msg : Envelope) : Handler :=
  if msg.argc < 3 then fail
  else
    let channelId := signed msg.arg0
    let userMessage := msg.arg1.toNat
    let flags := msg.arg2
    if !syscallValidateUserBuffer userMessage ipcMessageSize then fail
    else
      .load userMessage ipcMessageSize (fun request =>
        let userBuffer := word request 16
        let userCapacity := word request 12
        if userBuffer ≠ 0 ∧ 0 < userCapacity ∧ !syscallValidateUserBuffer userBuffer userCapacity then
          fail
        else
          withCurrent (fun _ =>
            .call (.ipcChannelReceive (receiveCall channelId userBuffer userCapacity flags))
              (fun r => sysRecvDeliver userMessage userBuffer userCapacity r.1 r.2)))

def sysChanCreateHandler (msg : Envelope) : Handler :=
  if msg.argc < 2 then fail
  else
    let name := msg.arg0.toNat
    let nameLen := msg.arg1.toNat
    let flags := if 3 ≤ msg.argc then msg.arg2 else 0
    if name ≠ 0 ∧ 0 < nameLen then
      if !syscallValidateUserBuffer name nameLen then fail
      else
        let copyLen :=
          if nameLen < configIpcChannelNameMax - 1 then nameLen else configIpcChannelNameMax - 1
        .load name copyLen (fun bytes => .call (.ipcChannelCreate bytes flags) .ret)
    else .call (.ipcChannelCreate [] flags) .ret

/-- Handlers that pass their first argument on as an `int`. -/
def passHandler (c : Int → KernelCall Int) (msg : Envelope) : Handler :=
  if msg.argc < 1 then fail else .call (c (signed msg.arg0)) .ret

/-- The same, with a test for a current process first. -/
def passCurrentHandler (c : Int → KernelCall Int) (msg : Envelope) : Handler :=
  if msg.argc < 1 then fail else withCurrent (fun _ => .call (c (signed msg.arg0)) .ret)

def sysChanJoinHandler : Envelope → Handler := passCurrentHandler .ipcChannelJoin
def sysChanLeaveHandler : Envelope → Handler := passCurrentHandler .ipcChannelLeave
def sysChanPeekHandler : Envelope → Handler := passHandler .ipcChannelPeek
def sysServiceChannelHandler : Envelope → Handler := passHandler .ipcGetServiceChannel
def sysMutexLockHandler : Envelope → Handler := passHandler (fun id => .sync (.mutexLock id))
def sysMutexUnlockHandler : Envelope → Handler := passHandler (fun id => .sync (.mutexUnlock id))
def sysSemCreateHandler : Envelope → Handler := passHandler (fun n => .sync (.semaphoreCreate n))
def sysSemWaitHandler : Envelope → Handler := passHandler (fun id => .sync (.semaphoreWait id))
def sysSemPostHandler : Envelope → Handler := passHandler (fun id => .sync (.semaphorePost id))

def sysMutexCreateHandler (_ : Envelope) : Handler := .call (.sync .mutexCreate) .ret

def sysExitHandler (msg : Envelope) : Handler :=
  if msg.argc < 1 then fail else .call (.processExit (signed msg.arg0)) (fun _ => .ret 0)

def sysSchedSetHandler (msg : Envelope) : Handler :=
  if msg.argc < 4 then fail
  else
    .call (.processSetScheduler (signed msg.arg0) (msg.arg1.toNat % 256) msg.arg2.toNat msg.arg3.toNat) .ret

def setResult (msg : Envelope) (result : Int) (status : Nat) (next : Handler) : Handler :=
  .store (msg.address + 24) (bytes32 (result % 2 ^ 32).toNat)
    (.store (msg.address + 28) (bytes32 status) next)

def eventBytes (entry : KeyFifoEntry) : List UInt8 :=
  bytes32 entry.timestamp.toNat ++ bytes32 entry.payload.toNat ++ [entry.ch, 0, 0, 0]

def cBool (b : Bool) : Int := if b then 1 else 0

def sysKbdPoll (msg : Envelope) : Handler :=
  if msg.argc < 1 then setResult msg (-1) 1 fail
  else if msg.arg0.toNat = 0 then setResult msg (-1) 1 fail
  else if cBool (syscallValidateUserBuffer msg.arg0.toNat 12) < 0 then setResult msg (-1) 1 fail
  else
    .call .pollKey (fun key =>
      match key with
      | none => setResult msg 0 0 (.ret 0)
      | some entry => .store msg.arg0.toNat (eventBytes entry) (setResult msg 1 0 (.ret 0)))

/-! ## Dispatch -/

/-- `syscall_table`; `kbd` says whether the keyboard module has registered its call. -/
def syscallTable (kbd : Bool) : Nat → Option (Envelope → Handler)
  | 0 => some sysWriteHandler
  | 1 => some sysYieldHandler
  | 2 => some sysSpawnHandler
  | 3 => some sysSendHandler
  | 4 => some sysRecvHandler
  | 5 => some sysExitHandler
  | 6 => some sysChanCreateHandler
  | 7 => some sysChanJoinHandler
  | 8 => some sysChanLeaveHandler
  | 9 => some sysChanPeekHandler
  | 10 => some sysServiceChannelHandler
  | 11 => some sysSleepHandler
  | 12 => some sysIpcSendHandler
  | 13 => some sysIpcRecvHandler
  | 14 => some sysIpcShareHandler
  | 15 => some sysServiceConnectHandler
  | 16 => some sysSchedSetHandler
  | 17 => some sysMutexCreateHandler
  | 18 => some sysMutexLockHandler
  | 19 => some sysMutexUnlockHandler
  | 20 => some sysSemCreateHandler
  | 21 => some sysSemWaitHandler
  | 22 => some sysSemPostHandler
  | 32 => if kbd then some sysKbdPoll else none
  | _ => none

def syscallInvoke (kbd : Bool) (msg : Envelope) : Handler :=
  if syscallTableSize ≤ msg.number then fail
  else
    match syscallTable kbd msg.number with
    | none => fail
    | some handler => handler msg

/-- The envelope as the kernel finds it in user memory. -/
def readEnvelope (address : Nat) (bytes : List UInt8) : Envelope where
  address := address
  number := word bytes 0
  argc := word bytes 4
  arg0 := UInt32.ofNat (word bytes 8)
  arg1 := UInt32.ofNat (word bytes 12)
  arg2 := UInt32.ofNat (word bytes 16)
  arg3 := UInt32.ofNat (word bytes 20)

/-- `syscall_handler` once the envelope has been read. -/
def syscallDispatch (kbd : Bool) (msg : Envelope) : Handler :=
  if syscallMaxArgs < msg.argc then setResult msg (-1) 1 fail
  else
    (syscallInvoke kbd msg).bind (fun result =>
      setResult msg result (if result < 0 then 1 else 0) (.ret result))

def syscallHandler (kbd : Bool) (address : Nat) : Handler :=
  if !syscallValidateUserBuffer address envelopeSize then fail
  else .load address envelopeSize (fun bytes => syscallDispatch kbd (readEnvelope address bytes))

end ProOS.Syscall
