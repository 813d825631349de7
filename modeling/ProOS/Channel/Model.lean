import ProOS.Kernel.Types
import ProOS.Framework.CellArray
import ProOS.Framework.Exec
import ProOS.Framework.RingBuffer

namespace ProOS.Channel

open ProOS.Framework

def configIpcMaxChannels : Nat := 32
def configIpcChannelQueueLen : Nat := 32
def configIpcChannelSubscribers : Nat := 8
def configIpcChannelWaiters : Nat := 8
def configProcessChannelSlots : Nat := 8
def configMsgDataMax : Nat := 256

def ipcChannelFlagKernel : UInt32 := 1
def ipcMessageTruncated : UInt32 := 1
abbrev Buffer := Nat → UInt8

/-- An index into `channel_table`. -/
abbrev Index := Fin configIpcMaxChannels

/-- `struct ipc_message_slot`; bytes of `data` from `size` on are left over from earlier. -/
structure Slot where
  header : UInt32
  type : UInt32
  size : Nat
  flags : UInt32
  senderPid : Pid
  data : Buffer

/-- `struct ipc_channel`; the lists are the arrays up to their counts, and a process stands for
the pointer to it. -/
structure IpcChannel where
  used : Bool
  id : Int
  flags : UInt32
  queue : Nat → Slot
  head : Nat
  tail : Nat
  count : Nat
  waiters : List Pid
  subscribers : List Pid

/-- The arguments of `ipc_channel_receive`; `nonblock` is the flag `IPC_RECV_NONBLOCK`. -/
structure ReceiveCall where
  channelId : Int
  hasOut : Bool
  hasBuffer : Bool
  bufferLen : Nat
  nonblock : Bool
  deriving DecidableEq, Repr

/-- A process as the channels see it; `inside` is the channel in whose loop it is. -/
structure Proc where
  state : ProcState
  channelSlots : List Int
  waitChannel : Int
  inside : Option (Index × ReceiveCall)
  deriving DecidableEq, Repr

structure State where
  channels : Index → IpcChannel
  nextChannelId : Int
  procs : Pid → Option Proc

def State.setChannel (s : State) (i : Index) (c : IpcChannel) : State :=
  { s with channels := Function.update s.channels i c }

def State.setProc (s : State) (p : Pid) (proc : Proc) : State :=
  { s with procs := Function.update s.procs p (some proc) }

def findChannel (s : State) (channelId : Int) : Option Index :=
  if channelId ≤ 0 then none
  else (List.finRange configIpcMaxChannels).find?
    (fun i => (s.channels i).used && (s.channels i).id == channelId)

def processHasChannel (proc : Proc) (channelId : Int) : Bool := decide (channelId ∈ proc.channelSlots)

def processAddChannel (proc : Proc) (channelId : Int) : Option Proc :=
  if processHasChannel proc channelId then some proc
  else if configProcessChannelSlots ≤ proc.channelSlots.length then none
  else some { proc with channelSlots := proc.channelSlots ++ [channelId] }

def processRemoveChannel (proc : Proc) (channelId : Int) : Proc :=
  { proc with channelSlots := proc.channelSlots.erase channelId }

def channelRemoveWaiter (c : IpcChannel) (p : Pid) : IpcChannel := { c with waiters := c.waiters.erase p }

def channelRemoveSubscriber (c : IpcChannel) (p : Pid) : IpcChannel :=
  { c with subscribers := c.subscribers.erase p }

def ipcChannelCreate (s : State) (flags : UInt32) : State × Int :=
  match (List.finRange configIpcMaxChannels).find? (fun i => !(s.channels i).used) with
  | none => (s, -1)
  | some i =>
    ({ s.setChannel i
        { s.channels i with
          used := true, id := s.nextChannelId, flags := flags, head := 0, tail := 0, count := 0
          waiters := [], subscribers := [] } with
        nextChannelId := s.nextChannelId + 1 },
      s.nextChannelId)

def ipcChannelJoin (s : State) (p : Pid) (channelId : Int) : State × Int :=
  match s.procs p with
  | none => (s, -1)
  | some proc =>
    match findChannel s channelId with
    | none => (s, -1)
    | some i =>
      match processAddChannel proc channelId with
      | none => (s, -1)
      | some joined =>
        let c := s.channels i
        if p ∈ c.subscribers then (s.setProc p joined, 0)
        else if configIpcChannelSubscribers ≤ c.subscribers.length then
          (s.setProc p (processRemoveChannel joined channelId), -1)
        else ((s.setProc p joined).setChannel i { c with subscribers := c.subscribers ++ [p] }, 0)

def ipcChannelLeave (s : State) (p : Pid) (channelId : Int) : State × Int :=
  match s.procs p with
  | none => (s, -1)
  | some proc =>
    match findChannel s channelId with
    | none => (s, -1)
    | some i =>
      ((s.setProc p (processRemoveChannel proc channelId)).setChannel i
        (channelRemoveWaiter (channelRemoveSubscriber (s.channels i) p) p), 0)

/-- A message as its sender passed it or as its receiver finds it. -/
structure Message where
  header : UInt32
  type : UInt32
  senderPid : Pid
  size : Nat
  bytes : List UInt8
  deriving DecidableEq, Repr

def Slot.message (slot : Slot) : Message :=
  ⟨slot.header, slot.type, slot.senderPid, slot.size, cells slot.data slot.size⟩

def IpcChannel.push (c : IpcChannel) (slot : Slot) : IpcChannel :=
  { c with
    queue := Function.update c.queue c.tail slot
    tail := (c.tail + 1) % configIpcChannelQueueLen
    count := c.count + 1 }

def IpcChannel.pop (c : IpcChannel) : IpcChannel :=
  { c with head := (c.head + 1) % configIpcChannelQueueLen, count := c.count - 1 }

/-- A sender other than the kernel is a process on the channel, unless the channel is the kernel's. -/
def senderAllowed (s : State) (c : IpcChannel) (channelId : Int) (senderPid : Pid) : Bool :=
  if 0 < senderPid then
    match s.procs senderPid with
    | none => false
    | some proc => processHasChannel proc channelId || c.flags &&& ipcChannelFlagKernel != 0
  else true

/-- `wait_channel = -1` and `process_wake` for the process taken from the waiter array. -/
def State.rouse (s : State) (p : Pid) : State :=
  match s.procs p with
  | none => s
  | some proc =>
    s.setProc p { proc with
      waitChannel := -1
      state := if proc.state = .waiting then .ready else proc.state }

def ipcChannelSend (s : State) (channelId : Int) (senderPid : Pid) (header type : UInt32)
    (data : Option Buffer) (size : Nat) (flags : UInt32) : State × Int :=
  if configMsgDataMax < size then (s, -1)
  else
    match findChannel s channelId with
    | none => (s, -1)
    | some i =>
      let c := s.channels i
      if !senderAllowed s c channelId senderPid then (s, -1)
      else if configIpcChannelQueueLen ≤ c.count then (s, -1)
      else
        let old := c.queue c.tail
        let slot : Slot :=
          { header := header, type := type, size := size, flags := flags, senderPid := senderPid
            data := match data with
              | some src => fun k => if k < size then src k else old.data k
              | none => old.data }
        match c.waiters with
        | [] => (s.setChannel i (c.push slot), size)
        | p :: rest => ((s.setChannel i { c.push slot with waiters := rest }).rouse p, size)

/-- What `out` and `buffer` hold after a message was taken. -/
structure Delivery where
  out : Option (UInt32 × UInt32 × Pid × Nat)
  copied : List UInt8
  deriving DecidableEq, Repr

def Slot.deliver (slot : Slot) (call : ReceiveCall) : Delivery where
  out :=
    if call.hasOut then
      some (if call.bufferLen < slot.size then slot.header ||| ipcMessageTruncated else slot.header,
        slot.type, slot.senderPid, slot.size)
    else none
  copied := if call.hasBuffer then cells slot.data (min slot.size call.bufferLen) else []

inductive Outcome
  | received (m : Message) (d : Delivery)
  | empty
  | refused
  | blocked
  deriving DecidableEq, Repr

/-- One pass through the loop of `ipc_channel_receive`, up to its return or to
`process_block_current`. -/
def receivePass (s : State) (p : Pid) (proc : Proc) (i : Index) (call : ReceiveCall) : State × Outcome :=
  let c := s.channels i
  let free : Proc := { proc with state := .running, inside := none }
  if 0 < c.count then
    let slot := c.queue c.head
    ((s.setChannel i c.pop).setProc p { free with waitChannel := -1 },
      .received slot.message (slot.deliver call))
  else if call.nonblock then (s.setProc p free, .empty)
  else
    let asleep : Proc := { proc with state := .waiting, inside := some (i, call) }
    if p ∈ c.waiters then (s.setProc p asleep, .blocked)
    else if configIpcChannelWaiters ≤ c.waiters.length then (s.setProc p free, .refused)
    else
      ((s.setChannel i { c with waiters := c.waiters ++ [p] }).setProc p
        { asleep with waitChannel := call.channelId }, .blocked)

def ipcChannelReceive (s : State) (p : Pid) (proc : Proc) (call : ReceiveCall) : State × Outcome :=
  match findChannel s call.channelId with
  | none => (s, .refused)
  | some i =>
    if !(processHasChannel proc call.channelId || (s.channels i).flags &&& ipcChannelFlagKernel != 0) then
      (s, .refused)
    else receivePass s p proc i call

inductive Action
  | attach (p : Pid)
  | create (flags : UInt32)
  | join (p : Pid) (channelId : Int)
  | leave (p : Pid) (channelId : Int)
  | send (channelId : Int) (senderPid : Pid) (header type : UInt32) (payload : Buffer) (size : Nat)
      (flags : UInt32)
  | receive (p : Pid) (call : ReceiveCall)
  | resume (p : Pid)

inductive Event
  | quiet
  | sent (channelId : Int) (m : Message) (rc : Int)
  | receive (p : Pid) (call : ReceiveCall) (o : Outcome)
  deriving DecidableEq, Repr

/-- The process runs, and not inside `ipc_channel_receive`. -/
def Proc.Free (proc : Proc) : Prop := proc.inside = none ∧ proc.state = .running

instance (proc : Proc) : Decidable proc.Free :=
  inferInstanceAs (Decidable (proc.inside = none ∧ proc.state = .running))

def perform (s : State) : Action → Option (Event × State)
  | .attach p =>
    if 0 < p ∧ (s.procs p).isNone then some (.quiet, s.setProc p ⟨.running, [], -1, none⟩) else none
  | .create flags => some (.quiet, (ipcChannelCreate s flags).1)
  | .join p channelId =>
    match s.procs p with
    | none => none
    | some proc => if proc.Free then some (.quiet, (ipcChannelJoin s p channelId).1) else none
  | .leave p channelId =>
    match s.procs p with
    | none => none
    | some proc => if proc.Free then some (.quiet, (ipcChannelLeave s p channelId).1) else none
  | .send channelId senderPid header type payload size flags =>
    let r := ipcChannelSend s channelId senderPid header type (some payload) size flags
    some (.sent channelId ⟨header, type, senderPid, size, cells payload size⟩ r.2, r.1)
  | .receive p call =>
    match s.procs p with
    | none => none
    | some proc =>
      if proc.Free then
        let r := ipcChannelReceive s p proc call
        some (.receive p call r.2, r.1)
      else none
  | .resume p =>
    match s.procs p with
    | none => none
    | some proc =>
      match proc.inside with
      | some (i, call) =>
        if proc.state = .ready then
          let r := receivePass s p proc i call
          some (.receive p call r.2, r.1)
        else none
      | none => none

abbrev Step : State → Event → State → Prop := Performs perform

/-- After `ipc_system_init`, before it creates the service channels; the queues may hold
anything. -/
def ipcSystemInit (memory : Index → IpcChannel) : State where
  channels := fun i =>
    { memory i with
      used := false, id := 0, flags := 0, head := 0, tail := 0, count := 0, waiters := []
      subscribers := [] }
  nextChannelId := 1
  procs := fun _ => none

end ProOS.Channel
