import ProOS.Kernel.Types
import ProOS.Framework.Exec
import ProOS.Framework.CellArray

namespace ProOS.Ipc

open ProOS.Framework Function

def configMsgQueueLen : Nat := 16
def configMsgDataMax : Nat := 256
def configIpcEndpointWaiters : Nat := 8
def configIpcCapacityPerProc : Nat := 16

def ipcAnyProcess : Pid := -1
def ipcInvalidPid : Pid := -1
def ipcRightSend : UInt32 := 1
def ipcRightRecv : UInt32 := 2
abbrev Buffer := Nat → UInt8

/-- `struct ipc_mailbox_slot`; bytes of `data` from `size` on are left over from earlier. -/
structure Slot where
  used : Bool
  sender : Pid
  flags : UInt32
  size : Nat
  data : Buffer

structure Mailbox where
  slots : Nat → Slot
  count : Nat
  waiters : Nat → Pid
  waiterCount : Nat

structure CapEntry where
  used : Bool
  peer : Pid
  rights : UInt32
  deriving DecidableEq, Repr

/-- The arguments of a call of `ipc_recv`; `hasBuffer` is `buffer != NULL`. -/
structure RecvCall where
  source : Pid
  hasBuffer : Bool
  max : Nat
  deriving DecidableEq, Repr

structure Proc where
  state : ProcState
  kind : ThreadKind
  mailbox : Mailbox
  caps : Nat → CapEntry
  capCount : Nat
  ipcWaiting : Bool
  inside : Option RecvCall

structure State where
  initialized : Bool
  procs : Pid → Option Proc

def State.setProc (s : State) (p : Pid) (q : Option Proc) : State :=
  { s with procs := update s.procs p q }

theorem setProc_procs (s : State) (p r : Pid) (q : Option Proc) :
    (s.setProc p q).procs r = if r = p then q else s.procs r := by
  simp [State.setProc, update_apply]

@[simp] theorem setProc_self (s : State) (p : Pid) (q : Option Proc) :
    (s.setProc p q).procs p = q := by simp [setProc_procs]

def bufferCopy (dst src : Buffer) (length : Nat) : Buffer :=
  fun i => if i < length then src i else dst i

def Slot.cleared (slot : Slot) : Slot :=
  { slot with used := false, sender := 0, flags := 0, size := 0 }

/-- `mailbox_init`; `mailbox_clear` does the same under the lock. -/
def mailboxInit (mailbox : Mailbox) : Mailbox where
  slots := fun i => if i < configMsgQueueLen then (mailbox.slots i).cleared else mailbox.slots i
  count := 0
  waiters := fun i => if i < configIpcEndpointWaiters then ipcInvalidPid else mailbox.waiters i
  waiterCount := 0

def mailboxPushWaiter (mailbox : Mailbox) (pid : Pid) : Mailbox × Bool :=
  if pid ≤ 0 then (mailbox, false)
  else if pid ∈ cells mailbox.waiters mailbox.waiterCount then (mailbox, true)
  else if configIpcEndpointWaiters ≤ mailbox.waiterCount then (mailbox, false)
  else
    ({ mailbox with
        waiters := update mailbox.waiters mailbox.waiterCount pid
        waiterCount := mailbox.waiterCount + 1 }, true)

def mailboxPopWaiter (mailbox : Mailbox) : Pid × Mailbox :=
  if mailbox.waiterCount = 0 then (ipcInvalidPid, mailbox)
  else
    let shifted := shiftDown mailbox.waiters 0 mailbox.waiterCount
    (mailbox.waiters 0,
      { mailbox with
        waiters := update shifted (mailbox.waiterCount - 1) ipcInvalidPid
        waiterCount := mailbox.waiterCount - 1 })

/-- The two `continue` tests of the search in `mailbox_try_dequeue`, passed. -/
def slotMatches (source : Pid) (slot : Slot) : Bool :=
  slot.used && (source == ipcAnyProcess || slot.sender == source)

def mailboxTryDequeue (mailbox : Mailbox) (source : Pid) : Option (Slot × Mailbox) :=
  match (cells mailbox.slots mailbox.count).findIdx? (slotMatches source) with
  | none => none
  | some i =>
    let shifted := shiftDown mailbox.slots i mailbox.count
    let count := mailbox.count - 1
    some (mailbox.slots i,
      { mailbox with
        slots := update shifted count (shifted count).cleared
        count := count })

def processLookup (s : State) (pid : Pid) : Option Proc := if pid ≤ 0 then none else s.procs pid

def processWake (s : State) (p : Pid) : State :=
  match s.procs p with
  | some proc =>
    if proc.state = .waiting then s.setProc p (some { proc with state := .ready }) else s
  | none => s

/-- `mailbox_enqueue` on the mailbox of the process `proc` under pid `target`. -/
def mailboxEnqueue (s : State) (target : Pid) (proc : Proc) (sender : Pid) (data : Option Buffer)
    (size : Nat) (flags : UInt32) : State × Int :=
  let mailbox := proc.mailbox
  if configMsgQueueLen ≤ mailbox.count then (s, -1)
  else
    let old := mailbox.slots mailbox.count
    let slot : Slot :=
      { used := true, sender := sender, flags := flags, size := size
        data := match data with
          | some src => if 0 < size then bufferCopy old.data src size else old.data
          | none => old.data }
    let filled : Mailbox :=
      { mailbox with
        slots := update mailbox.slots mailbox.count slot
        count := mailbox.count + 1 }
    let popped := mailboxPopWaiter filled
    let s := s.setProc target (some { proc with mailbox := popped.2 })
    if 0 < popped.1 then (processWake s popped.1, size) else (s, size)

def capabilityFindSlot (proc : Proc) (peer : Pid) : Option Nat :=
  (List.range configIpcCapacityPerProc).find?
    (fun i => (proc.caps i).used && (proc.caps i).peer == peer)

def capabilityCheck (pid : Pid) (proc : Proc) (peer : Pid) (rights : UInt32) : Bool :=
  if rights = 0 then true
  else if proc.kind = .kernel then true
  else if peer ≤ 0 then true
  else if pid = peer then true
  else
    let granted := match capabilityFindSlot proc peer with
      | some i => (proc.caps i).rights
      | none => 0
    granted &&& rights == rights

/-- The check of the sending side: it is skipped when no process is current. -/
def sendPermitted (s : State) (current : Option Pid) (target : Pid) : Bool :=
  match current with
  | none => true
  | some p =>
    match s.procs p with
    | none => true
    | some proc => capabilityCheck p proc target ipcRightSend

def ipcSend (s : State) (current : Option Pid) (target : Pid) (msg : Option Buffer) (size : Nat) :
    State × Int :=
  if !s.initialized then (s, -1)
  else if target ≤ 0 then (s, -1)
  else if configMsgDataMax < size then (s, -1)
  else if 0 < size ∧ msg.isNone then (s, -1)
  else
    match processLookup s target with
    | none => (s, -1)
    | some proc =>
      if !sendPermitted s current target then (s, -1)
      else mailboxEnqueue s target proc (current.getD 0) (if 0 < size then msg else none) size 0

/-- A message as its sender passed it or as its receiver finds it. -/
structure Message where
  sender : Pid
  size : Nat
  bytes : List UInt8
  deriving DecidableEq, Repr

def Slot.message (slot : Slot) : Message := ⟨slot.sender, slot.size, cells slot.data slot.size⟩

def Message.sent (current : Option Pid) (msg : Option Buffer) (size : Nat) : Message :=
  ⟨current.getD 0, size, cells (msg.getD (fun _ => 0)) size⟩

/-- What `klog_warn` may do for a dropped message: send a record to the log service. -/
structure LogSend where
  target : Pid
  msg : Buffer
  size : Nat

inductive Deed
  | dropped (m : Message)
  | logged (target : Pid) (m : Message) (rc : Int)
  deriving DecidableEq, Repr

inductive Outcome
  | delivered (m : Message) (copied : List UInt8)
  | returned (rc : Int)
  | blocked
  deriving DecidableEq, Repr

/-- The loop of `ipc_recv` from its top to the next return or block. `logs k` is what the log
call for the `k`-th dropped message sends. -/
def recvLoop (p : Pid) (call : RecvCall) (logs : Nat → Option LogSend) :
    Nat → Nat → State → Option (List Deed × Outcome × State)
  | 0, _, _ => none
  | fuel + 1, k, s =>
    match s.procs p with
    | none => none
    | some proc =>
      match mailboxTryDequeue proc.mailbox call.source with
      | some (slot, mailbox) =>
        let s := s.setProc p (some { proc with mailbox := mailbox })
        if !capabilityCheck p proc slot.sender ipcRightRecv then
          match logs k with
          | none =>
            (recvLoop p call logs fuel (k + 1) s).map
              (fun r => (.dropped slot.message :: r.1, r.2))
          | some l =>
            let sent := ipcSend s (some p) l.target (some l.msg) l.size
            (recvLoop p call logs fuel (k + 1) sent.1).map
              (fun r => (.dropped slot.message ::
                .logged l.target (.sent (some p) (some l.msg) l.size) sent.2 :: r.1, r.2))
        else
          let toCopy := if slot.size < call.max then slot.size else call.max
          let copied := if call.hasBuffer then cells slot.data toCopy else []
          some ([], .delivered slot.message copied,
            s.setProc p (some { proc with mailbox := mailbox, ipcWaiting := false }))
      | none =>
        if proc.kind = .kernel then some ([], .returned 0, s)
        else
          let pushed := mailboxPushWaiter proc.mailbox p
          if !pushed.2 then
            some ([], .returned (-1), s.setProc p (some { proc with mailbox := pushed.1 }))
          else
            some ([], .blocked,
              s.setProc p (some { proc with mailbox := pushed.1, ipcWaiting := true }))

def ipcCapGrant (s : State) (owner target : Pid) (rights : UInt32) : State × Int :=
  if !s.initialized then (s, -1)
  else if owner ≤ 0 ∨ target ≤ 0 ∨ rights = 0 then (s, -1)
  else
    match processLookup s owner with
    | none => (s, -1)
    | some proc =>
      match capabilityFindSlot proc target with
      | some i =>
        let entry := { proc.caps i with rights := (proc.caps i).rights ||| rights }
        (s.setProc owner (some { proc with caps := update proc.caps i entry }), 0)
      | none =>
        match (List.range configIpcCapacityPerProc).find? (fun i => !(proc.caps i).used) with
        | none => (s, -1)
        | some i =>
          let count :=
            if proc.capCount < configIpcCapacityPerProc then proc.capCount + 1 else proc.capCount
          (s.setProc owner (some
            { proc with caps := update proc.caps i ⟨true, target, rights⟩, capCount := count }),
            0)

def ipcCapRevoke (s : State) (owner target : Pid) (rights : UInt32) : State × Int :=
  if !s.initialized then (s, -1)
  else if owner ≤ 0 ∨ target ≤ 0 ∨ rights = 0 then (s, -1)
  else
    match processLookup s owner with
    | none => (s, -1)
    | some proc =>
      match capabilityFindSlot proc target with
      | none => (s, 0)
      | some i =>
        let left := (proc.caps i).rights &&& ~~~rights
        if left = 0 then
          (s.setProc owner (some
            { proc with
              caps := update proc.caps i ⟨false, ipcInvalidPid, 0⟩
              capCount := proc.capCount - 1 }), 0)
        else
          (s.setProc owner (some
            { proc with caps := update proc.caps i { proc.caps i with rights := left } }), 0)

/-- A new process. Its mailbox lies in memory that may hold anything. -/
def ipcAttachProcess (memory : Mailbox) (kind : ThreadKind) : Proc where
  state := .running
  kind := kind
  mailbox := mailboxInit memory
  caps := fun _ => ⟨false, ipcInvalidPid, 0⟩
  capCount := 0
  ipcWaiting := false
  inside := none

/-- The mailbox and capability side of `ipc_detach_process`. -/
def ipcDetachProcess (proc : Proc) : Proc :=
  { proc with
    mailbox := mailboxInit proc.mailbox
    caps := fun _ => ⟨false, ipcInvalidPid, 0⟩
    capCount := 0
    ipcWaiting := false }

inductive Action
  | attach (p : Pid) (kind : ThreadKind) (memory : Mailbox)
  | detach (p : Pid)
  | reclaim (p : Pid)
  | grant (owner target : Pid) (rights : UInt32)
  | revoke (owner target : Pid) (rights : UInt32)
  | send (current : Option Pid) (target : Pid) (msg : Option Buffer) (size : Nat)
  | recv (p : Pid) (call : RecvCall) (logs : Nat → Option LogSend)
  | resume (p : Pid) (logs : Nat → Option LogSend)
  | wake (p : Pid)

inductive Event
  | attached (p : Pid)
  | detached (p : Pid)
  | reclaimed (p : Pid)
  | rights (owner : Pid)
  | sent (target : Pid) (m : Message) (rc : Int)
  | recv (p : Pid) (call : RecvCall) (deeds : List Deed) (o : Outcome)
  | woken (p : Pid)
  deriving DecidableEq, Repr

/-- The process runs and is not inside `ipc_recv`. -/
def Proc.Free (proc : Proc) : Prop := proc.inside = none ∧ proc.state ≠ .waiting

instance (proc : Proc) : Decidable proc.Free := by unfold Proc.Free; infer_instance

/-- A pass of `p` through the loop of `ipc_recv`, entered with `p` running. -/
def recvPass (s : State) (p : Pid) (proc : Proc) (call : RecvCall) (logs : Nat → Option LogSend) :
    Option (Event × State) :=
  let entered := s.setProc p (some { proc with state := .running, ipcWaiting := false })
  match recvLoop p call logs (proc.mailbox.count + 1) 0 entered with
  | none => none
  | some (deeds, o, s) =>
    match s.procs p with
    | none => none
    | some proc =>
      let proc := match o with
        | .blocked => { proc with state := .waiting, inside := some call }
        | _ => { proc with state := .running, inside := none }
      some (.recv p call deeds o, s.setProc p (some proc))

def ipcRecv (s : State) (p : Pid) (proc : Proc) (call : RecvCall) (logs : Nat → Option LogSend) :
    Option (Event × State) :=
  if !s.initialized then some (.recv p call [] (.returned (-1)), s)
  else if 0 < call.max ∧ !call.hasBuffer then some (.recv p call [] (.returned (-1)), s)
  else recvPass s p proc call logs

/-- Who may send: a context without a process, or a process that is free to make calls. -/
def State.MaySend (s : State) : Option Pid → Prop
  | none => True
  | some p => ∃ proc, s.procs p = some proc ∧ proc.Free

instance (s : State) (current : Option Pid) : Decidable (s.MaySend current) :=
  match current with
  | none => isTrue trivial
  | some p =>
    match h : s.procs p with
    | none => isFalse (by rintro ⟨proc, hp, -⟩; rw [h] at hp; cases hp)
    | some proc => decidable_of_iff proc.Free
        ⟨fun hf => ⟨proc, h, hf⟩, by rintro ⟨q, hq, hf⟩; rw [h] at hq; cases hq; exact hf⟩

def perform (s : State) : Action → Option (Event × State)
  | .attach p kind memory =>
    if 0 < p ∧ (s.procs p).isNone then
      some (.attached p, s.setProc p (some (ipcAttachProcess memory kind)))
    else none
  | .detach p =>
    match s.procs p with
    | none => none
    | some proc =>
      if proc.Free then some (.detached p, s.setProc p (some (ipcDetachProcess proc))) else none
  | .reclaim p => some (.reclaimed p, s.setProc p none)
  | .grant owner target rights => some (.rights owner, (ipcCapGrant s owner target rights).1)
  | .revoke owner target rights => some (.rights owner, (ipcCapRevoke s owner target rights).1)
  | .send current target msg size =>
    if s.MaySend current then
      let r := ipcSend s current target msg size
      some (.sent target (.sent current msg size) r.2, r.1)
    else none
  | .recv p call logs =>
    match s.procs p with
    | none => none
    | some proc => if proc.Free then ipcRecv s p proc call logs else none
  | .resume p logs =>
    match s.procs p with
    | none => none
    | some proc =>
      match proc.inside with
      | some call => if proc.state = .ready then recvPass s p proc call logs else none
      | none => none
  | .wake p => some (.woken p, processWake s p)

abbrev Step : State → Event → State → Prop := Performs perform

/-- After `ipc_system_init`, before any process exists. -/
def ipcSystemInit : State := ⟨true, fun _ => none⟩

end ProOS.Ipc
