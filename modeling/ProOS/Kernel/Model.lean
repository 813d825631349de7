import ProOS.Ipc.Model
import ProOS.Channel.Model
import ProOS.Sync.Model

namespace ProOS.Kernel

open ProOS.Framework Function

def configMaxProcs : Nat := 32
def configIpcMaxSharedRegions : Nat := 64
def configIpcMaxSharedPerProc : Nat := 8
def configIpcPageSize : Nat := 4096
def configUserSpaceLimit : Nat := 0x80000000
def systemServiceCount : Nat := 4
def ipcRightShare : UInt32 := 4

/-- Where a process is that has called `process_block_current` or `process_sleep`. -/
inductive Inside
  | recv (call : Ipc.RecvCall)
  | channel (i : Channel.Index) (call : Channel.ReceiveCall)
  | sync (call : Sync.Call)
  | sleep
  deriving DecidableEq, Repr

structure ShareLink where
  used : Bool
  shareId : Int
  deriving DecidableEq, Repr

structure ShareRecord where
  used : Bool
  owner : Pid
  target : Pid
  addr : Nat
  pages : Nat
  flags : UInt32
  deriving DecidableEq, Repr

/-- `struct process`, without what only the scheduler reads. A process that is free to run
counts as running. -/
structure Proc where
  state : ProcState
  inside : Option Inside
  kind : ThreadKind
  mailbox : Ipc.Mailbox
  caps : Nat → Ipc.CapEntry
  capCount : Nat
  ipcWaiting : Bool
  channelSlots : List Int
  waitChannel : Int
  ipcShares : Nat → ShareLink
  ipcShareCount : Nat

/-- `struct service_entry`; `registered` is `entry != NULL`. -/
structure ServiceEntry where
  registered : Bool
  pid : Pid
  rightsDefault : UInt32
  clientRights : Nat → UInt32

/-- All tables of the kernel that name processes. -/
structure State where
  initialized : Bool
  procs : Pid → Option Proc
  processCount : Nat
  nextPid : Int
  channels : Channel.Index → Channel.IpcChannel
  nextChannelId : Int
  mutexes : Nat → Sync.Mutex
  semaphores : Nat → Sync.Semaphore
  shareTable : Nat → ShareRecord
  serviceTable : Nat → ServiceEntry

def State.setProc (k : State) (p : Pid) (a : Option Proc) : State :=
  { k with procs := update k.procs p a }

/-! The record as each subsystem reads and writes it. -/

def Inside.recv? : Inside → Option Ipc.RecvCall
  | .recv call => some call
  | _ => none

def Inside.channel? : Inside → Option (Channel.Index × Channel.ReceiveCall)
  | .channel i call => some (i, call)
  | _ => none

def Inside.sync? : Inside → Option Sync.Call
  | .sync call => some call
  | _ => none

/-- A subsystem has left a process inside `new` of its own calls; what the process does elsewhere
stays. -/
def mergeInside {α : Type} (read : Inside → Option α) (write : α → Inside) (old : Option Inside)
    (new : Option α) : Option Inside :=
  match new with
  | some c => some (write c)
  | none => if (old.bind read).isSome then none else old

def Proc.ipc (a : Proc) : Ipc.Proc :=
  ⟨a.state, a.kind, a.mailbox, a.caps, a.capCount, a.ipcWaiting, a.inside.bind Inside.recv?⟩

def Proc.setIpc (a : Proc) (b : Ipc.Proc) : Proc :=
  { a with
    state := b.state, mailbox := b.mailbox, caps := b.caps, capCount := b.capCount
    ipcWaiting := b.ipcWaiting, inside := mergeInside Inside.recv? .recv a.inside b.inside }

def Proc.channel (a : Proc) : Channel.Proc :=
  ⟨a.state, a.channelSlots, a.waitChannel, a.inside.bind Inside.channel?⟩

def Proc.setChannel (a : Proc) (b : Channel.Proc) : Proc :=
  { a with
    state := b.state, channelSlots := b.channelSlots, waitChannel := b.waitChannel
    inside := mergeInside Inside.channel? (fun c => .channel c.1 c.2) a.inside b.inside }

def Proc.sync (a : Proc) : Sync.Proc := ⟨a.state, a.inside.bind Inside.sync?⟩

def Proc.setSync (a : Proc) (b : Sync.Proc) : Proc :=
  { a with state := b.state, inside := mergeInside Inside.sync? .sync a.inside b.inside }

def State.ipc (k : State) : Ipc.State := ⟨k.initialized, fun q => (k.procs q).map Proc.ipc⟩

def State.setIpc (k : State) (s : Ipc.State) : State :=
  { k with procs := fun q => (k.procs q).bind (fun a => (s.procs q).map a.setIpc) }

def State.channel (k : State) : Channel.State :=
  ⟨k.channels, k.nextChannelId, fun q => (k.procs q).map Proc.channel⟩

def State.setChannel (k : State) (s : Channel.State) : State :=
  { k with
    channels := s.channels, nextChannelId := s.nextChannelId
    procs := fun q => (k.procs q).bind (fun a => (s.procs q).map a.setChannel) }

def State.sync (k : State) : Sync.State :=
  ⟨k.mutexes, k.semaphores, fun q => ((k.procs q).map Proc.sync).getD ⟨.unused, none⟩⟩

def State.setSync (k : State) (s : Sync.State) : State :=
  { k with
    mutexes := s.mutexes, semaphores := s.semaphores
    procs := fun q => (k.procs q).map (fun a => a.setSync (s.procs q)) }

/-! Shared regions. -/

def freeLink (links : Nat → ShareLink) : Option Nat :=
  (List.range configIpcMaxSharedPerProc).find? (fun j => !(links j).used)

def shareAttachToProcess (a : Proc) (shareId : Int) : Option Proc :=
  (freeLink a.ipcShares).map (fun j =>
    { a with
      ipcShares := update a.ipcShares j ⟨true, shareId⟩
      ipcShareCount :=
        if a.ipcShareCount < configIpcMaxSharedPerProc then a.ipcShareCount + 1 else a.ipcShareCount })

def linkTo (links : Nat → ShareLink) (shareId : Int) : Option Nat :=
  (List.range configIpcMaxSharedPerProc).find? (fun j => (links j).used && (links j).shareId == shareId)

def shareDetachFromProcess (a : Proc) (shareId : Int) : Proc :=
  match linkTo a.ipcShares shareId with
  | none => a
  | some j =>
    { a with
      ipcShares := update a.ipcShares j ⟨false, -1⟩
      ipcShareCount := a.ipcShareCount - 1 }

def processLookup (k : State) (pid : Pid) : Option Proc := if pid ≤ 0 then none else k.procs pid

/-- `share_attach_to_process` on the process under `p`. -/
def State.attach (k : State) (p : Pid) (shareId : Int) : Option State :=
  match k.procs p with
  | none => none
  | some a => (shareAttachToProcess a shareId).map (fun b => k.setProc p (some b))

/-- `process_lookup` and, if it finds a process, `share_detach_from_process`. -/
def State.detach (k : State) (p : Pid) (shareId : Int) : State :=
  match processLookup k p with
  | none => k
  | some a => k.setProc p (some (shareDetachFromProcess a shareId))

def State.setShare (k : State) (i : Nat) (r : ShareRecord) : State :=
  { k with shareTable := update k.shareTable i r }

def noShare : ShareRecord := ⟨false, Ipc.ipcInvalidPid, Ipc.ipcInvalidPid, 0, 0, 0⟩

def shareDropAt (pid : Pid) (k : State) (i : Nat) : State :=
  let record := k.shareTable i
  if !record.used then k
  else if record.owner ≠ pid ∧ record.target ≠ pid then k
  else ((k.detach record.owner i).detach record.target i).setShare i noShare

def shareDropForPid (k : State) (pid : Pid) : State :=
  if pid ≤ 0 then k else (List.range configIpcMaxSharedRegions).foldl (shareDropAt pid) k

def freeShare (k : State) : Option Nat :=
  (List.range configIpcMaxSharedRegions).find? (fun i => !(k.shareTable i).used)

/-- `ipc_share` by the process `p`; `uintptr_t` arithmetic wraps at 2^32. -/
def ipcShare (k : State) (p target : Pid) (addr pages : Nat) : State × Int :=
  if !k.initialized then (k, -1)
  else if target ≤ 0 ∨ addr = 0 ∨ pages = 0 then (k, -1)
  else if addr % configIpcPageSize ≠ 0 then (k, -1)
  else
    let limit := (addr + pages * configIpcPageSize % 2 ^ 32) % 2 ^ 32
    if limit < addr ∨ configUserSpaceLimit < limit then (k, -1)
    else
      match k.procs p with
      | none => (k, -1)
      | some owner =>
        if !Ipc.capabilityCheck p owner.ipc target ipcRightShare then (k, -1)
        else
          match processLookup k target with
          | none => (k, -1)
          | some _ =>
            match freeShare k with
            | none => (k, -1)
            | some slot =>
              let k := k.setShare slot ⟨true, p, target, addr, pages, 0⟩
              let undo : State → State × Int := fun k =>
                (((k.detach p slot).detach target slot).setShare slot noShare, -1)
              match k.attach p slot with
              | none => undo k
              | some k =>
                match k.attach target slot with
                | none => undo k
                | some k => (k, 0)

/-! Leaving. -/

def clearCaps : Nat → Ipc.CapEntry := fun _ => ⟨false, Ipc.ipcInvalidPid, 0⟩

def clearLinks : Nat → ShareLink := fun _ => ⟨false, -1⟩

def ipcDetachProcess (k : State) (p : Pid) (a : Proc) : State :=
  let a := { a with mailbox := Ipc.mailboxInit a.mailbox, caps := clearCaps, capCount := 0 }
  let k := k.setProc p (some a)
  let k := if k.initialized then shareDropForPid k p else k
  match k.procs p with
  | none => k
  | some a =>
    k.setProc p (some { a with ipcShares := clearLinks, ipcShareCount := 0, ipcWaiting := false })

/-- The body of the loop of `ipc_process_cleanup` over the channel slots. -/
def channelDrop (p : Pid) (k : State) (channelId : Int) : State :=
  match Channel.findChannel k.channel channelId with
  | none => k
  | some i =>
    { k with
      channels := update k.channels i
        (Channel.channelRemoveWaiter (Channel.channelRemoveSubscriber (k.channels i) p) p) }

def ipcProcessCleanup (k : State) (p : Pid) (a : Proc) : State :=
  let k := ipcDetachProcess k p a
  match k.procs p with
  | none => k
  | some a =>
    (a.channelSlots.foldl (channelDrop p) k).setProc p
      (some { a with channelSlots := [], waitChannel := -1 })

/-- The service that `service_handle_exit` finds first. -/
def serviceOf (table : Nat → ServiceEntry) (pid : Pid) : Option Nat :=
  (List.range systemServiceCount).find? (fun i => (table i).pid == pid)

def State.setService (k : State) (i : Nat) (e : ServiceEntry) : State :=
  { k with serviceTable := update k.serviceTable i e }

def serviceHandleExit (k : State) (pid : Pid) : State :=
  if pid ≤ 0 then k
  else
    match serviceOf k.serviceTable pid with
    | none => k
    | some i => k.setService i { k.serviceTable i with pid := -1 }

/-- What the log, the scheduler's events and the task list send while they run in the context of
`current`. -/
inductive Post
  | mail (target : Pid) (msg : Option Ipc.Buffer) (size : Nat)
  | channel (channelId : Int) (header type : UInt32) (payload : Channel.Buffer) (size : Nat)

def State.post (current : Option Pid) (k : State) : Post → State
  | .mail target msg size => k.setIpc (Ipc.ipcSend k.ipc current target msg size).1
  | .channel channelId header type payload size =>
    k.setChannel (Channel.ipcChannelSend k.channel channelId 0 header type (some payload) size 0).1

/-- `process_exit` by the process `p`, up to its context switch. -/
def processExit (k : State) (p : Pid) (a : Proc) (posts : List Post) : State :=
  let k := serviceHandleExit (ipcProcessCleanup k p a) p
  let k := match k.procs p with
    | none => k
    | some a => k.setProc p (some { a with state := .zombie })
  posts.foldl (State.post (some p)) k

/-! Processes and services. -/

def freshProc (kind : ThreadKind) (memory : Ipc.Mailbox) : Proc where
  state := .running
  inside := none
  kind := kind
  mailbox := Ipc.mailboxInit memory
  caps := clearCaps
  capCount := 0
  ipcWaiting := false
  channelSlots := []
  waitChannel := -1
  ipcShares := clearLinks
  ipcShareCount := 0

/-- `process_create` and `process_create_kernel`: a slot is free, the idle thread taking one of
them, and `next_pid` has not reached the end of `int`. -/
def processCreate (k : State) (kind : ThreadKind) (memory : Ipc.Mailbox) : State × Int :=
  if k.processCount + 1 < configMaxProcs ∧ k.nextPid < intMax then
    ({ k.setProc k.nextPid (some (freshProc kind memory)) with
        processCount := k.processCount + 1
        nextPid := k.nextPid + 1 }, k.nextPid)
  else (k, -1)

def serviceRegister (k : State) (service : Nat) (defaultRights : UInt32) : State × Int :=
  if systemServiceCount ≤ service then (k, -1)
  else (k.setService service ⟨true, -1, defaultRights, fun _ => 0⟩, 0)

def serviceStart (k : State) (service : Nat) (memory : Ipc.Mailbox) : State × Int :=
  if systemServiceCount ≤ service then (k, -1)
  else if !(k.serviceTable service).registered then (k, -1)
  else if 0 < (k.serviceTable service).pid then (k, (k.serviceTable service).pid)
  else
    let r := processCreate k .user memory
    if 0 < r.2 then
      (r.1.setService service { r.1.serviceTable service with pid := r.2 }, r.2)
    else (r.1, r.2)

def capGrant (k : State) (owner target : Pid) (rights : UInt32) : State × Int :=
  let r := Ipc.ipcCapGrant k.ipc owner target rights
  (k.setIpc r.1, r.2)

def serviceGrantCapabilities (k : State) (requester : Pid) (service : Nat) (rights : UInt32)
    (memory : Ipc.Mailbox) : State × Int :=
  if systemServiceCount ≤ service then (k, -1)
  else if requester ≤ 0 then (k, -1)
  else
    let effective := (k.serviceTable service).rightsDefault ||| rights
    let started :=
      if (k.serviceTable service).pid ≤ 0 then serviceStart k service memory
      else (k, (k.serviceTable service).pid)
    if started.2 ≤ 0 then (started.1, -1)
    else
      let svcPid := (started.1.serviceTable service).pid
      if svcPid ≤ 0 then (started.1, -1)
      else
        let first := capGrant started.1 requester svcPid effective
        if first.2 < 0 then (first.1, -1)
        else
          let second := capGrant first.1 svcPid requester effective
          if second.2 < 0 then (second.1, -1)
          else if requester ≤ configMaxProcs then
            let slot := second.1.serviceTable service
            (second.1.setService service
              { slot with
                clientRights := update slot.clientRights (requester - 1).toNat effective }, 0)
          else (second.1, 0)

/-! What can happen next. -/

/-- The calls of sync.c, as their own model performs them. -/
inductive SyncCall
  | mutexCreate
  | mutexLock (id : Int)
  | mutexUnlock (id : Int)
  | semaphoreCreate (initialCount : Int)
  | semaphoreWait (id : Int)
  | semaphorePost (id : Int)
  deriving DecidableEq, Repr

def SyncCall.run (s : Sync.State) (p : Pid) : SyncCall → Sync.State
  | .mutexCreate => (Sync.syncMutexCreate s).1
  | .mutexLock id => (Sync.syncMutexLock s p id).2
  | .mutexUnlock id => (Sync.syncMutexUnlock s p id).1
  | .semaphoreCreate n => (Sync.syncSemaphoreCreate s n).1
  | .semaphoreWait id => (Sync.syncSemaphoreWait s p id).2
  | .semaphorePost id => (Sync.syncSemaphorePost s id).1

inductive Action
  | create (kind : ThreadKind) (memory : Ipc.Mailbox)
  | post (current : Option Pid) (m : Post)
  | recv (p : Pid) (call : Ipc.RecvCall) (logs : Nat → Option Ipc.LogSend)
  | grant (owner target : Pid) (rights : UInt32)
  | revoke (owner target : Pid) (rights : UInt32)
  | share (p target : Pid) (addr pages : Nat)
  | channelCreate (flags : UInt32)
  | channelJoin (p : Pid) (channelId : Int)
  | channelLeave (p : Pid) (channelId : Int)
  | channelSend (channelId : Int) (senderPid : Pid) (header type : UInt32) (data : Option Channel.Buffer)
      (size : Nat) (flags : UInt32)
  | channelReceive (p : Pid) (call : Channel.ReceiveCall)
  | sync (p : Pid) (call : SyncCall)
  | sleep (p : Pid)
  | timer (p : Pid)
  | resume (p : Pid) (logs : Nat → Option Ipc.LogSend)
  | serviceRegister (service : Nat) (defaultRights : UInt32)
  | serviceStart (service : Nat) (memory : Ipc.Mailbox)
  | serviceGrant (requester : Pid) (service : Nat) (rights : UInt32) (memory : Ipc.Mailbox)
  | exit (p : Pid) (posts : List Post)
  | reclaim (p : Pid)

/-- The process runs and is inside no call. -/
def Proc.Free (a : Proc) : Prop := a.inside = none ∧ a.state = .running

instance (a : Proc) : Decidable a.Free :=
  inferInstanceAs (Decidable (a.inside = none ∧ a.state = .running))

/-- The process `p`, if it is free to make a call. -/
def State.free (k : State) (p : Pid) : Option Proc := (k.procs p).filter (fun a => decide a.Free)

/-- A woken process goes on after `process_block_current`, at the top of the loop that it is in. -/
def State.resume (k : State) (p : Pid) (a : Proc) (logs : Nat → Option Ipc.LogSend) : Option State :=
  match a.inside with
  | some (.recv call) => (Ipc.recvPass k.ipc p a.ipc call logs).map (fun r => k.setIpc r.2)
  | some (.channel i call) => some (k.setChannel (Channel.receivePass k.channel p a.channel i call).1)
  | some (.sync _) => (Sync.resumeCall k.sync p).map (fun r => k.setSync r.2)
  | some .sleep => some (k.setProc p (some { a with state := .running, inside := none }))
  | none => none

def act (k : State) : Action → Option State
  | .create kind memory => some (processCreate k kind memory).1
  | .post current m =>
    match current with
    | none => some (k.post none m)
    | some p => (k.free p).map (fun _ => k.post (some p) m)
  | .recv p call logs =>
    (k.free p).bind (fun a => (Ipc.ipcRecv k.ipc p a.ipc call logs).map (fun r => k.setIpc r.2))
  | .grant owner target rights => some (capGrant k owner target rights).1
  | .revoke owner target rights => some (k.setIpc (Ipc.ipcCapRevoke k.ipc owner target rights).1)
  | .share p target addr pages => (k.free p).map (fun _ => (ipcShare k p target addr pages).1)
  | .channelCreate flags => some (k.setChannel (Channel.ipcChannelCreate k.channel flags).1)
  | .channelJoin p channelId =>
    (k.free p).map (fun _ => k.setChannel (Channel.ipcChannelJoin k.channel p channelId).1)
  | .channelLeave p channelId =>
    (k.free p).map (fun _ => k.setChannel (Channel.ipcChannelLeave k.channel p channelId).1)
  | .channelSend channelId senderPid header type data size flags =>
    some (k.setChannel
      (Channel.ipcChannelSend k.channel channelId senderPid header type data size flags).1)
  | .channelReceive p call =>
    (k.free p).map (fun a => k.setChannel (Channel.ipcChannelReceive k.channel p a.channel call).1)
  | .sync p call => (k.free p).map (fun _ => k.setSync (call.run k.sync p))
  | .sleep p =>
    (k.free p).map (fun a => k.setProc p (some { a with state := .waiting, inside := some .sleep }))
  | .timer p =>
    match k.procs p with
    | none => none
    | some a =>
      if a.inside = some .sleep ∧ a.state = .waiting then
        some (k.setProc p (some { a with state := .ready }))
      else none
  | .resume p logs =>
    match k.procs p with
    | none => none
    | some a => if a.state = .ready then k.resume p a logs else none
  | .serviceRegister service defaultRights => some (serviceRegister k service defaultRights).1
  | .serviceStart service memory => some (serviceStart k service memory).1
  | .serviceGrant requester service rights memory =>
    some (serviceGrantCapabilities k requester service rights memory).1
  | .exit p posts => (k.free p).map (fun a => processExit k p a posts)
  | .reclaim p =>
    match k.procs p with
    | none => none
    | some a =>
      if a.state = .zombie then some { k.setProc p none with processCount := k.processCount - 1 } else none

abbrev Run : State → List Action → State → Prop := Exec (Performs (labelled act))

/-- After `ipc_system_init`, `sync_init`, `process_system_init` and `service_system_init`, before the
service channels exist. -/
def boot (memory : Channel.Index → Channel.IpcChannel) : State where
  initialized := true
  procs := fun _ => none
  processCount := 0
  nextPid := 1
  channels := (Channel.ipcSystemInit memory).channels
  nextChannelId := 1
  mutexes := Sync.syncInit.mutexes
  semaphores := Sync.syncInit.semaphores
  shareTable := fun _ => noShare
  serviceTable := fun _ => ⟨false, -1, 0, fun _ => 0⟩

end ProOS.Kernel
