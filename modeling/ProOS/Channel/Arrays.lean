import ProOS.Channel.Delivery
import ProOS.Framework.PaddedArray

/-! The channel table with the arrays and counts of the source, and the lists of the model as what
the arrays hold. -/

namespace ProOS.Channel

open ProOS.Framework Function Option List

namespace Arrays

/-- `struct ipc_channel`; a NULL pointer is `none`. -/
structure IpcChannel where
  used : Bool
  id : Int
  flags : UInt32
  queue : Nat → Slot
  head : Nat
  tail : Nat
  count : Nat
  waiters : Nat → Option Pid
  waiterCount : Nat
  subscribers : Nat → Option Pid
  subscriberCount : Nat

/-- The part of `struct process` that channels use. -/
structure Proc where
  state : ProcState
  channelSlots : Nat → Int
  channelCount : Nat
  waitChannel : Int
  inside : Option (Index × ReceiveCall)

structure State where
  channels : Index → IpcChannel
  nextChannelId : Int
  procs : Pid → Option Proc

def State.setChannel (s : State) (i : Index) (c : IpcChannel) : State :=
  { s with channels := update s.channels i c }

def State.setProc (s : State) (p : Pid) (proc : Option Proc) : State :=
  { s with procs := update s.procs p proc }

def findChannel (s : State) (channelId : Int) : Option Index :=
  if channelId ≤ 0 then none
  else (List.finRange configIpcMaxChannels).find?
    (fun i => (s.channels i).used && (s.channels i).id == channelId)

def processHasChannel (proc : Proc) (channelId : Int) : Bool :=
  (findCell proc.channelSlots proc.channelCount channelId).isSome

def processAddChannel (proc : Proc) (channelId : Int) : Option Proc :=
  if processHasChannel proc channelId then some proc
  else if configProcessChannelSlots ≤ proc.channelCount then none
  else some { proc with
    channelSlots := update proc.channelSlots proc.channelCount channelId
    channelCount := proc.channelCount + 1 }

def processRemoveChannel (proc : Proc) (channelId : Int) : Proc :=
  let r := removeCell (-1) proc.channelSlots proc.channelCount channelId
  { proc with channelSlots := r.1, channelCount := r.2 }

def channelRemoveWaiter (c : IpcChannel) (p : Pid) : IpcChannel :=
  let r := removeCell none c.waiters c.waiterCount (some p)
  { c with waiters := r.1, waiterCount := r.2 }

def channelRemoveSubscriber (c : IpcChannel) (p : Pid) : IpcChannel :=
  let r := removeCell none c.subscribers c.subscriberCount (some p)
  { c with subscribers := r.1, subscriberCount := r.2 }

def ipcChannelCreate (s : State) (flags : UInt32) : State × Int :=
  match (List.finRange configIpcMaxChannels).find? (fun i => !(s.channels i).used) with
  | none => (s, -1)
  | some i =>
    ({ s.setChannel i
        { s.channels i with
          used := true, id := s.nextChannelId, flags := flags, head := 0, tail := 0, count := 0
          waiterCount := 0, subscriberCount := 0 } with
        nextChannelId := s.nextChannelId + 1 },
      s.nextChannelId)

def ipcChannelJoin (s : State) (p : Pid) (channelId : Int) : State × Int :=
  match s.procs p with
  | none => (s, -1)
  | some proc =>
    match findChannel s channelId with
    | none => (s, -1)
    | some i =>
      match processAddChannel proc channelId with
      | none => (s, -1)
      | some joined =>
        let c := s.channels i
        if (findCell c.subscribers c.subscriberCount (some p)).isSome then
          (s.setProc p (some joined), 0)
        else if configIpcChannelSubscribers ≤ c.subscriberCount then
          (s.setProc p (some (processRemoveChannel joined channelId)), -1)
        else
          ((s.setProc p (some joined)).setChannel i
            { c with
              subscribers := update c.subscribers c.subscriberCount (some p)
              subscriberCount := c.subscriberCount + 1 }, 0)

def ipcChannelLeave (s : State) (p : Pid) (channelId : Int) : State × Int :=
  match s.procs p with
  | none => (s, -1)
  | some proc =>
    match findChannel s channelId with
    | none => (s, -1)
    | some i =>
      ((s.setProc p (some (processRemoveChannel proc channelId))).setChannel i
        (channelRemoveWaiter (channelRemoveSubscriber (s.channels i) p) p), 0)

def IpcChannel.push (c : IpcChannel) (slot : Slot) : IpcChannel :=
  { c with
    queue := update c.queue c.tail slot
    tail := (c.tail + 1) % configIpcChannelQueueLen
    count := c.count + 1 }

def IpcChannel.pop (c : IpcChannel) : IpcChannel :=
  { c with head := (c.head + 1) % configIpcChannelQueueLen, count := c.count - 1 }

def senderAllowed (s : State) (c : IpcChannel) (channelId : Int) (senderPid : Pid) : Bool :=
  if 0 < senderPid then
    match s.procs senderPid with
    | none => false
    | some proc => processHasChannel proc channelId || c.flags &&& ipcChannelFlagKernel != 0
  else true

def State.rouse (s : State) (p : Pid) : State :=
  match s.procs p with
  | none => s
  | some proc =>
    s.setProc p (some { proc with
      waitChannel := -1
      state := if proc.state = .waiting then .ready else proc.state })

def IpcChannel.dropWaiter (c : IpcChannel) : IpcChannel :=
  { c with
    waiters := update (shiftDown c.waiters 0 c.waiterCount) (c.waiterCount - 1) none
    waiterCount := c.waiterCount - 1 }

def ipcChannelSend (s : State) (channelId : Int) (senderPid : Pid) (header type : UInt32)
    (data : Option Buffer) (size : Nat) (flags : UInt32) : State × Int :=
  if configMsgDataMax < size then (s, -1)
  else
    match findChannel s channelId with
    | none => (s, -1)
    | some i =>
      let c := s.channels i
      if !senderAllowed s c channelId senderPid then (s, -1)
      else if configIpcChannelQueueLen ≤ c.count then (s, -1)
      else
        let old := c.queue c.tail
        let slot : Slot :=
          { header := header, type := type, size := size, flags := flags, senderPid := senderPid
            data := match data with
              | some src => fun k => if k < size then src k else old.data k
              | none => old.data }
        if 0 < c.waiterCount then
          match c.waiters 0 with
          | none => (s.setChannel i (c.push slot).dropWaiter, size)
          | some p => ((s.setChannel i (c.push slot).dropWaiter).rouse p, size)
        else (s.setChannel i (c.push slot), size)

def receivePass (s : State) (p : Pid) (proc : Proc) (i : Index) (call : ReceiveCall) : State × Outcome :=
  let c := s.channels i
  let free : Proc := { proc with state := .running, inside := none }
  if 0 < c.count then
    let slot := c.queue c.head
    ((s.setChannel i c.pop).setProc p (some { free with waitChannel := -1 }),
      .received slot.message (slot.deliver call))
  else if call.nonblock then (s.setProc p (some free), .empty)
  else
    let asleep : Proc := { proc with state := .waiting, inside := some (i, call) }
    if (findCell c.waiters c.waiterCount (some p)).isSome then (s.setProc p (some asleep), .blocked)
    else if configIpcChannelWaiters ≤ c.waiterCount then (s.setProc p (some free), .refused)
    else
      ((s.setChannel i
          { c with
            waiters := update c.waiters c.waiterCount (some p)
            waiterCount := c.waiterCount + 1 }).setProc p
        (some { asleep with waitChannel := call.channelId }), .blocked)

def ipcChannelReceive (s : State) (p : Pid) (proc : Proc) (call : ReceiveCall) : State × Outcome :=
  match findChannel s call.channelId with
  | none => (s, .refused)
  | some i =>
    if !(processHasChannel proc call.channelId || (s.channels i).flags &&& ipcChannelFlagKernel != 0) then
      (s, .refused)
    else receivePass s p proc i call

/-- The body of the loop of `ipc_process_cleanup` over the channel slots. -/
def channelDrop (p : Pid) (s : State) (channelId : Int) : State :=
  match findChannel s channelId with
  | none => s
  | some i => s.setChannel i (channelRemoveWaiter (channelRemoveSubscriber (s.channels i) p) p)

/-- What `process_exit` does to the channels and to the channel part of its process. -/
def processExit (s : State) (p : Pid) (proc : Proc) : State :=
  ((cells proc.channelSlots proc.channelCount).foldl (channelDrop p) s).setProc p
    (some { proc with
      channelSlots := fun _ => -1, channelCount := 0, waitChannel := -1, state := .zombie })

def reclaimZombie (s : State) (p : Pid) : State := s.setProc p none

end Arrays

/-! ## Leaving, on lists -/

def channelDrop (p : Pid) (s : State) (channelId : Int) : State :=
  match findChannel s channelId with
  | none => s
  | some i => s.setChannel i (channelRemoveWaiter (channelRemoveSubscriber (s.channels i) p) p)

def processExit (s : State) (p : Pid) (proc : Proc) : State :=
  (proc.channelSlots.foldl (channelDrop p) s).setProc p
    { proc with channelSlots := [], waitChannel := -1, state := .zombie }

def reclaimZombie (s : State) (p : Pid) : State := { s with procs := update s.procs p none }

/-! ## The arrays of a list model -/

def IpcChannel.arrays (c : IpcChannel) : Arrays.IpcChannel where
  used := c.used
  id := c.id
  flags := c.flags
  queue := c.queue
  head := c.head
  tail := c.tail
  count := c.count
  waiters := pad some none c.waiters
  waiterCount := c.waiters.length
  subscribers := pad some none c.subscribers
  subscriberCount := c.subscribers.length

def Proc.arrays (proc : Proc) : Arrays.Proc where
  state := proc.state
  channelSlots := pad id (-1) proc.channelSlots
  channelCount := proc.channelSlots.length
  waitChannel := proc.waitChannel
  inside := proc.inside

def State.arrays (s : State) : Arrays.State where
  channels := fun i => (s.channels i).arrays
  nextChannelId := s.nextChannelId
  procs := fun q => (s.procs q).map Proc.arrays

section Commute

variable {s : State} {p : Pid} {proc : Proc} {c : IpcChannel} {i : Index} {channelId : Int}

theorem setChannel_arrays (s : State) (i : Index) (c : IpcChannel) :
    (s.setChannel i c).arrays = s.arrays.setChannel i c.arrays := by
  simp only [State.arrays, State.setChannel, Arrays.State.setChannel, Arrays.State.mk.injEq, and_true]
  exact comp_update IpcChannel.arrays s.channels i c

theorem procs_arrays (s : State) (p : Pid) (o : Option Proc) :
    ({ s with procs := update s.procs p o } : State).arrays = s.arrays.setProc p (o.map Proc.arrays) := by
  simp only [State.arrays, Arrays.State.setProc, Arrays.State.mk.injEq, true_and]
  exact comp_update (Option.map Proc.arrays) s.procs p o

theorem arrays_procs (s : State) (p : Pid) : s.arrays.procs p = (s.procs p).map Proc.arrays := rfl

theorem arrays_channels (s : State) (i : Index) : s.arrays.channels i = (s.channels i).arrays := rfl

theorem setProc_arrays (s : State) (p : Pid) (proc : Proc) :
    (s.setProc p proc).arrays = s.arrays.setProc p (some proc.arrays) := procs_arrays s p (some proc)

theorem findChannel_arrays (s : State) (channelId : Int) :
    Arrays.findChannel s.arrays channelId = findChannel s channelId := rfl

theorem findCell_pointers (l : List Pid) (p : Pid) :
    (findCell (pad some none l) l.length (some p)).isSome = decide (p ∈ l) := by
  rw [findCell_pad (some_injective _)]
  by_cases h : p ∈ l <;> simp [h]

theorem processHasChannel_arrays :
    Arrays.processHasChannel proc.arrays channelId = processHasChannel proc channelId := by
  have hfind : findCell (pad id (-1) proc.channelSlots) proc.channelSlots.length (id channelId) = _ :=
    findCell_pad Function.injective_id
  rw [id_eq] at hfind
  unfold Arrays.processHasChannel processHasChannel Proc.arrays
  dsimp only
  rw [hfind]
  by_cases h : channelId ∈ proc.channelSlots <;> simp [h]

theorem processAddChannel_arrays :
    Arrays.processAddChannel proc.arrays channelId = (processAddChannel proc channelId).map Proc.arrays := by
  have hpush : update (pad id (-1) proc.channelSlots) proc.channelSlots.length (id channelId) =
      pad id (-1) (proc.channelSlots ++ [channelId]) := update_pad_length
  rw [id_eq] at hpush
  have hcount : proc.arrays.channelCount = proc.channelSlots.length := rfl
  unfold Arrays.processAddChannel processAddChannel
  rw [processHasChannel_arrays, hcount]
  split_ifs
  · rfl
  · rfl
  · simp only [Proc.arrays, map_some, hpush, length_append, length_singleton]

theorem processRemoveChannel_arrays :
    Arrays.processRemoveChannel proc.arrays channelId = (processRemoveChannel proc channelId).arrays := by
  have hremove : removeCell (-1) (pad id (-1) proc.channelSlots) proc.channelSlots.length (id channelId) =
      _ := removeCell_pad Function.injective_id
  rw [id_eq] at hremove
  simp only [Arrays.processRemoveChannel, processRemoveChannel, Proc.arrays, hremove]

theorem channelRemoveWaiter_arrays : Arrays.channelRemoveWaiter c.arrays p = (channelRemoveWaiter c p).arrays := by
  simp only [Arrays.channelRemoveWaiter, channelRemoveWaiter, IpcChannel.arrays,
    removeCell_pad (some_injective _)]

theorem channelRemoveSubscriber_arrays :
    Arrays.channelRemoveSubscriber c.arrays p = (channelRemoveSubscriber c p).arrays := by
  simp only [Arrays.channelRemoveSubscriber, channelRemoveSubscriber, IpcChannel.arrays,
    removeCell_pad (some_injective _)]

/-- A channel that was never created has blank arrays, so resetting the counts empties it. -/
theorem ipcChannelCreate_arrays (flags : UInt32)
    (hidle : ∀ i, (s.channels i).used = false → (s.channels i).waiters = [] ∧ (s.channels i).subscribers = []) :
    Arrays.ipcChannelCreate s.arrays flags = ((ipcChannelCreate s flags).1.arrays, (ipcChannelCreate s flags).2) := by
  have hfind : (List.finRange configIpcMaxChannels).find? (fun i => !(s.arrays.channels i).used) =
      (List.finRange configIpcMaxChannels).find? (fun i => !(s.channels i).used) := rfl
  unfold Arrays.ipcChannelCreate ipcChannelCreate
  rw [hfind]
  cases hf : (List.finRange configIpcMaxChannels).find? (fun i => !(s.channels i).used) with
  | none => rfl
  | some i =>
    have hfree := find?_some hf
    obtain ⟨hw, hs⟩ := hidle i (by simpa using hfree)
    have hblank : ({ (s.arrays.channels i) with
          used := true, id := s.nextChannelId, flags := flags, head := 0, tail := 0, count := 0
          waiterCount := 0, subscriberCount := 0 } : Arrays.IpcChannel) =
        ({ s.channels i with
          used := true, id := s.nextChannelId, flags := flags, head := 0, tail := 0, count := 0
          waiters := [], subscribers := [] } : IpcChannel).arrays := by
      simp only [State.arrays, IpcChannel.arrays, hw, hs, length_nil]
    have hset := setChannel_arrays s i
      { s.channels i with
        used := true, id := s.nextChannelId, flags := flags, head := 0, tail := 0, count := 0
        waiters := [], subscribers := [] }
    rw [← hblank] at hset
    refine Prod.ext ?_ rfl
    exact (congrArg (fun t : Arrays.State => { t with nextChannelId := s.nextChannelId + 1 }) hset).symm

theorem ipcChannelJoin_arrays (s : State) (p : Pid) (channelId : Int) :
    Arrays.ipcChannelJoin s.arrays p channelId =
      ((ipcChannelJoin s p channelId).1.arrays, (ipcChannelJoin s p channelId).2) := by
  unfold Arrays.ipcChannelJoin ipcChannelJoin
  rw [arrays_procs]
  cases hp : s.procs p with
  | none => rfl
  | some proc =>
    simp only [map_some, findChannel_arrays]
    cases hf : findChannel s channelId with
    | none => rfl
    | some i =>
      simp only [processAddChannel_arrays]
      cases ha : processAddChannel proc channelId with
      | none => rfl
      | some joined =>
        have hcount : (s.channels i).arrays.subscriberCount = (s.channels i).subscribers.length := rfl
        have hmem : (findCell (s.channels i).arrays.subscribers (s.channels i).subscribers.length
            (some p)).isSome = decide (p ∈ (s.channels i).subscribers) := findCell_pointers _ _
        simp only [map_some, arrays_channels, hcount, hmem, decide_eq_true_eq]
        split_ifs
        · rw [setProc_arrays]
        · rw [setProc_arrays, processRemoveChannel_arrays]
        · have hpush : update (s.channels i).arrays.subscribers
              (s.channels i).subscribers.length (some p) =
                pad some none ((s.channels i).subscribers ++ [p]) := update_pad_length
          rw [setChannel_arrays, setProc_arrays, hpush]
          simp only [IpcChannel.arrays, length_append, length_singleton]

theorem ipcChannelLeave_arrays (s : State) (p : Pid) (channelId : Int) :
    Arrays.ipcChannelLeave s.arrays p channelId =
      ((ipcChannelLeave s p channelId).1.arrays, (ipcChannelLeave s p channelId).2) := by
  unfold Arrays.ipcChannelLeave ipcChannelLeave
  rw [arrays_procs]
  cases hp : s.procs p with
  | none => rfl
  | some proc =>
    simp only [map_some, findChannel_arrays]
    cases hf : findChannel s channelId with
    | none => rfl
    | some i =>
      simp only [setChannel_arrays, setProc_arrays, arrays_channels, processRemoveChannel_arrays,
        channelRemoveSubscriber_arrays, channelRemoveWaiter_arrays]

theorem rouse_arrays (s : State) (p : Pid) : s.arrays.rouse p = (s.rouse p).arrays := by
  unfold Arrays.State.rouse State.rouse
  rw [arrays_procs]
  cases hp : s.procs p with
  | none => rfl
  | some proc =>
    simp only [map_some, setProc_arrays]
    rfl

theorem senderAllowed_arrays (s : State) (c : IpcChannel) (channelId : Int) (senderPid : Pid) :
    Arrays.senderAllowed s.arrays c.arrays channelId senderPid = senderAllowed s c channelId senderPid := by
  unfold Arrays.senderAllowed senderAllowed
  rw [arrays_procs]
  cases hp : s.procs senderPid with
  | none => rfl
  | some proc =>
    simp only [map_some, processHasChannel_arrays]
    rfl

theorem dropWaiter_arrays {q : Pid} {rest : List Pid} (h : c.waiters = q :: rest) :
    c.arrays.dropWaiter = ({ c with waiters := rest } : IpcChannel).arrays := by
  have hshift : update (shiftDown (pad some none (q :: rest)) 0 (q :: rest).length)
      ((q :: rest).length - 1) none = pad some none ((q :: rest).eraseIdx 0) :=
    update_shiftDown_pad (by simp)
  simp only [eraseIdx_cons_zero, length_cons, Nat.add_sub_cancel] at hshift
  simp only [Arrays.IpcChannel.dropWaiter, IpcChannel.arrays, h, hshift, length_cons,
    Nat.add_sub_cancel]

theorem ipcChannelSend_arrays (s : State) (channelId : Int) (senderPid : Pid) (header type : UInt32)
    (data : Option Buffer) (size : Nat) (flags : UInt32) :
    Arrays.ipcChannelSend s.arrays channelId senderPid header type data size flags =
      ((ipcChannelSend s channelId senderPid header type data size flags).1.arrays,
        (ipcChannelSend s channelId senderPid header type data size flags).2) := by
  unfold Arrays.ipcChannelSend ipcChannelSend
  by_cases hsize : configMsgDataMax < size
  · rw [if_pos hsize, if_pos hsize]
  rw [if_neg hsize, if_neg hsize, findChannel_arrays]
  cases hf : findChannel s channelId with
  | none => rfl
  | some i =>
    have hc := arrays_channels s i
    have hcount : (s.channels i).arrays.count = (s.channels i).count := rfl
    simp only [hc, senderAllowed_arrays, hcount]
    split_ifs with hallowed hfull hwait
    · rfl
    · rfl
    · -- the first waiter is taken off its array
      have hlen : 0 < (s.channels i).waiters.length := hwait
      obtain ⟨q, rest, hw⟩ := exists_cons_of_length_pos hlen
      have hfirst : (s.channels i).arrays.waiters 0 = some q := by
        show pad some none (s.channels i).waiters 0 = some q
        rw [hw]
        rfl
      simp only [hfirst, hw]
      refine Prod.ext ?_ rfl
      dsimp only
      rw [← rouse_arrays, setChannel_arrays]
      congr 2
      exact dropWaiter_arrays (c := (s.channels i).push _) (q := q) hw
    · have hw : (s.channels i).waiters = [] := by
        have hlen : ¬0 < (s.channels i).waiters.length := hwait
        exact length_eq_zero_iff.mp (by omega)
      simp only [hw]
      refine Prod.ext ?_ rfl
      dsimp only
      rw [setChannel_arrays]
      rfl

theorem receivePass_arrays (s : State) (p : Pid) (proc : Proc) (i : Index) (call : ReceiveCall) :
    Arrays.receivePass s.arrays p proc.arrays i call =
      ((receivePass s p proc i call).1.arrays, (receivePass s p proc i call).2) := by
  have hcount : (s.channels i).arrays.count = (s.channels i).count := rfl
  have hwaiters : (s.channels i).arrays.waiterCount = (s.channels i).waiters.length := rfl
  have hmem : (findCell (s.channels i).arrays.waiters (s.channels i).waiters.length
      (some p)).isSome = decide (p ∈ (s.channels i).waiters) := findCell_pointers _ _
  unfold Arrays.receivePass receivePass
  simp only [arrays_channels, hcount, hwaiters, hmem, decide_eq_true_eq]
  split_ifs
  · refine Prod.ext ?_ rfl
    dsimp only
    rw [setProc_arrays, setChannel_arrays]
    rfl
  · rw [setProc_arrays]
    rfl
  · rw [setProc_arrays]
    rfl
  · rw [setProc_arrays]
    rfl
  · have hpush : update (s.channels i).arrays.waiters (s.channels i).waiters.length (some p) =
        pad some none ((s.channels i).waiters ++ [p]) := update_pad_length
    refine Prod.ext ?_ rfl
    dsimp only
    rw [setProc_arrays, setChannel_arrays, hpush]
    simp only [IpcChannel.arrays, length_append, length_singleton]
    rfl

theorem ipcChannelReceive_arrays (s : State) (p : Pid) (proc : Proc) (call : ReceiveCall) :
    Arrays.ipcChannelReceive s.arrays p proc.arrays call =
      ((ipcChannelReceive s p proc call).1.arrays, (ipcChannelReceive s p proc call).2) := by
  unfold Arrays.ipcChannelReceive ipcChannelReceive
  rw [findChannel_arrays]
  cases hf : findChannel s call.channelId with
  | none => rfl
  | some i =>
    have hflags : (s.arrays.channels i).flags = (s.channels i).flags := rfl
    simp only [processHasChannel_arrays, hflags]
    split_ifs
    · rfl
    · exact receivePass_arrays s p proc i call

theorem channelDrop_arrays (p : Pid) (s : State) (channelId : Int) :
    Arrays.channelDrop p s.arrays channelId = (channelDrop p s channelId).arrays := by
  unfold Arrays.channelDrop channelDrop
  rw [findChannel_arrays]
  cases hf : findChannel s channelId with
  | none => rfl
  | some i =>
    simp only [setChannel_arrays, arrays_channels, channelRemoveSubscriber_arrays, channelRemoveWaiter_arrays]

theorem foldl_channelDrop_arrays (p : Pid) (l : List Int) (s : State) :
    l.foldl (Arrays.channelDrop p) s.arrays = (l.foldl (channelDrop p) s).arrays := by
  induction l generalizing s with
  | nil => rfl
  | cons channelId l ih =>
    rw [foldl_cons, foldl_cons, channelDrop_arrays]
    exact ih _

theorem cells_pad (l : List Int) : cells (pad id (-1) l) l.length = l := by
  apply ext_getElem
  · simp
  · intro j h₁ h₂
    rw [getElem_cells, pad_lt h₂]
    rfl

theorem processExit_arrays (s : State) (p : Pid) (proc : Proc) :
    Arrays.processExit s.arrays p proc.arrays = (processExit s p proc).arrays := by
  have hcells : cells proc.arrays.channelSlots proc.arrays.channelCount = proc.channelSlots :=
    cells_pad proc.channelSlots
  unfold Arrays.processExit processExit
  rw [hcells, foldl_channelDrop_arrays, setProc_arrays]
  simp only [Proc.arrays, pad_nil, length_nil]

end Commute

/-! ## Both machines -/

/-- The calls of the model, and processes that leave. -/
inductive Act
  | call (a : Action)
  | exit (p : Pid)
  | reclaim (p : Pid)

def performAct (s : State) : Act → Option (Event × State)
  | .call a => perform s a
  | .exit p =>
    match s.procs p with
    | none => none
    | some proc => if proc.Free then some (.quiet, processExit s p proc) else none
  | .reclaim p =>
    match s.procs p with
    | none => none
    | some proc => if proc.state = .zombie then some (.quiet, reclaimZombie s p) else none

namespace Arrays

def Proc.Free (proc : Proc) : Prop := proc.inside = none ∧ proc.state = .running

instance (proc : Proc) : Decidable proc.Free :=
  inferInstanceAs (Decidable (proc.inside = none ∧ proc.state = .running))

def perform (s : State) : Act → Option (Event × State)
  | .call (.attach p) =>
    if 0 < p ∧ (s.procs p).isNone then
      some (.quiet, s.setProc p (some ⟨.running, fun _ => -1, 0, -1, none⟩))
    else none
  | .call (.create flags) => some (.quiet, (ipcChannelCreate s flags).1)
  | .call (.join p channelId) =>
    match s.procs p with
    | none => none
    | some proc => if proc.Free then some (.quiet, (ipcChannelJoin s p channelId).1) else none
  | .call (.leave p channelId) =>
    match s.procs p with
    | none => none
    | some proc => if proc.Free then some (.quiet, (ipcChannelLeave s p channelId).1) else none
  | .call (.send channelId senderPid header type payload size flags) =>
    let r := ipcChannelSend s channelId senderPid header type (some payload) size flags
    some (.sent channelId ⟨header, type, senderPid, size, cells payload size⟩ r.2, r.1)
  | .call (.receive p call) =>
    match s.procs p with
    | none => none
    | some proc =>
      if proc.Free then
        let r := ipcChannelReceive s p proc call
        some (.receive p call r.2, r.1)
      else none
  | .call (.resume p) =>
    match s.procs p with
    | none => none
    | some proc =>
      match proc.inside with
      | some (i, call) =>
        if proc.state = .ready then
          let r := receivePass s p proc i call
          some (.receive p call r.2, r.1)
        else none
      | none => none
  | .exit p =>
    match s.procs p with
    | none => none
    | some proc => if proc.Free then some (.quiet, processExit s p proc) else none
  | .reclaim p =>
    match s.procs p with
    | none => none
    | some proc => if proc.state = .zombie then some (.quiet, reclaimZombie s p) else none

abbrev Step : State → Event → State → Prop := Performs perform

def ipcSystemInit (memory : Index → IpcChannel) : State where
  channels := fun i =>
    { memory i with
      used := false, id := 0, flags := 0, head := 0, tail := 0, count := 0
      waiters := fun _ => none, waiterCount := 0, subscribers := fun _ => none, subscriberCount := 0 }
  nextChannelId := 1
  procs := fun _ => none

end Arrays

/-- The list of a state reads a channel that is not in use as empty. -/
def State.Idle (s : State) : Prop :=
  ∀ i, (s.channels i).used = false → (s.channels i).waiters = [] ∧ (s.channels i).subscribers = []

theorem free_arrays (proc : Proc) : proc.arrays.Free ↔ proc.Free := Iff.rfl

theorem state_arrays (proc : Proc) : proc.arrays.state = proc.state := rfl

/-- The machine on arrays does what the machine on lists does. -/
theorem perform_arrays {s : State} (hidle : s.Idle) (x : Act) :
    Arrays.perform s.arrays x = (performAct s x).map (fun r => (r.1, r.2.arrays)) := by
  cases x with
  | call a =>
    cases a with
    | attach p =>
      have hfresh : (⟨.running, fun _ => -1, 0, -1, none⟩ : Arrays.Proc) =
          (⟨.running, [], -1, none⟩ : Proc).arrays := by
        simp only [Proc.arrays, pad_nil, length_nil]
      simp only [Arrays.perform, performAct, perform, arrays_procs, isNone_map, hfresh]
      split_ifs
      · rw [map_some, setProc_arrays]
      · rfl
    | create flags =>
      simp only [Arrays.perform, performAct, perform, ipcChannelCreate_arrays flags hidle, map_some]
    | join p channelId =>
      simp only [Arrays.perform, performAct, perform, arrays_procs]
      cases hp : s.procs p with
      | none => rfl
      | some proc =>
        simp only [map_some, free_arrays, ipcChannelJoin_arrays]
        split_ifs <;> rfl
    | leave p channelId =>
      simp only [Arrays.perform, performAct, perform, arrays_procs]
      cases hp : s.procs p with
      | none => rfl
      | some proc =>
        simp only [map_some, free_arrays, ipcChannelLeave_arrays]
        split_ifs <;> rfl
    | send channelId senderPid header type payload size flags =>
      simp only [Arrays.perform, performAct, perform, ipcChannelSend_arrays, map_some]
    | receive p call =>
      simp only [Arrays.perform, performAct, perform, arrays_procs]
      cases hp : s.procs p with
      | none => rfl
      | some proc =>
        simp only [map_some, free_arrays, ipcChannelReceive_arrays]
        split_ifs <;> rfl
    | resume p =>
      simp only [Arrays.perform, performAct, perform, arrays_procs]
      cases hp : s.procs p with
      | none => rfl
      | some proc =>
        have hinside : proc.arrays.inside = proc.inside := rfl
        simp only [map_some, hinside, state_arrays]
        cases hin : proc.inside with
        | none => rfl
        | some x =>
          obtain ⟨i, call⟩ := x
          simp only [receivePass_arrays]
          split_ifs <;> rfl
  | exit p =>
    simp only [Arrays.perform, performAct, arrays_procs]
    cases hp : s.procs p with
    | none => rfl
    | some proc =>
      simp only [map_some, free_arrays, processExit_arrays]
      split_ifs <;> rfl
  | reclaim p =>
    simp only [Arrays.perform, performAct, arrays_procs]
    cases hp : s.procs p with
    | none => rfl
    | some proc =>
      have hremove : Arrays.reclaimZombie s.arrays p = (reclaimZombie s p).arrays :=
        (procs_arrays s p none).symm
      simp only [map_some, state_arrays, hremove]
      split_ifs <;> rfl

end ProOS.Channel
