import ProOS.Framework.RingBuffer
import ProOS.Framework.Service

/-! Raw sockets (`net_socket.c`): each open one is a queue of the frames that its device has received. -/

namespace ProOS.Net

open ProOS.Framework Function

def netSocketCapacity : Nat := 4
def netSocketQueue : Nat := 8
def netSocketFrameMax : Nat := 1600
abbrev Frame := List UInt8

structure RawSocket where
  used : Bool
  device : Option Nat
  head : Nat
  tail : Nat
  count : Nat
  packets : Nat → Frame

abbrev Sockets := Fin netSocketCapacity → RawSocket

/-- The calls; a null pointer is `none`, or `false` where only its being null matters. For `net_open` the device is what
`net_get_device(0)` returns. -/
inductive SocketCall
  | netOpen (device : Option Nat)
  | netClose (handle : Int)
  | netRecv (handle : Int) (buf : Bool) (max : Nat)
  | notifyFrame (device : Option Nat) (frame : Option Frame)
deriving DecidableEq, Repr

def resolveSocket (used : Fin netSocketCapacity → Bool) (handle : Int) : Option (Fin netSocketCapacity) :=
  if h : 0 < handle ∧ (handle - 1).toNat < netSocketCapacity then
    if used ⟨(handle - 1).toNat, h.2⟩ then some ⟨(handle - 1).toNat, h.2⟩ else none
  else none

def netOpen (s : Sockets) (device : Option Nat) : Sockets × Int × Frame :=
  match device, (List.finRange netSocketCapacity).find? (fun i => !(s i).used) with
  | some dev, some i =>
    (update s i { s i with used := true, device := some dev, head := 0, tail := 0, count := 0 }, i.val + 1, [])
  | _, _ => (s, -1, [])

def dropOldest (sock : RawSocket) : RawSocket := { sock with head := (sock.head + 1) % netSocketQueue, count := sock.count - 1 }

/-- The result and the bytes that are left in the buffer. -/
def netRecv (s : Sockets) (handle : Int) (buf : Bool) (max : Nat) : Sockets × Int × Frame :=
  match resolveSocket (fun i => (s i).used) handle with
  | none => (s, -1, [])
  | some i =>
    if buf = false ∨ max = 0 then (s, -1, [])
    else if (s i).count = 0 then (s, 0, [])
    else
      let packet := (s i).packets (s i).head
      let s' := update s i (dropOldest (s i))
      if max < packet.length then (s', -1, []) else (s', packet.length, packet)

def netClose (s : Sockets) (handle : Int) : Sockets × Int × Frame :=
  match resolveSocket (fun i => (s i).used) handle with
  | none => (s, -1, [])
  | some i => (update s i { s i with used := false, device := none, head := 0, tail := 0, count := 0 }, 0, [])

def putPacket (sock : RawSocket) (frame : Frame) : RawSocket :=
  { sock with
    packets := update sock.packets sock.tail frame
    tail := (sock.tail + 1) % netSocketQueue
    count := sock.count + 1 }

def queuePacket (sock : RawSocket) (frame : Frame) : RawSocket :=
  putPacket (if sock.count = netSocketQueue then dropOldest sock else sock) frame

def netSocketNotifyFrame (s : Sockets) (device : Option Nat) (frame : Option Frame) : Sockets :=
  match device, frame with
  | some dev, some frame =>
    if frame.length = 0 then s
    else fun i => if (s i).used = false ∨ (s i).device ≠ some dev then s i else queuePacket (s i) (frame.take netSocketFrameMax)
  | _, _ => s

def socketStep (s : Sockets) : SocketCall → Sockets × Int × Frame
  | .netOpen device => netOpen s device
  | .netClose handle => netClose s handle
  | .netRecv handle buf max => netRecv s handle buf max
  | .notifyFrame device frame => (netSocketNotifyFrame s device frame, 0, [])

/-- `net_socket_system_init`, over whatever the packets hold. -/
def netSocketSystemInit (packets : Fin netSocketCapacity → Nat → Frame) : Sockets := fun i => ⟨false, none, 0, 0, 0, packets i⟩

/-! ## The queues -/

/-- Each open socket has a device and the frames that wait for it, oldest first. -/
abbrev Queues := Fin netSocketCapacity → Option (Option Nat × List Frame)

/-- What a receiver with room for `max` bytes is given of a queue. -/
def takeFrame (max : Nat) : List Frame → List Frame × Int × Frame
  | [] => ([], 0, [])
  | frame :: rest => (rest, if max < frame.length then (-1, []) else (frame.length, frame))

def queueStep (q : Queues) : SocketCall → Queues × Int × Frame
  | .netOpen device =>
    match device, (List.finRange netSocketCapacity).find? (fun i => !(q i).isSome) with
    | some dev, some i => (update q i (some (some dev, [])), i.val + 1, [])
    | _, _ => (q, -1, [])
  | .netClose handle =>
    match resolveSocket (fun i => (q i).isSome) handle with
    | none => (q, -1, [])
    | some i => (update q i none, 0, [])
  | .netRecv handle buf max =>
    match (resolveSocket (fun i => (q i).isSome) handle).bind (fun i => (q i).map (fun e => (i, e))) with
    | none => (q, -1, [])
    | some (i, device, frames) =>
      if buf = false ∨ max = 0 then (q, -1, [])
      else (update q i (some (device, (takeFrame max frames).1)), (takeFrame max frames).2)
  | .notifyFrame device frame =>
    match device, frame with
    | some dev, some frame =>
      (fun i => (q i).map (fun e =>
        (e.1, if e.1 = some dev ∧ frame ≠ [] then newest netSocketQueue (e.2 ++ [frame.take netSocketFrameMax]) else e.2)), 0, [])
    | _, _ => (q, 0, [])

def RawSocket.queue (sock : RawSocket) : List Frame := ring sock.packets netSocketQueue sock.head sock.count

def RawSocket.view (sock : RawSocket) : Option (Option Nat × List Frame) :=
  if sock.used then some (sock.device, sock.queue) else none

structure RawSocket.Sound (sock : RawSocket) : Prop where
  head : sock.head < netSocketQueue
  tail : sock.tail = (sock.head + sock.count) % netSocketQueue
  count : sock.count ≤ netSocketQueue

variable {sock : RawSocket} {s : Sockets} {i : Fin netSocketCapacity}

theorem RawSocket.isSome_view (sock : RawSocket) : sock.view.isSome = sock.used := by
  cases h : sock.used <;> simp [RawSocket.view, h]

theorem RawSocket.Sound.empty {used : Bool} {device : Option Nat} {packets : Nat → Frame} :
    (RawSocket.mk used device 0 0 0 packets).Sound := ⟨Nat.zero_lt_succ 7, rfl, Nat.zero_le 8⟩

theorem RawSocket.Sound.dropOldest (h : sock.Sound) (hc : sock.count ≠ 0) : (dropOldest sock).Sound := by
  obtain ⟨hhead, htail, hcount⟩ := h
  refine ⟨Nat.mod_lt _ (by decide), ?_, ?_⟩
  · simp only [Net.dropOldest, htail, Nat.mod_add_mod]
    congr 1
    omega
  · exact le_trans (Nat.sub_le _ _) hcount

theorem RawSocket.Sound.queue_eq (h : sock.Sound) (hc : sock.count ≠ 0) :
    sock.queue = sock.packets sock.head :: (Net.dropOldest sock).queue := by
  obtain ⟨n, hn⟩ := Nat.exists_eq_succ_of_ne_zero hc
  simp only [RawSocket.queue, Net.dropOldest, hn, Nat.succ_eq_add_one, Nat.add_sub_cancel]
  exact ring_pop _ h.head n

theorem RawSocket.Sound.queuePacket (h : sock.Sound) (frame : Frame) :
    (queuePacket sock frame).Sound ∧ (queuePacket sock frame).queue = newest netSocketQueue (sock.queue ++ [frame]) := by
  have hpush := ring_push_newest sock.packets h.head h.count frame
  rw [← h.tail] at hpush
  by_cases hfull : sock.count = netSocketQueue
  · have hc : sock.count ≠ 0 := by rw [hfull]; decide
    obtain ⟨hhead, htail, -⟩ := h.dropOldest hc
    rw [if_pos hfull, if_pos hfull] at hpush
    simp only [Net.queuePacket, if_pos hfull, putPacket]
    refine ⟨⟨hhead, ?_, ?_⟩, ?_⟩
    · rw [htail, Nat.mod_add_mod, Nat.add_assoc]
    · simp [Net.dropOldest, hfull]
      decide
    · refine Eq.trans ?_ hpush
      simp [RawSocket.queue, Net.dropOldest, Nat.sub_add_cancel (Nat.pos_of_ne_zero hc)]
  · rw [if_neg hfull, if_neg hfull] at hpush
    simp only [Net.queuePacket, if_neg hfull, putPacket]
    exact ⟨⟨h.head, by simp only [h.tail, Nat.mod_add_mod, Nat.add_assoc], lt_of_le_of_ne h.count hfull⟩, hpush⟩

theorem queuePacket_used (sock : RawSocket) (frame : Frame) : (queuePacket sock frame).used = sock.used := by
  unfold queuePacket
  split_ifs <;> rfl

theorem queuePacket_device (sock : RawSocket) (frame : Frame) : (queuePacket sock frame).device = sock.device := by
  unfold queuePacket
  split_ifs <;> rfl

/-! ## The sockets are such queues -/

def Sockets.queues (s : Sockets) : Queues := RawSocket.view ∘ s

theorem queues_update (s : Sockets) (i : Fin netSocketCapacity) (sock : RawSocket) :
    Sockets.queues (update s i sock) = update s.queues i sock.view := Function.comp_update _ _ _ _

theorem isSome_queues (s : Sockets) : (fun i => (s.queues i).isSome) = fun i => (s i).used := by
  funext i
  exact (s i).isSome_view

theorem used_of_resolveSocket {used : Fin netSocketCapacity → Bool} {handle : Int} (h : resolveSocket used handle = some i) :
    used i = true := by
  unfold resolveSocket at h
  split_ifs at h with _ hused
  rwa [← Option.some.inj h]

theorem sound_update (h : ∀ j, (s j).Sound) (hsock : sock.Sound) (j : Fin netSocketCapacity) : (update s i sock j).Sound := by
  by_cases hj : j = i
  · rw [hj, update_self]
    exact hsock
  · rw [update_of_ne hj]
    exact h j

theorem sockets_refine_step (s : Sockets) (call : SocketCall) (h : ∀ i, (s i).Sound) :
    (∀ i, ((socketStep s call).1 i).Sound) ∧ queueStep s.queues call = ((socketStep s call).1.queues, (socketStep s call).2) := by
  have hused := isSome_queues s
  cases call with
  | netOpen device =>
    have hfind : (fun i => !(s.queues i).isSome) = fun i => !(s i).used := by simpa using congrArg (fun f i => !f i) hused
    simp only [socketStep, queueStep, netOpen, hfind]
    rcases device with _ | dev
    · exact ⟨h, rfl⟩
    cases (List.finRange netSocketCapacity).find? (fun i => !(s i).used) with
    | none => exact ⟨h, rfl⟩
    | some i => exact ⟨sound_update h .empty, by rw [queues_update]; rfl⟩
  | netClose handle =>
    simp only [socketStep, queueStep, netClose, hused]
    cases resolveSocket (fun i => (s i).used) handle with
    | none => exact ⟨h, rfl⟩
    | some i => exact ⟨sound_update h .empty, by rw [queues_update]; rfl⟩
  | netRecv handle buf max =>
    simp only [socketStep, queueStep, netRecv, hused]
    cases hr : resolveSocket (fun i => (s i).used) handle with
    | none => exact ⟨h, rfl⟩
    | some i =>
      have hview : s.queues i = some ((s i).device, (s i).queue) := if_pos (used_of_resolveSocket hr)
      simp only [Option.bind_some, hview, Option.map_some]
      by_cases hbuf : buf = false ∨ max = 0
      · simp only [hbuf, if_true]
        exact ⟨h, trivial⟩
      simp only [hbuf, if_false]
      by_cases hcount : (s i).count = 0
      · have hempty : (s i).queue = [] := by simp [RawSocket.queue, hcount]
        rw [if_pos hcount, hempty, takeFrame, ← hempty, ← hview, update_eq_self]
        exact ⟨h, rfl⟩
      · have hdrop : (dropOldest (s i)).view = some ((s i).device, (dropOldest (s i)).queue) :=
          if_pos (used_of_resolveSocket hr)
        rw [if_neg hcount, (h i).queue_eq hcount, takeFrame]
        dsimp only
        rw [← hdrop, ← queues_update]
        have hsound : ∀ j, (update s i (dropOldest (s i)) j).Sound := sound_update h ((h i).dropOldest hcount)
        split_ifs <;> exact ⟨hsound, rfl⟩
  | notifyFrame device frame =>
    rcases device with _ | dev
    · exact ⟨h, rfl⟩
    rcases frame with _ | frame
    · exact ⟨h, rfl⟩
    have hview (i) : (netSocketNotifyFrame s (some dev) (some frame) i).Sound ∧
        (s i).view.map (fun e => (e.1, if e.1 = some dev ∧ frame ≠ [] then
          newest netSocketQueue (e.2 ++ [frame.take netSocketFrameMax]) else e.2)) =
        (netSocketNotifyFrame s (some dev) (some frame) i).view := by
      obtain ⟨hsound, hqueue⟩ := (h i).queuePacket (frame.take netSocketFrameMax)
      have hframe : frame.length = 0 ↔ frame = [] := List.length_eq_zero_iff
      simp only [netSocketNotifyFrame, hframe]
      by_cases hf : frame = []
      · simp [hf, h i]
      by_cases hu : (s i).used = true
      · by_cases hd : (s i).device = some dev
        · simp [RawSocket.view, queuePacket_used, queuePacket_device, hf, hu, hd, hsound, hqueue]
        · simp [RawSocket.view, hf, hu, hd, h i]
      · simp [RawSocket.view, hf, hu, h i]
    exact ⟨fun i => (hview i).1, Prod.ext (funext fun i => (hview i).2) rfl⟩

/-- Whatever the calls, they are answered as by queues of the frames that have arrived since each socket was opened, of which
the 8 newest are kept. -/
theorem sockets_are_queues (packets : Fin netSocketCapacity → Nat → Frame) (calls : List SocketCall) :
    (serve socketStep (netSocketSystemInit packets) calls).2 = (serve queueStep (fun _ => none) calls).2 := by
  have hrefines : Refines socketStep queueStep (fun s => ∀ i, (s i).Sound) Sockets.queues :=
    ⟨fun s call h => (sockets_refine_step s call h).1, fun s call h => (sockets_refine_step s call h).2⟩
  have hrun := (hrefines.serve (s := netSocketSystemInit packets) (fun i => .empty) calls).2
  exact (congrArg Prod.snd hrun).symm

end ProOS.Net
