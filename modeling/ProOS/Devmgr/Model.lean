import ProOS.Kernel.Types
import ProOS.Framework.Exec
import ProOS.Framework.ParentTree

/-! The device tree (`devmgr.c`). Pointers to a `device_node` are positions of `device_table`. -/

namespace ProOS.Devmgr

open ProOS.Framework

def devmgrMaxDevices : Nat := 32
def devmgrNameMax : Nat := 32
def devmgrTypeMax : Nat := 32
def vfsInlineCap : Nat := 8192

instance : NeZero devmgrMaxDevices := ⟨by decide⟩

abbrev Slot := Fin devmgrMaxDevices

/-- `struct device_ops`: what `start` returns, if there is one. The functions do not call back into the manager, and the
other ones have no part in the tree. -/
structure DeviceOps where
  start : Option Int
  deriving DecidableEq, Repr

structure DeviceNode where
  id : UInt32
  name : Str
  type : Str
  flags : UInt32
  parent : Option Slot
  ops : Option DeviceOps
  deriving DecidableEq, Repr

structure DeviceEntry where
  used : Bool
  node : DeviceNode
  deriving DecidableEq, Repr

/-- `device_table`, `device_count`, `next_device_id` and `root_device`. -/
structure State where
  table : Slot → DeviceEntry
  deviceCount : Nat
  nextDeviceId : UInt32
  rootDevice : Option Slot

/-- `struct device_descriptor`; `none` is `NULL`. -/
structure Descriptor where
  name : Option Str
  type : Option Str
  parent : Option Str
  ops : Option DeviceOps
  flags : UInt32
  deriving DecidableEq, Repr

def flagPublish : UInt32 := 1
def flagInternal : UInt32 := 2

/-- A slot after `devmgr_init` or `release_slot`. -/
def DeviceEntry.empty : DeviceEntry := ⟨false, ⟨0, [], [], 0, none, none⟩⟩

def State.put (s : State) (i : Slot) (node : DeviceNode) : State :=
  { s with table := Function.update s.table i ⟨true, node⟩ }

def State.parentOf (s : State) (i : Slot) : Option Slot := (s.table i).node.parent

def findDeviceByName (s : State) (name : Str) : Option Slot :=
  (List.finRange devmgrMaxDevices).find? (fun i => (s.table i).used && (s.table i).node.name == name)

def freeDevice (s : State) : Option Slot := (List.finRange devmgrMaxDevices).find? (fun i => !(s.table i).used)

def allocateSlot (s : State) : Option (State × Slot) :=
  (freeDevice s).map fun i => ({ s.put i (s.table i).node with deviceCount := s.deviceCount + 1 }, i)

def releaseSlot (s : State) (i : Slot) : State :=
  if !(s.table i).used then s
  else { s with table := Function.update s.table i .empty, deviceCount := s.deviceCount - 1 }

def detachChildren (s : State) (oldParent : Slot) (newParent : Option Slot) : State :=
  { s with table := fun i =>
      if (s.table i).used && (s.table i).node.parent == some oldParent then
        ⟨true, { (s.table i).node with parent := newParent }⟩
      else s.table i }

/-- `str_copy` into an array of `capacity` bytes. -/
def strCopy (capacity : Nat) (src : Str) : Str := src.take (capacity - 1)

def createInternalDevice (s : State) (name type : Str) (parent : Option Slot) : State :=
  match allocateSlot s with
  | none => s
  | some (s, i) =>
    { s.put i ⟨s.nextDeviceId, strCopy devmgrNameMax name, strCopy devmgrTypeMax type, flagInternal,
        parent.or s.rootDevice, none⟩ with nextDeviceId := s.nextDeviceId + 1 }

/-- The slot that `devmgr_register_device` fills in, its parent still to come. -/
def newNode (s : State) (desc : Descriptor) (name type : Str) : DeviceNode where
  id := s.nextDeviceId
  name := strCopy devmgrNameMax name
  type := strCopy devmgrTypeMax type
  flags := desc.flags
  parent := none
  ops := desc.ops

/-- The result and the state. Publishing, the event and the log line leave the tree alone; the listing that a success ends
with only reads it (`devmgrRefreshRamfs`). -/
def devmgrRegisterDevice (s : State) (desc : Option Descriptor) : Int × State :=
  match desc with
  | none => (-1, s)
  | some desc =>
    match desc.name, desc.type with
    | some name, some type =>
      if (findDeviceByName s name).isSome then (-1, s)
      else
        match allocateSlot s with
        | none => (-1, s)
        | some (s, i) =>
          let s := { s.put i (newNode s desc name type) with nextDeviceId := s.nextDeviceId + 1 }
          -- the new device is already in the table that its parent is looked for in
          let parent := (desc.parent.bind (findDeviceByName s)).or s.rootDevice
          let s := s.put i { (s.table i).node with parent := parent }
          if (desc.ops.bind DeviceOps.start).any (· < 0) then (-1, releaseSlot s i) else (0, s)
    | _, _ => (-1, s)

def devmgrUnregisterDevice (s : State) (name : Option Str) : Int × State :=
  match name.bind (findDeviceByName s) with
  | none => (-1, s)
  | some i =>
    if s.rootDevice = some i then (-1, s)
    else (0, releaseSlot (detachChildren s i ((s.table i).node.parent.or s.rootDevice)) i)

/-- "root" -/
def rootName : Str := [114, 111, 111, 116]

/-- "platform0" -/
def platformName : Str := [112, 108, 97, 116, 102, 111, 114, 109, 48]

/-- "bus.platform" -/
def platformType : Str := [98, 117, 115, 46, 112, 108, 97, 116, 102, 111, 114, 109]

/-- "storage0" -/
def storageName : Str := [115, 116, 111, 114, 97, 103, 101, 48]

/-- "bus.storage" -/
def storageType : Str := [98, 117, 115, 46, 115, 116, 111, 114, 97, 103, 101]

/-- "null0", a "device.null" below "platform0" -/
def nullDescriptor : Descriptor where
  name := some [110, 117, 108, 108, 48]
  type := some [100, 101, 118, 105, 99, 101, 46, 110, 117, 108, 108]
  parent := some platformName
  ops := some ⟨none⟩
  flags := flagPublish

def devmgrInit : State :=
  let s : State := ⟨fun _ => .empty, 0, 1, none⟩
  match allocateSlot s with
  | none => s
  | some (s, root) =>
    let s := { s.put root ⟨0, rootName, rootName, flagInternal, none, none⟩ with rootDevice := some root }
    let s := createInternalDevice s platformName platformType (some root)
    let s := createInternalDevice s storageName storageType (some root)
    (devmgrRegisterDevice s (some nullDescriptor)).2

/-! ## The listing -/

def deviceDepth (s : State) (fuel : Nat) (i : Slot) : Option Nat := depthFrom s.parentOf s.rootDevice fuel (some i)

/-- `for (; *src && pos + 1 < sizeof(listing); ++src) listing[pos++] = *src;` -/
def emit (out src : Str) : Str := out ++ src.take (vfsInlineCap - 1 - out.length)

def emitPair (a b : UInt8) (out : Str) : Str := if out.length + 2 < vfsInlineCap then out ++ [a, b] else out

/-- The line of one device, indented by its depth: "- name (type)". -/
def emitLine (node : DeviceNode) (depth : Nat) (out : Str) : Str :=
  let out := emitPair 45 32 ((emitPair 32 32)^[depth] out)
  emit (emit (emit (emit (emit out node.name) [32, 40]) node.type) [41]) [10]

def refreshLoop (s : State) (fuel : Nat) : List Slot → Str → Option Str
  | [], out => some out
  | i :: is, out =>
    if !(s.table i).used || s.rootDevice == some i then refreshLoop s fuel is out
    else (deviceDepth s fuel i).bind fun depth => refreshLoop s fuel is (emitLine (s.table i).node depth out)

/-- The text written to "/System/devices", after the header "Device Tree". -/
def devmgrRefreshRamfs (s : State) (fuel : Nat) : Option Str :=
  refreshLoop s fuel (List.finRange devmgrMaxDevices)
    (emit [] [68, 101, 118, 105, 99, 101, 32, 84, 114, 101, 101, 10])

/-! ## Runs -/

inductive Action
  | register (desc : Option Descriptor)
  | unregister (name : Option Str)
  deriving DecidableEq, Repr

def Action.run (s : State) : Action → Int × State
  | .register desc => devmgrRegisterDevice s desc
  | .unregister name => devmgrUnregisterDevice s name

def act (s : State) (a : Action) : Option State := some (a.run s).2

abbrev Step : State → Action → State → Prop := Performs (labelled act)

end ProOS.Devmgr
