import ProOS.Framework.Exec
import ProOS.Framework.Memory

/-! Block devices, the partitions found on them and the volumes made of those (`blockdev.c`, `partition.c`, `volmgr.c`, and the
device that a FAT volume is flushed to). Pointers to a `block_device` are positions of `device_table`. -/

namespace ProOS.Device

open ProOS.Framework

/-- A `partition_data`. `origin` is the registration that `parent` was the address of. -/
structure PartitionData where
  parent : Nat
  lbaStart : UInt64
  lbaLength : UInt64
  origin : Nat
deriving DecidableEq, Repr

structure Driver where
  read : Bool
  write : Bool
deriving DecidableEq, Repr

/-- `ops` together with the `driver_data` that they use; `partition_ops` is private to `partition.c`. -/
inductive Ops
  | driver (functions : Driver)
  | partition (data : PartitionData)
deriving DecidableEq, Repr

/-- A slot in use of `device_table`. `serial` numbers the registrations and is not in the source. -/
structure BlockDevice where
  name : List UInt8
  blockSize : UInt32
  blockCount : UInt64
  ops : Ops
  flags : UInt32
  scannedPartitions : Bool
  serial : Nat
deriving DecidableEq, Repr

/-- A `blockdev_descriptor`; `none` is NULL. -/
structure Descriptor (ops : Type) where
  name : Option (List UInt8)
  blockSize : UInt32
  blockCount : UInt64
  ops : Option ops
  flags : UInt32

structure VolumeRecord where
  device : Nat
  index : Nat
  origin : Nat
deriving DecidableEq, Repr

/-- What `fatfs_resolve_device` reads and writes of a `fatfs_volume`; `origin` says which registration `device` pointed to
when it was stored. -/
structure FatVolume where
  bytesPerSector : UInt32
  device : Option Nat
  origin : Nat
deriving DecidableEq, Repr

/-- The slots of `device_table` from `device_count` on are all zero, so the ones in use are kept as a list. Slots of
`volume_table` are never given back. -/
structure State where
  devices : List BlockDevice
  volumes : List VolumeRecord
  nextIndex : Nat
  fats : List FatVolume
  nextSerial : Nat
deriving DecidableEq, Repr

def blockdevMaxDevices : Nat := 16
def blockdevNameMax : Nat := 32
def volmgrMaxVolumes : Nat := 16
def flagPartition : UInt32 := 2

def BlockDevice.isPartition (d : BlockDevice) : Bool := d.flags &&& flagPartition != 0

def State.serials (s : State) : List Nat := s.devices.map BlockDevice.serial

/-- After `blockdev_init` and `volmgr_init` without devices, with FAT volumes of these sector sizes. -/
def State.init (sectorSizes : List UInt32) : State where
  devices := []
  volumes := []
  nextIndex := 0
  fats := sectorSizes.map (fun size => { bytesPerSector := size, device := none, origin := 0 })
  nextSerial := 0

/-- Stored names are cut to 31 bytes, and the new name is compared in full. -/
def nameInUse (s : State) (name : List UInt8) : Bool := s.devices.any (fun d => d.name == name)

/-- The slot that `blockdev_register` fills in. -/
def newDevice (s : State) (desc : Descriptor Ops) (name : List UInt8) (ops : Ops) : BlockDevice where
  name := name.take (blockdevNameMax - 1)
  blockSize := if desc.blockSize = 0 then 512 else desc.blockSize
  blockCount := desc.blockCount
  ops := ops
  flags := desc.flags
  scannedPartitions := false
  serial := s.nextSerial

/-- `blockdev_register`; `none` is -1, which leaves the table alone. -/
def blockdevRegister (s : State) (desc : Descriptor Ops) : Option State :=
  match desc.name, desc.ops with
  | some name, some ops =>
    if s.devices.length ≥ blockdevMaxDevices then none
    else if nameInUse s name then none
    else some
      { s with
        devices := s.devices ++ [newDevice s desc name ops]
        nextSerial := s.nextSerial + 1 }
  | _, _ => none

/-- The position at which `blockdev_unregister` finds the name. -/
def findName (s : State) (name : List UInt8) : Option Nat := s.devices.findIdx? (fun d => d.name == name)

/-- `blockdev_unregister`: the slots above move down by one. -/
def blockdevUnregister (s : State) (name : List UInt8) : Option State :=
  (findName s name).map (fun i => { s with devices := s.devices.eraseIdx i })

inductive Direction
  | read
  | write
deriving DecidableEq, Repr

/-- `ops->read` or `ops->write` is not NULL. -/
def Ops.has : Ops → Direction → Bool
  | .driver functions, .read => functions.read
  | .driver functions, .write => functions.write
  | .partition _, _ => true

/-- `op_guard`; the sum is of 64 bits. -/
def opGuard (d : BlockDevice) (lba : UInt64) (count : UInt32) : Bool :=
  count == 0 || d.blockCount == 0 || !decide (lba + count.toUInt64 > d.blockCount)

def BlockDevice.accepts (d : BlockDevice) (dir : Direction) (lba : UInt64) (count : UInt32) : Bool :=
  d.ops.has dir && opGuard d lba count

/-- The device whose operation `blockdev_read` or `blockdev_write` calls for the pointer `h`; `none` when it returns -1 itself. -/
def blockdevCall (s : State) (dir : Direction) (h : Nat) (lba : UInt64) (count : UInt32) : Option BlockDevice :=
  (s.devices[h]?).filter (fun d => d.accepts dir lba count)

/-- The registrations whose operations a transfer enters, from the pointer it starts at down to a driver: `partition_read` and
`partition_write` go on at `parent`. At most `fuel` operations are followed. -/
def transfer (s : State) (dir : Direction) : Nat → Nat → UInt64 → UInt32 → List Nat
  | 0, _, _, _ => []
  | fuel + 1, h, lba, count =>
    match blockdevCall s dir h lba count with
    | none => []
    | some d =>
      d.serial ::
        match d.ops with
        | .driver _ => []
        | .partition data =>
          if data.lbaLength ≠ 0 ∧ lba + count.toUInt64 > data.lbaLength then []
          else transfer s dir fuel data.parent (data.lbaStart + lba) count

def sectorWord (sector : List UInt8) (i : Nat) : Nat := get32 (fun j => sector.getD j 0) i

def decimal (n : Nat) : List UInt8 := (Nat.toDigits 10 n).map (fun c => UInt8.ofNat c.toNat)

def makePartitionName (base : List UInt8) (index : Nat) : List UInt8 :=
  (base ++ 112 :: decimal index).take (blockdevNameMax - 1)

def mbrSignatureOffset : Nat := 510
def mbrPartitionTable : Nat := 446
def mbrPartitionEntrySize : Nat := 16
def mbrPartitionCount : Nat := 4

/-- What `partition_scan_device` registers for the partition of `device` with this data. -/
def partitionDescriptor (device : BlockDevice) (index : Nat) (data : PartitionData) : Descriptor Ops where
  name := some (makePartitionName device.name index)
  blockSize := device.blockSize
  blockCount := data.lbaLength
  ops := some (.partition data)
  flags := flagPartition

/-- One turn of the loop over the partition table; `kalloc i` says whether memory is there for entry `i`. -/
def scanEntry (h : Nat) (device : BlockDevice) (sector : List UInt8) (kalloc : Nat → Bool) (acc : State × Nat) (i : Nat) :
    State × Nat :=
  let entry := mbrPartitionTable + mbrPartitionEntrySize * i
  if sector.getD (entry + 4) 0 = 0 ∨ sectorWord sector (entry + 12) = 0 then acc
  else if kalloc i = false then acc
  else
    let data : PartitionData :=
      { parent := h
        lbaStart := UInt64.ofNat (sectorWord sector (entry + 8))
        lbaLength := UInt64.ofNat (sectorWord sector (entry + 12))
        origin := device.serial }
    ((blockdevRegister acc.1 (partitionDescriptor device acc.2 data)).getD acc.1, acc.2 + 1)

def markScanned (s : State) (h : Nat) : State :=
  { s with devices := s.devices.modify h (fun d => { d with scannedPartitions := true }) }

/-- `partition_scan_device`; `sector` is what the driver's read gives for the first sector, `none` if it fails. -/
def partitionScanDevice (s : State) (h : Nat) (sector : Option (List UInt8)) (kalloc : Nat → Bool) : State :=
  match s.devices[h]? with
  | none => s
  | some device =>
    if device.blockSize ≠ 512 then s
    else if device.isPartition then s
    else if device.scannedPartitions then s
    else if (blockdevCall s .read h 0 1).isNone then s
    else
      match sector with
      | none => s
      | some sector =>
        if sector.getD mbrSignatureOffset 0 ≠ 0x55 ∨ sector.getD (mbrSignatureOffset + 1) 0 ≠ 0xAA then markScanned s h
        else markScanned ((List.range mbrPartitionCount).foldl (scanEntry h device sector kalloc) (s, 1)).1 h

/-- `attach_device` for the pointer `h`. -/
def attachDevice (s : State) (h : Nat) : State :=
  match s.devices[h]? with
  | none => s
  | some device =>
    if device.isPartition = false then s
    else if s.volumes.any (fun v => v.device == h) then s
    else if s.volumes.length ≥ volmgrMaxVolumes then s
    else
      { s with
        volumes := s.volumes ++ [{ device := h, index := s.nextIndex, origin := device.serial }]
        nextIndex := s.nextIndex + 1 }

def volmgrRescan (s : State) : State := (List.range s.devices.length).foldl attachDevice s

/-- The first device that `fatfs_resolve_device` would take for a volume. -/
def candidate (s : State) (f : FatVolume) : Option Nat :=
  s.devices.findIdx? (fun d => !d.isPartition && d.blockSize == f.bytesPerSector)

/-- `fatfs_resolve_device` on one volume. -/
def resolveVolume (s : State) (f : FatVolume) : FatVolume :=
  match f.device with
  | some _ => f
  | none =>
    match candidate s f with
    | none => f
    | some i => { f with device := some i, origin := (s.serials[i]?).getD 0 }

def fatfsResolveDevice (s : State) (v : Nat) : State := { s with fats := s.fats.modify v (resolveVolume s) }

/-- `fatfs_bind_backing` forgets the device. -/
def fatfsBindBacking (s : State) (v : Nat) : State :=
  { s with fats := s.fats.modify v (fun f => { f with device := none }) }

inductive Action
  | register (desc : Descriptor Driver)
  | unregister (name : List UInt8)
  | scan (device : Nat) (sector : Option (List UInt8)) (kalloc : Nat → Bool)
  | rescan
  | resolve (volume : Nat)
  | bind (volume : Nat)

def Descriptor.ofDriver (desc : Descriptor Driver) : Descriptor Ops where
  name := desc.name
  blockSize := desc.blockSize
  blockCount := desc.blockCount
  ops := desc.ops.map .driver
  flags := desc.flags

def act (s : State) : Action → State
  | .register desc => (blockdevRegister s desc.ofDriver).getD s
  | .unregister name => (blockdevUnregister s name).getD s
  | .scan device sector kalloc => partitionScanDevice s device sector kalloc
  | .rescan => volmgrRescan s
  | .resolve volume => fatfsResolveDevice s volume
  | .bind volume => fatfsBindBacking s volume

abbrev Step : State → Action → State → Prop := Performs (labelled (fun s a => some (act s a)))

end ProOS.Device
