import ProOS.Framework.Memory

/-! Block devices (`blockdev.c`) and the partitions over them (`partition.c`): which sectors a request reaches. -/

namespace ProOS.Block

open ProOS.Framework List

def blockdevMaxDevices : Nat := 16
def blockdevNameMax : Nat := 32
def blockdevFlagPartition : UInt32 := 2

inductive Op
  | read
  | write
deriving DecidableEq, Repr

/-- `struct partition_data`; the parent by its place in the table. -/
structure PartitionData where
  parent : Nat
  lbaStart : UInt64
  lbaLength : UInt64
deriving DecidableEq, Repr

/-- The functions of a driver, of which some may be missing, or `partition_ops` with its data. -/
inductive Ops
  | driver (read write : Bool)
  | partition (data : PartitionData)
deriving DecidableEq, Repr

def Ops.has : Ops → Op → Bool
  | .driver read _, .read => read
  | .driver _ write, .write => write
  | .partition _, _ => true

structure BlockDevice where
  name : List UInt8
  blockSize : UInt32
  blockCount : UInt64
  ops : Ops
  flags : UInt32
  scannedPartitions : Bool
deriving DecidableEq, Repr

/-- The first `device_count` places of `device_table`. -/
abbrev Table := List BlockDevice

structure Request where
  op : Op
  lba : UInt64
  count : UInt32
deriving DecidableEq, Repr

/-- `op_guard`, true if it does not return -1. -/
def opGuard (dev : BlockDevice) (lba : UInt64) (count : UInt32) : Bool :=
  decide (count = 0) || !(decide (dev.blockCount ≠ 0) && decide (dev.blockCount < lba + count.toUInt64))

/-- What `blockdev_read` or `blockdev_write` passes on to the driver. -/
def blockdevPass (dev : BlockDevice) (req : Request) (buffer : Bool) : Option Request :=
  if buffer = false then none
  else if dev.ops.has req.op = false then none
  else if opGuard dev req.lba req.count = false then none
  else some req

/-- What `partition_read` or `partition_write` passes on to the parent's driver. -/
def partitionPass (t : Table) (data : PartitionData) (req : Request) : Option Request :=
  match t[data.parent]? with
  | none => none
  | some parent =>
    if data.lbaLength ≠ 0 ∧ data.lbaLength < req.lba + req.count.toUInt64 then none
    else blockdevPass parent { req with lba := data.lbaStart + req.lba } true

def blockdevRegister (t : Table) (desc : BlockDevice) : Option Table :=
  if blockdevMaxDevices ≤ t.length then none
  else if t.any (fun dev => dev.name == desc.name) then none
  else
    some (t ++ [{ desc with
      name := desc.name.take (blockdevNameMax - 1)
      blockSize := if desc.blockSize = 0 then 512 else desc.blockSize
      scannedPartitions := false }])

/-- `make_partition_name` for an index of one digit. -/
def makePartitionName (base : List UInt8) (index : Nat) : List UInt8 :=
  (base ++ [112, UInt8.ofNat (48 + index)]).take (blockdevNameMax - 1)

/-- One turn of the loop over the entries of the MBR; `alloc` says whether `kalloc` succeeds. -/
def scanEntry (device : Nat) (dev : BlockDevice) (sector : Mem) (alloc : Nat → Bool) (s : Table × Nat) (i : Nat) : Table × Nat :=
  let entry := 446 + 16 * i
  if sector (entry + 4) = 0 ∨ get32 sector (entry + 12) = 0 then s
  else if alloc i = false then s
  else
    let data : PartitionData := ⟨device, UInt64.ofNat (get32 sector (entry + 8)), UInt64.ofNat (get32 sector (entry + 12))⟩
    let desc : BlockDevice :=
      ⟨makePartitionName dev.name s.2, dev.blockSize, data.lbaLength, .partition data, blockdevFlagPartition, false⟩
    ((blockdevRegister s.1 desc).getD s.1, s.2 + 1)

/-- `partition_scan_device`; `sector` is what the driver reads of sector 0, if it does. -/
def partitionScanDevice (t : Table) (device : Nat) (sector : Option Mem) (alloc : Nat → Bool) : Table :=
  match t[device]? with
  | none => t
  | some dev =>
    if dev.blockSize ≠ 512 ∨ dev.flags &&& blockdevFlagPartition ≠ 0 ∨ dev.scannedPartitions = true then t
    else
      match (blockdevPass dev ⟨.read, 0, 1⟩ true).bind (fun _ => sector) with
      | none => t
      | some sector =>
        let t' := if sector 510 = 0x55 ∧ sector 511 = 0xAA then
          ((List.range 4).foldl (scanEntry device dev sector alloc) (t, 1)).1 else t
        t'.modify device (fun dev => { dev with scannedPartitions := true })

/-! ## What is passed on -/

def Request.Within (req : Request) (first length : Nat) : Prop :=
  first ≤ req.lba.toNat ∧ req.lba.toNat + req.count.toNat ≤ first + length

/-- The sum of the guard does not wrap, and there is something to compare it with. -/
def Request.Checked (req : Request) (dev : BlockDevice) : Prop :=
  req.lba.toNat + req.count.toNat < 2 ^ 64 ∧ dev.blockCount ≠ 0

variable {dev : BlockDevice} {req req' : Request} {t : Table} {data : PartitionData} {buffer : Bool} {device : Nat}

theorem opGuard_iff {lba : UInt64} {count : UInt32} : opGuard dev lba count = true ↔
    count.toNat = 0 ∨ dev.blockCount.toNat = 0 ∨ (lba.toNat + count.toNat) % 2 ^ 64 ≤ dev.blockCount.toNat := by
  have hc : count = 0 ↔ count.toNat = 0 := UInt32.toNat_inj.symm
  have hb : dev.blockCount = 0 ↔ dev.blockCount.toNat = 0 := UInt64.toNat_inj.symm
  simp [opGuard, hc, hb, UInt64.lt_iff_toNat_lt]

theorem blockdevPass_eq_some (h : blockdevPass dev req buffer = some req') :
    req' = req ∧ opGuard dev req.lba req.count = true := by
  unfold blockdevPass at h
  split_ifs at h with _ _ hg
  exact ⟨(Option.some.inj h).symm, by simpa using hg⟩

theorem pass_within_iff (h : blockdevPass dev req buffer = some req') :
    req'.Within 0 dev.blockCount.toNat ↔
      (req.count.toNat = 0 ∧ req.lba ≤ dev.blockCount) ∨ (req.count.toNat ≠ 0 ∧ req.Checked dev) := by
  obtain ⟨rfl, hg⟩ := blockdevPass_eq_some h
  have hb : dev.blockCount ≠ 0 ↔ dev.blockCount.toNat ≠ 0 := by rw [ne_eq, ← UInt64.toNat_inj]; rfl
  have hlt := req'.lba.toNat_lt
  have hbc := dev.blockCount.toNat_lt
  rw [opGuard_iff] at hg
  rw [Request.Within, Request.Checked, hb, UInt64.le_iff_toNat_le]
  omega

/-- A device that `partition_scan_device` has made for an entry of the MBR of `device`. -/
structure Carved (device : Nat) (dev : BlockDevice) (data : PartitionData) : Prop where
  ops : dev.ops = .partition data
  parent : data.parent = device
  blockCount : dev.blockCount = data.lbaLength
  start : data.lbaStart.toNat < 2 ^ 32
  length : data.lbaLength.toNat < 2 ^ 32 ∧ data.lbaLength.toNat ≠ 0

theorem blockdevRegister_getElem? {desc d : BlockDevice} {p : Nat} (h : ((blockdevRegister t desc).getD t)[p]? = some d) :
    t[p]? = some d ∨ d.ops = desc.ops ∧ d.blockCount = desc.blockCount := by
  rw [blockdevRegister] at h
  by_cases hfull : blockdevMaxDevices ≤ t.length
  · rw [if_pos hfull] at h
    exact .inl h
  · rw [if_neg hfull] at h
    by_cases hname : t.any (fun dev => dev.name == desc.name) = true
    · rw [if_pos hname] at h
      exact .inl h
    · rw [if_neg hname, Option.getD_some, getElem?_append] at h
      split at h
      · exact .inl h
      · obtain rfl := mem_singleton.mp (mem_of_getElem? h)
        exact .inr ⟨rfl, rfl⟩

/-- From the place `n` on, the table holds partitions of the device. -/
def CarvedFrom (n device : Nat) (t : Table) : Prop := ∀ p d, t[p]? = some d → n ≤ p → ∃ data, Carved device d data

theorem carvedFrom_length (device : Nat) : CarvedFrom t.length device t := by
  intro p d hd hp
  rw [getElem?_eq_none hp] at hd
  cases hd

theorem scanEntry_carves {n i : Nat} {sector : Mem} {alloc : Nat → Bool} {s : Table × Nat} (h : CarvedFrom n device s.1) :
    CarvedFrom n device (scanEntry device dev sector alloc s i).1 := by
  intro p d hd hn
  unfold scanEntry at hd
  dsimp only at hd
  split_ifs at hd with hskip halloc
  · exact h p d hd hn
  · exact h p d hd hn
  · rcases blockdevRegister_getElem? hd with hold | ⟨hops, hcount⟩
    · exact h p d hold hn
    · have hword (a : Nat) : (UInt64.ofNat (get32 sector a)).toNat = get32 sector a :=
        UInt64.toNat_ofNat_of_lt' (lt_trans (get32_lt sector a) (by decide))
      refine ⟨_, hops, rfl, hcount, ?_, ?_⟩
      · rw [hword]
        exact get32_lt sector _
      · rw [hword]
        exact ⟨get32_lt sector _, (not_or.mp hskip).2⟩

theorem scan_carves {sector : Option Mem} {alloc : Nat → Bool} :
    CarvedFrom t.length device (partitionScanDevice t device sector alloc) := by
  unfold partitionScanDevice
  split
  · exact carvedFrom_length device
  · rename_i dev₀ hdev₀
    split_ifs
    · exact carvedFrom_length device
    · split
      · exact carvedFrom_length device
      · rename_i sector _
        intro p d hd hp
        have hne : device ≠ p := by
          rintro rfl
          rw [getElem?_eq_none hp] at hdev₀
          cases hdev₀
        dsimp only at hd
        rw [getElem?_modify_ne _ _ hne] at hd
        split_ifs at hd
        · -- what one entry adds, along the four of them
          have hloop (is : List Nat) (s : Table × Nat) (hs : CarvedFrom t.length device s.1) :
              CarvedFrom t.length device (is.foldl (scanEntry device dev₀ sector alloc) s).1 := by
            induction is generalizing s with
            | nil => exact hs
            | cons i is ih => exact ih _ (scanEntry_carves hs)
          exact hloop _ _ (carvedFrom_length device) p d hd hp
        · exact carvedFrom_length device p d hd hp

def Request.Stays (req : Request) (first length : Nat) : Prop :=
  ∀ s, req.lba.toNat ≤ s → s < req.lba.toNat + req.count.toNat → first ≤ s ∧ s < first + length

theorem stays_iff {first length : Nat} : req.Stays first length ↔ req.count.toNat = 0 ∨ req.Within first length := by
  constructor
  · intro hs
    by_cases hzero : req.count.toNat = 0
    · exact .inl hzero
    · have hfirst := hs req.lba.toNat le_rfl (by omega)
      have hlast := hs (req.lba.toNat + req.count.toNat - 1) (by omega) (by omega)
      exact .inr ⟨hfirst.1, by omega⟩
  · rintro (hzero | ⟨hfirst, hlast⟩) s h₁ h₂ <;> omega

theorem partition_stays_iff {parent : BlockDevice} (hc : Carved device dev data)
    (hparent : t[device]? = some parent) (h : (blockdevPass dev req buffer).bind (partitionPass t data) = some req') :
    (req'.Stays data.lbaStart.toNat data.lbaLength.toNat ∧ req'.Stays 0 parent.blockCount.toNat) ↔
      req.count.toNat = 0 ∨ req.Checked parent := by
  obtain ⟨req₁, hpass, hpart⟩ := Option.bind_eq_some_iff.mp h
  obtain ⟨rfl, -⟩ := blockdevPass_eq_some hpass
  unfold partitionPass at hpart
  rw [hc.parent, hparent] at hpart
  dsimp only at hpart
  split_ifs at hpart with hlen
  obtain ⟨rfl, hg⟩ := blockdevPass_eq_some hpart
  have hb : parent.blockCount ≠ 0 ↔ parent.blockCount.toNat ≠ 0 := by rw [ne_eq, ← UInt64.toNat_inj]; rfl
  have hl : data.lbaLength ≠ 0 ↔ data.lbaLength.toNat ≠ 0 := by rw [ne_eq, ← UInt64.toNat_inj]; rfl
  have hstart := hc.start
  have hlength := hc.length
  have hlba := req₁.lba.toNat_lt
  have hcount := req₁.count.toNat_lt
  rw [opGuard_iff] at hg
  simp only [hl, UInt64.lt_iff_toNat_lt, UInt64.toNat_add, UInt32.toNat_toUInt64] at hlen hg
  simp only [stays_iff, Request.Within, Request.Checked, hb, UInt64.toNat_add]
  omega

/-- The sums of the guards wrap. A request that a device passes on is in its range if and only if the sum did not wrap and the device
has a size, or, for no sectors at all, if it starts in the range; a request on a partition reaches the sectors of the partition and
of its parent only under the same condition. -/
theorem block_access_confined_iff (t : Table) (device : Nat) (sector : Option Mem) (alloc : Nat → Bool) :
    (∀ dev req buffer req', blockdevPass dev req buffer = some req' →
      (req'.Within 0 dev.blockCount.toNat ↔
        (req.count.toNat = 0 ∧ req.lba ≤ dev.blockCount) ∨ (req.count.toNat ≠ 0 ∧ req.Checked dev))) ∧
    ∀ p dev, (partitionScanDevice t device sector alloc)[p]? = some dev → t.length ≤ p →
      ∃ data, dev.ops = .partition data ∧ data.parent = device ∧
        ∀ parent req buffer req', (partitionScanDevice t device sector alloc)[device]? = some parent →
          (blockdevPass dev req buffer).bind (partitionPass (partitionScanDevice t device sector alloc) data) = some req' →
          ((req'.Stays data.lbaStart.toNat data.lbaLength.toNat ∧ req'.Stays 0 parent.blockCount.toNat) ↔
            req.count.toNat = 0 ∨ req.Checked parent) := by
  refine ⟨fun dev req buffer req' h => pass_within_iff h, fun p dev hdev hp => ?_⟩
  obtain ⟨data, hc⟩ := scan_carves p dev hdev hp
  exact ⟨data, hc.ops, hc.parent, fun parent req buffer req' hparent h => partition_stays_iff hc hparent h⟩

/-- A disk of 100 sectors and its MBR with one partition of the sectors 10 to 29. -/
def smallDisk : BlockDevice := ⟨[100], 512, 100, .driver true true, 0, false⟩

def smallMbr : Mem :=
  writeBytes (writeBytes (fun _ => 0) 446 ([0, 0, 0, 0, 6, 0, 0, 0] ++ bytes32 10 ++ bytes32 20)) 510 [0x55, 0xAA]

def smallTable : Table := partitionScanDevice [smallDisk] 0 (some smallMbr) (fun _ => true)

def lastSector : Request := ⟨.write, 2 ^ 64 - 1, 1⟩

/-- Sector 2⁶⁴ - 1 passes the guard of the disk; on the partition it is sector 9 of the disk that is written. -/
theorem block_access_wraps :
    (blockdevPass smallDisk lastSector true = some lastSector ∧ ¬lastSector.Within 0 smallDisk.blockCount.toNat) ∧
      ∃ dev data, smallTable[1]? = some dev ∧ dev.ops = .partition data ∧
        (blockdevPass dev lastSector true).bind (partitionPass smallTable data) = some ⟨.write, 9, 1⟩ ∧
        ¬(Request.mk .write 9 1).Stays data.lbaStart.toNat data.lbaLength.toNat := by
  refine ⟨⟨by decide +kernel, fun h => absurd h.2 (by decide +kernel)⟩, ⟨[100, 112, 49], 512, 20, .partition ⟨0, 10, 20⟩, 2, false⟩,
    ⟨0, 10, 20⟩, by decide +kernel, rfl, by decide +kernel, fun h => ?_⟩
  exact absurd (h 9 (by decide) (by decide)).1 (by decide)

end ProOS.Block
