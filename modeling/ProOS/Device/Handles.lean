import ProOS.Device.Model
import ProOS.Framework.CompactArray

/-! The pointers into the device table that partitions, volumes and FAT volumes keep. -/

namespace ProOS.Device

open ProOS.Framework List

/-- The pointer of a partition device, with the registration it was taken from. -/
def BlockDevice.handle (d : BlockDevice) : Option (Nat × Nat) :=
  match d.ops with
  | .driver _ => none
  | .partition data => some (data.parent, data.origin)

def VolumeRecord.handle (v : VolumeRecord) : Nat × Nat := (v.device, v.origin)

def FatVolume.handle (f : FatVolume) : Option (Nat × Nat) := f.device.map (fun h => (h, f.origin))

/-- All pointers into `device_table` that outlive the call that took them. -/
def State.handles (s : State) : List (Nat × Nat) :=
  s.devices.filterMap BlockDevice.handle ++ s.volumes.map VolumeRecord.handle ++ s.fats.filterMap FatVolume.handle

/-- A transfer at the pointer `h` is one of the registration `g`: it calls the operations of `g` while `g` is registered, and
no operations once it is not. -/
def Reaches (s : State) (h g : Nat) : Prop :=
  ∀ dir lba count,
    (∀ d ∈ s.devices, d.serial = g →
      blockdevCall s dir h lba count = if d.accepts dir lba count then some d else none) ∧
    (g ∉ s.serials → blockdevCall s dir h lba count = none)

/-- Every pointer kept is good for the device that it was taken from and for no other. -/
structure HandlesReach (s : State) : Prop where
  partition : ∀ d ∈ s.devices, ∀ data, d.ops = .partition data → Reaches s data.parent data.origin
  volume : ∀ v ∈ s.volumes, Reaches s v.device v.origin
  fat : ∀ f ∈ s.fats, ∀ h, f.device = some h → Reaches s h f.origin

/-- Transfers through a partition device that lie in its range enter the operations of the partition and then those of the disk
that it was found on, or no others if the disk is gone or refuses. -/
def PartitionsReach (s : State) : Prop :=
  ∀ i d data dir lba count, s.devices[i]? = some d → d.ops = .partition data → d.accepts dir lba count = true →
    ¬(data.lbaLength ≠ 0 ∧ lba + count.toUInt64 > data.lbaLength) → ∀ fuel,
      (∀ o ∈ s.devices, o.serial = data.origin →
        transfer s dir (fuel + 2) i lba count =
          d.serial :: if o.accepts dir (data.lbaStart + lba) count then [o.serial] else []) ∧
      (data.origin ∉ s.serials → transfer s dir (fuel + 2) i lba count = [d.serial])

/-- A call that moves no slot to or from under a pointer: new devices do not come where a pointer of an unregistered device is
left, and a device leaves only if no pointer is to a slot above it, and none to itself unless it is the last. -/
def Keeps (s : State) : Action → Prop
  | .register _ => ∀ p ∈ s.handles, p.1 ≠ s.devices.length
  | .unregister name =>
    ∀ i ∈ findName s name, ∀ p ∈ s.handles,
      p.1 < i ∨ s.devices.length ≤ p.1 ∨ (p.1 = i ∧ i + 1 = s.devices.length)
  | .scan _ _ _ => ∀ p ∈ s.handles, p.1 < s.devices.length
  | .rescan => True
  | .resolve _ => True
  | .bind _ => True

instance (s : State) (a : Action) : Decidable (Keeps s a) := by
  cases a <;> unfold Keeps <;> infer_instance

/-- What runs of calls that all keep the pointers preserve. -/
structure Inv (s : State) : Prop where
  sorted : s.serials.Pairwise (· < ·)
  bound : ∀ g ∈ s.serials, g < s.nextSerial
  flagged : ∀ d ∈ s.devices, ∀ data, d.ops = .partition data → d.isPartition = true
  older : ∀ d ∈ s.devices, ∀ data, d.ops = .partition data → data.origin < d.serial
  disk : ∀ d ∈ s.devices, ∀ data, d.ops = .partition data →
    ∀ o ∈ s.devices, o.serial = data.origin → o.isPartition = false
  taken : ∀ p ∈ s.handles, p.2 < s.nextSerial
  denotes : ∀ p ∈ s.handles, Denotes s.serials p.1 p.2

section Pointers

variable {s s' : State} {p : Nat × Nat} {h i : Nat} {d : BlockDevice}

theorem Inv.nodup (hs : Inv s) : s.serials.Nodup := hs.sorted.imp ne_of_lt

theorem Inv.eq_of_serial (hs : Inv s) {o : BlockDevice} (hd : d ∈ s.devices) (ho : o ∈ s.devices)
    (h : d.serial = o.serial) : d = o :=
  inj_on_of_nodup_map hs.nodup hd ho h

theorem length_serials : s.serials.length = s.devices.length := length_map _

theorem getElem?_serials : s.serials[h]? = (s.devices[h]?).map BlockDevice.serial := getElem?_map

theorem mem_handles : p ∈ s.handles ↔
    (∃ d ∈ s.devices, d.handle = some p) ∨ (∃ v ∈ s.volumes, v.handle = p) ∨ ∃ f ∈ s.fats, f.handle = some p := by
  simp only [State.handles, mem_append, mem_filterMap, List.mem_map, or_assoc]

theorem serials_erase : State.serials { s with devices := s.devices.eraseIdx i } = s.serials.eraseIdx i := by
  rw [State.serials, State.serials, eraseIdx_map]

theorem serials_append : State.serials { s with devices := s.devices ++ [d], nextSerial := s.nextSerial + 1 } =
    s.serials ++ [d.serial] := by
  rw [State.serials, map_append]
  rfl

theorem handle_partition {data : PartitionData} (hd : d.ops = .partition data) :
    d.handle = some (data.parent, data.origin) := by
  rw [BlockDevice.handle, hd]

theorem Inv.of_same (hs : Inv s) (hserials : s'.serials = s.serials) (hnext : s'.nextSerial = s.nextSerial)
    (hdevices : ∀ d' ∈ s'.devices, ∃ d ∈ s.devices, d'.serial = d.serial ∧ d'.ops = d.ops ∧ d'.flags = d.flags)
    (hhandles : ∀ p ∈ s'.handles, p ∈ s.handles ∨ s.serials[p.1]? = some p.2) : Inv s' where
  sorted := hserials ▸ hs.sorted
  bound := by
    rw [hserials, hnext]
    exact hs.bound
  flagged := by
    intro d' hd' data hops
    obtain ⟨d, hd, -, hop, hflag⟩ := hdevices d' hd'
    rw [BlockDevice.isPartition, hflag]
    exact hs.flagged d hd data (hop ▸ hops)
  older := by
    intro d' hd' data hops
    obtain ⟨d, hd, hserial, hop, -⟩ := hdevices d' hd'
    rw [hserial]
    exact hs.older d hd data (hop ▸ hops)
  disk := by
    intro d' hd' data hops o' ho' horigin
    obtain ⟨d, hd, -, hop, -⟩ := hdevices d' hd'
    obtain ⟨o, ho, hserial, -, hflag⟩ := hdevices o' ho'
    rw [BlockDevice.isPartition, hflag]
    exact hs.disk d hd data (hop ▸ hops) o ho (hserial ▸ horigin)
  taken := by
    intro p hp
    rw [hnext]
    rcases hhandles p hp with hold | hnew
    · exact hs.taken p hold
    · exact hs.bound _ (mem_of_getElem? hnew)
  denotes := by
    intro p hp
    rw [hserials]
    rcases hhandles p hp with hold | hnew
    · exact hs.denotes p hold
    · exact .of_getElem? hnew

theorem Inv.register (hs : Inv s) (hdevices : s'.devices = s.devices ++ [d]) (hserial : d.serial = s.nextSerial)
    (hnext : s'.nextSerial = s.nextSerial + 1) (hvolumes : s'.volumes = s.volumes) (hfats : s'.fats = s.fats)
    (hfresh : ∀ data, d.ops = .partition data → d.isPartition = true ∧
      ∃ o, s.devices[data.parent]? = some o ∧ o.serial = data.origin ∧ o.isPartition = false)
    (hfree : ∀ p ∈ s.handles, p.1 ≠ s.devices.length) : Inv s' := by
  have hpoint : ∀ data, d.ops = .partition data → s.serials[data.parent]? = some data.origin := by
    intro data hops
    obtain ⟨-, o, ho, horigin, -⟩ := hfresh data hops
    rw [getElem?_serials, ho, ← horigin]
    rfl
  have hserials : s'.serials = s.serials ++ [s.nextSerial] := by
    rw [State.serials, hdevices, map_append, map_singleton, hserial, State.serials]
  have hhandles : ∀ p ∈ s'.handles, p ∈ s.handles ∨ s.serials[p.1]? = some p.2 := by
    intro p hp
    rw [mem_handles, hdevices, hvolumes, hfats] at hp
    rw [mem_handles]
    rcases hp with ⟨d', hd', hp⟩ | hp
    · rcases mem_append.mp hd' with hd' | hd'
      · exact .inl (.inl ⟨d', hd', hp⟩)
      · obtain rfl := mem_singleton.mp hd'
        cases hops : d'.ops with
        | driver functions => simp [BlockDevice.handle, hops] at hp
        | partition data =>
          rw [handle_partition hops] at hp
          cases hp
          exact .inr (hpoint data hops)
    · exact .inl (.inr hp)
  have hold : ∀ p ∈ s'.handles, p.2 < s.nextSerial := by
    intro p hp
    rcases hhandles p hp with hold | hnew
    · exact hs.taken p hold
    · exact hs.bound _ (mem_of_getElem? hnew)
  refine ⟨?_, ?_, ?_, ?_, ?_, ?_, ?_⟩
  · rw [hserials, pairwise_append]
    refine ⟨hs.sorted, pairwise_singleton _ _, fun g hg g' hg' => ?_⟩
    obtain rfl := mem_singleton.mp hg'
    exact hs.bound g hg
  · intro g hg
    rw [hserials, mem_append, mem_singleton] at hg
    rw [hnext]
    rcases hg with hg | rfl
    · exact (hs.bound g hg).trans (Nat.lt_succ_self _)
    · exact Nat.lt_succ_self _
  · intro d' hd' data hops
    rw [hdevices, mem_append, mem_singleton] at hd'
    rcases hd' with hd' | rfl
    · exact hs.flagged d' hd' data hops
    · exact (hfresh data hops).1
  · intro d' hd' data hops
    rw [hdevices, mem_append, mem_singleton] at hd'
    rcases hd' with hd' | rfl
    · exact hs.older d' hd' data hops
    · rw [hserial]
      exact hs.bound _ (mem_of_getElem? (hpoint data hops))
  · intro d' hd' data hops o ho horigin
    have hlt : data.origin < s.nextSerial := hold _ (mem_handles.mpr (.inl ⟨d', hd', handle_partition hops⟩))
    rw [hdevices, mem_append, mem_singleton] at hd' ho
    rcases ho with ho | rfl
    · rcases hd' with hd' | rfl
      · exact hs.disk d' hd' data hops o ho horigin
      · obtain ⟨-, o', ho', horigin', hflag⟩ := hfresh data hops
        obtain rfl := hs.eq_of_serial ho (mem_of_getElem? ho') (horigin.trans horigin'.symm)
        exact hflag
    · rw [← horigin, hserial] at hlt
      exact absurd hlt (lt_irrefl _)
  · intro p hp
    rw [hnext]
    exact (hold p hp).trans (Nat.lt_succ_self _)
  · intro p hp
    rw [hserials]
    rcases hhandles p hp with hp' | hnew
    · refine ((hs.denotes p hp').append_iff (hold p hp).ne).mpr ?_
      rw [length_serials]
      exact hfree p hp'
    · have hlt := (List.getElem?_eq_some_iff.mp hnew).1
      exact ((Denotes.of_getElem? hnew).append_iff (hold p hp).ne).mpr hlt.ne

end Pointers

section Calls

variable {s s' : State} {p : Nat × Nat} {h i : Nat} {device : BlockDevice}

theorem blockdevRegister_eq_some {desc : Descriptor Ops} (h : blockdevRegister s desc = some s') :
    ∃ name ops, desc.ops = some ops ∧
      s' = { s with devices := s.devices ++ [newDevice s desc name ops], nextSerial := s.nextSerial + 1 } := by
  unfold blockdevRegister at h
  split at h
  · rename_i name ops _ hops
    split at h
    · cases h
    · split at h
      · cases h
      · exact ⟨name, ops, hops, (Option.some.inj h).symm⟩
  · cases h

theorem blockdevUnregister_eq_some {name : List UInt8} (h : blockdevUnregister s name = some s') :
    ∃ i, findName s name = some i ∧ i < s.devices.length ∧ s' = { s with devices := s.devices.eraseIdx i } := by
  obtain ⟨i, hi, rfl⟩ := Option.map_eq_some_iff.mp h
  exact ⟨i, hi, (findIdx?_eq_some_iff_getElem.mp hi).1, rfl⟩

theorem Inv.blockdevRegister (hs : Inv s) {desc : Descriptor Ops}
    (hfresh : ∀ data, desc.ops = some (.partition data) → desc.flags = flagPartition ∧
      ∃ o, s.devices[data.parent]? = some o ∧ o.serial = data.origin ∧ o.isPartition = false)
    (hfree : ∀ p ∈ s.handles, p.1 ≠ s.devices.length) : Inv ((blockdevRegister s desc).getD s) := by
  cases hr : ProOS.Device.blockdevRegister s desc with
  | none => exact hs
  | some s' =>
    obtain ⟨name, ops, hops, rfl⟩ := blockdevRegister_eq_some hr
    refine hs.register rfl rfl rfl rfl rfl ?_ hfree
    intro data hdata
    obtain ⟨hflags, hparent⟩ := hfresh data (hops.trans (congrArg some hdata))
    refine ⟨?_, hparent⟩
    show (desc.flags &&& flagPartition != 0) = true
    rw [hflags]
    decide

theorem Inv.unregister (hs : Inv s) (hi : i < s.devices.length)
    (hkeep : ∀ p ∈ s.handles, p.1 < i ∨ s.devices.length ≤ p.1 ∨ (p.1 = i ∧ i + 1 = s.devices.length)) :
    Inv { s with devices := s.devices.eraseIdx i } := by
  have hhandles : ∀ p ∈ State.handles { s with devices := s.devices.eraseIdx i }, p ∈ s.handles := by
    intro p hp
    rw [mem_handles] at hp ⊢
    rcases hp with ⟨d, hd, hp⟩ | hp
    · exact .inl ⟨d, eraseIdx_subset hd, hp⟩
    · exact .inr hp
  refine ⟨?_, ?_, ?_, ?_, ?_, ?_, ?_⟩
  · rw [serials_erase]
    exact hs.sorted.sublist (eraseIdx_sublist _ _)
  · rw [serials_erase]
    intro g hg
    exact hs.bound g (eraseIdx_subset hg)
  · intro d hd
    exact hs.flagged d (eraseIdx_subset hd)
  · intro d hd
    exact hs.older d (eraseIdx_subset hd)
  · intro d hd data hops o ho
    exact hs.disk d (eraseIdx_subset hd) data hops o (eraseIdx_subset ho)
  · intro p hp
    exact hs.taken p (hhandles p hp)
  · intro p hp
    rw [serials_erase]
    have hp' := hhandles p hp
    refine ((hs.denotes p hp').eraseIdx_iff hs.nodup ?_).mpr ?_
    · rwa [length_serials]
    · rw [length_serials]
      exact hkeep p hp'

/-- While a disk is scanned its own slot stays in place and no pointer is left beyond the table. -/
structure Scanning (h : Nat) (device : BlockDevice) (s : State) : Prop where
  inv : Inv s
  inside : ∀ p ∈ s.handles, p.1 < s.devices.length
  disk : s.devices[h]? = some device
  driver : device.isPartition = false

theorem Scanning.scanEntry {acc : State × Nat} {sector : List UInt8} {kalloc : Nat → Bool}
    (hs : Scanning h device acc.1) (i : Nat) : Scanning h device (scanEntry h device sector kalloc acc i).1 := by
  unfold ProOS.Device.scanEntry
  dsimp only
  split
  · exact hs
  split
  · exact hs
  generalize hdata : PartitionData.mk h _ _ device.serial = data
  have hinv : Inv ((blockdevRegister acc.1 (partitionDescriptor device acc.2 data)).getD acc.1) := by
    refine hs.inv.blockdevRegister ?_ (fun p hp => (hs.inside p hp).ne)
    intro data' hd'
    obtain rfl : data = data' := by simpa [partitionDescriptor] using hd'
    rw [← hdata]
    exact ⟨rfl, device, hs.disk, rfl, hs.driver⟩
  cases hr : blockdevRegister acc.1 (partitionDescriptor device acc.2 data) with
  | none => exact hs
  | some s' =>
    rw [hr] at hinv
    obtain ⟨name, ops, hops, rfl⟩ := blockdevRegister_eq_some hr
    have hlt := (List.getElem?_eq_some_iff.mp hs.disk).1
    refine ⟨hinv, ?_, ?_, hs.driver⟩
    · intro p hp
      rw [Option.getD_some] at hp ⊢
      dsimp only
      rw [length_append, length_singleton]
      rw [mem_handles] at hp
      rcases hp with ⟨d, hd, hp⟩ | hp
      · rcases mem_append.mp hd with hd | hd
        · exact (hs.inside p (mem_handles.mpr (.inl ⟨d, hd, hp⟩))).trans (Nat.lt_succ_self _)
        · obtain rfl := mem_singleton.mp hd
          obtain rfl : Ops.partition data = ops := by simpa [partitionDescriptor] using hops
          cases hp
          rw [← hdata]
          exact hlt.trans (Nat.lt_succ_self _)
      · exact (hs.inside p (mem_handles.mpr (.inr hp))).trans (Nat.lt_succ_self _)
    · rw [Option.getD_some]
      exact (getElem?_append_left hlt).trans hs.disk

section

variable (hs : Inv s)

include hs

theorem Inv.markScanned : Inv (markScanned s h) := by
  have hdevices : ∀ d' ∈ (ProOS.Device.markScanned s h).devices,
      ∃ d ∈ s.devices, d'.serial = d.serial ∧ d'.ops = d.ops ∧ d'.flags = d.flags := by
    intro d' hd'
    obtain ⟨d, hd, hor⟩ := mem_modify hd'
    refine ⟨d, hd, ?_⟩
    rcases hor with rfl | rfl
    · exact ⟨rfl, rfl, rfl⟩
    · exact ⟨rfl, rfl, rfl⟩
  refine hs.of_same (map_modify_of_eq fun _ => rfl) rfl hdevices ?_
  intro p hp
  rw [mem_handles] at hp
  rcases hp with ⟨d', hd', hp⟩ | hp
  · obtain ⟨d, hd, -, hops, -⟩ := hdevices d' hd'
    rw [BlockDevice.handle, hops] at hp
    exact .inl (mem_handles.mpr (.inl ⟨d, hd, hp⟩))
  · exact .inl (mem_handles.mpr (.inr hp))

theorem Inv.scan {sector : Option (List UInt8)} {kalloc : Nat → Bool}
    (hinside : ∀ p ∈ s.handles, p.1 < s.devices.length) : Inv (partitionScanDevice s h sector kalloc) := by
  unfold partitionScanDevice
  split
  · exact hs
  rename_i device hdevice
  split
  · exact hs
  split
  · exact hs
  rename_i hdriver
  split
  · exact hs
  split
  · exact hs
  split
  · exact hs
  split
  · exact hs.markScanned
  · apply Inv.markScanned
    refine (List.foldlRecOn (motive := fun acc : State × Nat => Scanning h device acc.1) _ _ ?_ ?_).inv
    · exact ⟨hs, hinside, hdevice, Bool.eq_false_of_not_eq_true hdriver⟩
    · intro acc hacc i _
      exact hacc.scanEntry i

theorem Inv.of_devices (hdevices : s'.devices = s.devices) (hnext : s'.nextSerial = s.nextSerial)
    (hhandles : ∀ p ∈ s'.handles, p ∈ s.handles ∨ s.serials[p.1]? = some p.2) : Inv s' := by
  refine hs.of_same (by rw [State.serials, hdevices, State.serials]) hnext ?_ hhandles
  intro d hd
  rw [hdevices] at hd
  exact ⟨d, hd, rfl, rfl, rfl⟩

theorem Inv.attachDevice : Inv (attachDevice s h) := by
  unfold ProOS.Device.attachDevice
  split
  · exact hs
  rename_i device hdevice
  split
  · exact hs
  split
  · exact hs
  split
  · exact hs
  · refine hs.of_devices rfl rfl ?_
    intro p hp
    rw [mem_handles] at hp
    rcases hp with hp | ⟨v, hv, rfl⟩ | hp
    · exact .inl (mem_handles.mpr (.inl hp))
    · rcases mem_append.mp hv with hv | hv
      · exact .inl (mem_handles.mpr (.inr (.inl ⟨v, hv, rfl⟩)))
      · obtain rfl := mem_singleton.mp hv
        refine .inr ?_
        rw [getElem?_serials, VolumeRecord.handle, hdevice]
        rfl
    · exact .inl (mem_handles.mpr (.inr (.inr hp)))

theorem Inv.rescan : Inv (volmgrRescan s) :=
  List.foldlRecOn (motive := Inv) _ _ hs (fun _ hs' _ _ => hs'.attachDevice)

theorem Inv.resolve (v : Nat) : Inv (fatfsResolveDevice s v) := by
  refine hs.of_devices rfl rfl ?_
  intro p hp
  rw [mem_handles] at hp
  rcases hp with hp | hp | ⟨f', hf', hp⟩
  · exact .inl (mem_handles.mpr (.inl hp))
  · exact .inl (mem_handles.mpr (.inr (.inl hp)))
  obtain ⟨f, hf, rfl | rfl⟩ := mem_modify hf'
  · exact .inl (mem_handles.mpr (.inr (.inr ⟨f', hf, hp⟩)))
  unfold resolveVolume at hp
  split at hp
  · exact .inl (mem_handles.mpr (.inr (.inr ⟨f, hf, hp⟩)))
  split at hp
  · exact .inl (mem_handles.mpr (.inr (.inr ⟨f, hf, hp⟩)))
  · rename_i i hi
    have hlt : i < s.serials.length := by
      rw [length_serials]
      exact (findIdx?_eq_some_iff_getElem.mp hi).1
    cases hp
    refine .inr ?_
    dsimp only
    rw [getElem?_eq_getElem hlt, Option.getD_some]

theorem Inv.bind (v : Nat) : Inv (fatfsBindBacking s v) := by
  refine hs.of_devices rfl rfl ?_
  intro p hp
  rw [mem_handles] at hp
  rcases hp with hp | hp | ⟨f', hf', hp⟩
  · exact .inl (mem_handles.mpr (.inl hp))
  · exact .inl (mem_handles.mpr (.inr (.inl hp)))
  obtain ⟨f, hf, rfl | rfl⟩ := mem_modify hf'
  · exact .inl (mem_handles.mpr (.inr (.inr ⟨f', hf, hp⟩)))
  · cases hp

theorem Inv.act {a : Action} (hk : Keeps s a) : Inv (act s a) := by
  cases a with
  | register desc =>
    refine hs.blockdevRegister ?_ hk
    intro data hdata
    obtain ⟨functions, -, hops⟩ := Option.map_eq_some_iff.mp hdata
    cases hops
  | unregister name =>
    show Inv ((blockdevUnregister s name).getD s)
    cases hr : blockdevUnregister s name with
    | none => exact hs
    | some s' =>
      obtain ⟨i, hi, hlt, rfl⟩ := blockdevUnregister_eq_some hr
      exact hs.unregister hlt (hk i hi)
  | scan device sector kalloc => exact hs.scan hk
  | rescan => exact hs.rescan
  | resolve volume => exact hs.resolve volume
  | bind volume => exact hs.bind volume

end

theorem inv_init (sizes : List UInt32) : Inv (State.init sizes) := by
  have hnone : (State.init sizes).handles = [] := by
    simp [State.init, State.handles, FatVolume.handle, filterMap_map, Function.comp_def]
  refine ⟨List.Pairwise.nil, ?_, ?_, ?_, ?_, ?_, ?_⟩
  · rintro g ⟨⟩
  · rintro d ⟨⟩
  · rintro d ⟨⟩
  · rintro d ⟨⟩
  · rw [hnone]
    rintro p ⟨⟩
  · rw [hnone]
    rintro p ⟨⟩

end Calls

section Reach

variable {s s' : State} {p : Nat × Nat} {h g i : Nat} {dir : Direction} {lba : UInt64} {count : UInt32}

theorem Inv.reaches (hs : Inv s) (hd : Denotes s.serials h g) : Reaches s h g := by
  intro dir lba count
  constructor
  · intro d hmem hserial
    have hg : g ∈ s.serials := hserial ▸ List.mem_map_of_mem hmem
    have hat := hd.getElem? hg
    rw [getElem?_serials] at hat
    obtain ⟨d', hd', hserial'⟩ := Option.map_eq_some_iff.mp hat
    obtain rfl := hs.eq_of_serial hmem (mem_of_getElem? hd') (hserial.trans hserial'.symm)
    rw [blockdevCall, hd', Option.filter_some]
  · intro hg
    have hat := hd.getElem?_eq_none hg
    rw [getElem?_serials, Option.map_eq_none_iff] at hat
    rw [blockdevCall, hat, Option.filter_none]

theorem Inv.handlesReach (hs : Inv s) : HandlesReach s where
  partition d hd data hops := hs.reaches (hs.denotes _ (mem_handles.mpr (.inl ⟨d, hd, handle_partition hops⟩)))
  volume v hv := hs.reaches (hs.denotes _ (mem_handles.mpr (.inr (.inl ⟨v, hv, rfl⟩))))
  fat f hf h hh :=
    hs.reaches (hs.denotes (h, f.origin) (mem_handles.mpr (.inr (.inr ⟨f, hf, by rw [FatVolume.handle, hh]; rfl⟩))))

theorem transfer_driver (hs : Inv s) {d : BlockDevice} (hr : Reaches s h d.serial) (hd : d ∈ s.devices)
    (hflag : d.isPartition = false) (fuel : Nat) :
    transfer s dir (fuel + 1) h lba count = if d.accepts dir lba count then [d.serial] else [] := by
  rw [transfer, (hr dir lba count).1 d hd rfl]
  cases hops : d.ops with
  | partition data =>
    have hset := hs.flagged d hd data hops
    rw [hflag] at hset
    cases hset
  | driver functions =>
    split
    · rename_i hnone
      split at hnone
      · cases hnone
      · rename_i hacc
        rw [if_neg hacc]
    · rename_i d' hsome
      split at hsome
      · rename_i hacc
        cases hsome
        rw [hops, if_pos hacc]
      · cases hsome

theorem Inv.partitionsReach (hs : Inv s) : PartitionsReach s := by
  intro i d data dir lba count hi hops hacc hrange fuel
  have hd := mem_of_getElem? hi
  have hcall : blockdevCall s dir i lba count = some d := by
    rw [blockdevCall, hi, Option.filter_some, if_pos hacc]
  have hreach := hs.handlesReach.partition d hd data hops
  have hgo : transfer s dir (fuel + 2) i lba count =
      d.serial :: transfer s dir (fuel + 1) data.parent (data.lbaStart + lba) count := by
    rw [transfer, hcall]
    dsimp only
    rw [hops]
    dsimp only
    rw [if_neg hrange]
  rw [hgo]
  constructor
  · intro o ho horigin
    rw [← horigin] at hreach
    rw [transfer_driver hs hreach ho (hs.disk d hd data hops o ho horigin)]
  · intro hg
    rw [transfer, (hreach dir _ count).2 hg]

/-- The disk of a partition is at a slot below it, or has left and its slot is free. -/
theorem Inv.handle_below (hs : Inv s) {d : BlockDevice} (hi : s.devices[i]? = some d) (hp : d.handle = some p) :
    p.1 < i ∨ s.devices.length ≤ p.1 ∨ (p.1 = i ∧ i + 1 = s.devices.length) := by
  cases hops : d.ops with
  | driver functions => simp [BlockDevice.handle, hops] at hp
  | partition data =>
    rw [handle_partition hops] at hp
    cases hp
    have hd := mem_of_getElem? hi
    have hdenotes := hs.denotes _ (mem_handles.mpr (.inl ⟨d, hd, handle_partition hops⟩))
    have holder := hs.older d hd data hops
    by_cases hg : data.origin ∈ s.serials
    · have hself : s.serials[i]? = some d.serial := by
        rw [getElem?_serials, hi]
        rfl
      obtain ⟨hlt, hat⟩ := List.getElem?_eq_some_iff.mp (hdenotes.getElem? hg)
      obtain ⟨hlti, hati⟩ := List.getElem?_eq_some_iff.mp hself
      refine .inl ?_
      by_contra hle
      rcases lt_or_eq_of_le (not_lt.mp hle) with hless | heq
      · have hsorted := pairwise_iff_getElem.mp hs.sorted _ _ hlti hlt hless
        rw [hat, hati] at hsorted
        exact absurd holder (not_lt.mpr hsorted.le)
      · subst heq
        exact holder.ne (hat.symm.trans hati)
    · have hnone := hdenotes.getElem?_eq_none hg
      rw [List.getElem?_eq_none_iff, length_serials] at hnone
      exact .inr (.inl hnone)

/-- A device that comes to the slot of a pointer left behind is taken for the one that was there. -/
theorem register_spoils (hs : Inv s) {desc : Descriptor Ops} (hr : blockdevRegister s desc = some s')
    (hp : p ∈ s.handles) (hat : p.1 = s.devices.length) : p ∈ s'.handles ∧ ¬Denotes s'.serials p.1 p.2 := by
  obtain ⟨name, ops, -, rfl⟩ := blockdevRegister_eq_some hr
  constructor
  · rw [mem_handles] at hp ⊢
    rcases hp with ⟨d, hd, hp⟩ | hp
    · exact .inl ⟨d, mem_append_left _ hd, hp⟩
    · exact .inr hp
  · intro hd
    rw [serials_append] at hd
    refine ((hs.denotes p hp).append_iff (hs.taken p hp).ne).mp hd ?_
    rw [length_serials, hat]

/-- A pointer to a slot from which the devices move down is taken for the next one. -/
theorem unregister_spoils (hs : Inv s) (hi : i < s.devices.length) (hp : p ∈ s.handles)
    (hat : ¬(p.1 < i ∨ s.devices.length ≤ p.1 ∨ (p.1 = i ∧ i + 1 = s.devices.length))) :
    p ∈ State.handles { s with devices := s.devices.eraseIdx i } ∧
      ¬Denotes (State.serials { s with devices := s.devices.eraseIdx i }) p.1 p.2 := by
  constructor
  · rw [mem_handles] at hp ⊢
    rcases hp with ⟨d, hd, hp⟩ | hp
    · -- the pointer of the device that leaves is to an older one, which is below it
      obtain ⟨j, hj⟩ := mem_iff_getElem?.mp hd
      refine .inl ⟨d, mem_eraseIdx_iff_getElem?.mpr ⟨j, ?_, hj⟩, hp⟩
      rintro rfl
      exact hat (hs.handle_below hj hp)
    · exact .inr hp
  · intro hd
    rw [serials_erase] at hd
    refine hat ?_
    rw [← length_serials]
    exact ((hs.denotes p hp).eraseIdx_iff hs.nodup (by rwa [length_serials])).mp hd

end Reach

/-- In runs whose calls all keep the pointers, partitions, volumes and FAT volumes reach the device that they were made for and
no other one; a call that does not keep the pointers leaves one that does not denote its device. -/
theorem handles_reach_their_devices (sizes : List UInt32) (tr : List Action) (s : State)
    (hx : Exec Step (State.init sizes) tr s) (hk : EachStep Step (State.init sizes) tr s Keeps) :
    Always Step (State.init sizes) tr s (fun _ s' => HandlesReach s' ∧ PartitionsReach s') ∧
    (∀ desc s', blockdevRegister s (Descriptor.ofDriver desc) = some s' → ¬Keeps s (.register desc) →
      ∃ p ∈ s'.handles, ¬Denotes s'.serials p.1 p.2) ∧
    (∀ name s', blockdevUnregister s name = some s' → ¬Keeps s (.unregister name) →
      ∃ p ∈ s'.handles, ¬Denotes s'.serials p.1 p.2) := by
  have hall : Always Step (State.init sizes) tr s (fun _ s' => Inv s') := by
    refine hk.always (inv_init sizes) ?_
    intro _ s₁ a s₂ _ hs hstep hkeep
    obtain rfl := Option.some.inj (performs_labelled.mp hstep)
    exact hs.act hkeep
  have hs : Inv s := hall.last hx
  refine ⟨?_, ?_, ?_⟩
  · intro pre post s' ht hpre hpost
    have hs' := hall pre post s' ht hpre hpost
    exact ⟨hs'.handlesReach, hs'.partitionsReach⟩
  · intro desc s' hr hspoil
    simp only [Keeps, not_forall, not_not] at hspoil
    obtain ⟨p, hp, hat⟩ := hspoil
    exact ⟨p, register_spoils hs hr hp hat⟩
  · intro name s' hr hspoil
    obtain ⟨i, hi, hlt, rfl⟩ := blockdevUnregister_eq_some hr
    simp only [Keeps, Option.mem_def, hi, Option.some.injEq, forall_eq', not_forall] at hspoil
    obtain ⟨p, hp, hat⟩ := hspoil
    exact ⟨p, unregister_spoils hs hlt hp hat⟩

section Runs

theorem exec_foldl (as : List Action) (s : State) : Exec Step s as (as.foldl act s) := by
  induction as generalizing s with
  | nil => exact .nil
  | cons a as ih =>
    have hstep : Step s a (act s a) := performs_labelled.mpr rfl
    exact (Exec.single hstep).trans (ih (act s a))

/-- A boot sector with one partition of ten sectors from sector one on. -/
def bootSector : List UInt8 :=
  List.replicate mbrPartitionTable 0 ++ [0, 0, 0, 0, 6, 0, 0, 0, 1, 0, 0, 0, 10, 0, 0, 0] ++ List.replicate 48 0 ++ [0x55, 0xAA]

/-- A disk of 64 sectors with a one-letter name. -/
def disk (letter : UInt8) : Descriptor Driver where
  name := some [letter]
  blockSize := 512
  blockCount := 64
  ops := some { read := true, write := true }
  flags := 0

/-- A disk with a partition, a volume and a FAT volume on it, and another disk that comes and leaves. -/
def guestRun : List Action :=
  [.register (disk 65), .scan 0 (some bootSector) (fun _ => true), .rescan, .resolve 0, .register (disk 66), .unregister [66]]

theorem handles_reach_their_devices_guest :
    (guestRun.foldl act (State.init [512])).handles = [(0, 0), (1, 1), (0, 0)] ∧
      HandlesReach (guestRun.foldl act (State.init [512])) := by
  refine ⟨by decide +kernel, ?_⟩
  have hx := exec_foldl guestRun (State.init [512])
  exact ((handles_reach_their_devices [512] guestRun _ hx (eachStep_of_allMeet (by decide +kernel))).1.last hx).1

/-- Two disks, of which the second has a partition, and the first leaves. -/
def orphanRun : List Action :=
  [.register (disk 65), .register (disk 66), .scan 1 (some bootSector) (fun _ => true), .unregister [65]]

/-- The partition of the second disk then points to itself: reading it enters the operations of the partition again, although its
disk is still registered. -/
theorem handles_lost_when_a_disk_leaves :
    ¬∀ sizes tr s, Exec Step (State.init sizes) tr s → HandlesReach s := by
  intro hall
  have hreach := hall [] orphanRun _ (exec_foldl orphanRun (State.init []))
  generalize hs : orphanRun.foldl act (State.init []) = s at hreach
  have hdisk : (s.devices[0]?).map BlockDevice.serial = some 1 := by
    rw [← hs]
    decide +kernel
  have hpart : (s.devices[1]?).map BlockDevice.handle = some (some (1, 1)) := by
    rw [← hs]
    decide +kernel
  have hcall : (blockdevCall s .read 1 0 1).map BlockDevice.serial = some 2 := by
    rw [← hs]
    decide +kernel
  obtain ⟨o, ho, hserial⟩ := Option.map_eq_some_iff.mp hdisk
  obtain ⟨d, hd, hhandle⟩ := Option.map_eq_some_iff.mp hpart
  cases hops : d.ops with
  | driver functions => simp [BlockDevice.handle, hops] at hhandle
  | partition data =>
    rw [handle_partition hops] at hhandle
    obtain ⟨hparent, horigin⟩ := Prod.mk.inj (Option.some.inj hhandle)
    have hr := hreach.partition d (mem_of_getElem? hd) data hops .read 0 1
    rw [hparent, horigin] at hr
    rw [hr.1 o (mem_of_getElem? ho) hserial] at hcall
    split at hcall
    · rw [Option.map_some, hserial] at hcall
      exact absurd hcall (by decide)
    · cases hcall

end Runs

end ProOS.Device
