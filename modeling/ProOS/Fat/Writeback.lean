import ProOS.Fat.Failure
import ProOS.Framework.Exec

namespace ProOS.Fat

open ProOS.Framework

/-! ## The backing device -/

/-- The image and the rest of `struct fatfs_volume`; `stored` are the bytes of the device from the sector
`backing_lba` on. -/
structure BackedVolume where
  image : Mem
  stored : Mem
  backingSectors : Nat
  backingConfigured : Bool
  dirty : Bool

def fatfsBindBacking (image stored : Mem) (sectorCount : Nat) : BackedVolume :=
  ⟨image, stored, sectorCount, decide (0 < sectorCount), false⟩

/-- What the block devices have to say to a flush: there are none, none has sectors of the right size, or the
result of `blockdev_write`. One that fails may leave anything in the sectors it was asked to write. -/
inductive DeviceAnswer
  | noDevices
  | unresolved
  | failed (left : Mem)
  | stored

/-- The number of sectors that `fatfs_flush` writes. -/
def flushSectors (v : Volume) (backingSectors : Nat) : Option Nat :=
  let sectors := if backingSectors = 0 then v.size / v.bytesPerSector else backingSectors
  if sectors = 0 then none
  else
    -- `required_bytes` is a `size_t`
    let sectors := if v.size < sectors * v.bytesPerSector % 2 ^ 32 then v.size / v.bytesPerSector else sectors
    if sectors = 0 then none else some sectors

/-- The first `n` bytes of the device are those of `m`. -/
def overwrite (n : Nat) (m stored : Mem) : Mem := fun i => if i < n then m i else stored i

/-- `fatfs_flush` of a volume that is ready; its result only decides about a warning. -/
def fatfsFlush (v : Volume) (b : BackedVolume) (answer : DeviceAnswer) : BackedVolume :=
  if !b.dirty then b
  else if !b.backingConfigured then b
  else if v.bytesPerSector = 0 then b
  else
    match flushSectors v b.backingSectors with
    | none => b
    | some sectors =>
      match answer with
      | .noDevices => b
      | .unresolved => b
      | .failed left => { b with stored := overwrite (sectors * v.bytesPerSector) left b.stored }
      | .stored => { b with stored := overwrite (sectors * v.bytesPerSector) b.image b.stored, dirty := false }

def fatfsFlushOrWarn (v : Volume) (b : BackedVolume) (answer : DeviceAnswer) : BackedVolume :=
  if !b.backingConfigured then b
  else
    match answer with
    | .noDevices => b
    | _ => fatfsFlush v b answer

/-- The end of a call: only one that was successful marks the volume as dirty. -/
def finishCall (v : Volume) (b : BackedVolume) (r : Mem × Bool) (answer : DeviceAnswer) : BackedVolume :=
  if r.2 then fatfsFlushOrWarn v { b with image := r.1, dirty := true } answer else { b with image := r.1 }

/-- A call returns and, if it was successful, asks the device. -/
def CallStep (v : Volume) (b : BackedVolume) (e : Call × DeviceAnswer) (b' : BackedVolume) : Prop :=
  ∃ r, Returns (fun n => e.1.run v n b.image) r ∧ b' = finishCall v b r e.2

def BackedVolume.InSync (v : Volume) (b : BackedVolume) : Prop := ∀ i < v.size, b.stored i = b.image i

/-! ## What a flush does -/

section Flush

variable {v : Volume} {b : BackedVolume} {k : Nat}

/-- Behind the sectors that a flush writes, the device has the bytes of the image at all times. -/
def BackedVolume.RestInSync (v : Volume) (b : BackedVolume) (k : Nat) : Prop :=
  ∀ i, k * v.bytesPerSector ≤ i → i < v.size → b.stored i = b.image i

theorem flushOrWarn_spec (answer : DeviceAnswer) (hk : flushSectors v b.backingSectors = some k) (hrest : b.RestInSync v k)
    (hdirty : b.dirty = true) :
    (fatfsFlushOrWarn v b answer).image = b.image ∧ (fatfsFlushOrWarn v b answer).backingSectors = b.backingSectors ∧
      (fatfsFlushOrWarn v b answer).RestInSync v k ∧
      ((fatfsFlushOrWarn v b answer).dirty = false → (fatfsFlushOrWarn v b answer).InSync v) := by
  have hsame : b.image = b.image ∧ b.backingSectors = b.backingSectors ∧ b.RestInSync v k ∧
      (b.dirty = false → b.InSync v) :=
    ⟨rfl, rfl, hrest, fun hd => absurd hd (ne_false_of_eq_true hdirty)⟩
  have hover : ∀ m, ∀ i, k * v.bytesPerSector ≤ i → i < v.size →
      overwrite (k * v.bytesPerSector) m b.stored i = b.image i := by
    intro m i hi hlt
    rw [overwrite, if_neg (by omega), hrest i hi hlt]
  unfold fatfsFlushOrWarn
  split
  · exact hsame
  · rename_i hconf
    have hflush : (fatfsFlush v b answer).image = b.image ∧ (fatfsFlush v b answer).backingSectors = b.backingSectors ∧
        (fatfsFlush v b answer).RestInSync v k ∧ ((fatfsFlush v b answer).dirty = false → (fatfsFlush v b answer).InSync v) := by
      unfold fatfsFlush
      rw [hdirty, Bool.not_true, if_neg Bool.false_ne_true, if_neg hconf, hk]
      split
      · exact hsame
      · cases answer with
        | noDevices => exact hsame
        | unresolved => exact hsame
        | failed left => exact ⟨rfl, rfl, hover left, fun hd => by cases hd⟩
        | stored =>
          refine ⟨rfl, rfl, hover b.image, fun _ i hi => ?_⟩
          by_cases hlt : i < k * v.bytesPerSector
          · exact if_pos hlt
          · exact hover b.image i (by omega) hi
    cases answer with
    | noDevices => exact hsame
    | unresolved => exact hflush
    | failed left => exact hflush
    | stored => exact hflush

theorem flushSectors_covers (hv : v.Fits) {sectorCount : Nat} (hcover : v.size ≤ sectorCount * v.bytesPerSector) :
    ∃ k, flushSectors v sectorCount = some k ∧ v.clustersEnd ≤ k * v.bytesPerSector := by
  have hend : v.clustersEnd ≤ v.size := hv.dataEnd
  have hsectors : v.dataStartSector + v.totalClusters * v.sectorsPerCluster ≤ v.size / v.bytesPerSector :=
    (Nat.le_div_iff_mul_le hv.bytes_pos).mpr hend
  have hpos : 0 < v.totalClusters * v.sectorsPerCluster := Nat.mul_pos hv.some_cluster hv.cluster_pos
  have hcount : sectorCount ≠ 0 := by
    rintro rfl
    have hsize : 0 < v.size / v.bytesPerSector := by omega
    have := (Nat.div_pos_iff.mp hsize).2
    rw [Nat.zero_mul] at hcover
    have := hv.bytes_pos
    omega
  unfold flushSectors
  rw [if_neg hcount]
  dsimp only
  rw [if_neg hcount]
  split
  · have hne : v.size / v.bytesPerSector ≠ 0 := by omega
    exact ⟨_, if_neg hne, Nat.mul_le_mul_right _ hsectors⟩
  · exact ⟨sectorCount, rfl, hend.trans hcover⟩

end Flush

/-! ## Runs -/

/-- What the calls keep of a volume with a backing of which a flush writes `k` sectors. -/
structure Tracked (v : Volume) (k : Nat) (b : BackedVolume) : Prop where
  sound : Sound v (view v b.image)
  sectors : flushSectors v b.backingSectors = some k
  rest : b.RestInSync v k
  synced : b.dirty = false → b.InSync v

/-- The call has room for its entries and for its data. -/
def Covered (v : Volume) (b : BackedVolume) (e : Call × DeviceAnswer) : Prop :=
  e.1.FitsCluster v ∧ e.1.Affordable v (view v b.image)

theorem Tracked.step {v : Volume} {k : Nat} {b b' : BackedVolume} {e : Call × DeviceAnswer} (hv : v.Fits)
    (hk : v.clustersEnd ≤ k * v.bytesPerSector) (ht : Tracked v k b) (hstep : CallStep v b e b') (hc : Covered v b e) :
    Tracked v k b' := by
  obtain ⟨r, hret, rfl⟩ := hstep
  obtain ⟨r', hret', hsound, hstored⟩ := Call.run_sound hv ht.sound hc.1
  obtain rfl := hret.unique hret'
  obtain ⟨r'', hret'', hsame⟩ := Call.run_unchanged hv hc.1.le ht.sound.toOwned hc.2
  obtain rfl := hret.unique hret''
  unfold finishCall
  cases hok : r.2 with
  | false =>
    rw [hsame hok, if_neg Bool.false_ne_true]
    exact ht
  | true =>
    have hrest : BackedVolume.RestInSync v { b with image := r.1, dirty := true } k := by
      intro i hi hlt
      rw [ht.rest i hi hlt]
      exact (hstored.confined.behind hv (hk.trans hi)).symm
    have hk' : flushSectors v (BackedVolume.mk r.1 b.stored b.backingSectors b.backingConfigured true).backingSectors =
        some k := ht.sectors
    obtain ⟨himage, hsectors, hrest', hsync⟩ := flushOrWarn_spec e.2 hk' hrest rfl
    rw [if_pos rfl]
    refine ⟨?_, ?_, hrest', hsync⟩
    · rw [himage]
      exact hsound
    · rw [hsectors]
      exact ht.sectors

theorem writeback_invariant {boot image stored : Mem} {size sectorCount : Nat} {v : Volume}
    (hinit : fatfsInit boot size = some v) (hsize : size < 2 ^ 32) (hsecure : v.Secure)
    (hcs : 32 ≤ clusterSizeBytes v) (hs : Sound v (view v image)) (hcover : v.size ≤ sectorCount * v.bytesPerSector)
    (hagree : (fatfsBindBacking image stored sectorCount).InSync v) {tr : List (Call × DeviceAnswer)} {b : BackedVolume}
    (hcond : EachStep (CallStep v) (fatfsBindBacking image stored sectorCount) tr b (Covered v)) :
    Always (CallStep v) (fatfsBindBacking image stored sectorCount) tr b (fun _ b => b.dirty = false → b.InSync v) := by
  have hv := hsecure.fits hinit hsize hcs
  obtain ⟨k, hk, hend⟩ := flushSectors_covers hv hcover
  have hstart : Tracked v k (fatfsBindBacking image stored sectorCount) :=
    ⟨hs, hk, fun i _ hi => hagree i hi, fun _ => hagree⟩
  have hall := hcond.always (P := fun _ b => Tracked v k b) hstart
    (fun _ _ _ _ _ ht hstep hc => ht.step hv hend hstep hc)
  intro pre post b' htr hpre hpost
  exact (hall pre post b' htr hpre hpost).synced

end ProOS.Fat
