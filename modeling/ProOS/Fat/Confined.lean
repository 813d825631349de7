import ProOS.Fat.Disk

namespace ProOS.Fat

open ProOS.Framework

/-! ## Where the calls store

Neither the reserved sectors before the FAT nor what stands behind the last cluster is written. -/

def Volume.fatStart (v : Volume) : Nat := v.reservedSectors * v.bytesPerSector

def Volume.clustersEnd (v : Volume) : Nat :=
  (v.dataStartSector + v.totalClusters * v.sectorsPerCluster) * v.bytesPerSector

/-- The two memories agree outside of the FAT, the root directory and the clusters. -/
def Confined (v : Volume) (m m' : Mem) : Prop := AgreeOff v.fatStart (v.clustersEnd - v.fatStart) m m'

/-- The first byte of a copy of the FAT. -/
def Volume.fatBase (v : Volume) (k : Nat) : Nat := (v.reservedSectors + k * v.sectorsPerFat) * v.bytesPerSector

/-- All copies of the FAT have the same bytes. -/
def Mirrored (v : Volume) (m : Mem) : Prop :=
  ∀ k < v.fatCount, ∀ i < v.sectorsPerFat * v.bytesPerSector, m (v.fatBase k + i) = m (v.fatBase 0 + i)

/-- What every store of the calls keeps. -/
structure Stored (v : Volume) (m m' : Mem) : Prop where
  confined : Confined v m m'
  mirrored : Mirrored v m → Mirrored v m'

section Stores

variable {v : Volume} {m m' m₁ : Mem} {c k r n : Nat} {s : Slot}

theorem Stored.refl (v : Volume) (m : Mem) : Stored v m m := ⟨AgreeOff.refl _ _ m, id⟩

theorem Stored.trans (h : Stored v m m₁) (h' : Stored v m₁ m') : Stored v m m' :=
  ⟨AgreeOff.trans h.confined h'.confined, fun hm => h'.mirrored (h.mirrored hm)⟩

theorem Volume.fatBase_succ (v : Volume) (k : Nat) :
    v.fatBase (k + 1) = v.fatBase k + v.sectorsPerFat * v.bytesPerSector := by
  rw [Volume.fatBase, Volume.fatBase]
  ring

theorem Volume.fatBase_le (v : Volume) {k k' : Nat} (h : k < k') : v.fatBase (k + 1) ≤ v.fatBase k' :=
  Nat.mul_le_mul_right _ (Nat.add_le_add_left (Nat.mul_le_mul_right _ h) _)

theorem Volume.Fits.area_within (hv : v.Fits) (hr : v.Area r) :
    v.fatStart ≤ v.addr r ∧ v.addr r + v.len r ≤ v.clustersEnd := by
  refine ⟨le_trans (Nat.mul_le_mul_right _ (Nat.le_add_right _ _)) (hv.fat_before hr), ?_⟩
  rcases hr with ⟨rfl, ht⟩ | hc
  · exact (hv.root_end ht).trans (Nat.mul_le_mul_right _ (Nat.le_add_right _ _))
  · rw [Volume.Fits.addr_add_len hc]
    refine Nat.mul_le_mul_right _ (Nat.add_le_add_left (Nat.mul_le_mul_right _ ?_) _)
    have := hc.2
    omega

theorem Confined.behind (h : Confined v m m') (hv : v.Fits) {i : Nat} (hi : v.clustersEnd ≤ i) : m' i = m i := by
  have hle : v.fatStart ≤ v.clustersEnd :=
    Nat.mul_le_mul_right _ ((Nat.le_add_right _ _).trans (hv.data.trans (Nat.le_add_right _ _)))
  exact h i (.inr (by omega))

theorem Stored.of_area {off : Nat} (h : AgreeOff (v.addr r + off) n m m') (hv : v.Fits) (hr : v.Area r)
    (hn : off + n ≤ v.len r) : Stored v m m' := by
  obtain ⟨hstart, hend⟩ := hv.area_within hr
  have hcopies : ∀ k < v.fatCount, ∀ i < v.sectorsPerFat * v.bytesPerSector,
      m' (v.fatBase k + i) = m (v.fatBase k + i) := by
    intro k hk i hi
    have hlast := v.fatBase_le hk
    have hbefore : v.fatBase v.fatCount ≤ v.addr r := hv.fat_before hr
    rw [v.fatBase_succ] at hlast
    exact h _ (by omega)
  refine ⟨h.mono (by omega) (by omega), fun hm k hk i hi => ?_⟩
  rw [hcopies k hk i hi, hcopies 0 hv.copies_pos i hi, hm k hk i hi]

theorem Stored.of_slot (h : AgreeOff (v.slotAddr s) 32 m m') (hv : v.Fits) (hs : v.Has s) : Stored v m m' :=
  .of_area h hv hs.1 (slot_end hs)

section

variable (hv : v.Fits)

include hv

theorem setFields_stored (hs : v.Has s) (m : Mem) (c x : Nat) :
    Stored v m (setFileSize (setFirstCluster m (v.slotAddr s) c) (v.slotAddr s) x) :=
  .of_slot ((setFirstCluster_agreeOff c).trans (setFileSize_agreeOff x)) hv hs

theorem Volume.Fits.entry_within (hc : c < v.totalClusters + 2) (k : Nat) :
    v.fatBase k ≤ v.fatAddr k c ∧ v.fatAddr k c + entrySize v ≤ v.fatBase (k + 1) :=
  ⟨Nat.le_add_right _ _, hv.fatAddr_end hc⟩

theorem writeFat_outside (hc : c < v.totalClusters + 2) {a x : Nat}
    (ha : ∀ k < v.fatCount, a < v.fatBase k ∨ v.fatBase (k + 1) ≤ a) : writeFat v m c x a = m a := by
  refine writeFat_other hv hc (fun k hk => ?_)
  have hin := hv.entry_within hc k
  have := ha k hk
  omega

theorem writeFat_mirrored (hc : c < v.totalClusters + 2) (x : Nat) (hm : Mirrored v m) :
    Mirrored v (writeFat v m c x) := by
  have hrest : ∀ k, ∀ i < v.sectorsPerFat * v.bytesPerSector,
      i < c * entrySize v ∨ c * entrySize v + entrySize v ≤ i →
        writeFat v m c x (v.fatBase k + i) = m (v.fatBase k + i) := by
    intro k i hi hapart
    refine writeFat_other hv hc (fun k' _ => ?_)
    have hsucc := v.fatBase_succ k
    obtain ⟨hfirst, hlast⟩ := hv.entry_within hc k'
    rcases lt_trichotomy k k' with hlt | rfl | hlt
    · have := v.fatBase_le hlt
      exact .inl (by omega)
    · have hentry : v.fatAddr k c = v.fatBase k + c * entrySize v := rfl
      omega
    · have := v.fatBase_le hlt
      exact .inr (by omega)
  intro k hk i hi
  by_cases hapart : i < c * entrySize v ∨ c * entrySize v + entrySize v ≤ i
  · rw [hrest k i hi hapart, hrest 0 i hi hapart, hm k hk i hi]
  · obtain ⟨j, rfl⟩ : ∃ j, i = c * entrySize v + j := ⟨i - c * entrySize v, by omega⟩
    have hj : j < entrySize v := by omega
    rw [← Nat.add_assoc, ← Nat.add_assoc]
    refine (writeFat_copy hv hc hk hj).trans (Eq.trans ?_ (writeFat_copy hv hc hv.copies_pos hj).symm)
    refine putFatEntry_local (fun i' hi' => ?_) hj
    have hin : v.fatBase 0 + c * entrySize v + entrySize v ≤ v.fatBase 1 := (hv.entry_within hc 0).2
    rw [v.fatBase_succ] at hin
    have hsame := hm k hk (c * entrySize v + i') (by omega)
    rwa [← Nat.add_assoc, ← Nat.add_assoc] at hsame

theorem writeFat_stored (m : Mem) (c x : Nat) : Stored v m (writeFat v m c x) := by
  by_cases hc : c < v.totalClusters + 2
  · refine ⟨fun i hi => writeFat_outside hv hc (fun k hk => ?_), writeFat_mirrored hv hc x⟩
    have hend : v.fatBase v.fatCount ≤ v.clustersEnd :=
      Nat.mul_le_mul_right _ (hv.data.trans (Nat.le_add_right _ _))
    have hlast := v.fatBase_le hk
    have hfirst : v.fatStart ≤ v.fatBase k := Nat.mul_le_mul_right _ (Nat.le_add_right _ _)
    omega
  · rw [writeFat, hv.mod_eq, if_pos (by omega)]
    exact .refl v m

theorem zeroCluster_stored (hc : v.InRange c) (m : Mem) : Stored v m (zeroCluster v m c) := by
  rw [zeroCluster, hv.clusterPtr_eq hc]
  have h : AgreeOff (v.addr c + 0) (List.replicate (clusterSizeBytes v) (0 : UInt8)).length m _ := writeBytes_agreeOff
  exact .of_area h hv (.inr hc) (by simp [Volume.Fits.len_cluster hc])

theorem fillCluster_stored (hc : v.InRange c) {piece : List UInt8}
    (hp : piece.length ≤ clusterSizeBytes v) (m : Mem) : Stored v m (fillCluster v m (v.addr c) piece) := by
  have h : AgreeOff (v.addr c + 0) (padTo (clusterSizeBytes v) 0 piece).length m _ := writeBytes_agreeOff
  exact .of_area h hv (.inr hc) (by rw [length_padTo hp, Volume.Fits.len_cluster hc, Nat.zero_add])

theorem makeEntry_stored (hs : v.Has s) {name : Name} (hn : name.length = 11) (attr : UInt8) (m : Mem) :
    Stored v m (makeEntry m (v.slotAddr s) name attr) := .of_slot (makeEntry_agreeOff hn attr) hv hs

end

end Stores

end ProOS.Fat
