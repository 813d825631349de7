import ProOS.Fat.Calls
import ProOS.Fat.Entries
import ProOS.Fat.Geometry

namespace ProOS.Fat

open ProOS.Framework

/-! ## Volumes whose regions fit -/

/-- The layout of a volume whose regions lie one behind the other inside the image. -/
structure Volume.Fits (v : Volume) : Prop where
  size_lt : v.size < 2 ^ 32
  bytes_pos : 0 < v.bytesPerSector
  cluster_pos : 0 < v.sectorsPerCluster
  copies_pos : 0 < v.fatCount
  some_cluster : 0 < v.totalClusters
  fatHolds : entrySize v * (v.totalClusters + 2) ≤ v.sectorsPerFat * v.bytesPerSector
  root : v.fatType = .fat16 → v.fatEnd ≤ v.rootDirSector ∧
    v.rootDirSector * v.bytesPerSector + 32 * v.rootEntries ≤ v.dataStartSector * v.bytesPerSector
  data : v.fatEnd ≤ v.dataStartSector
  dataEnd : (v.dataStartSector + v.totalClusters * v.sectorsPerCluster) * v.bytesPerSector ≤ v.size
  fat16 : v.fatType = .fat16 → v.totalClusters < 65525
  fat32 : v.fatType = .fat32 → v.totalClusters + 2 ≤ 0x0FFFFFF8 ∧ 2 ≤ v.rootCluster ∧
    v.rootCluster < v.totalClusters + 2

theorem ceil_mul_ge (n b : Nat) (hb : 0 < b) : n ≤ (n + b - 1) / b * b := by
  have h := Nat.div_add_mod (n + b - 1) b
  have hlt := Nat.mod_lt (n + b - 1) hb
  rw [Nat.mul_comm] at h
  omega

/-- A secure volume has its fields without a wrap. A cluster of 32 bytes or more keeps the clusters of
FAT32 apart from its end marks. -/
theorem Volume.Secure.fits {boot : Mem} {size : Nat} {v : Volume} (hs : v.Secure)
    (hinit : fatfsInit boot size = some v) (hsize : size < 2 ^ 32) (hcs : 32 ≤ clusterSizeBytes v) : v.Fits := by
  have ha := accepted_of_init hinit
  have hlt : v.size < 2 ^ 32 := ha.size_eq ▸ hsize
  have hb := ha.bytes_pos
  have hlast : (Region.cluster (v.totalClusters + 1)).In v := ⟨by have := ha.some_cluster; omega, by omega⟩
  have hend := hs.inside _ hlast
  have hend' : (v.fatEnd + v.rootSectors + v.totalClusters * v.sectorsPerCluster) * v.bytesPerSector ≤ v.size := hend
  have hle : v.fatEnd + v.rootSectors + v.totalClusters * v.sectorsPerCluster ≤ v.size :=
    (Nat.le_mul_of_pos_right _ hb).trans hend'
  have hstart : v.dataStartSector = v.fatEnd + v.rootSectors := by
    rw [ha.dataStart, Nat.mod_eq_of_lt (by omega)]
  refine ⟨hlt, hb, ha.cluster_pos, ha.copies_pos, ha.some_cluster, hs.fatHolds, ?_, by omega, ?_, ?_, ?_⟩
  · intro ht
    have hroot : v.rootDirSector = v.fatEnd := by
      rw [(ha.fat16 ht).2, Nat.mod_eq_of_lt (by omega)]
    have hceil := ceil_mul_ge (v.rootEntries * 32) v.bytesPerSector hb
    refine ⟨hroot.ge, ?_⟩
    rw [hroot, hstart, Nat.add_mul, Volume.rootSectors]
    omega
  · rw [hstart]
    exact hend'
  · exact fun ht => (ha.fat16 ht).1
  · intro ht
    have hrange := hs.rootInRange ht
    refine ⟨?_, hrange⟩
    -- the FAT and the data take 36 bytes for each cluster
    have hfat := hs.fatHolds
    have hfour : entrySize v = 4 := by rw [entrySize, ht]
    have hone : v.sectorsPerFat ≤ v.fatCount * v.sectorsPerFat := Nat.le_mul_of_pos_left _ ha.copies_pos
    have hspf : v.sectorsPerFat * v.bytesPerSector ≤ (v.fatEnd + v.rootSectors) * v.bytesPerSector :=
      Nat.mul_le_mul_right _ (by rw [Volume.fatEnd]; omega)
    have hdata : v.totalClusters * 32 ≤ v.totalClusters * v.sectorsPerCluster * v.bytesPerSector := by
      rw [Nat.mul_assoc, Nat.mul_comm v.sectorsPerCluster]
      exact Nat.mul_le_mul_left _ hcs
    rw [Nat.add_mul] at hend'
    rw [hfour] at hfat
    omega

/-! ## Addresses -/

def Volume.InRange (v : Volume) (c : Nat) : Prop := 2 ≤ c ∧ c < v.totalClusters + 2

instance (v : Volume) (c : Nat) : Decidable (v.InRange c) :=
  inferInstanceAs (Decidable (2 ≤ c ∧ c < v.totalClusters + 2))

/-- A cluster, or 0 for the fixed root directory. -/
def Volume.Area (v : Volume) (r : Nat) : Prop := r = 0 ∧ v.fatType = .fat16 ∨ v.InRange r

instance (v : Volume) (r : Nat) : Decidable (v.Area r) :=
  inferInstanceAs (Decidable (r = 0 ∧ v.fatType = .fat16 ∨ v.InRange r))

def Volume.addr (v : Volume) (r : Nat) : Nat :=
  if r = 0 then v.rootDirSector * v.bytesPerSector
  else (v.dataStartSector + (r - 2) * v.sectorsPerCluster) * v.bytesPerSector

def Volume.len (v : Volume) (r : Nat) : Nat := if r = 0 then 32 * v.rootEntries else clusterSizeBytes v

def Volume.fatAddr (v : Volume) (k c : Nat) : Nat :=
  (v.reservedSectors + k * v.sectorsPerFat) * v.bytesPerSector + c * entrySize v

namespace Volume.Fits

variable {v : Volume} {c c' k k' r r' : Nat}

theorem addr_cluster (hc : v.InRange c) :
    v.addr c = (v.dataStartSector + (c - 2) * v.sectorsPerCluster) * v.bytesPerSector := by
  rw [Volume.addr, if_neg (by have := hc.1; omega)]

theorem len_cluster (hc : v.InRange c) : v.len c = clusterSizeBytes v := by
  rw [Volume.len, if_neg (by have := hc.1; omega)]

theorem addr_add_len (hc : v.InRange c) :
    v.addr c + v.len c = (v.dataStartSector + (c - 1) * v.sectorsPerCluster) * v.bytesPerSector := by
  rw [addr_cluster hc, len_cluster hc, clusterSizeBytes, show c - 1 = c - 2 + 1 by have := hc.1; omega]
  ring

section

variable (h : v.Fits)

include h

theorem cluster_end (hc : v.InRange c) : v.addr c + v.len c ≤ v.size := by
  rw [addr_add_len hc]
  refine le_trans (Nat.mul_le_mul_right _ (Nat.add_le_add_left (Nat.mul_le_mul_right _ ?_) _)) h.dataEnd
  have := hc.2
  omega

theorem clusterSize_pos : 0 < clusterSizeBytes v := Nat.mul_pos h.bytes_pos h.cluster_pos

theorem clusterPtr_eq (hc : v.InRange c) : clusterPtr v c = some (v.addr c) := by
  have hend := h.cluster_end hc
  have hpos := h.clusterSize_pos
  have hsize := h.size_lt
  rw [len_cluster hc, addr_cluster hc] at hend
  have hle := Nat.le_mul_of_pos_right (v.dataStartSector + (c - 2) * v.sectorsPerCluster) h.bytes_pos
  have hsector : (v.dataStartSector + (c - 2) * v.sectorsPerCluster) % 2 ^ 32 =
      v.dataStartSector + (c - 2) * v.sectorsPerCluster := Nat.mod_eq_of_lt (by omega)
  rw [clusterPtr, if_neg (not_lt.mpr hc.1), hsector, sectorPtr, Nat.mod_eq_of_lt (by omega), if_neg (by omega),
    addr_cluster hc]

theorem dataStart_lt : v.dataStartSector * v.bytesPerSector < v.size := by
  have hend := h.dataEnd
  have hpos : 0 < v.totalClusters * v.sectorsPerCluster * v.bytesPerSector :=
    Nat.mul_pos (Nat.mul_pos h.some_cluster h.cluster_pos) h.bytes_pos
  rw [Nat.add_mul] at hend
  omega

theorem root_end (ht : v.fatType = .fat16) : v.addr 0 + v.len 0 ≤ v.dataStartSector * v.bytesPerSector := by
  rw [Volume.addr, if_pos rfl, Volume.len, if_pos rfl]
  exact (h.root ht).2

theorem rootPtr_eq (ht : v.fatType = .fat16) : sectorPtr v v.rootDirSector = some (v.addr 0) := by
  have hend := h.root_end ht
  have hlt := h.dataStart_lt
  have hsize := h.size_lt
  have haddr : v.addr 0 = v.rootDirSector * v.bytesPerSector := if_pos rfl
  rw [haddr] at hend ⊢
  rw [sectorPtr, Nat.mod_eq_of_lt (by omega), if_neg (by omega)]

theorem areas_apart (hr : v.Area r) (hr' : v.Area r') (hne : r ≠ r') :
    v.addr r + v.len r ≤ v.addr r' ∨ v.addr r' + v.len r' ≤ v.addr r := by
  have hstart : ∀ {c}, v.InRange c → v.dataStartSector * v.bytesPerSector ≤ v.addr c := by
    intro c hc
    rw [addr_cluster hc]
    exact Nat.mul_le_mul_right _ (Nat.le_add_right _ _)
  have hclusters : ∀ {c c'}, v.InRange c → v.InRange c' → c < c' → v.addr c + v.len c ≤ v.addr c' := by
    intro c c' hc hc' hlt
    rw [addr_add_len hc, addr_cluster hc']
    exact Nat.mul_le_mul_right _ (Nat.add_le_add_left (Nat.mul_le_mul_right _ (by omega)) _)
  rcases hr with ⟨rfl, ht⟩ | hr
  · rcases hr' with ⟨rfl, -⟩ | hr'
    · exact absurd rfl hne
    · exact .inl ((h.root_end ht).trans (hstart hr'))
  · rcases hr' with ⟨rfl, ht⟩ | hr'
    · exact .inr ((h.root_end ht).trans (hstart hr))
    · rcases lt_or_gt_of_ne hne with hlt | hlt
      · exact .inl (hclusters hr hr' hlt)
      · exact .inr (hclusters hr' hr hlt)

theorem fat_before (hr : v.Area r) : v.fatEnd * v.bytesPerSector ≤ v.addr r := by
  rcases hr with ⟨rfl, ht⟩ | hr
  · rw [Volume.addr, if_pos rfl]
    exact Nat.mul_le_mul_right _ (h.root ht).1
  · rw [addr_cluster hr]
    exact Nat.mul_le_mul_right _ (h.data.trans (Nat.le_add_right _ _))

theorem fatAddr_end (hc : c < v.totalClusters + 2) :
    v.fatAddr k c + entrySize v ≤ (v.reservedSectors + (k + 1) * v.sectorsPerFat) * v.bytesPerSector := by
  have hfat := h.fatHolds
  have hle : entrySize v * (c + 1) ≤ entrySize v * (v.totalClusters + 2) := Nat.mul_le_mul_left _ (by omega)
  have hexp : (v.reservedSectors + (k + 1) * v.sectorsPerFat) * v.bytesPerSector =
      (v.reservedSectors + k * v.sectorsPerFat) * v.bytesPerSector + v.sectorsPerFat * v.bytesPerSector := by ring
  have hmul : entrySize v * (c + 1) = c * entrySize v + entrySize v := by ring
  rw [Volume.fatAddr, hexp]
  omega

theorem fatAddr_lt (hk : k < v.fatCount) (hc : c < v.totalClusters + 2) :
    v.fatAddr k c + entrySize v ≤ v.fatEnd * v.bytesPerSector :=
  (h.fatAddr_end hc).trans (Nat.mul_le_mul_right _ (Nat.add_le_add_left (Nat.mul_le_mul_right _ hk) _))

theorem fatEntryPtr_eq (hk : k < v.fatCount) (hc : c < v.totalClusters + 2) :
    fatEntryPtr v k c = some (v.fatAddr k c) := by
  have hend := h.fatAddr_lt hk hc
  have hdata : v.fatEnd * v.bytesPerSector ≤ v.dataStartSector * v.bytesPerSector := Nat.mul_le_mul_right _ h.data
  have hlt := h.dataStart_lt
  have hsize := h.size_lt
  have hpos : 0 < entrySize v := by
    unfold entrySize
    cases v.fatType <;> decide
  have hoff : c * entrySize v % 2 ^ 32 = c * entrySize v := by
    apply Nat.mod_eq_of_lt
    have : c * entrySize v ≤ v.fatAddr k c := Nat.le_add_left _ _
    omega
  have hsplit := Nat.div_add_mod (c * entrySize v) v.bytesPerSector
  generalize hq : c * entrySize v / v.bytesPerSector = q at hsplit
  generalize hr : c * entrySize v % v.bytesPerSector = r at hsplit
  have haddr : (v.reservedSectors + k * v.sectorsPerFat + q) * v.bytesPerSector + r = v.fatAddr k c := by
    rw [Volume.fatAddr, ← hsplit]
    ring
  have hle := Nat.le_mul_of_pos_right (v.reservedSectors + k * v.sectorsPerFat + q) h.bytes_pos
  have hsector : (v.reservedSectors + k * v.sectorsPerFat + q) % 2 ^ 32 =
      v.reservedSectors + k * v.sectorsPerFat + q := Nat.mod_eq_of_lt (by omega)
  simp only [fatEntryPtr, hoff, hq, hr, hsector]
  rw [sectorPtr, Nat.mod_eq_of_lt (by omega), if_neg (by omega), Option.map_some, haddr]

theorem fatAddr_apart (hc : c < v.totalClusters + 2) (hc' : c' < v.totalClusters + 2) (hne : k ≠ k' ∨ c ≠ c') :
    v.fatAddr k c + entrySize v ≤ v.fatAddr k' c' ∨ v.fatAddr k' c' + entrySize v ≤ v.fatAddr k c := by
  have hcopies : ∀ {k k' c c' : Nat}, c < v.totalClusters + 2 → k < k' →
      v.fatAddr k c + entrySize v ≤ v.fatAddr k' c' := by
    intro k k' c c' hc hlt
    refine (h.fatAddr_end hc).trans (le_trans ?_ (Nat.le_add_right _ _))
    exact Nat.mul_le_mul_right _ (Nat.add_le_add_left (Nat.mul_le_mul_right _ hlt) _)
  have hsame : ∀ {c c' : Nat}, c < c' → v.fatAddr k c + entrySize v ≤ v.fatAddr k c' := by
    intro c c' hlt
    have hle : (c + 1) * entrySize v ≤ c' * entrySize v := Nat.mul_le_mul_right _ hlt
    rw [Nat.add_mul, Nat.one_mul] at hle
    rw [Volume.fatAddr, Volume.fatAddr]
    omega
  rcases lt_trichotomy k k' with hlt | rfl | hlt
  · exact .inl (hcopies hc hlt)
  · rcases lt_or_gt_of_ne (hne.resolve_left (fun hf => hf rfl)) with hlt | hlt
    · exact .inl (hsame hlt)
    · exact .inr (hsame hlt)
  · exact .inr (hcopies hc' hlt)

theorem mod_eq : (v.totalClusters + 2) % 2 ^ 32 = v.totalClusters + 2 := by
  apply Nat.mod_eq_of_lt
  cases ht : v.fatType with
  | fat16 =>
    have := h.fat16 ht
    omega
  | fat32 =>
    have := (h.fat32 ht).1
    omega

end

end Volume.Fits

/-! ## The FAT and the areas of a memory -/

section Stores

variable {v : Volume} {m : Mem} {c c' k r x : Nat}

theorem putFatEntry_agreeOff (p x : Nat) : AgreeOff p (entrySize v) m (putFatEntry v m p x) := by
  unfold putFatEntry entrySize
  cases v.fatType with
  | fat16 => exact put16_agreeOff x
  | fat32 => exact put32_agreeOff _

theorem putFatEntry_local {m' : Mem} {p q j : Nat} (h : ∀ i < entrySize v, m' (q + i) = m (p + i))
    (hj : j < entrySize v) : putFatEntry v m' q x (q + j) = putFatEntry v m p x (p + j) := by
  unfold entrySize at h hj
  unfold putFatEntry
  cases ht : v.fatType with
  | fat16 =>
    rw [ht] at hj
    rw [put16, put16]
    exact (writeBytes_at hj).trans (writeBytes_at hj).symm
  | fat32 =>
    rw [ht] at h hj
    have hword : get32 m' q = get32 m p := by
      simp only [get32, get16, Nat.add_assoc, h 1 (by decide), h 2 (by decide), h (2 + 1) (by decide)]
      rw [show m' q = m p from h 0 (by decide)]
    dsimp only
    rw [hword, put32, put32]
    exact (writeBytes_at hj).trans (writeBytes_at hj).symm

theorem writeCopies_other (h : v.Fits) (hc : c < v.totalClusters + 2) {l : List Nat} (hl : ∀ k ∈ l, k < v.fatCount)
    {a : Nat} (ha : ∀ k ∈ l, a < v.fatAddr k c ∨ v.fatAddr k c + entrySize v ≤ a) :
    l.foldl (writeFatCopy v c x) m a = m a := by
  induction l generalizing m with
  | nil => rfl
  | cons k l ih =>
    rw [List.forall_mem_cons] at hl ha
    rw [List.foldl_cons, ih hl.2 ha.2, writeFatCopy, h.fatEntryPtr_eq hl.1 hc]
    exact putFatEntry_agreeOff _ _ a ha.1

theorem writeFat_other (h : v.Fits) (hc : c < v.totalClusters + 2) {a : Nat}
    (ha : ∀ k < v.fatCount, a < v.fatAddr k c ∨ v.fatAddr k c + entrySize v ≤ a) : writeFat v m c x a = m a := by
  rw [writeFat_eq (h.mod_eq.symm ▸ hc)]
  exact writeCopies_other h hc (fun k hk => List.mem_range.mp hk) (fun k hk => ha k (List.mem_range.mp hk))

theorem writeFat_copy (h : v.Fits) (hc : c < v.totalClusters + 2) (hk : k < v.fatCount) {j : Nat}
    (hj : j < entrySize v) :
    writeFat v m c x (v.fatAddr k c + j) = putFatEntry v m (v.fatAddr k c) x (v.fatAddr k c + j) := by
  have hcopies : ∀ (l : List Nat) (m : Mem), l.Nodup → (∀ i ∈ l, i < v.fatCount) → k ∈ l →
      l.foldl (writeFatCopy v c x) m (v.fatAddr k c + j) =
        putFatEntry v m (v.fatAddr k c) x (v.fatAddr k c + j) := by
    intro l
    induction l with
    | nil => exact fun m _ _ hmem => by cases hmem
    | cons i l ih =>
      intro m hnodup hl hmem
      rw [List.forall_mem_cons] at hl
      rw [List.nodup_cons] at hnodup
      rw [List.foldl_cons, writeFatCopy, h.fatEntryPtr_eq hl.1 hc]
      by_cases hki : k = i
      · subst hki
        refine writeCopies_other h hc hl.2 (fun i hi => ?_)
        have := h.fatAddr_apart hc hc (.inl (fun he : k = i => hnodup.1 (he ▸ hi)))
        omega
      · rw [ih _ hnodup.2 hl.2 ((List.mem_cons.mp hmem).resolve_left hki)]
        refine putFatEntry_local (fun i' hi' => putFatEntry_agreeOff _ _ _ ?_) hj
        have := h.fatAddr_apart hc hc (.inl hki)
        omega
  rw [writeFat_eq (h.mod_eq.symm ▸ hc)]
  exact hcopies _ m List.nodup_range (fun i hi => List.mem_range.mp hi) (List.mem_range.mpr hk)

theorem writeFat_area (h : v.Fits) (hc : c < v.totalClusters + 2) (hr : v.Area r) (i : Nat) :
    writeFat v m c x (v.addr r + i) = m (v.addr r + i) := by
  apply writeFat_other h hc
  intro k hk
  have h₁ := h.fatAddr_lt hk hc
  have h₂ := h.fat_before hr
  omega

theorem readFat_fits (h : v.Fits) (hc : c < v.totalClusters + 2) (m : Mem) :
    readFat v m c = getFatEntry v m (v.fatAddr 0 c) :=
  readFat_eq (h.mod_eq.symm ▸ hc) (h.fatEntryPtr_eq h.copies_pos hc) m

theorem readFat_outside (h : v.Fits) (hc : v.totalClusters + 2 ≤ c) (m : Mem) : readFat v m c = eocMarker v := by
  rw [readFat, if_pos (by rw [h.mod_eq]; exact hc)]

theorem getFatEntry_congr {m m' : Mem} {p : Nat} (h : ∀ i, p ≤ i → i < p + entrySize v → m' i = m i) :
    getFatEntry v m' p = getFatEntry v m p := by
  unfold getFatEntry
  unfold entrySize at h
  cases ht : v.fatType with
  | fat16 =>
    rw [ht] at h
    exact get16_congr h
  | fat32 =>
    rw [ht] at h
    dsimp only
    rw [get32_congr h]

theorem getFatEntry_writeFat (h : v.Fits) (hc : c < v.totalClusters + 2) (hk : k < v.fatCount) :
    getFatEntry v (writeFat v m c x) (v.fatAddr k c) = x % fatLimit v := by
  rw [← getFatEntry_put (m := m) (p := v.fatAddr k c)]
  apply getFatEntry_congr
  intro i h₁ h₂
  obtain ⟨j, rfl⟩ := Nat.exists_eq_add_of_le h₁
  exact writeFat_copy h hc hk (by omega)

/-- What a read of the FAT depends on. -/
theorem readFat_local {m' : Mem} (h : v.Fits) (hm : c < v.totalClusters + 2 →
    ∀ i, v.fatAddr 0 c ≤ i → i < v.fatAddr 0 c + entrySize v → m' i = m i) : readFat v m' c = readFat v m c := by
  by_cases hc : c < v.totalClusters + 2
  · rw [readFat_fits h hc, readFat_fits h hc, getFatEntry_congr (hm hc)]
  · rw [readFat_outside h (not_lt.mp hc), readFat_outside h (not_lt.mp hc)]

theorem readFat_writeFat (h : v.Fits) (hc : c < v.totalClusters + 2) (c' : Nat) :
    readFat v (writeFat v m c x) c' = if c' = c then x % fatLimit v else readFat v m c' := by
  split
  · rename_i he
    rw [he, readFat_fits h hc, getFatEntry_writeFat h hc h.copies_pos]
  · rename_i hne
    refine readFat_local h (fun hc' i h₁ h₂ => writeFat_other h hc (fun k _ => ?_))
    have : v.fatAddr 0 c' + entrySize v ≤ v.fatAddr k c ∨ v.fatAddr k c + entrySize v ≤ v.fatAddr 0 c' :=
      h.fatAddr_apart hc' hc (.inr hne)
    omega

theorem readFat_congr {m' : Mem} (h : v.Fits) (hr : v.Area r) (hm : AgreeOff (v.addr r) (v.len r) m m') (c : Nat) :
    readFat v m' c = readFat v m c := by
  refine readFat_local h (fun hc i h₁ h₂ => hm i ?_)
  have := h.fatAddr_lt h.copies_pos hc
  have := h.fat_before hr
  omega

end Stores

end ProOS.Fat
