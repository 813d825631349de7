import ProOS.Fat.Volume

namespace ProOS.Fat

open ProOS.Framework

/-! ## Regions of the image -/

/-- The parts of the image that a volume speaks of. -/
inductive Region
  | reserved
  | fat (copy : Nat)
  | root
  | cluster (c : Nat)
  deriving DecidableEq, Repr

/-- The sectors of the fixed root directory; FAT32 has none. -/
def Volume.rootSectors (v : Volume) : Nat :=
  (v.rootEntries * 32 + v.bytesPerSector - 1) / v.bytesPerSector

/-- The first sector behind all copies of the FAT, in exact integers. -/
def Volume.fatEnd (v : Volume) : Nat := v.reservedSectors + v.fatCount * v.sectorsPerFat

namespace Region

/-- The first sector of the region and the first behind it, in exact integers. -/
def first (v : Volume) : Region → Nat
  | reserved => 0
  | fat k => v.reservedSectors + k * v.sectorsPerFat
  | root => v.fatEnd
  | cluster c => v.fatEnd + v.rootSectors + (c - 2) * v.sectorsPerCluster

def last (v : Volume) : Region → Nat
  | reserved => v.reservedSectors
  | fat k => v.reservedSectors + (k + 1) * v.sectorsPerFat
  | root => v.fatEnd + v.rootSectors
  | cluster c => v.fatEnd + v.rootSectors + (c - 1) * v.sectorsPerCluster

def In (v : Volume) : Region → Prop
  | reserved => True
  | fat k => k < v.fatCount
  | root => True
  | cluster c => 2 ≤ c ∧ c < v.totalClusters + 2

end Region

/-- Every region lies inside the image, no two overlap, the FAT has room for all clusters, and what
`fatfs_cluster_ptr` returns points at a whole cluster of the image. -/
structure Volume.Secure (v : Volume) : Prop where
  inside : ∀ r : Region, r.In v → r.last v * v.bytesPerSector ≤ v.size
  apart : ∀ r r' : Region, r.In v → r'.In v → r ≠ r' →
    r.last v * v.bytesPerSector ≤ r'.first v * v.bytesPerSector ∨
      r'.last v * v.bytesPerSector ≤ r.first v * v.bytesPerSector
  fatHolds : entrySize v * (v.totalClusters + 2) ≤ v.sectorsPerFat * v.bytesPerSector
  rootInRange : v.fatType = .fat32 → 2 ≤ v.rootCluster ∧ v.rootCluster < v.totalClusters + 2
  pointers : ∀ c p, (Region.cluster c).In v → clusterPtr v c = some p →
    p = (Region.cluster c).first v * v.bytesPerSector ∧ p + clusterSizeBytes v ≤ v.size

/-! ## The header -/

namespace Header

variable (h : Header)

/-- All sectors before the data, as the cluster count takes them off. -/
def metaSectors : Nat := h.reservedSectors + h.fatCount * h.sectorsPerFat + h.rootDirSectors

def clusters : Nat := (h.totalSectors - h.metaSectors) / h.sectorsPerCluster

/-- A volume of 65525 clusters or more is FAT32, where the root directory takes no sectors of its own. -/
def dataStart : Nat :=
  h.reservedSectors + h.fatCount * h.sectorsPerFat + if h.clusters < 65525 then h.rootDirSectors else 0

def fatEntrySize : Nat := if h.clusters < 65525 then 2 else 4

/-- What a header has to say for its regions to fit into `size` bytes. -/
structure Fits (size : Nat) : Prop where
  data : (h.dataStart + h.clusters * h.sectorsPerCluster) * h.bytesPerSector ≤ size
  fat : h.fatEntrySize * (h.clusters + 2) ≤ h.sectorsPerFat * h.bytesPerSector
  root : 65525 ≤ h.clusters → max h.rootCluster 2 < h.clusters + 2

end Header

/-- Nothing wraps when the sectors before the data are no more than all sectors. -/
structure Mounted (h : Header) (size : Nat) (v : Volume) : Prop where
  size_eq : v.size = size
  bytes : v.bytesPerSector = h.bytesPerSector
  cluster : v.sectorsPerCluster = h.sectorsPerCluster
  reserved : v.reservedSectors = h.reservedSectors
  copies : v.fatCount = h.fatCount
  fat : v.sectorsPerFat = h.sectorsPerFat
  clusters : v.totalClusters = h.clusters
  dataStart : v.dataStartSector = h.dataStart
  dataStart_exact : v.fatEnd + v.rootSectors = h.dataStart
  fatType : v.fatType = if h.clusters < 65525 then .fat16 else .fat32
  rootCluster : 65525 ≤ h.clusters → v.rootCluster = max h.rootCluster 2
  some_cluster : 0 < h.clusters
  bytes_pos : 0 < h.bytesPerSector
  cluster_pos : 0 < h.sectorsPerCluster

structure Accepted (boot : Mem) (size : Nat) (v : Volume) : Prop where
  size_eq : v.size = size
  bytes_pos : 0 < v.bytesPerSector
  cluster_pos : 0 < v.sectorsPerCluster
  copies_pos : 0 < v.fatCount
  some_cluster : 0 < v.totalClusters
  dataStart : v.dataStartSector = (v.fatEnd + v.rootSectors) % 2 ^ 32
  fat16 : v.fatType = .fat16 → v.totalClusters < 65525 ∧ v.rootDirSector = v.fatEnd % 2 ^ 32
  fat32 : v.fatType = .fat32 → v.rootEntries = 0 ∧ 2 ≤ v.rootCluster

theorem accepted_of_init {boot : Mem} {size : Nat} {v : Volume} (hinit : fatfsInit boot size = some v) :
    Accepted boot size v := by
  unfold fatfsInit at hinit
  generalize readHeader boot = h at hinit
  dsimp only at hinit
  split at hinit
  · cases hinit
  split at hinit
  · cases hinit
  rename_i hpos
  simp only [not_or] at hpos
  obtain ⟨hb, hc, hf⟩ := hpos
  split at hinit
  · cases hinit
  split at hinit
  · cases hinit
  rename_i hsome
  have hroot : ∀ a b r : Nat, ((a + b % 2 ^ 32) % 2 ^ 32 + r) % 2 ^ 32 = (a + b + r) % 2 ^ 32 := by omega
  have hfat : ∀ a b : Nat, (a + b % 2 ^ 32) % 2 ^ 32 = (a + b) % 2 ^ 32 := by omega
  split at hinit
  · rename_i hlt
    cases hinit
    refine ⟨rfl, Nat.pos_of_ne_zero hb, Nat.pos_of_ne_zero hc, Nat.pos_of_ne_zero hf,
      Nat.pos_of_ne_zero hsome, hroot _ _ _, ?_, ?_⟩
    · intro _
      exact ⟨hlt, hfat _ _⟩
    · intro ht
      cases ht
  · cases hinit
    refine ⟨rfl, Nat.pos_of_ne_zero hb, Nat.pos_of_ne_zero hc, Nat.pos_of_ne_zero hf,
      Nat.pos_of_ne_zero hsome, ?_, ?_, ?_⟩
    · have hnone : (0 * 32 + h.bytesPerSector - 1) / h.bytesPerSector = 0 := Nat.div_eq_of_lt (by omega)
      show _ = (h.reservedSectors + h.fatCount * h.sectorsPerFat +
        (0 * 32 + h.bytesPerSector - 1) / h.bytesPerSector) % 2 ^ 32
      rw [hnone]
      exact hfat _ _
    · intro ht
      cases ht
    · intro _
      refine ⟨rfl, ?_⟩
      show 2 ≤ if h.rootCluster < 2 then 2 else h.rootCluster
      split <;> omega

section Mounted

variable {h : Header} {size : Nat} {v : Volume}

theorem Mounted.entrySize_eq (hm : Mounted h size v) : entrySize v = h.fatEntrySize := by
  rw [entrySize, hm.fatType, Header.fatEntrySize]
  split <;> simp_all

theorem Mounted.fits (hm : Mounted h size v) (hs : v.Secure) : h.Fits size := by
  refine ⟨?_, ?_, ?_⟩
  · -- the last cluster ends where the data ends
    have hpos := hm.some_cluster
    have hin : (Region.cluster (v.totalClusters + 1)).In v := by
      rw [← hm.clusters] at hpos
      exact ⟨by omega, by omega⟩
    have hlast := hs.inside _ hin
    rw [hm.size_eq, hm.bytes] at hlast
    rwa [show (Region.cluster (v.totalClusters + 1)).last v = h.dataStart + h.clusters * h.sectorsPerCluster by
      rw [← hm.dataStart_exact, ← hm.clusters, ← hm.cluster]
      rfl] at hlast
  · have hfat := hs.fatHolds
    rwa [hm.entrySize_eq, hm.clusters, hm.fat, hm.bytes] at hfat
  · intro hge
    have hroot := hs.rootInRange (by rw [hm.fatType, if_neg (by omega)])
    rw [hm.rootCluster hge, hm.clusters] at hroot
    exact hroot.2

end Mounted

/-- A boot sector of 512-byte sectors, one per cluster, with one FAT of one sector. -/
def bootSector (rootEntries totalSectors : UInt8) : Mem := fun i =>
  if i = 12 then 2 else if i = 13 then 1 else if i = 14 then 1 else if i = 16 then 1
  else if i = 17 then rootEntries else if i = 19 then totalSectors else if i = 22 then 1 else 0

end ProOS.Fat
