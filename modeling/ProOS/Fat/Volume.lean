import ProOS.Framework.Memory
import ProOS.Framework.Follow
import ProOS.Kernel.Types

namespace ProOS.Fat

open ProOS.Framework

/-- `FATFS_TYPE_FAT16` and `FATFS_TYPE_FAT32`; `FATFS_TYPE_NONE` is a volume that is not there. -/
inductive FatType
  | fat16
  | fat32
  deriving DecidableEq, Repr

/-- `struct fatfs_volume` once it is ready, without its bytes and without its backing device.
The image starts at address 0 of a memory. -/
structure Volume where
  size : Nat
  fatType : FatType
  bytesPerSector : Nat
  sectorsPerCluster : Nat
  reservedSectors : Nat
  fatCount : Nat
  sectorsPerFat : Nat
  dataStartSector : Nat
  totalClusters : Nat
  rootDirSector : Nat
  rootEntries : Nat
  rootCluster : Nat
  deriving DecidableEq, Repr

/-! ## Mounting -/

/-- What `fatfs_init` reads from the boot sector. -/
structure Header where
  bytesPerSector : Nat
  sectorsPerCluster : Nat
  reservedSectors : Nat
  fatCount : Nat
  rootEntries : Nat
  totalSectors : Nat
  sectorsPerFat : Nat
  rootCluster : Nat
  deriving DecidableEq, Repr

def readHeader (boot : Mem) : Header where
  bytesPerSector := get16 boot 11
  sectorsPerCluster := (boot 13).toNat
  reservedSectors := get16 boot 14
  fatCount := (boot 16).toNat
  rootEntries := get16 boot 17
  totalSectors := if get16 boot 19 ≠ 0 then get16 boot 19 else get32 boot 32
  sectorsPerFat := if get16 boot 22 ≠ 0 then get16 boot 22 else get32 boot 36
  rootCluster := get32 boot 44

def Header.rootDirSectors (h : Header) : Nat :=
  (h.rootEntries * 32 + h.bytesPerSector - 1) / h.bytesPerSector

/-- `fatfs_init` for `base != NULL`; sums and products are `uint32_t`. -/
def fatfsInit (boot : Mem) (size : Nat) : Option Volume :=
  if size < 512 then none
  else
    let h := readHeader boot
    if h.bytesPerSector = 0 ∨ h.sectorsPerCluster = 0 ∨ h.fatCount = 0 then none
    else
      let fatArea := h.fatCount * h.sectorsPerFat % 2 ^ 32
      let dataSectors :=
        (h.totalSectors + 2 ^ 32 - (h.reservedSectors + fatArea + h.rootDirSectors) % 2 ^ 32) % 2 ^ 32
      -- `(int32_t)data_sectors < 0`
      if 2 ^ 31 ≤ dataSectors then none
      else
        let clusterCount := dataSectors / h.sectorsPerCluster
        if clusterCount = 0 then none
        else if clusterCount < 65525 then
          some {
            size := size
            fatType := .fat16
            bytesPerSector := h.bytesPerSector
            sectorsPerCluster := h.sectorsPerCluster
            reservedSectors := h.reservedSectors
            fatCount := h.fatCount
            sectorsPerFat := h.sectorsPerFat
            dataStartSector := ((h.reservedSectors + fatArea) % 2 ^ 32 + h.rootDirSectors) % 2 ^ 32
            totalClusters := clusterCount
            rootDirSector := (h.reservedSectors + fatArea) % 2 ^ 32
            rootEntries := h.rootEntries
            rootCluster := 0 }
        else
          some {
            size := size
            fatType := .fat32
            bytesPerSector := h.bytesPerSector
            sectorsPerCluster := h.sectorsPerCluster
            reservedSectors := h.reservedSectors
            fatCount := h.fatCount
            sectorsPerFat := h.sectorsPerFat
            dataStartSector := (h.reservedSectors + fatArea) % 2 ^ 32
            totalClusters := clusterCount
            rootDirSector := 0
            rootEntries := 0
            rootCluster := if h.rootCluster < 2 then 2 else h.rootCluster }

/-! ## Sectors, clusters and the FAT -/

/-- `fatfs_cluster_size_bytes`, a product of 16 and 8 bits. -/
def clusterSizeBytes (v : Volume) : Nat := v.bytesPerSector * v.sectorsPerCluster

def sectorPtr (v : Volume) (sector : Nat) : Option Nat :=
  let offset := sector * v.bytesPerSector % 2 ^ 32
  if v.size ≤ offset then none else some offset

def clusterPtr (v : Volume) (cluster : Nat) : Option Nat :=
  if cluster < 2 then none
  else sectorPtr v ((v.dataStartSector + (cluster - 2) * v.sectorsPerCluster) % 2 ^ 32)

def eocMarker (v : Volume) : Nat :=
  match v.fatType with
  | .fat16 => 0xFFF8
  | .fat32 => 0x0FFFFFF8

def isEoc (v : Volume) (value : Nat) : Bool :=
  match v.fatType with
  | .fat16 => 0xFFF8 ≤ value
  | .fat32 => 0x0FFFFFF8 ≤ value % 2 ^ 28

def entrySize (v : Volume) : Nat :=
  match v.fatType with
  | .fat16 => 2
  | .fat32 => 4

/-- What an entry of the FAT can tell apart. -/
def fatLimit (v : Volume) : Nat :=
  match v.fatType with
  | .fat16 => 2 ^ 16
  | .fat32 => 2 ^ 28

/-- The address of the entry of `cluster` in one copy of the FAT. -/
def fatEntryPtr (v : Volume) (copy cluster : Nat) : Option Nat :=
  let entryOffset := cluster * entrySize v % 2 ^ 32
  let fatSector :=
    (v.reservedSectors + copy * v.sectorsPerFat + entryOffset / v.bytesPerSector) % 2 ^ 32
  (sectorPtr v fatSector).map (· + entryOffset % v.bytesPerSector)

def getFatEntry (v : Volume) (m : Mem) (p : Nat) : Nat :=
  match v.fatType with
  | .fat16 => get16 m p
  | .fat32 => get32 m p % 2 ^ 28

/-- FAT32 keeps the upper four bits of the entry. -/
def putFatEntry (v : Volume) (m : Mem) (p value : Nat) : Mem :=
  match v.fatType with
  | .fat16 => put16 m p value
  | .fat32 => put32 m p (get32 m p / 2 ^ 28 * 2 ^ 28 + value % 2 ^ 28)

def readFat (v : Volume) (m : Mem) (cluster : Nat) : Nat :=
  if (v.totalClusters + 2) % 2 ^ 32 ≤ cluster then eocMarker v
  else
    match fatEntryPtr v 0 cluster with
    | none => eocMarker v
    | some p => getFatEntry v m p

def writeFatCopy (v : Volume) (cluster value : Nat) (m : Mem) (copy : Nat) : Mem :=
  match fatEntryPtr v copy cluster with
  | none => m
  | some p => putFatEntry v m p value

def writeFat (v : Volume) (m : Mem) (cluster value : Nat) : Mem :=
  if (v.totalClusters + 2) % 2 ^ 32 ≤ cluster then m
  else (List.range v.fatCount).foldl (writeFatCopy v cluster value) m

def zeroCluster (v : Volume) (m : Mem) (cluster : Nat) : Mem :=
  match clusterPtr v cluster with
  | none => m
  | some p => writeBytes m p (List.replicate (clusterSizeBytes v) 0)

/-- The clusters `2 .. total_clusters + 2` that `fatfs_allocate_cluster` looks at; the last one always
reads as taken. -/
def candidates (v : Volume) : List Nat := List.range' 2 (v.totalClusters + 1)

/-- The memory and the cluster, 0 if there is none. -/
def allocateCluster (v : Volume) (m : Mem) : Mem × Nat :=
  match (candidates v).find? (fun c => readFat v m c == 0) with
  | some c => (zeroCluster v (writeFat v m c (eocMarker v)) c, c)
  | none => (m, 0)

/-- The link of a cluster, if it is not the last one of a chain. -/
def fatNext (v : Volume) (m : Mem) (cluster : Nat) : Option Nat :=
  if isEoc v (readFat v m cluster) then none else some (readFat v m cluster)

/-- The loop `while (cluster >= 2) { ...; next = fatfs_read_fat(cluster); if (fatfs_is_eoc(next)) break;
cluster = next; }` of those functions that only read. Loops over links of the FAT have no bound of their
own and run on fuel. -/
def followChain {σ ρ : Type} (v : Volume) (m : Mem) (body : Nat → σ → ρ ⊕ σ) (leave : Nat → σ → ρ) :
    Nat → Nat → σ → Option ρ :=
  follow (fatNext v m) (fun cluster => decide (cluster < 2)) body leave

def freeChain (v : Volume) : Nat → Mem → Nat → Option Mem
  | fuel, m, cluster =>
    if cluster < 2 then some m
    else
      match fuel with
      | 0 => none
      | fuel + 1 =>
        let next := readFat v m cluster
        let m := writeFat v m cluster 0
        if isEoc v next then some m else freeChain v fuel m next

end ProOS.Fat
