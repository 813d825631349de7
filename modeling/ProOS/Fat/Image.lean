import ProOS.Fat.Directory

/-! The generator of the built-in image (`fat16_image.c`), which lays the format out on its own. -/

namespace ProOS.Fat.Image

open ProOS.Framework

def sectorSize : Nat := 512
def totalSectors : Nat := 128
def reservedSectors : Nat := 1
def fatCount : Nat := 1
def rootEntries : Nat := 64
def sectorsPerCluster : Nat := 1
def fatSectors : Nat := 1
def rootDirSectors : Nat := 4

def dataStart : Nat := reservedSectors + fatCount * fatSectors + rootDirSectors

def imageSize : Nat := totalSectors * sectorSize
def fatArea : Nat := reservedSectors * sectorSize

def rootArea : Nat := (reservedSectors + fatCount * fatSectors) * sectorSize

def dataArea : Nat := dataStart * sectorSize

def maxClusters : Nat := (totalSectors - dataStart) / sectorsPerCluster

def clusterBytes : Nat := sectorSize * sectorsPerCluster

def memset (m : Mem) (a : Nat) (b : UInt8) (n : Nat) : Mem := fun i => if a ≤ i ∧ i < a + n then b else m i

def writeBootSector (m : Mem) : Mem :=
  let b := memset m 0 0 sectorSize
  let b := writeBytes b 0 [0xEB, 0x3C, 0x90]
  -- "PROOS   "
  let b := writeBytes b 3 [80, 82, 79, 79, 83, 32, 32, 32]
  let b := writeBytes b 11 [0x00, 0x02]
  let b := writeBytes b 13 [UInt8.ofNat sectorsPerCluster]
  let b := put16 b 14 reservedSectors
  let b := writeBytes b 16 [UInt8.ofNat fatCount]
  let b := put16 b 17 rootEntries
  let b := put16 b 19 totalSectors
  let b := writeBytes b 21 [0xF8]
  let b := put16 b 22 fatSectors
  let b := writeBytes b 24 [0x01]
  let b := writeBytes b 26 [0x01]
  let b := writeBytes b 28 [0x00, 0x00]
  -- "FAT16    "
  let b := writeBytes b 36 [70, 65, 84, 49, 54, 32, 32, 32, 32]
  writeBytes b 510 [0x55, 0xAA]

def setFatEntry (m : Mem) (cluster value : Nat) : Mem := put16 m (fatArea + cluster * 2) value

/-- `image`, `next_cluster` and `root_entries_used`. -/
structure Builder where
  image : Mem
  nextCluster : Nat
  rootEntriesUsed : Nat

/-- `m` is what was in the memory before, around the image and in it. -/
def filesystemInit (m : Mem) : Builder :=
  let m := writeBootSector (memset m 0 0 imageSize)
  let m := memset m fatArea 0 (fatSectors * sectorSize)
  let m := memset m rootArea 0 (rootDirSectors * sectorSize)
  let m := memset m dataArea 0 ((totalSectors - dataStart) * sectorSize)
  ⟨setFatEntry (setFatEntry m 0 0xFFF8) 1 0xFFFF, 2, 0⟩

/-- The loop over the clusters of one file; `data` is what is left of it. -/
def appendClusters : Nat → Nat → List UInt8 → Mem → Mem
  | 0, _, _, m => m
  | clustersNeeded + 1, cluster, data, m =>
    let dst := dataArea + (cluster - 2) * clusterBytes
    let toCopy := min data.length clusterBytes
    let m := writeBytes m dst (data.take toCopy)
    let m := memset m (dst + toCopy) 0 (clusterBytes - toCopy)
    let data := data.drop toCopy
    let m := setFatEntry m cluster (if 0 < data.length then cluster + 1 else 0xFFFF)
    appendClusters clustersNeeded (cluster + 1) data m

def rootEntry (m : Mem) (p : Nat) (name : Name) (startCluster size : Nat) : Mem :=
  let m := memset m p 0 32
  let m := writeBytes m p name
  let m := writeBytes m (p + 11) [0x20]
  let m := put16 m (p + 26) startCluster
  put32 m (p + 28) size

def addRootEntry (b : Builder) (name : Name) (startCluster size : Nat) : Builder where
  image := rootEntry b.image (rootArea + b.rootEntriesUsed * 32) name startCluster size
  nextCluster := b.nextCluster
  rootEntriesUsed := b.rootEntriesUsed + 1

/-- `append_file` of `size` bytes of data; `none` is `NULL`. The sum in `clusters_needed` is a `uint32_t`. -/
def appendFile (b : Builder) (name : Name) (data : Option (List UInt8)) : Builder :=
  match data with
  | none => b
  | some data =>
    if rootEntries ≤ b.rootEntriesUsed then b
    else
      let clustersNeeded := (data.length + clusterBytes - 1) % 2 ^ 32 / clusterBytes
      if 0 < clustersNeeded then
        let used := b.nextCluster - 2
        if maxClusters < used + clustersNeeded then b
        else
          addRootEntry
            { b with
              image := appendClusters clustersNeeded b.nextCluster data b.image
              nextCluster := (b.nextCluster + clustersNeeded) % 2 ^ 16 }
            name b.nextCluster data.length
      else addRootEntry b name 0 data.length

def appendFiles (b : Builder) (files : List (Name × List UInt8)) : Builder :=
  files.foldl (fun b file => appendFile b file.1 (some file.2)) b

end ProOS.Fat.Image
