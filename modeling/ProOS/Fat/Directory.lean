import ProOS.Fat.Volume
import ProOS.Fat.Names

namespace ProOS.Fat

open ProOS.Framework

/-! ## Directory entries -/

/-- `struct fat_dir_entry` without its times. -/
structure Entry where
  name : Name
  attr : UInt8
  firstCluster : Nat
  fileSize : Nat
  deriving DecidableEq, Repr

def attrDirectory : UInt8 := 0x10
def attrVolumeId : UInt8 := 0x08
def attrLfn : UInt8 := 0x0F
def attrArchive : UInt8 := 0x20
def entryFree : UInt8 := 0xE5
def entryEnd : UInt8 := 0x00

def readEntry (m : Mem) (p : Nat) : Entry where
  name := cells (fun i => m (p + i)) 11
  attr := m (p + 11)
  firstCluster := get16 m (p + 20) * 65536 + get16 m (p + 26)
  fileSize := get32 m (p + 28)

def setFirstCluster (m : Mem) (p cluster : Nat) : Mem :=
  put16 (put16 m (p + 20) (cluster / 65536)) (p + 26) cluster

def setFileSize (m : Mem) (p size : Nat) : Mem := put32 m (p + 28) size

def clearEntry (m : Mem) (p : Nat) : Mem := writeBytes m p (List.replicate 32 0)

def setName (m : Mem) (p : Nat) (name : Name) : Mem := writeBytes m p name

def setAttr (m : Mem) (p : Nat) (attr : UInt8) : Mem := writeBytes m (p + 11) [attr]

namespace Entry

def isEnd (e : Entry) : Bool := e.name[0]? == some entryEnd

def isFree (e : Entry) : Bool := e.name[0]? == some entryFree

/-- Long names and volume labels, which every loop passes over. -/
def isVolume (e : Entry) : Bool := e.attr == attrLfn || e.attr &&& attrVolumeId != 0

def isDirectory (e : Entry) : Bool := e.attr &&& attrDirectory != 0

end Entry

def entriesPerCluster (v : Volume) : Nat := clusterSizeBytes v / 32

def entryPtrs (p n : Nat) : List Nat := (List.range n).map (fun i => p + 32 * i)

/-! ## Scanning a directory -/

/-- `struct fat_dir_scan`, `found` being `match`; the clusters and indices that are recorded beside
the entries are not read by anyone. -/
structure DirScan where
  found : Option Nat
  freeEntry : Option Nat
  zeroEntry : Option Nat
  lastCluster : Nat
  deriving DecidableEq, Repr

/-- The entries at `ps`, and whether the scan is over with them. -/
def scanEntries (m : Mem) (target : Option Name) : List Nat → DirScan → Bool × DirScan
  | [], scan => (false, scan)
  | p :: ps, scan =>
    let entry := readEntry m p
    if entry.isEnd then
      (true, if scan.zeroEntry.isNone then { scan with zeroEntry := some p } else scan)
    else if entry.isFree then
      scanEntries m target ps (if scan.freeEntry.isNone then { scan with freeEntry := some p } else scan)
    else if entry.isVolume then scanEntries m target ps scan
    else if target = some entry.name ∧ scan.found.isNone then (true, { scan with found := some p })
    else scanEntries m target ps scan

/-- One cluster of the directory; beside the scan goes the cluster before this one. -/
def scanCluster (v : Volume) (m : Mem) (target : Option Name) (cluster : Nat) (s : DirScan × Nat) :
    Option DirScan ⊕ DirScan × Nat :=
  match clusterPtr v cluster with
  | none => .inl none
  | some p =>
    let r := scanEntries m target (entryPtrs p (entriesPerCluster v)) s.1
    if r.1 then .inl (some { r.2 with lastCluster := cluster }) else .inr (r.2, cluster)

/-- The end of the chain, or a link to no cluster. -/
def scanEnd (dirCluster cluster : Nat) (s : DirScan × Nat) : Option DirScan :=
  if 2 ≤ cluster then some { s.1 with lastCluster := cluster }
  else if s.1.lastCluster = 0 then
    some { s.1 with lastCluster := if s.2 ≠ 0 then s.2 else dirCluster }
  else some s.1

def dirScan (v : Volume) (fuel : Nat) (m : Mem) (dirCluster : Nat) (target : Option Name) :
    Option (Option DirScan) :=
  let scan : DirScan := ⟨none, none, none, if 2 ≤ dirCluster then dirCluster else 0⟩
  if dirCluster = 0 ∧ v.fatType = .fat16 then
    match sectorPtr v v.rootDirSector with
    | none => some none
    | some root => some (some (scanEntries m target (entryPtrs root v.rootEntries) scan).2)
  else followChain v m (scanCluster v m target) (scanEnd dirCluster) fuel dirCluster (scan, 0)

/-- `fatfs_dir_take_slot`: the memory and the address of the entry. -/
def dirTakeSlot (v : Volume) (m : Mem) (dirCluster : Nat) (scan : DirScan) : Mem × Option Nat :=
  match scan.found, scan.freeEntry, scan.zeroEntry with
  | some p, _, _ => (m, some p)
  | none, some p, _ => (m, some p)
  | none, none, some p => (writeBytes m p [entryFree], some p)
  | none, none, none =>
    if dirCluster < 2 then (m, none)
    else
      let r := allocateCluster v m
      if r.2 = 0 then (r.1, none)
      else
        let last := if scan.lastCluster ≠ 0 then scan.lastCluster else dirCluster
        let m := if 2 ≤ last then writeFat v r.1 last r.2 else r.1
        let m := zeroCluster v (writeFat v m r.2 (eocMarker v)) r.2
        (m, clusterPtr v r.2)

/-! ## Paths -/

def rootDirectory (v : Volume) : Nat :=
  match v.fatType with
  | .fat16 => 0
  | .fat32 => v.rootCluster

/-- The loop of `fatfs_resolve_directory` over the segments of the path. A segment that does not fit
its buffer of 16 bytes ends the loop just as the end of the path does. -/
def resolveSegments (v : Volume) (fuel : Nat) (m : Mem) : List Str → Nat → Option (Option Nat)
  | [], current => some (some current)
  | segment :: segments, current =>
    if 16 ≤ segment.length then some (some current)
    else
      match makeShortName segment with
      | none => some none
      | some shortName =>
        onSuccess (dirScan v fuel m current (some shortName)) fun scan =>
          match scan.found with
          | none => some none
          | some p =>
            let entry := readEntry m p
            if !entry.isDirectory then some none
            else if entry.firstCluster = 0 ∧ v.fatType = .fat32 then some none
            else resolveSegments v fuel m segments entry.firstCluster

def resolveDirectory (v : Volume) (fuel : Nat) (m : Mem) (path : Str) : Option (Option Nat) :=
  resolveSegments v fuel m (fields slash path) (rootDirectory v)

/-- `fatfs_resolve_parent`: the parent directory and the leaf. -/
def resolveParent (v : Volume) (fuel : Nat) (m : Mem) (path : Str) : Option (Option (Nat × Str)) :=
  match lastIndexOf slash path with
  | none => if 64 ≤ path.length then some none else some (some (rootDirectory v, path))
  | some i =>
    if 128 ≤ i then some none
    else
      onSuccess (resolveDirectory v fuel m (path.take i)) fun parent =>
        let leaf := path.drop (i + 1)
        if 64 ≤ leaf.length then some none else some (some (parent, leaf))

/-- The directory, the short name and the scan for it that each call on a file starts with. -/
structure Located where
  parent : Nat
  shortName : Name
  scan : DirScan

def locate (v : Volume) (fuel : Nat) (m : Mem) (path : Str) : Option (Option Located) :=
  onSuccess (resolveParent v fuel m path) fun (parent, leaf) =>
    match prepareShortName leaf with
    | none => some none
    | some shortName =>
      onSuccess (dirScan v fuel m parent (some shortName)) fun scan =>
        some (some ⟨parent, shortName, scan⟩)

end ProOS.Fat
