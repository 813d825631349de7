import ProOS.Fat.Directory

namespace ProOS.Fat

open ProOS.Framework

/-! ## Listing -/

/-- What the loops of `fatfs_list_directory` print of one entry. -/
def Entry.line (e : Entry) : Str :=
  (formatEntryName e.name).takeWhile (· ≠ 0) ++ (if e.isDirectory then [slash, newline] else [newline])

/-- How the loop over a run of entries ends. -/
inductive ListStop
  | more
  | endOfDirectory
  | noRoom
  deriving DecidableEq, Repr

/-- The entries at `ps` printed behind `written`. -/
def listEntries (m : Mem) (bufferSize : Nat) : List Nat → Str → ListStop × Str
  | [], written => (.more, written)
  | p :: ps, written =>
    let entry := readEntry m p
    if entry.isEnd then (.endOfDirectory, written)
    else if entry.isFree || entry.isVolume || nameIsDot entry.name then listEntries m bufferSize ps written
    else if bufferSize - written.length ≤ entry.line.length then (.noRoom, written)
    else listEntries m bufferSize ps (written ++ entry.line)

def listCluster (v : Volume) (m : Mem) (bufferSize cluster : Nat) (written : Str) : Str ⊕ Str :=
  match clusterPtr v cluster with
  | none => .inl written
  | some p =>
    let r := listEntries m bufferSize (entryPtrs p (entriesPerCluster v)) written
    if r.1 ≠ .more then .inl r.2 else .inr r.2

/-- The bytes put into the buffer and the value returned. -/
structure Listing where
  buffer : Str
  result : Nat
  deriving DecidableEq, Repr

/-- From the label `done` on: the last line break gives way to the terminator. -/
def finishList (bufferSize : Nat) (written : Str) : Listing :=
  if written = [] then ⟨[0], 0⟩
  else
    let text := written.take (bufferSize - 1)
    ⟨text.take (text.length - 1) ++ [0], text.length - 1⟩

/-- `fatfs_list_directory`. The fixed root directory returns without a terminator when the buffer is
full. -/
def listDirectory (v : Volume) (fuel : Nat) (m : Mem) (dirCluster bufferSize : Nat) :
    Option (Option Listing) :=
  if bufferSize = 0 then some none
  else
    onSuccess (dirScan v fuel m dirCluster none) fun _ =>
      if dirCluster = 0 ∧ v.fatType = .fat16 then
        match sectorPtr v v.rootDirSector with
        | none => some none
        | some root =>
          let r := listEntries m bufferSize (entryPtrs root v.rootEntries) []
          if r.1 = .noRoom then some (some ⟨r.2, r.2.length⟩) else some (some (finishList bufferSize r.2))
      else
        (followChain v m (listCluster v m bufferSize) (fun _ w => w) fuel dirCluster []).map
          (fun w => some (finishList bufferSize w))

def fatfsList (v : Volume) (fuel : Nat) (m : Mem) (path : Str) (bufferSize : Nat) :
    Option (Option Listing) :=
  onSuccess (resolveDirectory v fuel m path) fun dirCluster => listDirectory v fuel m dirCluster bufferSize

/-! ## Reading -/

/-- One round of `fatfs_load_cluster_chain`. A buffer shares the address space with the image, so that
`total + to_copy` does not wrap. -/
def loadCluster (v : Volume) (m : Mem) (maxLen cluster : Nat) (out : Str) : Str ⊕ Str :=
  if maxLen ≤ out.length then .inl out
  else
    match clusterPtr v cluster with
    | none => .inl out
    | some src =>
      .inr (out ++ cells (fun i => m (src + i)) (min (clusterSizeBytes v) (maxLen - out.length)))

def loadClusterChain (v : Volume) (fuel : Nat) (m : Mem) (start maxLen : Nat) : Option Str :=
  followChain v m (loadCluster v m maxLen) (fun _ out => out) fuel start []

/-- `fatfs_read`: the bytes before the terminator that it may put behind them. -/
def fatfsRead (v : Volume) (fuel : Nat) (m : Mem) (path : Str) (maxLen : Nat) : Option (Option Str) :=
  if maxLen = 0 then some none
  else
    onSuccess (locate v fuel m path) fun l =>
      match l.scan.found with
      | none => some none
      | some p =>
        let entry := readEntry m p
        if entry.isDirectory then some none
        else
          let bytesToCopy := min entry.fileSize maxLen
          if bytesToCopy = 0 ∨ entry.firstCluster < 2 then some (some [])
          else (loadClusterChain v fuel m entry.firstCluster bytesToCopy).map some

def fatfsFileSize (v : Volume) (fuel : Nat) (m : Mem) (path : Str) : Option (Option Nat) :=
  onSuccess (locate v fuel m path) fun l =>
    match l.scan.found with
    | none => some none
    | some p => some (some (readEntry m p).fileSize)

/-! ## Writing -/

/-- The data of one cluster and zeros behind it. -/
def fillCluster (v : Volume) (m : Mem) (dest : Nat) (piece : List UInt8) : Mem :=
  writeBytes m dest (padTo (clusterSizeBytes v) 0 piece)

/-- The loop of `fatfs_write_replace` over what is left of the data. The clusters are the first and the
last of the chain so far; none is left when there is no free one. -/
def replaceLoop (v : Volume) : List (List UInt8) → Mem → Nat → Nat → Mem × Nat × Option Nat
  | [], m, firstCluster, prevCluster => (m, firstCluster, some prevCluster)
  | piece :: pieces, m, firstCluster, prevCluster =>
    let r := allocateCluster v m
    if r.2 = 0 then (r.1, firstCluster, none)
    else
      let first := if firstCluster = 0 then r.2 else firstCluster
      let m := if prevCluster ≠ 0 then writeFat v r.1 prevCluster r.2 else r.1
      match clusterPtr v r.2 with
      | none => (m, first, none)
      | some dest => replaceLoop v pieces (fillCluster v m dest piece) first r.2

/-- The memory and whether the result is 0. -/
def writeReplace (v : Volume) (fuel : Nat) (m : Mem) (p : Nat) (data : List UInt8) :
    Option (Mem × Bool) :=
  (freeChain v fuel m (readEntry m p).firstCluster).bind fun m =>
    let m := setFileSize (setFirstCluster m p 0) p 0
    if data = [] then some (m, true)
    else
      match replaceLoop v (chunks (clusterSizeBytes v) data) m 0 0 with
      | (m, firstCluster, none) =>
        (freeChain v fuel m firstCluster).map fun m => (setFileSize (setFirstCluster m p 0) p 0, false)
      | (m, firstCluster, some prevCluster) =>
        let m := writeFat v m prevCluster (eocMarker v)
        some (setFileSize (setFirstCluster m p firstCluster) p data.length, true)

/-- The unbounded loop of `fatfs_write_append` to the last cluster; it also follows the links of the
entries 0 and 1. -/
def lastOfChain (v : Volume) (m : Mem) : Nat → Nat → Option Nat
  | 0, _ => none
  | fuel + 1, cluster =>
    let next := readFat v m cluster
    if isEoc v next then some cluster else lastOfChain v m fuel next

def appendLoop (v : Volume) : List (List UInt8) → Mem → Nat → Mem × Bool
  | [], m, _ => (m, true)
  | piece :: pieces, m, lastCluster =>
    let r := allocateCluster v m
    if r.2 = 0 then (r.1, false)
    else
      let m := writeFat v (writeFat v r.1 lastCluster r.2) r.2 (eocMarker v)
      match clusterPtr v r.2 with
      | none => (m, false)
      | some dest => appendLoop v pieces (fillCluster v m dest piece) r.2

/-- The first cluster and the offset in the last one that `fatfs_write_append` starts from; a file
without a chain gets one. -/
def appendStart (v : Volume) (m : Mem) (p : Nat) : Mem × Option (Nat × Nat) :=
  let entry := readEntry m p
  if entry.firstCluster < 2 then
    let r := allocateCluster v m
    if r.2 = 0 then (r.1, none)
    else
      let m := setFileSize (setFirstCluster r.1 p r.2) p 0
      (writeFat v m r.2 (eocMarker v), some (r.2, 0))
  else (m, some (entry.firstCluster, entry.fileSize % clusterSizeBytes v))

def writeAppend (v : Volume) (fuel : Nat) (m : Mem) (p : Nat) (data : List UInt8) :
    Option (Mem × Bool) :=
  if data = [] then some (m, true)
  else
    match appendStart v m p with
    | (m, none) => some (m, false)
    | (m, some (firstCluster, offset)) =>
      (lastOfChain v m fuel firstCluster).bind fun lastCluster =>
        match clusterPtr v lastCluster with
        | none => some (m, false)
        | some dest =>
          let space := clusterSizeBytes v - offset
          let m := writeBytes m (dest + offset) (data.take space)
          if data.length < space then
            some (setFileSize m p ((readEntry m p).fileSize + data.length), true)
          else
            let r := appendLoop v (chunks (clusterSizeBytes v) (data.drop space)) m lastCluster
            if r.2 then some (setFileSize r.1 p ((readEntry r.1 p).fileSize + data.length), true)
            else some (r.1, false)

inductive WriteMode
  | replace
  | append
  deriving DecidableEq, Repr

/-- A slot becomes an entry without clusters. -/
def makeEntry (m : Mem) (p : Nat) (name : Name) (attr : UInt8) : Mem :=
  setAttr (setName (clearEntry m p) p name) p attr

/-- The entry that `fatfs_write` writes to: the one that was found, or a new one. -/
def writeSlot (v : Volume) (m : Mem) (l : Located) : Mem × Option Nat :=
  match l.scan.found with
  | some p => (m, some p)
  | none =>
    match dirTakeSlot v m l.parent l.scan with
    | (m, none) => (m, none)
    | (m, some p) =>
      (setFileSize (setFirstCluster (makeEntry m p l.shortName attrArchive) p 0) p 0, some p)

/-- With `isNull` the data pointer is `NULL`, of whatever length. -/
def writeEntry (v : Volume) (fuel : Nat) (m : Mem) (p : Nat) (isNull : Bool) (data : List UInt8)
    (mode : WriteMode) : Option (Mem × Bool) :=
  if (readEntry m p).isDirectory then some (m, false)
  else if isNull ∧ data ≠ [] then some (m, false)
  else
    match mode with
    | .replace => writeReplace v fuel m p data
    | .append => writeAppend v fuel m p data

/-- `fatfs_write`. A result of 0 is followed by a flush to the backing device, which changes nothing here
and whose failure is only logged. -/
def fatfsWrite (v : Volume) (fuel : Nat) (m : Mem) (path : Str) (isNull : Bool) (data : List UInt8)
    (mode : WriteMode) : Option (Mem × Bool) :=
  (locate v fuel m path).bind fun located =>
    match located with
    | none => some (m, false)
    | some l =>
      match writeSlot v m l with
      | (m, none) => some (m, false)
      | (m, some p) => writeEntry v fuel m p isNull data mode

/-! ## Directories -/

/-- A run of entries of `fatfs_directory_is_empty`: the result, if it is known after them. -/
def emptyEntries (m : Mem) : List Nat → Option Bool
  | [] => none
  | p :: ps =>
    let entry := readEntry m p
    if entry.isEnd then some true
    else if entry.isFree || entry.isVolume || nameIsDot entry.name then emptyEntries m ps
    else some false

def emptyCluster (v : Volume) (m : Mem) (cluster : Nat) (_ : Unit) : Option Bool ⊕ Unit :=
  match clusterPtr v cluster with
  | none => .inl none
  | some p =>
    match emptyEntries m (entryPtrs p (entriesPerCluster v)) with
    | some r => .inl (some r)
    | none => .inr ()

/-- `fatfs_directory_is_empty`; `some none` is the result -1. -/
def directoryIsEmpty (v : Volume) (fuel : Nat) (m : Mem) (cluster : Nat) : Option (Option Bool) :=
  followChain v m (emptyCluster v m) (fun _ _ => some true) fuel cluster ()

def fatfsRemove (v : Volume) (fuel : Nat) (m : Mem) (path : Str) : Option (Mem × Bool) :=
  (locate v fuel m path).bind fun located =>
    match located.bind (fun l => l.scan.found) with
    | none => some (m, false)
    | some p =>
      let entry := readEntry m p
      let drop : Option (Mem × Bool) :=
        (freeChain v fuel m entry.firstCluster).map fun m => (writeBytes m p [entryFree], true)
      if entry.isDirectory then
        if entry.firstCluster < 2 ∧ v.fatType = .fat16 then some (m, false)
        else
          (directoryIsEmpty v fuel m entry.firstCluster).bind fun empty =>
            if empty = some true then drop else some (m, false)
      else drop

def dotName : Name := dot :: List.replicate 10 space
def dotDotName : Name := dot :: dot :: List.replicate 9 space

/-- `fatfs_write_dot_entries`: 64 bytes, whatever the cluster size. -/
def writeDotEntries (v : Volume) (m : Mem) (cluster parentCluster : Nat) : Mem :=
  match clusterPtr v cluster with
  | none => m
  | some p =>
    let m := setFirstCluster (makeEntry m p dotName attrDirectory) p cluster
    setFirstCluster (makeEntry m (p + 32) dotDotName attrDirectory) (p + 32)
      (if parentCluster < 2 ∧ v.fatType = .fat16 then 0 else parentCluster)

def fatfsMkdir (v : Volume) (fuel : Nat) (m : Mem) (path : Str) : Option (Mem × Bool) :=
  (locate v fuel m path).map fun located =>
    match located with
    | none => (m, false)
    | some l =>
      if l.scan.found.isSome then (m, false)
      else
        match dirTakeSlot v m l.parent l.scan with
        | (m, none) => (m, false)
        | (m, some p) =>
          let r := allocateCluster v (makeEntry m p l.shortName attrDirectory)
          if r.2 = 0 then (r.1, false)
          else
            let m := zeroCluster v (writeFat v r.1 r.2 (eocMarker v)) r.2
            let m := writeDotEntries v m r.2
              (if l.parent < 2 ∧ v.fatType = .fat16 then 0 else l.parent)
            (setFileSize (setFirstCluster m p r.2) p 0, true)

/-! ## Calls that change the volume -/

inductive Call
  | write (path : Str) (isNull : Bool) (data : List UInt8) (mode : WriteMode)
  | remove (path : Str)
  | mkdir (path : Str)
  deriving DecidableEq, Repr

/-- The memory after the call, and whether it returned 0. -/
def Call.run (v : Volume) (fuel : Nat) (m : Mem) : Call → Option (Mem × Bool)
  | .write path isNull data mode => fatfsWrite v fuel m path isNull data mode
  | .remove path => fatfsRemove v fuel m path
  | .mkdir path => fatfsMkdir v fuel m path

end ProOS.Fat
