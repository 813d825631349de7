import ProOS.Kernel.Types
import ProOS.Framework.CellArray
import ProOS.Framework.Exec
import ProOS.Framework.Separated
import ProOS.Framework.SlotTable

namespace ProOS.Ramfs

open ProOS.Framework Function

def ramfsMaxFiles : Nat := 32
def ramfsMaxName : Nat := 32
def ramfsMaxFileSize : Nat := 1024

/-- `struct ramfs_entry`; bytes of `data` behind the terminator are left over from earlier. -/
structure Entry where
  used : Bool
  name : Str
  isDirectory : Bool
  size : Nat
  data : Nat → UInt8

structure Volume where
  files : Fin ramfsMaxFiles → Entry

/-- What a data pointer and a length argument denote; the length is a `size_t`. -/
abbrev Buffer := { bytes : List UInt8 // bytes.length < 2 ^ 32 }

def Volume.set (v : Volume) (i : Fin ramfsMaxFiles) (e : Entry) : Volume :=
  ⟨update v.files i e⟩

def Entry.key (e : Entry) : Option Str := if e.used then some e.name else none

def pathIsValid (name : Str) : Bool :=
  decide (name ≠ [] ∧ name.length < ramfsMaxName ∧ name.head? ≠ some slash ∧
    name.getLast? ≠ some slash)

def findEntry (v : Volume) (name : Str) : Option (Fin ramfsMaxFiles) :=
  slotOf Entry.key v.files name

def ensureParentDirectory (v : Volume) (name : Str) : Bool :=
  match lastIndexOf slash name with
  | none => true
  | some last =>
    if last = 0 ∨ ramfsMaxName ≤ last then false
    else
      match findEntry v (name.take last) with
      | none => false
      | some i => (v.files i).isDirectory

/-- What `create_entry` stores in a slot that held `old`. -/
def newEntry (old : Entry) (name : Str) (directory : Bool) : Entry where
  used := true
  name := name.take (ramfsMaxName - 1)
  isDirectory := directory
  size := 0
  data := update old.data 0 0

def createEntry (v : Volume) (name : Str) (directory : Bool) : Option (Volume × Fin ramfsMaxFiles) :=
  if !pathIsValid name then none
  else
    match findEntry v name with
    | some i => if (v.files i).isDirectory = directory then some (v, i) else none
    | none =>
      if !ensureParentDirectory v name then none
      else
        match freeSlot Entry.key v.files with
        | none => none
        | some i => some (v.set i (newEntry (v.files i) name directory), i)

def Entry.cleared (e : Entry) : Entry where
  used := false
  name := []
  isDirectory := false
  size := 0
  data := update e.data 0 0

def ramfsVolumeInit (memory : Volume) : Volume := ⟨fun i => (memory.files i).cleared⟩

/-- `mem_copy` to `data + offset`; `none` when it runs over the end of the array. -/
def memCopy (data : Nat → UInt8) (offset : Nat) (src : List UInt8) : Option (Nat → UInt8) :=
  if ramfsMaxFileSize < offset + src.length then none
  else some (fun i => if offset ≤ i ∧ i < offset + src.length then src.getD (i - offset) 0 else data i)

def ramfsVolumeRead (v : Volume) (name : Option Str) (hasOut : Bool) (outSize : Nat) :
    Int × List UInt8 :=
  match name with
  | none => (-1, [])
  | some name =>
    if !hasOut || outSize == 0 then (-1, [])
    else if !pathIsValid name then (-1, [])
    else
      match findEntry v name with
      | none => (-1, [])
      | some i =>
        let file := v.files i
        if file.isDirectory then (-1, [])
        else
          let toCopy := if outSize ≤ file.size then outSize - 1 else file.size
          (toCopy, cells file.data toCopy)

/-- The bytes copied into a file, and the terminator behind them. -/
def Entry.store (file : Entry) (data : Nat → UInt8) (size : Nat) : Entry :=
  { file with data := update data size 0, size := size }

def ramfsVolumeAppend (v : Volume) (name : Option Str) (data : Option Buffer) : Option (Int × Volume) :=
  match name, data with
  | some name, some data =>
    let length := data.1.length
    if length = 0 then some (-1, v)
    else if !pathIsValid name then some (-1, v)
    else
      match createEntry v name false with
      | none => some (-1, v)
      | some (v, i) =>
        let file := v.files i
        if file.isDirectory then some (-1, v)
        else if ramfsMaxFileSize ≤ (file.size + length) % 2 ^ 32 then some (-1, v)
        else
          (memCopy file.data file.size data.1).map
            (fun bytes => (length, v.set i (file.store bytes (file.size + length))))
  | _, _ => some (-1, v)

def ramfsVolumeWrite (v : Volume) (name : Option Str) (data : Option Buffer) : Option (Int × Volume) :=
  match name with
  | none => some (-1, v)
  | some name =>
    if !pathIsValid name then some (-1, v)
    else
      match createEntry v name false with
      | none => some (-1, v)
      | some (v, i) =>
        let file := v.files i
        if file.isDirectory then some (-1, v)
        else
          match data with
          | none => some (0, v.set i (file.store file.data 0))
          | some data =>
            let length :=
              if ramfsMaxFileSize ≤ data.1.length then ramfsMaxFileSize - 1 else data.1.length
            (memCopy file.data 0 (data.1.take length)).map
              (fun bytes => (length, v.set i (file.store bytes length)))

/-- The tests that a child passes in the pruning loop of `ramfs_volume_remove`. -/
def isBelow (name child : Str) : Bool :=
  decide (name.length < child.length) && name.isPrefixOf child && child[name.length]? == some slash

def prune (v : Volume) (name : Str) : Volume :=
  ⟨fun i => if (v.files i).used && isBelow name (v.files i).name then (v.files i).cleared else v.files i⟩

def ramfsVolumeRemove (v : Volume) (name : Option Str) : Int × Volume :=
  match name with
  | none => (-1, v)
  | some name =>
    if !pathIsValid name then (-1, v)
    else
      match findEntry v name with
      | none => (-1, v)
      | some i =>
        let removed := v.set i (v.files i).cleared
        if (v.files i).isDirectory then (0, prune removed name) else (0, removed)

def ramfsVolumeMkdir (v : Volume) (name : Option Str) : Int × Volume :=
  match name with
  | none => (-1, v)
  | some name =>
    if !pathIsValid name then (-1, v)
    else
      match createEntry v name true with
      | none => (-1, v)
      | some (v, i) => (0, v.set i ((v.files i).store (v.files i).data 0))

inductive Call
  | write (name : Option Str) (data : Option Buffer)
  | append (name : Option Str) (data : Option Buffer)
  | mkdir (name : Option Str)
  | remove (name : Option Str)
  deriving DecidableEq

abbrev Event := Call × Int

def Call.run (v : Volume) : Call → Option (Int × Volume)
  | .write name data => ramfsVolumeWrite v name data
  | .append name data => ramfsVolumeAppend v name data
  | .mkdir name => some (ramfsVolumeMkdir v name)
  | .remove name => some (ramfsVolumeRemove v name)

def perform (v : Volume) (c : Call) : Option (Event × Volume) :=
  (c.run v).map (fun r => ((c, r.1), r.2))

abbrev Step : Volume → Event → Volume → Prop := Performs perform

/-- The data of the call is shorter than `2 ^ 31` bytes. -/
def Call.Short : Call → Prop
  | .write _ (some data) | .append _ (some data) => data.1.length < 2 ^ 31
  | _ => True

instance (c : Call) : Decidable c.Short :=
  match c with
  | .write _ (some data) | .append _ (some data) =>
    inferInstanceAs (Decidable (data.1.length < 2 ^ 31))
  | .write _ none | .append _ none | .mkdir _ | .remove _ => isTrue trivial

theorem step_iff {v v' : Volume} {e : Event} : Step v e v' ↔ e.1.run v = some (e.2, v') := by
  constructor
  · rintro ⟨c, hc⟩
    obtain ⟨r, hr, he⟩ := Option.map_eq_some_iff.mp hc
    obtain ⟨rfl, rfl⟩ := Prod.mk.inj he
    exact hr
  · intro h
    exact ⟨e.1, by rw [perform, h]; rfl⟩

end ProOS.Ramfs
