import ProOS.Vfs.Path
import ProOS.Framework.Exec

namespace ProOS.Vfs

open ProOS.Framework

def vfsMaxMounts : Nat := 8
def vfsMaxAliases : Nat := 8

inductive Handler
  | list
  | read
  | write
  | remove
  | mkdir
  deriving DecidableEq, Repr

/-- `struct vfs_mount`; of the operations it matters which are not `NULL`. -/
structure Mount where
  used : Bool
  mountPoint : Str
  prefixLen : Nat
  ops : Option (Handler → Bool)

structure Alias where
  used : Bool
  fromPath : Str
  fromLen : Nat
  toPath : Str

structure Tables where
  mounts : Fin vfsMaxMounts → Mount
  aliases : Fin vfsMaxAliases → Alias

/-- `local_strncmp(a, b, n) == 0`. -/
def strncmpEq (a b : Str) (n : Nat) : Bool := a.take n == b.take n

/-- The character at index `n` of a path is its terminator or a slash. -/
def endsSegment (path : Str) (n : Nat) : Bool := path[n]? == none || path[n]? == some slash

/-- What follows a matched beginning of a path, without the slash between them. -/
def afterLen (path : Str) (n : Nat) : Str :=
  match path.drop n with
  | [] => []
  | ch :: rest => if ch = slash then rest else ch :: rest

/-- The tests that an alias passes in the loop of `apply_alias`. -/
def Alias.covers (a : Alias) (path : Str) : Bool :=
  a.used && a.fromLen != 0 && strncmpEq path a.fromPath a.fromLen && endsSegment path a.fromLen

def findAlias (aliases : Fin vfsMaxAliases → Alias) (path : Str) : Option (Fin vfsMaxAliases) :=
  (List.finRange vfsMaxAliases).find? (fun i => (aliases i).covers path)

/-- The path that an alias puts in place of the one given. -/
def Alias.substitute (a : Alias) (path : Str) : Str :=
  let suffix := afterLen path a.fromLen
  let extraSlash :=
    if suffix ≠ [] ∧ a.toPath ≠ [] ∧ a.toPath.getLast? ≠ some slash then [slash] else []
  a.toPath ++ extraSlash ++ suffix

def applyAlias (aliases : Fin vfsMaxAliases → Alias) (path : Str) (bufferSize : Nat) : Str :=
  match findAlias aliases path with
  | none => path
  | some i =>
    let substituted := (aliases i).substitute path
    if bufferSize ≤ substituted.length + 1 then path else substituted

/-- The tests that a mount passes in the loop of `resolve_mount`. -/
def Mount.covers (m : Mount) (path : Str) : Bool :=
  m.used && m.ops.isSome && m.prefixLen != 0 &&
    (if m.prefixLen = 1 then path.head? == some slash
     else strncmpEq path m.mountPoint m.prefixLen && endsSegment path m.prefixLen)

def bestMount (mounts : Fin vfsMaxMounts → Mount) (path : Str) : Option (Fin vfsMaxMounts) :=
  (List.finRange vfsMaxMounts).foldl
    (fun best i =>
      if (mounts i).covers path && best.all (fun b => (mounts b).prefixLen < (mounts i).prefixLen)
      then some i else best)
    none

/-- The mount of a path, and the path inside it. -/
def resolveMount (mounts : Fin vfsMaxMounts → Mount) (path : Str) : Option (Fin vfsMaxMounts × Str) :=
  (bestMount mounts path).map (fun i => (i, afterLen path (mounts i).prefixLen))

/-- What the six calls share: the mount whose handler is called, and the path it is given.
`none` is a return of -1 without a handler being called. -/
def dispatch (t : Tables) (handler : Handler) (path : Str) : Option (Fin vfsMaxMounts × Str) :=
  match normalizePath (applyAlias t.aliases path vfsMaxPath) vfsMaxPath with
  | none => none
  | some normalized =>
    (resolveMount t.mounts normalized).filter
      (fun r => (t.mounts r.1).ops.any (fun ops => ops handler))

def vfsList (t : Tables) (path : Option Str) (hasBuffer : Bool) (bufferSize : Nat) :
    Option (Fin vfsMaxMounts × Str) :=
  if !hasBuffer || bufferSize == 0 then none
  else
    match path with
    | none | some [] => dispatch t .list [slash]
    | some path => dispatch t .list path

def vfsReadPath (t : Tables) (path : Option Str) (hasBuffer : Bool) (bufferSize : Nat) :
    Option (Fin vfsMaxMounts × Str) :=
  match path with
  | none => none
  | some path => if !hasBuffer || bufferSize == 0 then none else dispatch t .read path

def vfsWriteInternal (t : Tables) (path : Option Str) : Option (Fin vfsMaxMounts × Str) :=
  match path with
  | none => none
  | some path => dispatch t .write path

def vfsAppend (t : Tables) (path : Option Str) : Option (Fin vfsMaxMounts × Str) := vfsWriteInternal t path

def vfsWriteFile (t : Tables) (path : Option Str) : Option (Fin vfsMaxMounts × Str) :=
  vfsWriteInternal t path

def vfsRemove (t : Tables) (path : Option Str) : Option (Fin vfsMaxMounts × Str) :=
  match path with
  | none => none
  | some path => dispatch t .remove path

def vfsMkdir (t : Tables) (path : Option Str) : Option (Fin vfsMaxMounts × Str) :=
  match path with
  | none => none
  | some path => dispatch t .mkdir path

def acquireMountSlot (mounts : Fin vfsMaxMounts → Mount) : Option (Fin vfsMaxMounts) :=
  (List.finRange vfsMaxMounts).find? (fun i => !(mounts i).used)

def vfsMount (t : Tables) (mountPoint : Option Str) (ops : Option (Handler → Bool)) : Tables × Int :=
  match mountPoint, ops with
  | some mountPoint, some ops =>
    match normalizePath mountPoint vfsMaxPath with
    | none => (t, -1)
    | some normalized =>
      if (List.finRange vfsMaxMounts).any
          (fun i => (t.mounts i).used && (t.mounts i).mountPoint == normalized) then (t, -1)
      else
        match acquireMountSlot t.mounts with
        | none => (t, -1)
        | some i =>
          ({ t with mounts := Function.update t.mounts i ⟨true, normalized, normalized.length, some ops⟩ }, 0)
  | _, _ => (t, -1)

/-- The slot of an alias with the same source, else the first free one. -/
def aliasSlot (aliases : Fin vfsMaxAliases → Alias) (source : Str) : Option (Fin vfsMaxAliases) :=
  let same (i : Fin vfsMaxAliases) : Bool :=
    (aliases i).used && (aliases i).fromLen == source.length &&
      strncmpEq (aliases i).fromPath source source.length
  ((List.finRange vfsMaxAliases).find? same).or
    ((List.finRange vfsMaxAliases).find? (fun i => !(aliases i).used))

def vfsRegisterAlias (t : Tables) (source target : Option Str) : Tables × Int :=
  match source, target with
  | some source, some target =>
    match normalizePath source vfsMaxPath, normalizePath target vfsMaxPath with
    | some normFrom, some normTo =>
      if normFrom.length ≤ 1 then (t, -1)
      else if normTo.length = 0 then (t, -1)
      else if normFrom.length = normTo.length ∧ strncmpEq normFrom normTo normFrom.length then (t, -1)
      else
        match aliasSlot t.aliases normFrom with
        | none => (t, -1)
        | some i =>
          ({ t with
              aliases := Function.update t.aliases i ⟨true, normFrom, normFrom.length, normTo⟩ }, 0)
    | _, _ => (t, -1)
  | _, _ => (t, -1)

/-- The empty tables of `vfs_init`, before it mounts the root. -/
def Tables.empty : Tables where
  mounts := fun _ => ⟨false, [], 0, none⟩
  aliases := fun _ => ⟨false, [], 0, []⟩

inductive Action
  | mount (mountPoint : Option Str) (ops : Option (Handler → Bool))
  | registerAlias (source target : Option Str)

def act (t : Tables) : Action → Option Tables
  | .mount mountPoint ops => some (vfsMount t mountPoint ops).1
  | .registerAlias source target => some (vfsRegisterAlias t source target).1

abbrev Step : Tables → Action → Tables → Prop := Performs (labelled act)

/-- A call with its arguments other than the path. -/
inductive Request
  | list (hasBuffer : Bool) (bufferSize : Nat)
  | readPath (hasBuffer : Bool) (bufferSize : Nat)
  | writeFile
  | append
  | mkdir
  | remove
  deriving DecidableEq, Repr

def Request.run (t : Tables) (path : Str) : Request → Option (Fin vfsMaxMounts × Str)
  | .list hasBuffer bufferSize => vfsList t (some path) hasBuffer bufferSize
  | .readPath hasBuffer bufferSize => vfsReadPath t (some path) hasBuffer bufferSize
  | .writeFile => vfsWriteFile t (some path)
  | .append => vfsAppend t (some path)
  | .mkdir => vfsMkdir t (some path)
  | .remove => vfsRemove t (some path)

end ProOS.Vfs
