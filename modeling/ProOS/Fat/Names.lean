import ProOS.Framework.Separated
import ProOS.Framework.Chunks
import ProOS.Kernel.Types

namespace ProOS.Fat

open ProOS.Framework

/-- The 11 bytes of `name` in a directory entry. -/
abbrev Name := List UInt8

def dot : UInt8 := 46
def space : UInt8 := 32
def newline : UInt8 := 10

/-- `A`-`Z`, `0`-`9`, `_`, `-` and `~`. -/
def isValidChar (c : UInt8) : Bool :=
  (65 ≤ c && c ≤ 90) || (48 ≤ c && c ≤ 57) || c == 95 || c == 45 || c == 126

def toUpper (c : UInt8) : UInt8 := if 97 ≤ c ∧ c ≤ 122 then c - 32 else c

/-- The two parts of a segment, cut at its last dot. -/
def baseAndExt (segment : Str) : Str × Str :=
  match lastIndexOf dot segment with
  | none => (segment, [])
  | some i => (segment.take i, segment.drop (i + 1))

/-- `fatfs_make_short_name`; whichever check fails first, the result is 0. -/
def makeShortName (segment : Str) : Option Name :=
  let base := (baseAndExt segment).1.map toUpper
  let ext := (baseAndExt segment).2.map toUpper
  if base ≠ [] ∧ base.length ≤ 8 ∧ ext.length ≤ 3 ∧ (base ++ ext).all isValidChar then
    some (padTo 8 space base ++ padTo 3 space ext)
  else none

def validatePathSegment (segment : Str) : Bool :=
  segment ≠ [] && segment.all (fun c => c == dot || isValidChar (toUpper c))

def prepareShortName (segment : Str) : Option Name :=
  if validatePathSegment segment then makeShortName segment else none

def nameIsDot (name : Name) : Bool :=
  name[0]? == some dot &&
    ((name[1]? == some dot && name[2]? == some space) || name[1]? == some space)

def formatEntryName (name : Name) : Str :=
  let ext := name.drop 8
  (name.take 8).takeWhile (· ≠ space) ++
    if ext.all (· == space) then [] else dot :: ext.takeWhile (· ≠ space)

section ShortNames

variable {segment : Str} {name : Name}

theorem isValidChar_ne {c : UInt8} (h : isValidChar c = true) : c ≠ 0 ∧ c ≠ 0xE5 ∧ c ≠ dot ∧ c ≠ space := by
  refine ⟨?_, ?_, ?_, ?_⟩ <;> rintro rfl <;> exact absurd h (by decide)

/-- What `fatfs_make_short_name` makes out of an accepted segment. -/
structure ShortName (name : Name) : Prop where
  shape : ∃ base ext : Str, base ≠ [] ∧ base.length ≤ 8 ∧ ext.length ≤ 3 ∧
    (∀ c ∈ base ++ ext, isValidChar c = true) ∧ name = padTo 8 space base ++ padTo 3 space ext

theorem shortName_of_make (h : makeShortName segment = some name) : ShortName name := by
  unfold makeShortName at h
  dsimp only at h
  split at h
  · rename_i hc
    obtain ⟨hne, hb, he, hall⟩ := hc
    exact ⟨_, _, hne, hb, he, List.all_eq_true.mp hall, (Option.some.inj h).symm⟩
  · cases h

theorem ShortName.length (h : ShortName name) : name.length = 11 := by
  obtain ⟨base, ext, -, hb, he, -, rfl⟩ := h.shape
  rw [List.length_append, length_padTo hb, length_padTo he]

/-- A name in use starts with neither of the two markers, and is not one of the dots. -/
theorem ShortName.head (h : ShortName name) : ∃ c, name[0]? = some c ∧ c ≠ 0 ∧ c ≠ 0xE5 ∧ c ≠ dot := by
  obtain ⟨base, ext, hne, -, -, hall, rfl⟩ := h.shape
  obtain ⟨c, base, rfl⟩ := List.exists_cons_of_ne_nil hne
  have hc := isValidChar_ne (hall c (by simp))
  exact ⟨c, rfl, hc.1, hc.2.1, hc.2.2.1⟩

theorem ShortName.not_dot (h : ShortName name) : nameIsDot name = false := by
  obtain ⟨c, hc, -, -, hd⟩ := h.head
  simp [nameIsDot, hc, hd]

end ShortNames

example : makeShortName [114, 101, 97, 100, 109, 101, 46, 116, 120, 116] =
    some [82, 69, 65, 68, 77, 69, 32, 32, 84, 88, 84] := by decide

end ProOS.Fat
