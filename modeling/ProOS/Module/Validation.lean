import ProOS.Module.Layout

/-! Which of the ranges that come from a module's file the loader makes sure of. -/

namespace ProOS.Module

open ProOS.Framework List
open Traced (Meets)

/-- Ranges of the file and of the module's memory of `total` bytes are inside, names end in the file, sections exist and addresses
of symbols are inside. -/
def Use.Valid (img : Image) (total : Nat) : Use → Prop
  | .file off len => off + len ≤ img.size.toNat
  | .name off => ∃ n < img.size.toNat, off + n < img.size.toNat ∧ img.bytes (off + n) = 0
  | .memory off len => off + len ≤ total
  | .slot index => index < img.shnum
  | .address off => off < total

instance (img : Image) (total : Nat) (u : Use) : Decidable (u.Valid img total) := by
  cases u <;> unfold Use.Valid <;> infer_instance

def Image.Holds (img : Image) (sec : Shdr) : Prop := sec.offset.toNat + sec.size.toNat ≤ img.size.toNat

instance (img : Image) (sec : Shdr) : Decidable (img.Holds sec) := inferInstanceAs (Decidable (_ ≤ _))

/-- A symbol that is not left to the kernel belongs to a section that is loaded. -/
def Image.placed (img : Image) (sym : Sym) : Bool :=
  sym.shndx == shnUndef ||
    (img.sections[sym.shndx]?).any (fun sec => sec.alloc && decide (sym.value.toNat < sec.size.toNat))

def Image.symbol (img : Image) (symtab : Shdr) (j : Nat) : Sym := img.sym (symtab.offset.toNat + symSize * j)

def Image.relocation (img : Image) (sec : Shdr) (r : Nat) : Rel := img.rel (sec.offset.toNat + relSize * r)

/-- One of the three names that the loader looks for. -/
def Image.sought (img : Image) (off : Nat) : Bool :=
  [moduleInfoName, moduleInitName, moduleExitName].any (strEquals img off)

/-- What the ELF format asks of a relocatable file and the loader does not check. -/
structure WellFormed (img : Image) : Prop where
  table : img.shoff + shdrSize * img.shnum ≤ img.size.toNat
  aligned : ∀ sec ∈ img.sections, sec.alloc = true → sec.PowerAligned
  room : exactTotal 0 img.sections < 2 ^ 32
  content : ∀ sec ∈ img.sections, sec.alloc = true → sec.type ≠ shtNobits →
    sec.offset.toNat + sec.size.toNat < 2 ^ 32
  symbols : ∀ sec ∈ img.sections, sec.type = shtSymtab → img.Holds sec ∧
    ∀ strtab ∈ img.sections[sec.link.toNat]?, img.Holds strtab ∧
      ∀ j < sec.symCount,
        (Use.name (strtab.offset.toNat + (img.symbol sec j).name.toNat)).Valid img 0 ∧
        (img.sought (strtab.offset.toNat + (img.symbol sec j).name.toNat) = true → img.placed (img.symbol sec j) = true)
  relocations : ∀ sec ∈ img.sections, sec.type = shtRel → img.Holds sec ∧
    ∀ r < sec.relCount,
      (∀ target ∈ img.sections[sec.info.toNat]?, (img.relocation sec r).offset.toNat + 4 ≤ target.size.toNat) ∧
      (∀ symtab ∈ img.sections[sec.link.toNat]?, (img.relocation sec r).info.toNat / 256 < symtab.symCount →
        img.placed (img.symbol symtab ((img.relocation sec r).info.toNat / 256)) = true)

variable {sym : Sym} {i : Nat} {sec : Shdr}

section Loader

variable {img : Image} {k : Kernel} {base : UInt32} {builtin : Bool}

def Image.total (img : Image) : Nat := (layout 0 img.sections).2.toNat

theorem WellFormed.laid (hw : WellFormed img) :
    Laid 0 img.sections (layout 0 img.sections).1 (layout 0 img.sections).2 :=
  layout_laid img.sections 0 hw.aligned hw.room

theorem length_sections : img.sections.length = img.shnum := by
  rw [Image.sections, length_map, length_range]

theorem WellFormed.offsets (hw : WellFormed img) (hsec : img.sections[i]? = some sec) :
    (layout 0 img.sections).1[i]? = some ((img.context k base).offsets i) := by
  have hlt : i < (layout 0 img.sections).1.length := by
    rw [hw.laid.length]
    exact (List.getElem?_eq_some_iff.mp hsec).1
  show _ = some (((layout 0 img.sections).1[i]?).getD (k.stale i))
  rw [getElem?_eq_getElem hlt, Option.getD_some]

section

variable (hw : WellFormed img)

include hw

end

end Loader

section Files

def shdrBytes (type flags offset size link info addralign : Nat) : List UInt8 :=
  bytes32 0 ++ bytes32 type ++ bytes32 flags ++ bytes32 0 ++ bytes32 offset ++ bytes32 size ++ bytes32 link ++ bytes32 info ++
    bytes32 addralign ++ bytes32 0

/-- A module of 72 bytes, the `module_info` named `m`, with one relocation of its own address at `relocated`. -/
def smallModule (relocated : Nat) : List UInt8 :=
  -- the header, with five section headers from byte 52 on
  [0x7F, 69, 76, 70] ++ List.replicate 12 0 ++ bytes16 1 ++ bytes16 3 ++ bytes32 1 ++ bytes32 0 ++ bytes32 0 ++ bytes32 52 ++
    bytes32 0 ++ bytes16 52 ++ bytes16 0 ++ bytes16 0 ++ bytes16 40 ++ bytes16 5 ++ bytes16 0 ++
  shdrBytes 0 0 0 0 0 0 0 ++ shdrBytes 1 2 252 72 0 0 4 ++ shdrBytes 2 0 324 16 3 0 4 ++ shdrBytes 3 0 340 16 0 0 1 ++
    shdrBytes 9 0 356 8 2 1 4 ++
  -- the module, the symbol, the strings and the relocation
  109 :: List.replicate 71 0 ++ (bytes32 1 ++ bytes32 0 ++ bytes32 72 ++ [17, 0] ++ bytes16 1) ++
    (0 :: moduleInfoName ++ [0, 0]) ++ (bytes32 relocated ++ bytes32 1)

def fileOf (bs : List UInt8) : Image := ⟨fun i => bs.getD i 0, UInt32.ofNat bs.length⟩

/-- A kernel without modules whose heap starts at one megabyte. -/
def emptyKernel : Kernel where
  modules := []
  symbols := []
  kallocZero := fun _ => some 0x100000
  stale := fun _ => 0
  runInit := fun _ => 0
  mem := fun _ => 0

end Files

end ProOS.Module
