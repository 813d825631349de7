import ProOS.Framework.Memory
import ProOS.Framework.Traced

/-! The module loader (`module.c`). The file is a block of bytes of which `size` belong to it; what the loader takes from the file
and does with it is noted as it goes, so that a use outside of the file or of the module's memory shows. Up to the first such use
the bytes read and written are those of the source. -/

namespace ProOS.Module

open ProOS.Framework
open Traced (use fail)

/-- The bytes from the address of the image on, of which the first `size` are the file. -/
structure Image where
  bytes : Mem
  size : UInt32

def Image.word (img : Image) (off : Nat) : UInt32 := UInt32.ofNat (get32 img.bytes off)

def Image.half (img : Image) (off : Nat) : Nat := get16 img.bytes off

/-- What the loader reads of an `Elf32_Shdr`. -/
structure Shdr where
  type : UInt32
  flags : UInt32
  offset : UInt32
  size : UInt32
  link : UInt32
  info : UInt32
  addralign : UInt32
deriving DecidableEq, Repr

structure Sym where
  name : UInt32
  value : UInt32
  shndx : Nat
deriving DecidableEq, Repr

structure Rel where
  offset : UInt32
  info : UInt32
deriving DecidableEq, Repr

def ehdrSize : Nat := 52
def shdrSize : Nat := 40
def symSize : Nat := 16
def relSize : Nat := 8
def shtSymtab : UInt32 := 2
def shtNobits : UInt32 := 8
def shtRel : UInt32 := 9
def shfAlloc : UInt32 := 2
def shnUndef : Nat := 0
def moduleMaxCount : Nat := 16
def moduleMaxSections : Nat := 128

def Image.shoff (img : Image) : Nat := (img.word 32).toNat

def Image.shnum (img : Image) : Nat := img.half 48

def Image.shdr (img : Image) (off : Nat) : Shdr where
  type := img.word (off + 4)
  flags := img.word (off + 8)
  offset := img.word (off + 16)
  size := img.word (off + 20)
  link := img.word (off + 24)
  info := img.word (off + 28)
  addralign := img.word (off + 32)

def Image.sym (img : Image) (off : Nat) : Sym where
  name := img.word off
  value := img.word (off + 4)
  shndx := img.half (off + 14)

def Image.rel (img : Image) (off : Nat) : Rel where
  offset := img.word off
  info := img.word (off + 4)

def Image.sections (img : Image) : List Shdr :=
  (List.range img.shnum).map (fun i => img.shdr (img.shoff + shdrSize * i))

def Image.headerOk (img : Image) : Bool :=
  (img.bytes 0 == 0x7F && img.bytes 1 == 69 && img.bytes 2 == 76 && img.bytes 3 == 70) &&
  (img.half 16 == 1 && img.half 18 == 3 && img.word 20 == 1) &&
  (img.shnum != 0 && decide (img.shnum ≤ moduleMaxSections))

def Shdr.alloc (sec : Shdr) : Bool := sec.flags &&& shfAlloc != 0

/-- `sec->sh_addralign ? sec->sh_addralign : 4u` -/
def Shdr.align (sec : Shdr) : UInt32 := if sec.addralign = 0 then 4 else sec.addralign

def Shdr.symCount (sec : Shdr) : Nat := sec.size.toNat / symSize

def Shdr.relCount (sec : Shdr) : Nat := sec.size.toNat / relSize

def alignUp (value alignment : UInt32) : UInt32 :=
  if alignment ≤ 1 then value else (value + (alignment - 1)) &&& ~~~(alignment - 1)

/-- The offsets given to the sections from the running total on, and the total at the end. -/
def layout : UInt32 → List Shdr → List UInt32 × UInt32
  | total, [] => ([], total)
  | total, sec :: rest =>
    if sec.alloc then
      let off := alignUp total sec.align
      let r := layout (off + sec.size) rest
      (off :: r.1, r.2)
    else
      let r := layout total rest
      (0 :: r.1, r.2)

/-- A range, an index or an address that comes from the file, in exact integers. -/
inductive Use
  | file (off len : Nat)
  | name (off : Nat)
  | memory (off len : Nat)
  | slot (index : Nat)
  | address (off : Nat)
deriving DecidableEq, Repr

/-- What the loader works on: the file, its section headers, the slots of `section_offsets` (those that are not set hold what is
on the stack), the address of the module's memory and the symbols of the kernel. -/
structure Context where
  img : Image
  sections : List Shdr
  offsets : Nat → UInt32
  base : UInt32
  symbols : List (List UInt8 × UInt32)

/-- `str_equals` of a name in the file and a text. -/
def strEquals (img : Image) (off : Nat) (text : List UInt8) : Bool :=
  (List.range text.length).all (fun i => img.bytes (off + i) == text.getD i 0) && img.bytes (off + text.length) == 0

/-- `module_lookup_kernel_symbol` for a name in the file. -/
def lookupKernelSymbol (c : Context) (off : Nat) : Option UInt32 :=
  ((c.symbols.find? (fun s => strEquals c.img off s.1)).map Prod.snd).filter (· ≠ 0)

def resolveSymbolValue (c : Context) (sym : Sym) : Traced Use UInt32 :=
  if sym.shndx = shnUndef then .ret 0
  else do
    use (.slot sym.shndx)
    use (.address ((c.offsets sym.shndx).toNat + sym.value.toNat))
    .ret (c.base + c.offsets sym.shndx + sym.value)

/-- The value of a symbol that a relocation refers to. -/
def relocationSymbol (c : Context) (strtab : Nat) (sym : Sym) : Traced Use UInt32 :=
  if sym.shndx = shnUndef then do
    use (.name (strtab + sym.name.toNat))
    match lookupKernelSymbol c (strtab + sym.name.toNat) with
    | none => fail
    | some addr => .ret addr
  else resolveSymbolValue c sym

def applyRelocation (c : Context) (relSec symtab strtab : Shdr) (mem : Mem) (r : Nat) : Traced Use Mem := do
  use (.file (relSec.offset.toNat + relSize * r) relSize)
  let rel := c.img.rel (relSec.offset.toNat + relSize * r)
  let index := rel.info.toNat / 256
  if symtab.symCount ≤ index then fail
  else
    use (.file (symtab.offset.toNat + symSize * index) symSize)
    let symAddr ← relocationSymbol c strtab.offset.toNat (c.img.sym (symtab.offset.toNat + symSize * index))
    use (.memory ((c.offsets relSec.info.toNat).toNat + rel.offset.toNat) 4)
    let target := c.base + (c.offsets relSec.info.toNat + rel.offset)
    let addend := UInt32.ofNat (get32 mem target.toNat)
    if rel.info.toNat % 256 = 1 then .ret (put32 mem target.toNat (symAddr + addend).toNat)
    else if rel.info.toNat % 256 = 2 then .ret (put32 mem target.toNat (symAddr + addend - target).toNat)
    else fail

def applySection (c : Context) (mem : Mem) (relSec : Shdr) : Traced Use Mem :=
  if relSec.type ≠ shtRel then .ret mem
  else
    match c.sections[relSec.info.toNat]?, c.sections[relSec.link.toNat]? with
    | some target, some symtab =>
      if symtab.type ≠ shtSymtab then fail
      else
        match c.sections[symtab.link.toNat]? with
        | none => fail
        | some strtab => do
          use (.file symtab.offset.toNat symtab.size.toNat)
          use (.file strtab.offset.toNat strtab.size.toNat)
          use (.slot relSec.info.toNat)
          if c.offsets relSec.info.toNat = 0 ∧ target.alloc = false then fail
          else Traced.loop (applyRelocation c relSec symtab strtab) mem (List.range relSec.relCount)
    | _, _ => fail

def applyRelocations (c : Context) (mem : Mem) : Traced Use Mem := Traced.loop (applySection c) mem c.sections

/-- The loop of `find_module_info`, `find_module_init` and `find_module_exit` over the symbols. -/
def findNamed (c : Context) (symtab strtab : Nat) (text : List UInt8) : List Nat → Traced Use (Option UInt32)
  | [] => .ret none
  | i :: rest => do
    use (.file (symtab + symSize * i) symSize)
    let sym := c.img.sym (symtab + symSize * i)
    use (.name (strtab + sym.name.toNat))
    if strEquals c.img (strtab + sym.name.toNat) text then
      let addr ← resolveSymbolValue c sym
      .ret (if addr = 0 then none else some addr)
    else findNamed c symtab strtab text rest

/-- `"__module_info"` -/
def moduleInfoName : List UInt8 := [95, 95, 109, 111, 100, 117, 108, 101, 95, 105, 110, 102, 111]

/-- `"module_init"` -/
def moduleInitName : List UInt8 := [109, 111, 100, 117, 108, 101, 95, 105, 110, 105, 116]

/-- `"module_exit"` -/
def moduleExitName : List UInt8 := [109, 111, 100, 117, 108, 101, 95, 101, 120, 105, 116]

def findModuleInfo (c : Context) (symtab strtab : Shdr) : Traced Use (Option UInt32) :=
  findNamed c symtab.offset.toNat strtab.offset.toNat moduleInfoName (List.range symtab.symCount)

def findModuleInit (c : Context) (symtab strtab : Shdr) : Traced Use (Option UInt32) :=
  findNamed c symtab.offset.toNat strtab.offset.toNat moduleInitName (List.range symtab.symCount)

def findModuleExit (c : Context) (symtab strtab : Shdr) : Traced Use (Option UInt32) :=
  findNamed c symtab.offset.toNat strtab.offset.toNat moduleExitName (List.range symtab.symCount)

/-- Clearing or copying one section; the sum of offset and size is of 32 bits. -/
def copySection (c : Context) (mem : Mem) (i : Nat) : Traced Use Mem :=
  match c.sections[i]? with
  | none => .ret mem
  | some sec =>
    if sec.alloc = false then .ret mem
    else if sec.type = shtNobits then do
      use (.memory (c.offsets i).toNat sec.size.toNat)
      .ret (writeBytes mem (c.base + c.offsets i).toNat (List.replicate sec.size.toNat 0))
    else if sec.offset + sec.size > c.img.size then fail
    else do
      use (.file sec.offset.toNat sec.size.toNat)
      use (.memory (c.offsets i).toNat sec.size.toNat)
      .ret (writeBytes mem (c.base + c.offsets i).toNat
        ((List.range sec.size.toNat).map (fun j => c.img.bytes (sec.offset.toNat + j))))

/-- `str_copy` of at most 31 bytes. -/
def strCopy (mem : Mem) (addr : Nat) : List UInt8 :=
  ((List.range 31).map (fun i => mem (addr + i))).takeWhile (· ≠ 0)

structure Handle where
  name : List UInt8
  version : List UInt8
  flags : UInt32
  base : UInt32
  size : UInt32
  active : Bool
  initialized : Bool
  autostart : Bool
  builtin : Bool
  init : Option UInt32
  exit : Option UInt32

/-- The loader's tables, and what it meets outside of them: the heap, the stack behind the slots of `section_offsets` that are set,
and what a module's `module_init` returns. -/
structure Kernel where
  modules : List Handle
  symbols : List (List UInt8 × UInt32)
  kallocZero : UInt32 → Option UInt32
  stale : Nat → UInt32
  runInit : UInt32 → Int
  mem : Mem

/-- The first symbol table and the strings it names. -/
def symbolTable (sections : List Shdr) : Option (Shdr × Shdr) :=
  match sections.find? (fun sec => sec.type == shtSymtab) with
  | none => none
  | some symtab => (sections[symtab.link.toNat]?).map (fun strtab => (symtab, strtab))

/-- The part of `load_module_internal` after the relocations. -/
def finishLoad (k : Kernel) (c : Context) (total : UInt32) (builtin : Bool) (mem : Mem) : Traced Use Kernel :=
  match symbolTable c.sections with
  | none => fail
  | some (symtab, strtab) => do
    use (.file symtab.offset.toNat symtab.size.toNat)
    use (.file strtab.offset.toNat strtab.size.toNat)
    match ← findModuleInfo c symtab strtab with
    | none => fail
    | some info =>
      let name := strCopy mem info.toNat
      if k.modules.any (fun h => h.name == name) then fail
      else
        let flags := UInt32.ofNat (get32 mem (info.toNat + 64))
        let init ← findModuleInit c symtab strtab
        let exit ← findModuleExit c symtab strtab
        let autostart := flags &&& 1 != 0
        let started := autostart && init.any (fun f => k.runInit f == 0)
        .ret
          { k with
            mem := mem
            modules := k.modules ++
              [{ name, version := strCopy mem (info.toNat + 32), flags, base := c.base, size := total, active := started,
                 initialized := started, autostart, builtin, init, exit }] }

/-- The context in which the sections are copied. -/
def Image.context (img : Image) (k : Kernel) (base : UInt32) : Context where
  img := img
  sections := img.sections
  offsets := fun i => ((layout 0 img.sections).1[i]?).getD (k.stale i)
  base := base
  symbols := k.symbols

/-- `load_module_internal`; giving up is -1. -/
def loadModuleInternal (k : Kernel) (image : Option Image) (builtin : Bool) : Traced Use Kernel :=
  match image with
  | none => fail
  | some img =>
    if img.size.toNat < ehdrSize then fail
    else if moduleMaxCount ≤ k.modules.length then fail
    else if img.headerOk = false then fail
    else do
      use (.file img.shoff (shdrSize * img.shnum))
      let total := (layout 0 img.sections).2
      if total = 0 then fail
      else
        match k.kallocZero total with
        | none => fail
        | some base =>
          let c := img.context k base
          let cleared := writeBytes k.mem base.toNat (List.replicate total.toNat 0)
          let copied ← Traced.loop (copySection c) cleared (List.range img.shnum)
          let mem ← applyRelocations c copied
          finishLoad k c total builtin mem

end ProOS.Module
