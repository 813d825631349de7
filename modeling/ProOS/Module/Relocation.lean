import ProOS.Module.Validation

/-! What the relocations of a module make of its sections. -/

namespace ProOS.Module

open ProOS.Framework Option List

/-- A relocation, with its symbol and where the file has the name of it. -/
structure Reloc where
  target : Nat
  offset : Nat
  kind : Nat
  sym : Sym
  name : Nat
deriving DecidableEq, Repr

def Image.sec (img : Image) (i : Nat) : Shdr := img.shdr (img.shoff + shdrSize * i)

/-- The `r`-th relocation of a `SHT_REL` section. -/
def Image.reloc (img : Image) (relSec : Shdr) (r : Nat) : Reloc :=
  let rel := img.relocation relSec r
  let symtab := img.sec relSec.link.toNat
  let sym := img.symbol symtab (rel.info.toNat / 256)
  { target := relSec.info.toNat
    offset := rel.offset.toNat
    kind := rel.info.toNat % 256
    sym
    name := (img.sec symtab.link.toNat).offset.toNat + sym.name.toNat }

def Image.relocs (img : Image) : List Reloc :=
  img.sections.flatMap (fun sec => if sec.type = shtRel then (List.range sec.relCount).map (img.reloc sec) else [])

def Image.offset (img : Image) (i : Nat) : Nat := (((layout 0 img.sections).1[i]?).getD 0).toNat

/-- Where the word is that a relocation changes. -/
def Image.place (img : Image) (ρ : Reloc) : Nat := img.offset ρ.target + ρ.offset

/-- What a section holds before it is relocated. -/
def Image.byte (img : Image) (sec : Shdr) (j : Nat) : UInt8 := if sec.type = shtNobits then 0 else img.bytes (sec.offset.toNat + j)

/-- A relocatable file whose offsets and indices are in range, whose defined symbols are in sections that are loaded, and whose
relocations are of different words of such sections. -/
structure Relocatable (img : Image) : Prop where
  aligned : ∀ sec ∈ img.sections, sec.alloc = true → sec.PowerAligned
  room : exactTotal 0 img.sections < 2 ^ 32
  content : ∀ sec ∈ img.sections, sec.alloc = true → sec.type ≠ shtNobits → img.Holds sec
  tables : ∀ sec ∈ img.sections, sec.type = shtRel →
    (sec.info.toNat < img.shnum ∧ sec.link.toNat < img.shnum ∧ (img.sec sec.link.toNat).link.toNat < img.shnum) ∧
      (img.sec sec.link.toNat).type = shtSymtab ∧ (img.sec sec.info.toNat).alloc = true ∧
      ∀ r < sec.relCount, (img.relocation sec r).info.toNat / 256 < (img.sec sec.link.toNat).symCount
  targets : ∀ ρ ∈ img.relocs, ρ.offset + 4 ≤ (img.sec ρ.target).size.toNat
  symbols : ∀ ρ ∈ img.relocs, ρ.sym.shndx ≠ shnUndef → ρ.sym.shndx < img.shnum ∧ (img.sec ρ.sym.shndx).alloc = true
  apart : img.relocs.Pairwise (fun ρ ρ' => img.place ρ + 4 ≤ img.place ρ' ∨ img.place ρ' + 4 ≤ img.place ρ)

/-- The part of `load_module_internal` between the allocation and the search for `__module_info`. -/
def relocate (k : Kernel) (img : Image) (base : UInt32) : Traced Use Mem := do
  let cleared := writeBytes k.mem base.toNat (List.replicate (layout 0 img.sections).2.toNat 0)
  let copied ← Traced.loop (copySection (img.context k base)) cleared (List.range img.shnum)
  applyRelocations (img.context k base) copied

/-- The checks of `load_module_internal` before that part pass, and the memory is at `base`. -/
structure Accepted (k : Kernel) (img : Image) (base : UInt32) : Prop where
  size : ehdrSize ≤ img.size.toNat
  count : k.modules.length < moduleMaxCount
  header : img.headerOk = true
  total : (layout 0 img.sections).2 ≠ 0
  alloc : k.kallocZero (layout 0 img.sections).2 = some base

theorem Accepted.result {k : Kernel} {img : Image} {base : UInt32} (h : Accepted k img base) (builtin : Bool) :
    (loadModuleInternal k (some img) builtin).result = (relocate k img base).result.bind
      (fun mem => (finishLoad k (img.context k base) (layout 0 img.sections).2 builtin mem).result) := by
  simp [loadModuleInternal, relocate, not_lt.mpr h.size, not_le.mpr h.count, h.header, h.total, h.alloc, Option.bind_assoc]

/-- The symbol that is left to the kernel is one of those registered. -/
def Kernel.registers (k : Kernel) (img : Image) (ρ : Reloc) : Bool := k.symbols.any (fun s => strEquals img ρ.name s.1)

/-- The relocation is `R_386_32` or `R_386_PC32`, and the kernel has its symbol if the file has not. -/
def Supported (k : Kernel) (img : Image) (ρ : Reloc) : Prop :=
  (ρ.kind = 1 ∨ ρ.kind = 2) ∧ (ρ.sym.shndx = shnUndef → k.registers img ρ = true)

instance (k : Kernel) (img : Image) (ρ : Reloc) : Decidable (Supported k img ρ) := inferInstanceAs (Decidable (_ ∧ _))

/-- The address of the symbol in exact integers. -/
def Image.symbolAddress (img : Image) (k : Kernel) (base : UInt32) (ρ : Reloc) : Nat :=
  if ρ.sym.shndx = shnUndef then ((lookupKernelSymbol (img.context k base) ρ.name).getD 0).toNat
  else base.toNat + img.offset ρ.sym.shndx + ρ.sym.value.toNat

/-- `S + A`, or `S + A - P`. -/
def Image.value (img : Image) (k : Kernel) (base : UInt32) (ρ : Reloc) (A : Nat) : Int :=
  if ρ.kind = 1 then img.symbolAddress k base ρ + A
  else img.symbolAddress k base ρ + A - (base.toNat + img.place ρ : Nat)

def Image.patch (img : Image) (k : Kernel) (base : UInt32) (ρ : Reloc) : Patch where
  addr := base.toNat + img.place ρ
  word := fun A => (img.value k base ρ A % 2 ^ 32).toNat

section Stage

variable {img : Image} {k : Kernel} {base : UInt32} {ρ : Reloc} {sec : Shdr} {i : Nat}

theorem getElem?_sections : img.sections[i]? = if i < img.shnum then some (img.sec i) else none := by
  rw [Image.sections, getElem?_map]
  split
  · rename_i h
    rw [getElem?_range h]
    rfl
  · rename_i h
    rw [getElem?_eq_none (by simpa using h)]
    rfl

theorem getElem?_sections_of_lt (h : i < img.shnum) : img.sections[i]? = some (img.sec i) := by
  rw [getElem?_sections, if_pos h]

namespace Relocatable

variable (hw : Relocatable img)
include hw

theorem laid : Laid 0 img.sections (layout 0 img.sections).1 (layout 0 img.sections).2 := layout_laid img.sections 0 hw.aligned hw.room

theorem offsets (h : i < img.shnum) : ∃ off, (layout 0 img.sections).1[i]? = some off ∧ off.toNat = img.offset i ∧
    ∀ k base, (img.context k base).offsets i = off := by
  have hlt : i < (layout 0 img.sections).1.length := by
    rw [hw.laid.length, length_sections]
    exact h
  have hget := getElem?_eq_getElem hlt
  exact ⟨_, hget, by simp [Image.offset, hget], by simp [Image.context, hget]⟩

theorem section_end (h : i < img.shnum) (halloc : (img.sec i).alloc = true) :
    img.offset i + (img.sec i).size.toNat ≤ img.total := by
  obtain ⟨off, hget, hoff, -⟩ := hw.offsets h
  rw [← hoff]
  exact (hw.laid.placed i _ off (getElem?_sections_of_lt h) hget halloc).2.2

theorem sections_apart {j : Nat} (hij : i < j) (hj : j < img.shnum) (hai : (img.sec i).alloc = true) (haj : (img.sec j).alloc = true) :
    img.offset i + (img.sec i).size.toNat ≤ img.offset j := by
  obtain ⟨off, hget, hoff, -⟩ := hw.offsets (hij.trans hj)
  obtain ⟨off', hget', hoff', -⟩ := hw.offsets hj
  rw [← hoff, ← hoff']
  exact hw.laid.apart i j _ _ off off' hij (getElem?_sections_of_lt (hij.trans hj)) (getElem?_sections_of_lt hj) hget hget' hai haj

theorem place_end (hρ : ρ ∈ img.relocs) : ρ.target < img.shnum ∧ (img.sec ρ.target).alloc = true ∧ img.place ρ + 4 ≤ img.total := by
  obtain ⟨sec, hsec, hmem⟩ := mem_flatMap.mp hρ
  split_ifs at hmem with htype
  · obtain ⟨r, -, rfl⟩ := List.mem_map.mp hmem
    obtain ⟨⟨hinfo, -, -⟩, -, halloc, -⟩ := hw.tables sec hsec htype
    have hend := hw.section_end hinfo halloc
    have htarget := hw.targets _ hρ
    refine ⟨hinfo, halloc, ?_⟩
    simp only [Image.place, Image.reloc] at htarget ⊢
    omega
  · cases hmem

end Relocatable

theorem relocationSymbol_result (hw : Relocatable img) (hsymbols : ∀ s ∈ k.symbols, s.2 ≠ 0) (hρ : ρ ∈ img.relocs) (base : UInt32)
    (strtab : Nat) (hname : strtab + ρ.sym.name.toNat = ρ.name) :
    ((relocationSymbol (img.context k base) strtab ρ.sym).result.isSome = true ↔
      (ρ.sym.shndx = shnUndef → k.registers img ρ = true)) ∧
    ∀ S, (relocationSymbol (img.context k base) strtab ρ.sym).result = some S → S.toNat = img.symbolAddress k base ρ % 2 ^ 32 := by
  unfold relocationSymbol Image.symbolAddress
  by_cases hundef : ρ.sym.shndx = shnUndef
  · rw [if_pos hundef, if_pos hundef]
    simp only [hname, Traced.result_bind, Traced.result_use, bind_some, hundef, forall_const]
    rw [Kernel.registers, ← isSome_find?, lookupKernelSymbol]
    cases hfind : (img.context k base).symbols.find? (fun s => strEquals (img.context k base).img ρ.name s.1) with
    | none =>
      have hnone : k.symbols.find? (fun s => strEquals img ρ.name s.1) = none := hfind
      rw [hnone]
      exact ⟨Iff.rfl, by rintro S ⟨⟩⟩
    | some s =>
      have hsome : k.symbols.find? (fun s => strEquals img ρ.name s.1) = some s := hfind
      have hs : s.2 ≠ 0 := hsymbols s (mem_of_find?_eq_some hfind)
      rw [hsome, map_some, filter_some_pos (by simpa using hs)]
      refine ⟨Iff.rfl, ?_⟩
      rintro S ⟨⟩
      exact (Nat.mod_eq_of_lt s.2.toNat_lt).symm
  · obtain ⟨hlt, -⟩ := hw.symbols ρ hρ hundef
    obtain ⟨off, -, hoff, hcontext⟩ := hw.offsets hlt
    simp only [if_neg hundef, resolveSymbolValue, Traced.result_bind, Traced.result_use, bind_some, hcontext]
    refine ⟨by simp [hundef, Traced.ret], ?_⟩
    rintro S ⟨⟩
    simp [hoff, Image.context]

theorem relocation_word {S A t : UInt32} {addr : Nat} (hS : S.toNat = addr % 2 ^ 32) :
    (S + A).toNat = (((addr + A.toNat : Nat) : Int) % 2 ^ 32).toNat ∧
      (S + A - t).toNat = (((addr + A.toNat : Nat) - t.toNat : Int) % 2 ^ 32).toNat := by
  have ht := t.toNat_lt
  rw [UInt32.toNat_sub, UInt32.toNat_add, hS]
  omega

def relocStep (k : Kernel) (img : Image) (base : UInt32) (mem : Mem) (ρ : Reloc) : Option Mem :=
  if Supported k img ρ then some ((img.patch k base ρ).apply mem) else none

theorem applyRelocation_result (hw : Relocatable img) (hsymbols : ∀ s ∈ k.symbols, s.2 ≠ 0) (hbase : base.toNat + img.total < 2 ^ 32)
    (hsec : sec ∈ img.sections) (htype : sec.type = shtRel) (mem : Mem) {r : Nat} (hr : r < sec.relCount) :
    (applyRelocation (img.context k base) sec (img.sec sec.link.toNat) (img.sec (img.sec sec.link.toNat).link.toNat) mem r).result =
      relocStep k img base mem (img.reloc sec r) := by
  obtain ⟨ρ, hdef⟩ : ∃ ρ, img.reloc sec r = ρ := ⟨_, rfl⟩
  have hρ : ρ ∈ img.relocs :=
    mem_flatMap.mpr ⟨sec, hsec, by rw [if_pos htype, ← hdef]; exact List.mem_map_of_mem (mem_range.mpr hr)⟩
  obtain ⟨⟨hinfo, -, -⟩, -, -, hindex⟩ := hw.tables sec hsec htype
  obtain ⟨off, -, hoff, hcontext⟩ := hw.offsets hinfo
  obtain ⟨-, -, hplace⟩ := hw.place_end hρ
  obtain ⟨hsome, hvalue⟩ := relocationSymbol_result hw hsymbols hρ base
    (img.sec (img.sec sec.link.toNat).link.toNat).offset.toNat (by rw [← hdef]; rfl)
  -- the address of the word does not pass 2 ^ 32
  have htarget : (base + (off + (img.relocation sec r).offset)).toNat = base.toNat + img.place ρ := by
    rw [UInt32.toNat_add, UInt32.toNat_add, hoff, ← hdef]
    rw [← hdef] at hplace
    simp only [Image.place, Image.reloc] at hplace ⊢
    omega
  obtain ⟨A, hA⟩ : ∃ A, A = UInt32.ofNat (get32 mem (base.toNat + img.place ρ)) := ⟨_, rfl⟩
  have hnumA : A.toNat = get32 mem (base.toNat + img.place ρ) := by
    rw [hA, UInt32.toNat_ofNat', Nat.mod_eq_of_lt (get32_lt _ _)]
  have hrun : (applyRelocation (img.context k base) sec (img.sec sec.link.toNat) (img.sec (img.sec sec.link.toNat).link.toNat) mem
      r).result = (relocationSymbol (img.context k base) (img.sec (img.sec sec.link.toNat).link.toNat).offset.toNat ρ.sym).result.bind
        (fun S => if ρ.kind = 1 then some (put32 mem (base.toNat + img.place ρ) (S + A).toNat)
          else if ρ.kind = 2 then
            some (put32 mem (base.toNat + img.place ρ) (S + A - (base + (off + (img.relocation sec r).offset))).toNat)
          else none) := by
    rw [hA, ← htarget, ← hdef, ← hcontext k base]
    have hfile : (img.context k base).img.rel (sec.offset.toNat + relSize * r) = img.relocation sec r := rfl
    unfold applyRelocation
    simp only [hfile, Traced.result_bind, Traced.result_use, bind_some]
    rw [if_neg (not_le.mpr (hindex r hr))]
    simp only [Traced.result_bind, Traced.result_use, bind_some, apply_ite Traced.result]
    rfl
  rw [hrun, relocStep, hdef]
  by_cases hsup : ρ.sym.shndx = shnUndef → k.registers img ρ = true
  · obtain ⟨S, hS⟩ := isSome_iff_exists.mp (hsome.mpr hsup)
    have hnum := hvalue S hS
    rw [hS, bind_some]
    by_cases h₁ : ρ.kind = 1
    · rw [if_pos h₁, if_pos ⟨.inl h₁, hsup⟩, (relocation_word (t := 0) hnum).1, hnumA]
      simp [Patch.apply, Image.patch, Image.value, h₁]
    rw [if_neg h₁]
    by_cases h₂ : ρ.kind = 2
    · rw [if_pos h₂, if_pos ⟨.inr h₂, hsup⟩, (relocation_word hnum).2, hnumA, htarget]
      simp [Patch.apply, Image.patch, Image.value, h₁]
    · rw [if_neg h₂, if_neg (fun h => h.1.elim h₁ h₂)]
  · rw [not_isSome_iff_eq_none.mp (fun h => hsup (hsome.mp h)), bind_none, if_neg (fun h => hsup h.2)]

theorem applyRelocations_result (hw : Relocatable img) (hsymbols : ∀ s ∈ k.symbols, s.2 ≠ 0)
    (hbase : base.toNat + img.total < 2 ^ 32) (mem : Mem) :
    (applyRelocations (img.context k base) mem).result = img.relocs.foldlM (relocStep k img base) mem := by
  have hsection (sec) (hsec : sec ∈ img.sections) (mem : Mem) : (applySection (img.context k base) mem sec).result =
      (if sec.type = shtRel then (List.range sec.relCount).map (img.reloc sec) else []).foldlM (relocStep k img base) mem := by
    by_cases htype : sec.type = shtRel
    · obtain ⟨⟨hinfo, hlink, hstrtab⟩, hsymtab, halloc, -⟩ := hw.tables sec hsec htype
      have hget (i) (h : i < img.shnum) : (img.context k base).sections[i]? = some (img.sec i) := getElem?_sections_of_lt h
      have hnot : ¬((img.context k base).offsets sec.info.toNat = 0 ∧ (img.sec sec.info.toNat).alloc = false) := by
        simp [halloc]
      unfold applySection
      rw [if_neg (not_not.mpr htype), if_pos htype, hget _ hinfo, hget _ hlink]
      dsimp only
      rw [if_neg (not_not.mpr hsymtab), hget _ hstrtab]
      simp only [Traced.result_bind, Traced.result_use, bind_some]
      rw [if_neg hnot, Traced.result_loop, foldlM_map]
      exact foldlM_congr (fun r hr mem => applyRelocation_result hw hsymbols hbase hsec htype mem (mem_range.mp hr)) mem
    · rw [applySection, if_pos htype, if_neg htype]
      rfl
  rw [applyRelocations, Traced.result_loop, Image.relocs, foldlM_flatMap]
  exact foldlM_congr hsection mem

theorem relocSteps_result (l : List Reloc) (mem : Mem) : l.foldlM (relocStep k img base) mem =
    if ∀ ρ ∈ l, Supported k img ρ then some ((l.map (img.patch k base)).foldl Patch.apply mem) else none := by
  induction l generalizing mem with
  | nil => simp
  | cons ρ l ih =>
    rw [foldlM_cons, relocStep]
    by_cases hρ : Supported k img ρ
    · simp [hρ, ih]
    · simp [hρ]

theorem copySection_result (hw : Relocatable img) (hbase : base.toNat + img.total < 2 ^ 32) (hi : i < img.shnum) (mem : Mem) :
    (copySection (img.context k base) mem i).result = some (if (img.sec i).alloc = true then
      writeBytes mem (base.toNat + img.offset i) ((List.range (img.sec i).size.toNat).map (img.byte (img.sec i))) else mem) := by
  have hget : (img.context k base).sections[i]? = some (img.sec i) := getElem?_sections_of_lt hi
  rw [copySection, hget]
  dsimp only
  cases halloc : (img.sec i).alloc with
  | false => rfl
  | true =>
    obtain ⟨off, -, hoff, hcontext⟩ := hw.offsets hi
    have hend := hw.section_end hi halloc
    have haddr : ((img.context k base).base + (img.context k base).offsets i).toNat = base.toNat + img.offset i := by
      rw [hcontext, UInt32.toNat_add, hoff, Nat.mod_eq_of_lt (by show base.toNat + _ < _; omega)]
      rfl
    rw [if_neg (by decide), if_pos rfl, haddr]
    by_cases hbits : (img.sec i).type = shtNobits
    · have hbyte : img.byte (img.sec i) = fun _ => 0 := funext (fun j => if_pos hbits)
      rw [if_pos hbits, hbyte, map_const', length_range]
      rfl
    · have hbyte : img.byte (img.sec i) = fun j => img.bytes ((img.sec i).offset.toNat + j) := funext (fun j => if_neg hbits)
      have hin := hw.content _ (mem_of_getElem? hget) halloc hbits
      have hcheck : ¬(img.sec i).offset + (img.sec i).size > (img.context k base).img.size := by
        have hsize := (img.size).toNat_lt
        rw [Image.Holds] at hin
        rw [gt_iff_lt, UInt32.not_lt, UInt32.le_iff_toNat_le, UInt32.toNat_add, Nat.mod_eq_of_lt (by omega)]
        exact hin
      rw [if_neg hbits, if_neg hcheck, hbyte]
      rfl

theorem copySections_result (hw : Relocatable img) (hbase : base.toNat + img.total < 2 ^ 32) (mem : Mem) {n : Nat} (hn : n ≤ img.shnum) :
    ∃ mem', (List.range n).foldlM (fun mem i => (copySection (img.context k base) mem i).result) mem = some mem' ∧
      ∀ i < n, (img.sec i).alloc = true → ∀ j < (img.sec i).size.toNat, mem' (base.toNat + img.offset i + j) = img.byte (img.sec i) j := by
  induction n with
  | zero => exact ⟨mem, rfl, fun i hi => absurd hi (Nat.not_lt_zero i)⟩
  | succ n ih =>
    obtain ⟨mem', hrun, hbytes⟩ := ih (by omega)
    refine ⟨_, by rw [range_succ, foldlM_append, hrun]; simp [copySection_result hw hbase hn]; rfl, ?_⟩
    intro i hi halloc j hj
    split_ifs with hlast
    · rcases Nat.lt_succ_iff_lt_or_eq.mp hi with hlt | rfl
      · have hapart := hw.sections_apart hlt hn halloc hlast
        rw [writeBytes_before (by omega)]
        exact hbytes i hlt halloc j hj
      · rw [writeBytes_at (by simpa using hj), getElem_map, getElem_range]
    · rcases Nat.lt_succ_iff_lt_or_eq.mp hi with hlt | rfl
      · exact hbytes i hlt halloc j hj
      · exact absurd halloc hlast

end Stage

/-- The relocations of a well-formed file are done exactly if all of them are supported; then every word has its new value, and
the other bytes of the sections are those of the file. -/
theorem module_relocation (k : Kernel) (img : Image) (base : UInt32) (hw : Relocatable img) (hsymbols : ∀ s ∈ k.symbols, s.2 ≠ 0)
    (hbase : base.toNat + img.total < 2 ^ 32) :
    (Accepted k img base → ∀ builtin, (loadModuleInternal k (some img) builtin).result = (relocate k img base).result.bind
      (fun mem => (finishLoad k (img.context k base) (layout 0 img.sections).2 builtin mem).result)) ∧
      ((relocate k img base).result.isSome = true ↔ ∀ ρ ∈ img.relocs, Supported k img ρ) ∧
      ∀ mem, (relocate k img base).result = some mem →
        (∀ ρ ∈ img.relocs, (get32 mem (base.toNat + img.place ρ) : Int) =
          img.value k base ρ (get32 (img.byte (img.sec ρ.target)) ρ.offset) % 2 ^ 32) ∧
        ∀ i < img.shnum, (img.sec i).alloc = true → ∀ j < (img.sec i).size.toNat,
          (∀ ρ ∈ img.relocs, img.offset i + j < img.place ρ ∨ img.place ρ + 4 ≤ img.offset i + j) →
            mem (base.toNat + img.offset i + j) = img.byte (img.sec i) j := by
  obtain ⟨copied, hcopy, hbytes⟩ := copySections_result (k := k) hw hbase
    (writeBytes k.mem base.toNat (List.replicate (layout 0 img.sections).2.toNat 0)) le_rfl
  have hresult : (relocate k img base).result = if ∀ ρ ∈ img.relocs, Supported k img ρ then
      some ((img.relocs.map (img.patch k base)).foldl Patch.apply copied) else none := by
    rw [relocate, Traced.result_bind, Traced.result_loop, hcopy, bind_some, applyRelocations_result hw hsymbols hbase,
      relocSteps_result]
  refine ⟨Accepted.result, ?_⟩
  rw [hresult]
  refine ⟨?_, ?_⟩
  · split_ifs with h
    · exact iff_of_true rfl h
    · exact iff_of_false (by simp) h
  intro mem hmem
  split_ifs at hmem
  · obtain rfl := some.inj hmem
    refine ⟨?_, ?_⟩
    · intro ρ hρ
      obtain ⟨htarget, halloc, -⟩ := hw.place_end hρ
      have hin := hw.targets ρ hρ
      have hword : get32 copied (base.toNat + img.place ρ) = get32 (img.byte (img.sec ρ.target)) ρ.offset := by
        calc get32 copied (base.toNat + img.place ρ) = get32 (fun j => copied (base.toNat + img.offset ρ.target + j)) ρ.offset := by
              simp only [Image.place, get32, get16, Nat.add_assoc]
          _ = get32 (img.byte (img.sec ρ.target)) ρ.offset :=
            get32_congr (fun j _ hlt => hbytes ρ.target htarget halloc j (by omega))
      have hapart : (img.relocs.map (img.patch k base)).Pairwise Patch.Apart := by
        rw [pairwise_map]
        exact hw.apart.imp (fun h => by simp only [Patch.Apart, Image.patch]; omega)
      have hpatch := patches_at (m := copied) hapart (List.mem_map_of_mem hρ)
      simp only [Image.patch] at hpatch
      rw [hpatch, hword]
      omega
    · intro i hi halloc j hj hother
      rw [patches_other, hbytes i hi halloc j hj]
      intro p hp
      obtain ⟨ρ, hρ, rfl⟩ := List.mem_map.mp hp
      have hne := hother ρ hρ
      simp only [Image.patch]
      omega

theorem relocatable_smallModule : Relocatable (fileOf (smallModule 4)) where
  aligned := by decide +kernel
  room := by decide +kernel
  content := by decide +kernel
  tables := by decide +kernel
  targets := by decide +kernel
  symbols := by decide +kernel
  apart := by decide +kernel

theorem module_relocation_small : ((fileOf (smallModule 4)).relocs.length = 1 ∧ ∀ ρ ∈ (fileOf (smallModule 4)).relocs,
      Supported emptyKernel (fileOf (smallModule 4)) ρ) ∧
    (relocate emptyKernel (fileOf (smallModule 4)) 0x100000).result.isSome = true :=
  have hsupported : ∀ ρ ∈ (fileOf (smallModule 4)).relocs, Supported emptyKernel (fileOf (smallModule 4)) ρ := by decide +kernel
  ⟨⟨by decide +kernel, hsupported⟩,
    (module_relocation emptyKernel _ _ relocatable_smallModule (by decide) (by decide +kernel)).2.1.mpr hsupported⟩

end ProOS.Module
