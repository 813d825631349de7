import ProOS.Module.Model
import ProOS.Framework.Alignment

/-! Where the loader puts the sections. -/

namespace ProOS.Module

open ProOS.Framework

/-- The end of the sections placed one after another in exact integers. -/
def exactTotal : Nat → List Shdr → Nat
  | total, [] => total
  | total, sec :: rest =>
    if sec.alloc then exactTotal (roundUp total sec.align.toNat + sec.size.toNat) rest else exactTotal total rest

/-- A power of two. -/
def Shdr.PowerAligned (sec : Shdr) : Prop := ∃ k < 32, sec.align.toNat = 2 ^ k

instance (sec : Shdr) : Decidable sec.PowerAligned := inferInstanceAs (Decidable (∃ k < 32, _))

theorem le_exactTotal (total : Nat) (l : List Shdr) (h : ∀ sec ∈ l, sec.alloc = true → sec.PowerAligned) :
    total ≤ exactTotal total l := by
  induction l generalizing total with
  | nil => exact le_rfl
  | cons sec rest ih =>
    have hrest := fun t => ih t (fun x hx => h x (List.mem_cons_of_mem sec hx))
    rw [exactTotal]
    split
    · rename_i halloc
      obtain ⟨k, -, hk⟩ := h sec List.mem_cons_self halloc
      have hround : total ≤ roundUp total sec.align.toNat := le_roundUp total (hk ▸ Nat.two_pow_pos k)
      exact (hround.trans (Nat.le_add_right _ _)).trans (hrest _)
    · exact hrest _

theorem toNat_alignUp {value alignment : UInt32} {k : Nat} (hk : k < 32) (ha : alignment.toNat = 2 ^ k)
    (hfit : roundUp value.toNat alignment.toNat < 2 ^ 32) :
    (alignUp value alignment).toNat = roundUp value.toNat alignment.toNat := by
  have hpow : 2 ^ k ≤ 2 ^ 31 := Nat.pow_le_pow_right (by omega) (by omega)
  have hpos := Nat.two_pow_pos k
  have hdvd : 2 ^ k ∣ 2 ^ 32 := Nat.pow_dvd_pow 2 (by omega)
  unfold alignUp
  split
  · rename_i hle
    have hle' : alignment.toNat ≤ 1 := by simpa [UInt32.le_iff_toNat_le] using hle
    have hone : alignment.toNat = 1 := by omega
    rw [roundUp, hone]
    simp
  · have hmask : (alignment - 1).toNat = 2 ^ k - 1 := by
      have hone : (1 : UInt32) ≤ alignment := by
        rw [UInt32.le_iff_toNat_le]
        simp
        omega
      rw [UInt32.toNat_sub_of_le _ _ hone, ha]
      rfl
    have hnocarry : value.toNat + (2 ^ k - 1) < 2 ^ 32 := by
      -- a sum that reached 2 ^ 32 would be rounded to no less
      by_contra hover
      rw [roundUp, ha] at hfit
      have hdiv : 2 ^ 32 / 2 ^ k ≤ (value.toNat + (2 ^ k - 1)) / 2 ^ k := Nat.div_le_div_right (not_lt.mp hover)
      have hmul := Nat.mul_le_mul_right (2 ^ k) hdiv
      rw [Nat.div_mul_cancel hdvd] at hmul
      omega
    have hsum : (value + (alignment - 1)).toNat = value.toNat + (2 ^ k - 1) := by
      rw [UInt32.toNat_add, hmask, Nat.mod_eq_of_lt hnocarry]
    have hnot : (~~~(alignment - 1)).toNat = 2 ^ 32 - 2 ^ k := by
      rw [UInt32.toNat_not, hmask]
      simp only [UInt32.size]
      omega
    rw [UInt32.toNat_and, hsum, hnot, and_two_pow_sub hnocarry (by omega), roundUp, ha]

/-- The sections that are loaded lie one behind the other, aligned, from `start` up to `total`. -/
structure Laid (start : Nat) (l : List Shdr) (offs : List UInt32) (total : UInt32) : Prop where
  length : offs.length = l.length
  total_eq : total.toNat = exactTotal start l
  placed : ∀ (i : Nat) (sec : Shdr) (off : UInt32), l[i]? = some sec → offs[i]? = some off → sec.alloc = true →
    sec.align.toNat ∣ off.toNat ∧ start ≤ off.toNat ∧ off.toNat + sec.size.toNat ≤ total.toNat
  skipped : ∀ (i : Nat) (sec : Shdr) (off : UInt32), l[i]? = some sec → offs[i]? = some off → sec.alloc = false → off = 0
  apart : ∀ (i j : Nat) (sec sec' : Shdr) (off off' : UInt32), i < j → l[i]? = some sec → l[j]? = some sec' → offs[i]? = some off →
    offs[j]? = some off' → sec.alloc = true → sec'.alloc = true → off.toNat + sec.size.toNat ≤ off'.toNat

theorem layout_laid (l : List Shdr) (start : UInt32) (hpow : ∀ sec ∈ l, sec.alloc = true → sec.PowerAligned)
    (hfit : exactTotal start.toNat l < 2 ^ 32) : Laid start.toNat l (layout start l).1 (layout start l).2 := by
  induction l generalizing start with
  | nil =>
    refine ⟨rfl, rfl, ?_, ?_, ?_⟩
    · intro i sec off hsec
      cases hsec
    · intro i sec off hsec
      cases hsec
    · intro i j sec sec' off off' _ hsec
      cases hsec
  | cons sec rest ih =>
    have hrest : ∀ x ∈ rest, x.alloc = true → x.PowerAligned := fun x hx => hpow x (List.mem_cons_of_mem sec hx)
    cases halloc : sec.alloc with
    | false =>
      have heq : layout start (sec :: rest) = (0 :: (layout start rest).1, (layout start rest).2) := by
        rw [layout, if_neg (by simp [halloc])]
      have htot : exactTotal start.toNat (sec :: rest) = exactTotal start.toNat rest := by
        rw [exactTotal, if_neg (by simp [halloc])]
      rw [htot] at hfit
      have hlaid := ih start hrest hfit
      rw [heq]
      refine ⟨congrArg (· + 1) hlaid.length, hlaid.total_eq.trans htot.symm, ?_, ?_, ?_⟩
      · intro i sec' off hsec hoff hal
        cases i with
        | zero =>
          cases hsec
          rw [halloc] at hal
          cases hal
        | succ i => exact hlaid.placed i sec' off hsec hoff hal
      · intro i sec' off hsec hoff hal
        cases i with
        | zero => exact (Option.some.inj hoff).symm
        | succ i => exact hlaid.skipped i sec' off hsec hoff hal
      · intro i j sec₁ sec₂ off₁ off₂ hij h₁ h₂ ho₁ ho₂ hal₁ hal₂
        cases i with
        | zero =>
          cases h₁
          rw [halloc] at hal₁
          cases hal₁
        | succ i =>
          cases j with
          | zero => exact absurd hij (Nat.not_lt_zero _)
          | succ j => exact hlaid.apart i j sec₁ sec₂ off₁ off₂ (Nat.lt_of_succ_lt_succ hij) h₁ h₂ ho₁ ho₂ hal₁ hal₂
    | true =>
      obtain ⟨k, hk, halign⟩ := hpow sec List.mem_cons_self halloc
      obtain ⟨off, hoffdef⟩ : ∃ off, off = alignUp start sec.align := ⟨_, rfl⟩
      have heq : layout start (sec :: rest) =
          (off :: (layout (off + sec.size) rest).1, (layout (off + sec.size) rest).2) := by
        rw [layout, if_pos halloc, hoffdef]
      have htot : exactTotal start.toNat (sec :: rest) =
          exactTotal (roundUp start.toNat sec.align.toNat + sec.size.toNat) rest := by
        rw [exactTotal, if_pos halloc]
      have hend := le_exactTotal (roundUp start.toNat sec.align.toNat + sec.size.toNat) rest hrest
      have hoff : off.toNat = roundUp start.toNat sec.align.toNat := by
        rw [hoffdef]
        exact toNat_alignUp hk halign (by omega)
      have hnext : (off + sec.size).toNat = roundUp start.toNat sec.align.toNat + sec.size.toNat := by
        rw [UInt32.toNat_add, hoff, Nat.mod_eq_of_lt (by omega)]
      have hlaid := ih (off + sec.size) hrest (by rw [hnext, ← htot]; exact hfit)
      rw [hnext] at hlaid
      have hstart : start.toNat ≤ off.toNat := hoff ▸ le_roundUp start.toNat (halign ▸ Nat.two_pow_pos k)
      rw [heq]
      refine ⟨congrArg (· + 1) hlaid.length, hlaid.total_eq.trans htot.symm, ?_, ?_, ?_⟩
      · intro i sec' off' hsec hoff' hal
        cases i with
        | zero =>
          cases hsec
          cases hoff'
          refine ⟨hoff ▸ dvd_roundUp _ _, hstart, ?_⟩
          rw [hlaid.total_eq, hoff]
          exact hend
        | succ i =>
          obtain ⟨hdvd, hlow, hhigh⟩ := hlaid.placed i sec' off' hsec hoff' hal
          exact ⟨hdvd, by omega, hhigh⟩
      · intro i sec' off' hsec hoff' hal
        cases i with
        | zero =>
          cases hsec
          rw [halloc] at hal
          cases hal
        | succ i => exact hlaid.skipped i sec' off' hsec hoff' hal
      · intro i j sec₁ sec₂ off₁ off₂ hij h₁ h₂ ho₁ ho₂ hal₁ hal₂
        cases j with
        | zero => exact absurd hij (Nat.not_lt_zero _)
        | succ j =>
          cases i with
          | zero =>
            cases h₁
            cases ho₁
            rw [hoff]
            exact (hlaid.placed j sec₂ off₂ h₂ ho₂ hal₂).2.1
          | succ i => exact hlaid.apart i j sec₁ sec₂ off₁ off₂ (Nat.lt_of_succ_lt_succ hij) h₁ h₂ ho₁ ho₂ hal₁ hal₂

end ProOS.Module
