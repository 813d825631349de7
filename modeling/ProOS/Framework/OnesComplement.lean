import ProOS.Framework.Memory

/-! Folded one's-complement sums of 16-bit words, in the arithmetic of a 32-bit accumulator. -/

namespace ProOS.Framework

open List

/-- The word of two bytes, most significant byte first. -/
def beWord (hi lo : UInt8) : Nat := hi.toNat * 256 + lo.toNat

/-- The sum of a string's big-endian words; an odd last byte is the high half of its word. -/
def wordSum : List UInt8 → Nat
  | hi :: lo :: rest => beWord hi lo + wordSum rest
  | [hi] => beWord hi 0
  | [] => 0

/-- The same sum as an accumulating loop on a 32-bit word computes it. -/
def sumLoop : List UInt8 → Nat → Nat
  | hi :: lo :: rest, sum => sumLoop rest ((sum + beWord hi lo) % 2 ^ 32)
  | [hi], sum => (sum + beWord hi 0) % 2 ^ 32
  | [], sum => sum

/-- Adds the carries above bit 16 back in until there are none. -/
def fold (sum : Nat) : Nat :=
  if sum < 2 ^ 16 then sum else fold (sum % 2 ^ 16 + sum / 2 ^ 16)
termination_by sum

/-- The complement of the folded sum, as a 16-bit word. -/
def onesChecksum (data : List UInt8) : Nat := (2 ^ 32 - 1 - fold (sumLoop data 0)) % 2 ^ 16

section Sums

variable {data before after : List UInt8} {hi lo : UInt8}

theorem beWord_lt (hi lo : UInt8) : beWord hi lo < 2 ^ 16 := by
  have := hi.toNat_lt
  have := lo.toNat_lt
  unfold beWord
  omega

theorem wordSum_le (data : List UInt8) : wordSum data ≤ 65535 * ((data.length + 1) / 2) := by
  induction data using wordSum.induct with
  | case1 hi lo rest ih =>
    have := beWord_lt hi lo
    simp only [wordSum, length_cons]
    omega
  | case2 hi =>
    have := beWord_lt hi 0
    simp only [wordSum, length_cons, length_nil]
    omega
  | case3 => simp [wordSum]

theorem sumLoop_eq (data : List UInt8) (sum : Nat) (hsum : sum < 2 ^ 32) :
    sumLoop data sum = (sum + wordSum data) % 2 ^ 32 := by
  induction data using wordSum.induct generalizing sum with
  | case1 hi lo rest ih =>
    rw [sumLoop, ih _ (Nat.mod_lt _ (by decide)), wordSum]
    omega
  | case2 hi => rw [sumLoop, wordSum]
  | case3 =>
    rw [sumLoop, wordSum]
    omega

theorem sumLoop_zero (h : data.length ≤ 2 ^ 17) : sumLoop data 0 = wordSum data := by
  have hle := wordSum_le data
  rw [sumLoop_eq data 0 (by decide), Nat.zero_add]
  apply Nat.mod_eq_of_lt
  omega

theorem wordSum_append (h : before.length % 2 = 0) : wordSum (before ++ after) = wordSum before + wordSum after := by
  induction before using wordSum.induct with
  | case1 hi lo rest ih =>
    have hrest : rest.length % 2 = 0 := by
      simp only [length_cons] at h
      omega
    simp only [cons_append, wordSum, ih hrest]
    omega
  | case2 hi => simp at h
  | case3 => simp [wordSum]

theorem wordSum_word (h : before.length % 2 = 0) :
    wordSum (before ++ [hi, lo] ++ after) = wordSum (before ++ [0, 0] ++ after) + beWord hi lo := by
  have hpair (a b : UInt8) : wordSum ([a, b] ++ after) = beWord a b + wordSum after := rfl
  have hzero : beWord 0 0 = 0 := rfl
  rw [append_assoc, append_assoc, wordSum_append h, wordSum_append h, hpair, hpair,
    hzero]
  omega

end Sums

section Fold

theorem fold_lt (sum : Nat) : fold sum < 2 ^ 16 := by
  induction sum using fold.induct with
  | case1 sum h =>
    rw [fold, if_pos h]
    exact h
  | case2 sum h ih =>
    rw [fold, if_neg h]
    exact ih

theorem fold_mod (sum : Nat) : fold sum % 65535 = sum % 65535 := by
  induction sum using fold.induct with
  | case1 sum h => rw [fold, if_pos h]
  | case2 sum h ih =>
    rw [fold, if_neg h, ih]
    omega

theorem fold_eq_zero {sum : Nat} : fold sum = 0 ↔ sum = 0 := by
  induction sum using fold.induct with
  | case1 sum h => rw [fold, if_pos h]
  | case2 sum h ih =>
    rw [fold, if_neg h, ih]
    omega

theorem onesChecksum_eq (data : List UInt8) : onesChecksum data = 65535 - fold (sumLoop data 0) := by
  have := fold_lt (sumLoop data 0)
  unfold onesChecksum
  omega

/-- A receiver accepts a string exactly if its words sum to a nonzero multiple of 65535. -/
theorem onesChecksum_eq_zero {data : List UInt8} (h : data.length ≤ 2 ^ 17) :
    onesChecksum data = 0 ↔ 0 < wordSum data ∧ 65535 ∣ wordSum data := by
  have hlt := fold_lt (wordSum data)
  have hmod := fold_mod (wordSum data)
  have hzero : fold (wordSum data) = 0 ↔ _ := fold_eq_zero
  rw [onesChecksum_eq, sumLoop_zero h]
  omega

/-- Storing the checksum least significant byte first multiplies it by 256 modulo 65535, so the
string is then accepted only when 257 divides the sum of its other words. -/
theorem onesChecksum_swapped {before after : List UInt8} (hb : before.length % 2 = 0)
    (hlen : (before ++ [0, 0] ++ after).length ≤ 2 ^ 17) :
    onesChecksum (before ++ bytes16 (onesChecksum (before ++ [0, 0] ++ after)) ++ after) = 0 ↔
      257 ∣ wordSum (before ++ [0, 0] ++ after) := by
  have hlt := fold_lt (wordSum (before ++ [0, 0] ++ after))
  have hmod := fold_mod (wordSum (before ++ [0, 0] ++ after))
  have hzero : fold (wordSum (before ++ [0, 0] ++ after)) = 0 ↔ _ := fold_eq_zero
  have hc := onesChecksum_eq (before ++ [0, 0] ++ after)
  rw [sumLoop_zero hlen] at hc
  have hlen' : (before ++ bytes16 (onesChecksum (before ++ [0, 0] ++ after)) ++ after).length ≤
      2 ^ 17 := by
    simpa [bytes16] using hlen
  rw [onesChecksum_eq_zero hlen', bytes16, wordSum_word hb, hc]
  generalize fold (wordSum (before ++ [0, 0] ++ after)) = f at *
  generalize wordSum (before ++ [0, 0] ++ after) = s at *
  have hword : beWord (UInt8.ofNat (65535 - f)) (UInt8.ofNat ((65535 - f) / 256)) =
      (65535 - f) % 256 * 256 + (65535 - f) / 256 := by
    simp only [beWord, UInt8.toNat_ofNat']
    omega
  rw [hword]
  omega

end Fold

end ProOS.Framework
