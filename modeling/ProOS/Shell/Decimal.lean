import ProOS.Kernel.Types

namespace ProOS.Shell

/-! ## Division and printing of 64-bit numbers -/

/-- The loop of `u64_divmod` from the bit below on, with the quotient and the remainder so far. -/
def divmodLoop (value divisor : Nat) : Nat → Nat → Nat → Nat × Nat
  | 0, quotient, rem => (quotient, rem)
  | bit + 1, quotient, rem =>
    let rem := (rem <<< 1) % 2 ^ 64 ||| ((value >>> bit) &&& 1)
    if divisor ≤ rem then divmodLoop value divisor bit (quotient ||| (1 <<< bit) % 2 ^ 64) (rem - divisor)
    else divmodLoop value divisor bit quotient rem

/-- The quotient and what is stored at `remainder`. -/
def u64Divmod (value divisor : Nat) : Nat × Nat :=
  let r := divmodLoop value divisor 64 0 0
  (r.1, r.2 % 2 ^ 32)

/-- The loop of `write_u64` that fills `temp`, of which `room` bytes are left. -/
def tempLoop : Nat → Nat → Str
  | 0, _ => []
  | room + 1, value =>
    if 0 < value then
      let r := u64Divmod value 10
      UInt8.ofNat (48 + r.2) :: tempLoop room r.1
    else []

/-- The bytes that `write_u64` stores at `out`. -/
def writeU64 (value : Nat) : Str := if value = 0 then [48, 0] else (tempLoop 32 value).reverse ++ [0]

/-- The decimal numeral without a leading zero. -/
def decimal (n : Nat) : Str := (Nat.toDigits 10 n).map (fun c => UInt8.ofNat c.toNat)

section Division

variable {value d quotient rem bit : Nat}

theorem next_rem (hrem : rem < 2 ^ 32) :
    (rem <<< 1) % 2 ^ 64 ||| ((value >>> bit) &&& 1) = 2 * rem + value / 2 ^ bit % 2 := by
  have hshift : (rem <<< 1) % 2 ^ 64 = 2 ^ 1 * rem := by
    rw [Nat.shiftLeft_eq]
    omega
  have hbit : (value >>> bit) &&& 1 = value / 2 ^ bit % 2 := by rw [Nat.and_one_is_mod, Nat.shiftRight_eq_div_pow]
  rw [hshift, hbit, ← Nat.two_pow_add_eq_or_of_lt (Nat.mod_lt _ (by decide))]

theorem next_quotient (hbit : bit < 64) (hq : 2 ^ (bit + 1) ∣ quotient) :
    quotient ||| (1 <<< bit) % 2 ^ 64 = quotient + 2 ^ bit := by
  obtain ⟨k, rfl⟩ := hq
  have hlt : 2 ^ bit < 2 ^ 64 := Nat.pow_lt_pow_right (by decide) hbit
  have hpow : 2 ^ bit < 2 ^ (bit + 1) := Nat.pow_lt_pow_right (by decide) (by omega)
  rw [Nat.one_shiftLeft, Nat.mod_eq_of_lt hlt, Nat.two_pow_add_eq_or_of_lt hpow]

theorem divmodLoop_spec (value : Nat) (hd : d < 2 ^ 32) (hbit : bit ≤ 64) (hq : 2 ^ bit ∣ quotient) (hrem : rem < d) :
    (divmodLoop value d bit quotient rem).1 * d + (divmodLoop value d bit quotient rem).2 =
        quotient * d + rem * 2 ^ bit + value % 2 ^ bit ∧ (divmodLoop value d bit quotient rem).2 < d := by
  induction bit generalizing quotient rem with
  | zero => simp [divmodLoop, hrem, Nat.mod_one]
  | succ bit ih =>
    have hlow : value % 2 ^ (bit + 1) = value % 2 ^ bit + 2 ^ bit * (value / 2 ^ bit % 2) := Nat.mod_pow_succ
    have htwo : value / 2 ^ bit % 2 < 2 := Nat.mod_lt _ (by decide)
    have hdvd : 2 ^ bit ∣ quotient := (pow_dvd_pow 2 bit.le_succ).trans hq
    rw [divmodLoop, next_rem (by omega)]
    split_ifs with hle
    · rw [next_quotient hbit hq]
      obtain ⟨heq, hlt⟩ := ih (by omega) (hdvd.add dvd_rfl) (show 2 * rem + value / 2 ^ bit % 2 - d < d by omega)
      refine ⟨?_, hlt⟩
      rw [heq, hlow, Nat.sub_mul, pow_succ]
      have hmul := Nat.mul_le_mul_right (2 ^ bit) hle
      zify [hmul]
      ring
    · obtain ⟨heq, hlt⟩ := ih (by omega) hdvd (not_le.mp hle)
      refine ⟨?_, hlt⟩
      rw [heq, hlow, pow_succ]
      ring

theorem u64Divmod_spec (hv : value < 2 ^ 64) (hpos : 1 ≤ d) (hd : d < 2 ^ 32) :
    value = (u64Divmod value d).1 * d + (u64Divmod value d).2 ∧ (u64Divmod value d).2 < d := by
  obtain ⟨heq, hlt⟩ := divmodLoop_spec value hd le_rfl (dvd_zero _) hpos
  rw [Nat.zero_mul, Nat.zero_mul, Nat.zero_add, Nat.mod_eq_of_lt hv] at heq
  have hsmall : (divmodLoop value d 64 0 0).2 % 2 ^ 32 = (divmodLoop value d 64 0 0).2 :=
    Nat.mod_eq_of_lt (hlt.trans hd)
  rw [u64Divmod, hsmall]
  exact ⟨heq.symm, hlt⟩

theorem u64Divmod_ten (hv : value < 2 ^ 64) : u64Divmod value 10 = (value / 10, value % 10) := by
  obtain ⟨heq, hlt⟩ := u64Divmod_spec hv (by decide : 1 ≤ 10) (by decide)
  exact Prod.ext (by omega) (by omega)

end Division

theorem digitChar_byte {k : Nat} (hk : k < 10) : UInt8.ofNat k.digitChar.toNat = UInt8.ofNat (48 + k) := by
  revert k
  decide

theorem tempLoop_eq (room : Nat) {value : Nat} (hpos : 0 < value) (hv : value < 2 ^ 64) (hroom : value < 10 ^ room) :
    (tempLoop room value).reverse = decimal value := by
  induction room generalizing value with
  | zero => omega
  | succ room ih =>
    have hlast : UInt8.ofNat (48 + value % 10) = UInt8.ofNat (value % 10).digitChar.toNat :=
      (digitChar_byte (Nat.mod_lt _ (by decide))).symm
    rw [tempLoop, if_pos hpos, u64Divmod_ten hv]
    dsimp only
    rw [List.reverse_cons, hlast]
    rcases Nat.lt_or_ge value 10 with hlt | hge
    · rw [Nat.div_eq_of_lt hlt, decimal, Nat.toDigits_of_lt_base hlt, Nat.mod_eq_of_lt hlt]
      cases room <;> rfl
    · rw [ih (by omega) (by omega) (by rw [pow_succ] at hroom; omega), decimal, decimal,
        Nat.toDigits_of_base_le (by decide) hge, List.map_append]
      rfl

theorem u64_division_and_numeral (value : Nat) (hv : value < 2 ^ 64) :
    (∀ d, 1 ≤ d → d < 2 ^ 32 →
      value = (u64Divmod value d).1 * d + (u64Divmod value d).2 ∧ (u64Divmod value d).2 < d) ∧
    writeU64 value = decimal value ++ [0] := by
  refine ⟨fun d hpos hd => u64Divmod_spec hv hpos hd, ?_⟩
  rw [writeU64]
  split_ifs with hzero
  · rw [hzero]
    rfl
  · rw [tempLoop_eq 32 (Nat.pos_of_ne_zero hzero) hv (hv.trans (by norm_num))]

theorem u64_division_and_numeral_largest :
    2 ^ 64 - 1 = (u64Divmod (2 ^ 64 - 1) 10).1 * 10 + (u64Divmod (2 ^ 64 - 1) 10).2 ∧
      writeU64 (2 ^ 64 - 1) = decimal (2 ^ 64 - 1) ++ [0] := by
  obtain ⟨hdiv, hwrite⟩ := u64_division_and_numeral (2 ^ 64 - 1) (by decide)
  exact ⟨(hdiv 10 (by decide) (by decide)).1, hwrite⟩

end ProOS.Shell
