import ProOS.Kernel.Types
import ProOS.Framework.Numeral

namespace ProOS.Shell

open ProOS.Framework Option

/-! ## Numeric arguments -/

def intMax : Nat := 2 ^ 31 - 1

def decimalDigit (c : UInt8) : Option Nat := if 48 ≤ c ∧ c ≤ 57 then some (c.toNat - 48) else none

def hexDigit (c : UInt8) : Option Nat :=
  if 48 ≤ c ∧ c ≤ 57 then some (c.toNat - 48)
  else if 97 ≤ c ∧ c ≤ 102 then some (10 + (c.toNat - 97))
  else if 65 ≤ c ∧ c ≤ 70 then some (10 + (c.toNat - 65))
  else none

def positiveLoop : Nat → Str → Option Nat
  | value, [] => some value
  | value, c :: text =>
    match decimalDigit c with
    | none => none
    | some digit => if (intMax - digit) / 10 < value then none else positiveLoop (value * 10 + digit) text

def parsePositiveInt (text : Str) : Option Nat :=
  if text = [] then none
  else
    match positiveLoop 0 text with
    | none => none
    | some value => if value ≤ 0 then none else some value

/-- The loop of `parse_u32_token` over hexadecimal digits. -/
def hexLoop : Nat → Str → Option Nat
  | value, [] => some value
  | value, c :: text =>
    match hexDigit c with
    | none => none
    | some digit => hexLoop ((value <<< 4) % 2 ^ 32 ||| digit) text

def decimalLoop : Nat → Str → Option Nat
  | value, [] => some value
  | value, c :: text =>
    match decimalDigit c with
    | none => none
    | some digit =>
      let next := (value * 10 + digit) % 2 ^ 32
      if next < value then none else decimalLoop next text

def isHex (text : Str) : Bool := text.take 2 = [48, 120] || text.take 2 = [48, 88]

def parseU32Token (text : Str) : Option Nat :=
  if text = [] then none
  else if isHex text then if text.drop 2 = [] then none else hexLoop 0 (text.drop 2)
  else decimalLoop 0 text

def tokenValue (text : Str) : Option Nat :=
  if isHex text then if text.drop 2 = [] then none else numeral 16 hexDigit (text.drop 2)
  else if text = [] then none else numeral 10 decimalDigit text

/-- Both functions accept exactly the numerals in their range, at their value. -/
structure ExactArguments (text : Str) : Prop where
  u32 : parseU32Token text = (tokenValue text).filter (· < 2 ^ 32)
  positive : parsePositiveInt text = (numeral 10 decimalDigit text).filter (fun v => 1 ≤ v ∧ v ≤ intMax)

/-- The accumulator falls at one of the digits behind those of `v`. -/
def Falls : Nat → Str → Prop
  | _, [] => False
  | v, c :: text => ∃ d, decimalDigit c = some d ∧
    ((v * 10 + d) % 2 ^ 32 < v % 2 ^ 32 ∨ Falls (v * 10 + d) text)

section Loops

variable {text : Str} {v : Nat}

theorem positiveLoop_eq (hv : v ≤ intMax) :
    positiveLoop v text = (numeralFrom 10 decimalDigit v text).filter (· ≤ intMax) := by
  induction text generalizing v with
  | nil => simp [positiveLoop, numeralFrom, filter_some, hv]
  | cons c text ih =>
    rw [positiveLoop, numeralFrom]
    cases hd : decimalDigit c with
    | none => rfl
    | some d =>
      have hlt : d ≤ 9 := by
        have hc := c.toNat_lt
        unfold decimalDigit at hd
        split_ifs at hd with hrange
        have hle := UInt8.le_iff_toNat_le.mp hrange.2
        cases hd
        simp at hle
        omega
      dsimp only [bind_some]
      split_ifs with hbig
      · refine (numeralFrom_filter (by decide) (fun w hw => ?_)).symm
        unfold intMax at hbig ⊢
        simp
        omega
      · exact ih (by unfold intMax at *; omega)

theorem parsePositiveInt_eq (text : Str) :
    parsePositiveInt text = (numeral 10 decimalDigit text).filter (fun v => 1 ≤ v ∧ v ≤ intMax) := by
  unfold parsePositiveInt
  split_ifs with hnil
  · rw [hnil]
    rfl
  · rw [positiveLoop_eq (Nat.zero_le _), numeral]
    cases numeralFrom 10 decimalDigit 0 text with
    | none => rfl
    | some v =>
      by_cases hmax : v ≤ intMax
      · rcases Nat.eq_zero_or_pos v with rfl | hpos
        · rfl
        · simp [filter_some, hmax, Nat.succ_le_of_lt hpos, show v ≠ 0 by omega]
      · simp [filter_some, hmax]

theorem hexDigit_lt {c : UInt8} {d : Nat} (h : hexDigit c = some d) : d < 16 := by
  unfold hexDigit at h
  split_ifs at h with h₁ h₂ h₃
  all_goals
    cases h
    simp only [UInt8.le_iff_toNat_le] at *
    simp at *
    omega

theorem hexLoop_eq : hexLoop (v % 2 ^ 32) text = (numeralFrom 16 hexDigit v text).map (· % 2 ^ 32) := by
  induction text generalizing v with
  | nil => rfl
  | cons c text ih =>
    rw [hexLoop, numeralFrom]
    cases hd : hexDigit c with
    | none => rfl
    | some d =>
      have hstep : ((v % 2 ^ 32) <<< 4) % 2 ^ 32 ||| d = (v * 16 + d) % 2 ^ 32 := by
        have hlt : d < 2 ^ 4 := hexDigit_lt hd
        have hshift : ((v % 2 ^ 32) <<< 4) % 2 ^ 32 = (v % 2 ^ 28) <<< 4 := by
          rw [Nat.shiftLeft_eq, Nat.shiftLeft_eq]
          omega
        rw [hshift, ← Nat.shiftLeft_add_eq_or_of_lt hlt, Nat.shiftLeft_eq]
        omega
      dsimp only [bind_some]
      rw [hstep, ih]

theorem decimalLoop_of_falls (h : Falls v text) : decimalLoop (v % 2 ^ 32) text = none := by
  induction text generalizing v with
  | nil => cases h
  | cons c text ih =>
    obtain ⟨d, hd, h⟩ := h
    have hnext : (v % 2 ^ 32 * 10 + d) % 2 ^ 32 = (v * 10 + d) % 2 ^ 32 := by omega
    rw [decimalLoop, hd]
    dsimp only
    rw [hnext]
    split_ifs with hfall
    · rfl
    · exact ih (h.resolve_left hfall)

theorem decimalLoop_eq (h : ¬Falls v text) :
    decimalLoop (v % 2 ^ 32) text = (numeralFrom 10 decimalDigit v text).map (· % 2 ^ 32) := by
  induction text generalizing v with
  | nil => rfl
  | cons c text ih =>
    rw [decimalLoop, numeralFrom]
    cases hd : decimalDigit c with
    | none => rfl
    | some d =>
      have hnext : (v % 2 ^ 32 * 10 + d) % 2 ^ 32 = (v * 10 + d) % 2 ^ 32 := by omega
      dsimp only [bind_some]
      rw [hnext, if_neg (fun hfall => h ⟨d, hd, .inl hfall⟩)]
      exact ih (fun hfalls => h ⟨d, hd, .inr hfalls⟩)

theorem not_falls {w : Nat} (h : numeralFrom 10 decimalDigit v text = some w) (hw : w < 2 ^ 32) : ¬Falls v text := by
  induction text generalizing v with
  | nil => exact id
  | cons c text ih =>
    rintro ⟨d, hd, hfalls⟩
    rw [numeralFrom, hd] at h
    have hle := le_numeralFrom (by decide) h
    rcases hfalls with hfall | hfalls
    · omega
    · exact ih h hfalls

end Loops

theorem filter_eq_map_mod {o : Option Nat} :
    o.map (· % 2 ^ 32) = o.filter (· < 2 ^ 32) ↔ ∀ v, o = some v → v < 2 ^ 32 := by
  cases o <;> simp [filter_some]

/-- Only a numeral out of range can be misread, and it is unless its digits let the accumulator fall. -/
theorem numeric_arguments_exact_iff (text : Str) : ExactArguments text ↔
    ∀ v, tokenValue text = some v → 2 ^ 32 ≤ v → isHex text = false ∧ Falls 0 text := by
  have hu32 : parseU32Token text = (tokenValue text).filter (· < 2 ^ 32) ↔
      ∀ v, tokenValue text = some v → 2 ^ 32 ≤ v → isHex text = false ∧ Falls 0 text := by
    unfold parseU32Token tokenValue
    by_cases hnil : text = []
    · simp [hnil, isHex]
    rw [if_neg hnil, if_neg hnil]
    cases hhex : isHex text with
    | true =>
      by_cases hrest : text.drop 2 = []
      · simp [hrest]
      have hloop : hexLoop (0 % 2 ^ 32) (text.drop 2) = _ := hexLoop_eq
      rw [Nat.zero_mod] at hloop
      simp only [hrest, if_true, if_false, hloop]
      rw [← numeral, filter_eq_map_mod]
      refine forall_congr' fun v => ?_
      simp
    | false =>
      simp only [Bool.false_eq_true, if_false, true_and]
      have hzero : (0 : Nat) = 0 % 2 ^ 32 := rfl
      rw [hzero]
      by_cases hfalls : Falls 0 text
      · rw [decimalLoop_of_falls hfalls]
        refine iff_of_true ?_ (fun v _ _ => hfalls)
        cases hn : numeral 10 decimalDigit text with
        | none => rfl
        | some v =>
          have hbig : ¬v < 2 ^ 32 := fun hv => not_falls hn hv hfalls
          rw [filter_some, if_neg (by simpa using hbig)]
      · rw [decimalLoop_eq hfalls, ← numeral, filter_eq_map_mod]
        refine forall_congr' fun v => ?_
        simp [hfalls, not_le]
  exact ⟨fun h => hu32.mp h.u32, fun h => ⟨hu32.mpr h, parsePositiveInt_eq text⟩⟩

/-- `9999999999` is read as 1410065407. -/
theorem numeric_argument_reduced : parseU32Token (List.replicate 10 57) = some 1410065407 ∧
    ¬ExactArguments (List.replicate 10 57) := by
  have hparse : parseU32Token (List.replicate 10 57) = some 1410065407 := by decide +kernel
  have hvalue : tokenValue (List.replicate 10 57) = some 9999999999 := by decide +kernel
  refine ⟨hparse, fun h => ?_⟩
  have hu32 := h.u32
  rw [hparse, hvalue] at hu32
  cases hu32

/-! ## Addresses -/

def dot : UInt8 := 46

/-- `parse_ipv4_address` behind the octets in `out`, `digits` digits into the next one. -/
def ipv4Loop : Str → Nat → Nat → List UInt8 → Option (List UInt8)
  | [], value, digits, out =>
    if out.length ≠ 3 ∨ digits = 0 ∨ 255 < value then none else some (out ++ [UInt8.ofNat value])
  | c :: text, value, digits, out =>
    if c = dot then
      if 3 ≤ out.length ∨ digits = 0 ∨ 255 < value then none
      else ipv4Loop text 0 0 (out ++ [UInt8.ofNat value])
    else
      match decimalDigit c with
      | none => none
      | some digit =>
        if 255 < value * 10 + digit then none else ipv4Loop text (value * 10 + digit) (digits + 1) out

def parseIpv4Address (text : Str) : Option (List UInt8) := ipv4Loop text 0 0 []

/-- `if (pos < capacity - 1) out[pos++] = c;`. -/
def putChar (capacity : Nat) (out : Str) (c : UInt8) : Str :=
  if out.length < capacity - 1 then out ++ [c] else out

/-- The characters of one octet, the last digit first, at most three of them. -/
def octetDigits : Nat → Nat → Str
  | 0, _ => []
  | room + 1, value => if value = 0 then [] else UInt8.ofNat (48 + value % 10) :: octetDigits room (value / 10)

def octetText (value : UInt8) : Str := if value = 0 then [48] else (octetDigits 3 value.toNat).reverse

/-- `format_ipv4_address` of the rest of an address. -/
def formatLoop (capacity : Nat) : List UInt8 → Str → Str
  | [], out => out
  | [a], out => (octetText a).foldl (putChar capacity) out
  | a :: rest, out =>
    formatLoop capacity rest (putChar capacity ((octetText a).foldl (putChar capacity) out) dot)

def formatIpv4Address (capacity : Nat) (ipv4 : List UInt8) : Str := formatLoop capacity ipv4 []

/-- `s` is a non-empty decimal numeral of the value `b`, with any zeros in front. -/
def IsOctet (s : Str) (b : UInt8) : Prop := s ≠ [] ∧ numeral 10 decimalDigit s = some b.toNat

section Addresses

variable {text : Str} {v digits capacity : Nat} {out res ipv4 : List UInt8}

theorem some_eq_toNat_iff {b : UInt8} (hv : v ≤ 255) : some v = some b.toNat ↔ b = UInt8.ofNat v := by
  rw [some_inj]
  constructor
  · rintro rfl
    simp
  · rintro rfl
    simp
    omega

theorem cons_eq_intercalate {c : UInt8} {s : Str} {parts : List Str} (h : c :: text = [dot].intercalate (s :: parts)) :
    (∃ s', s = c :: s' ∧ text = [dot].intercalate (s' :: parts)) ∨
    s = [] ∧ c = dot ∧ ∃ s' parts', parts = s' :: parts' ∧ text = [dot].intercalate parts := by
  cases s with
  | nil =>
    cases parts with
    | nil => simp at h
    | cons s' parts =>
      obtain ⟨rfl, rfl⟩ : c = dot ∧ text = [dot].intercalate (s' :: parts) := by simpa using h
      exact .inr ⟨rfl, rfl, s', parts, rfl, rfl⟩
  | cons c' s' =>
    obtain ⟨rfl, rfl⟩ : c = c' ∧ text = [dot].intercalate (s' :: parts) := by
      cases parts <;> simpa using h
    exact .inl ⟨s', rfl, rfl⟩

theorem ipv4Loop_eq_some (hv : v ≤ 255) (hout : out.length ≤ 3) :
    ipv4Loop text v digits out = some res ↔ ∃ s parts b bs,
      text = [dot].intercalate (s :: parts) ∧ (digits ≠ 0 ∨ s ≠ []) ∧
      numeralFrom 10 decimalDigit v s = some b.toNat ∧ List.Forall₂ IsOctet parts bs ∧
      res = out ++ b :: bs ∧ res.length = 4 := by
  induction text generalizing v digits out with
  | nil =>
    rw [ipv4Loop]
    constructor
    · intro h
      split_ifs at h with hbad
      cases h
      refine ⟨[], [], UInt8.ofNat v, [], by simp, .inl (by omega), (some_eq_toNat_iff hv).mpr rfl,
        .nil, rfl, ?_⟩
      simp
      omega
    · rintro ⟨s, parts, b, bs, htext, hdigits, hs, hparts, rfl, hlen⟩
      cases parts with
      | cons s' parts => simp at htext
      | nil =>
        obtain rfl : s = [] := by simpa using htext.symm
        obtain rfl := (some_eq_toNat_iff hv).mp hs
        cases hparts
        rw [if_neg]
        simp at hlen hdigits
        omega
  | cons c text ih =>
    rw [ipv4Loop]
    constructor
    · intro h
      split_ifs at h with hc hbad
      · obtain ⟨s, parts, b, bs, rfl, hdigits, hs, hparts, rfl, hlen⟩ :=
          (ih (by omega) (by simp; omega)).mp h
        exact ⟨[], s :: parts, UInt8.ofNat v, b :: bs, by simp [hc], .inl (by omega),
          (some_eq_toNat_iff hv).mpr rfl, .cons ⟨hdigits.resolve_left (by simp), hs⟩ hparts,
          by simp, hlen⟩
      · cases hd : decimalDigit c with
        | none =>
          rw [hd] at h
          cases h
        | some d =>
          simp only [hd] at h
          split_ifs at h with hbig
          obtain ⟨s, parts, b, bs, rfl, -, hs, hparts, rfl, hlen⟩ := (ih (by omega) hout).mp h
          refine ⟨c :: s, parts, b, bs, ?_, .inr (by simp), ?_, hparts, rfl, hlen⟩
          · cases parts <;> simp
          · rw [numeralFrom, hd]
            exact hs
    · rintro ⟨s, parts, b, bs, htext, hdigits, hs, hparts, rfl, hlen⟩
      rcases cons_eq_intercalate htext with ⟨s', rfl, rfl⟩ | ⟨rfl, rfl, s', parts', rfl, rfl⟩
      · obtain ⟨d, hd, hs⟩ := bind_eq_some_iff.mp hs
        have hc : c ≠ dot := by
          rintro rfl
          cases hd
        have hle := le_numeralFrom (by decide) hs
        have hb := b.toNat_lt
        rw [if_neg hc, hd]
        dsimp only
        rw [if_neg (by omega)]
        exact (ih (by omega) hout).mpr ⟨s', parts, b, bs, rfl, .inl (by simp), hs, hparts, rfl, hlen⟩
      · cases hparts with
        | cons hoctet hparts =>
          obtain rfl := (some_eq_toNat_iff hv).mp hs
          have hroom : out.length < 3 := by
            simp at hlen
            omega
          rw [if_pos rfl, if_neg (by simp at hdigits; omega)]
          exact (ih (by omega) (by simp; omega)).mpr
            ⟨s', parts', _, _, rfl, .inr hoctet.1, hoctet.2, hparts, by simp, hlen⟩

theorem foldl_putChar {s : Str} (h : out.length + s.length < capacity) : s.foldl (putChar capacity) out = out ++ s := by
  induction s generalizing out with
  | nil => simp
  | cons c s ih =>
    rw [List.length_cons] at h
    rw [List.foldl_cons, putChar, if_pos (by omega), ih (by simp; omega)]
    simp

theorem octetText_spec (b : UInt8) : IsOctet (octetText b) b ∧ (octetText b).length ≤ 3 := by
  have hall : ∀ n < 256, IsOctet (octetText (UInt8.ofNat n)) (UInt8.ofNat n) ∧
      (octetText (UInt8.ofNat n)).length ≤ 3 := by
    unfold IsOctet
    decide +kernel
  simpa using hall b.toNat b.toNat_lt

theorem formatLoop_eq {b : UInt8} (h : out.length + 4 * (ipv4.length + 1) ≤ capacity) :
    formatLoop capacity (b :: ipv4) out = out ++ [dot].intercalate ((b :: ipv4).map octetText) := by
  induction ipv4 generalizing out b with
  | nil =>
    have hlen := (octetText_spec b).2
    rw [formatLoop, foldl_putChar (by simp at h; omega)]
    simp
  | cons a ipv4 ih =>
    have hlen := (octetText_spec b).2
    rw [List.length_cons] at h
    rw [formatLoop, foldl_putChar (by omega), putChar, if_pos (by simp; omega), ih (by simp; omega)]
    · simp
    · simp

theorem ipv4_text_codec :
    (∀ ipv4 capacity, ipv4.length = 4 → 16 ≤ capacity →
      parseIpv4Address (formatIpv4Address capacity ipv4) = some ipv4) ∧
    ∀ text out, parseIpv4Address text = some out ↔ ∃ parts, text = [dot].intercalate parts ∧
      parts.length = 4 ∧ List.Forall₂ IsOctet parts out := by
  have hparse : ∀ text out, parseIpv4Address text = some out ↔ ∃ parts,
      text = [dot].intercalate parts ∧ parts.length = 4 ∧ List.Forall₂ IsOctet parts out := by
    intro text out
    rw [parseIpv4Address, ipv4Loop_eq_some (by decide) (by decide)]
    constructor
    · rintro ⟨s, parts, b, bs, htext, hdigits, hs, hparts, rfl, hlen⟩
      have hall := List.Forall₂.cons ⟨hdigits.resolve_left (by simp), hs⟩ hparts
      exact ⟨s :: parts, htext, hall.length_eq.trans hlen, hall⟩
    · rintro ⟨parts, htext, hlen, hall⟩
      cases hall with
      | nil => cases hlen
      | cons hs hparts =>
        exact ⟨_, _, _, _, htext, .inr hs.1, hs.2, hparts, rfl, by simpa [hparts.length_eq] using hlen⟩
  refine ⟨fun ipv4 capacity hlen hroom => (hparse _ _).mpr ⟨ipv4.map octetText, ?_, by simpa, ?_⟩, hparse⟩
  · cases ipv4 with
    | nil => cases hlen
    | cons b ipv4 =>
      rw [formatIpv4Address, formatLoop_eq (by simp at hlen ⊢; omega)]
      rfl
  · exact List.forall₂_map_left_iff.mpr (List.forall₂_same.mpr fun b _ => (octetText_spec b).1)

theorem ipv4_text_codec_largest :
    parseIpv4Address (formatIpv4Address 16 [255, 255, 255, 255]) = some [255, 255, 255, 255] ∧
    parseIpv4Address [48, 46, 48, 48, 46, 49, 46, 50, 53, 54] = none :=
  ⟨ipv4_text_codec.1 _ _ rfl le_rfl, by decide⟩

end Addresses

end ProOS.Shell
