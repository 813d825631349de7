import Mathlib

namespace ProOS.Framework

variable {α : Type*} {b v w : Nat} {digit : α → Option Nat} {s : List α}

/-- The digits `s` behind the digits of `v`, in base `b`; `none` if a character is no digit. -/
def numeralFrom (b : Nat) (digit : α → Option Nat) : Nat → List α → Option Nat
  | v, [] => some v
  | v, c :: s => (digit c).bind (fun d => numeralFrom b digit (v * b + d) s)

def numeral (b : Nat) (digit : α → Option Nat) (s : List α) : Option Nat := numeralFrom b digit 0 s

theorem le_numeralFrom (hb : 0 < b) (h : numeralFrom b digit v s = some w) : v ≤ w := by
  induction s generalizing v with
  | nil => exact (Option.some.inj h).le
  | cons c s ih =>
    obtain ⟨d, -, hd⟩ := Option.bind_eq_some_iff.mp h
    have hle := ih hd
    have hmul := Nat.le_mul_of_pos_right v hb
    omega

theorem numeralFrom_filter (hb : 0 < b) {p : Nat → Bool} (hp : ∀ w, v ≤ w → p w = false) :
    (numeralFrom b digit v s).filter p = none := by
  cases h : numeralFrom b digit v s with
  | none => rfl
  | some w => simp [hp w (le_numeralFrom hb h)]

end ProOS.Framework
