import Mathlib

namespace ProOS

/-- `pid_t`, an `int`. -/
abbrev Pid := Int

inductive ProcState
  | unused
  | ready
  | running
  | waiting
  | zombie
  deriving DecidableEq, Repr

inductive ThreadKind
  | kernel
  | user
  deriving DecidableEq, Repr

theorem update_forall {α : Type} {f : Pid → Option α} {p : Pid} {o : Option α} {P : Pid → α → Prop}
    (hold : ∀ q a, q ≠ p → f q = some a → P q a) (hnew : ∀ a, o = some a → P p a) :
    ∀ q a, Function.update f p o q = some a → P q a := by
  intro q a h
  rw [Function.update_apply] at h
  split_ifs at h with hq
  · rw [hq]
    exact hnew a h
  · exact hold q a hq h

/-- The bytes of a C string before its terminator. -/
abbrev Str := List UInt8
def slash : UInt8 := 47

/-- The value an `int` holds after arithmetic, two's complement. -/
def int32 (n : Int) : Int := n.bmod (2 ^ 32)

def intMax : Int := 2 ^ 31 - 1

theorem int32_of_range {n : Int} (hl : -2 ^ 31 ≤ n) (hu : n ≤ intMax) : int32 n = n := by
  simp only [int32, intMax] at *
  rw [Int.bmod_def]
  split <;> omega

theorem int32_succ_intMax : int32 (intMax + 1) = -2 ^ 31 := by decide

end ProOS
