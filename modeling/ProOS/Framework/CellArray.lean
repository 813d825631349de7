import Mathlib

namespace ProOS.Framework

open Function List

variable {α : Type*}

/-- The first `n` cells of an array that is addressed by index. -/
def cells (a : Nat → α) (n : Nat) : List α := (List.range n).map a

/-- `k` rounds of `for (j = ...; ; ++j) a[j - 1] = a[j]`. -/
def shiftFrom (a : Nat → α) (j : Nat) : Nat → Nat → α
  | 0 => a
  | k + 1 => shiftFrom (update a (j - 1) (a j)) (j + 1) k

/-- Closes the gap at `i` in an array of `n` cells. -/
def shiftDown (a : Nat → α) (i n : Nat) : Nat → α := shiftFrom a (i + 1) (n - (i + 1))

@[simp] theorem length_cells (a : Nat → α) (n : Nat) : (cells a n).length = n := by
  simp [cells]

@[simp] theorem cells_zero (a : Nat → α) : cells a 0 = [] := rfl

theorem getElem?_cells (a : Nat → α) (n i : Nat) : (cells a n)[i]? = if i < n then some (a i) else none := by
  by_cases h : i < n
  · simp [cells, h]
  · simp [cells, h]

@[simp] theorem getElem_cells (a : Nat → α) (n i : Nat) (h : i < (cells a n).length) : (cells a n)[i] = a i := by
  simp [cells]

theorem cells_congr {a b : Nat → α} {n : Nat} (h : ∀ i < n, a i = b i) : cells a n = cells b n := by
  apply map_congr_left
  intro i hi
  exact h i (mem_range.mp hi)

theorem cells_succ (a : Nat → α) (n : Nat) : cells a (n + 1) = cells a n ++ [a n] := by
  simp [cells, range_succ]

theorem cells_update_ge (a : Nat → α) {n m : Nat} (h : n ≤ m) (x : α) : cells (update a m x) n = cells a n := by
  apply cells_congr
  intro i hi
  exact update_of_ne (by omega) _ _

theorem cells_push (a : Nat → α) (n : Nat) (x : α) : cells (update a n x) (n + 1) = cells a n ++ [x] := by
  rw [cells_succ, cells_update_ge a le_rfl, update_self]

theorem shiftFrom_apply (a : Nat → α) (j k m : Nat) (hj : 0 < j) :
    shiftFrom a j k m = if j - 1 ≤ m ∧ m < j - 1 + k then a (m + 1) else a m := by
  induction k generalizing a j with
  | zero =>
    rw [if_neg (by omega)]
    rfl
  | succ k ih =>
    rw [shiftFrom, ih _ _ (by omega)]
    by_cases hm : j - 1 ≤ m ∧ m < j - 1 + (k + 1)
    · rw [if_pos hm]
      -- the cell at `j - 1` was written in this round, the ones above it come later
      by_cases he : m = j - 1
      · rw [if_neg (by omega), he, update_self]
        congr 1
        omega
      · rw [if_pos (by omega), update_of_ne (by omega)]
    · rw [if_neg hm, if_neg (by omega), update_of_ne (by omega)]

theorem cells_shiftDown (a : Nat → α) {i n : Nat} (hi : i < n) :
    cells (shiftDown a i n) (n - 1) = (cells a n).eraseIdx i := by
  apply ext_getElem?
  intro m
  rw [getElem?_cells, getElem?_eraseIdx, getElem?_cells, getElem?_cells, shiftDown,
    shiftFrom_apply _ _ _ _ (by omega)]
  by_cases hm : m < i
  · rw [if_pos hm, if_pos (show m < n - 1 by omega), if_pos (show m < n by omega),
      if_neg (by omega)]
  · rw [if_neg hm]
    by_cases hn : m < n - 1
    · rw [if_pos hn, if_pos (by omega), if_pos (show m + 1 < n by omega)]
    · rw [if_neg hn, if_neg (by omega)]

end ProOS.Framework
