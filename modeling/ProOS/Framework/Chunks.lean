import Mathlib

namespace ProOS.Framework

open List

section Chunks

variable {α : Type*} {n : Nat} {xs : List α}

def chunksFrom (n : Nat) : Nat → List α → List (List α)
  | 0, _ => []
  | _ + 1, [] => []
  | k + 1, x :: xs => (x :: xs).take n :: chunksFrom n k ((x :: xs).drop n)

/-- Pieces of `n` elements, the last one of what is left. -/
def chunks (n : Nat) (xs : List α) : List (List α) := chunksFrom n xs.length xs

@[simp] theorem chunks_nil : chunks n ([] : List α) = [] := rfl

theorem chunksFrom_fuel (hn : 0 < n) {k : Nat} (hk : xs.length ≤ k) : chunksFrom n k xs = chunks n xs := by
  induction k using Nat.strong_induction_on generalizing xs with
  | _ k ih =>
    cases xs with
    | nil => cases k <;> rfl
    | cons x xs =>
      obtain ⟨k, rfl⟩ : ∃ j, k = j + 1 := ⟨k - 1, by simp at hk; omega⟩
      have hlen : ((x :: xs).drop n).length ≤ xs.length := by simp; omega
      have hk' : xs.length ≤ k := by simpa using hk
      rw [chunks, length_cons, chunksFrom, chunksFrom, ih k (by omega) (by omega)]
      by_cases hle : xs.length < k
      · rw [ih xs.length (by omega) hlen]
      · rw [show xs.length = k by omega, ih k (by omega) (by omega)]

theorem chunks_of_ne_nil (hn : 0 < n) (hx : xs ≠ []) : chunks n xs = xs.take n :: chunks n (xs.drop n) := by
  cases xs with
  | nil => exact absurd rfl hx
  | cons x xs =>
    rw [chunks, length_cons, chunksFrom, chunksFrom_fuel hn]
    simp
    omega

theorem chunks_induction (hn : 0 < n) {P : List α → Prop} (hnil : P [])
    (hcons : ∀ xs, xs ≠ [] → P (xs.drop n) → P xs) (xs : List α) : P xs := by
  induction hlen : xs.length using Nat.strong_induction_on generalizing xs with
  | _ k ih =>
    by_cases hx : xs = []
    · rw [hx]
      exact hnil
    · have hpos := length_pos_iff.mpr hx
      exact hcons xs hx (ih _ (by rw [length_drop]; omega) _ rfl)

theorem length_chunks (hn : 0 < n) (xs : List α) : (chunks n xs).length = (xs.length + n - 1) / n := by
  induction xs using chunks_induction hn with
  | hnil => simp [Nat.div_eq_of_lt (show n - 1 < n by omega)]
  | hcons xs hx ih =>
    have hpos := length_pos_iff.mpr hx
    rw [chunks_of_ne_nil hn hx, length_cons, ih, length_drop]
    by_cases hle : xs.length ≤ n
    · rw [show xs.length - n + n - 1 = n - 1 by omega, Nat.div_eq_of_lt (by omega),
        show xs.length + n - 1 = xs.length - 1 + n by omega, Nat.add_div_right _ hn,
        Nat.div_eq_of_lt (by omega)]
    · rw [show xs.length + n - 1 = xs.length - n + n - 1 + n by omega, Nat.add_div_right _ hn]

theorem length_chunk (hn : 0 < n) {c : List α} (hc : c ∈ chunks n xs) : 0 < c.length ∧ c.length ≤ n := by
  induction xs using chunks_induction hn with
  | hnil => cases hc
  | hcons xs hx ih =>
    rw [chunks_of_ne_nil hn hx, mem_cons] at hc
    rcases hc with rfl | hc
    · have hpos := length_pos_iff.mpr hx
      rw [length_take]
      omega
    · exact ih hc

def padTo (n : Nat) (z : α) (c : List α) : List α := c ++ List.replicate (n - c.length) z

theorem length_padTo {z : α} {c : List α} (h : c.length ≤ n) : (padTo n z c).length = n := by
  rw [padTo, length_append, length_replicate]
  omega

theorem flatMap_pad_chunks (hn : 0 < n) (z : α) (xs : List α) :
    ((chunks n xs).flatMap (padTo n z)).take xs.length = xs := by
  induction xs using chunks_induction hn with
  | hnil => rfl
  | hcons xs hx ih =>
    rw [chunks_of_ne_nil hn hx, flatMap_cons]
    by_cases hle : xs.length ≤ n
    · rw [take_of_length_le hle, padTo, append_assoc, take_left]
    · have hfull : (xs.take n).length = n := by rw [length_take]; omega
      rw [padTo, hfull, Nat.sub_self, replicate_zero, append_nil]
      rw [show xs.length = (xs.take n).length + (xs.drop n).length by simp; omega,
        take_length_add_append, ih, take_append_drop]

end Chunks

end ProOS.Framework
