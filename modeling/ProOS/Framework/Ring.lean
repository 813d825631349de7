import Mathlib.Data.Nat.ModEq
import Mathlib.Data.Fin.Basic

namespace ProOS.Framework

open List

variable {n : Nat} [NeZero n] {i head tail : Fin n} {slots : List (Fin n)}

/-! ## Places of a ring -/

def ahead (i : Fin n) (k : Nat) : Fin n := ⟨(i.val + k) % n, Nat.mod_lt _ (Nat.pos_of_neZero n)⟩

def window : Fin n → Nat → List (Fin n)
  | _, 0 => []
  | i, k + 1 => i :: window (i + 1) k

/-- The places from `head` up to but excluding `tail`; none if the two are the same. -/
def between (head tail : Fin n) : List (Fin n) := window head (tail - head).val

theorem ahead_zero (i : Fin n) : ahead i 0 = i := Fin.ext (Nat.mod_eq_of_lt i.isLt)

theorem ahead_full (i : Fin n) : ahead i n = i := by
  apply Fin.ext
  show (i.val + n) % n = i.val
  rw [Nat.add_mod_right, Nat.mod_eq_of_lt i.isLt]

theorem ahead_succ (i : Fin n) (k : Nat) : ahead i (k + 1) = ahead i k + 1 := by
  apply Fin.ext
  show (i.val + (k + 1)) % n = ((i.val + k) % n + 1 % n) % n
  rw [← Nat.add_mod, Nat.add_assoc]

theorem ahead_add_one (i : Fin n) (k : Nat) : ahead (i + 1) k = ahead i (k + 1) := by
  apply Fin.ext
  show ((i.val + 1 % n) % n + k) % n = (i.val + (k + 1)) % n
  rw [Nat.add_mod_mod, Nat.mod_add_mod, Nat.add_assoc, Nat.add_comm 1 k]

theorem ahead_sub (i : Fin n) (k : Nat) : (ahead i k - i).val = k % n := by
  show (n - i.val + (i.val + k) % n) % n = k % n
  have hi := i.isLt
  have hsum : n - i.val + (i.val + k) = n + k := by omega
  rw [Nat.add_mod_mod, hsum, Nat.add_mod_left]

theorem ahead_injective {j k : Nat} (hj : j < n) (hk : k < n) (h : ahead i j = ahead i k) : j = k := by
  have hsub := ahead_sub i j
  rw [h, ahead_sub, Nat.mod_eq_of_lt hj, Nat.mod_eq_of_lt hk] at hsub
  exact hsub.symm

theorem window_succ (i : Fin n) (k : Nat) : window i (k + 1) = window i k ++ [ahead i k] := by
  induction k generalizing i with
  | zero => rw [window, window, window, ahead_zero, nil_append]
  | succ k ih => rw [window, ih, ahead_add_one, window, cons_append]

theorem mem_window {i j : Fin n} {k : Nat} : j ∈ window i k ↔ ∃ m, m < k ∧ j = ahead i m := by
  induction k with
  | zero => simp [window]
  | succ k ih =>
    rw [window_succ, mem_append, ih, mem_singleton]
    constructor
    · rintro (⟨m, hm, hj⟩ | hj)
      · exact ⟨m, by omega, hj⟩
      · exact ⟨k, by omega, hj⟩
    · rintro ⟨m, hm, hj⟩
      rcases Nat.lt_succ_iff_lt_or_eq.mp hm with hlt | rfl
      · exact .inl ⟨m, hlt, hj⟩
      · exact .inr hj

theorem between_self (i : Fin n) : between i i = [] := by
  have hsub := ahead_sub i 0
  rw [ahead_zero, Nat.zero_mod] at hsub
  rw [between, hsub, window]

/-! ## The queue in a ring -/

/-- The places in use, in order, with one place at least left free. -/
structure Queued (head tail : Fin n) (slots : List (Fin n)) : Prop where
  places : slots = window head slots.length
  tail : tail = ahead head slots.length
  room : slots.length < n

theorem Queued.empty (i : Fin n) : Queued i i [] := ⟨rfl, (ahead_zero i).symm, Nat.pos_of_neZero n⟩

theorem Queued.between_eq (h : Queued head tail slots) : between head tail = slots := by
  rw [between, h.tail, ahead_sub, Nat.mod_eq_of_lt h.room, ← h.places]

theorem Queued.tail_notMem (h : Queued head tail slots) : tail ∉ slots := by
  intro hmem
  rw [h.places] at hmem
  obtain ⟨m, hm, he⟩ := mem_window.mp hmem
  rw [h.tail] at he
  have heq := ahead_injective h.room (hm.trans h.room) he
  omega

theorem Queued.push (h : Queued head tail slots) (hroom : slots.length + 1 < n) :
    Queued head (tail + 1) (slots ++ [tail]) := by
  have hlen : (slots ++ [tail]).length = slots.length + 1 := by simp
  refine ⟨?_, ?_, by omega⟩
  · rw [hlen, window_succ, ← h.places, ← h.tail]
  · rw [hlen, ahead_succ, ← h.tail]

theorem Queued.pop (h : Queued head tail (i :: slots)) : i = head ∧ Queued (head + 1) tail slots := by
  obtain ⟨hplaces, htail, hroom⟩ := h
  rw [length_cons, window, List.cons.injEq] at hplaces
  rw [length_cons] at htail hroom
  exact ⟨hplaces.1, hplaces.2, by rw [htail, ahead_add_one], by omega⟩

theorem Queued.head_notMem (h : Queued head tail (i :: slots)) : i ∉ slots := by
  obtain ⟨rfl, hrest⟩ := h.pop
  intro hmem
  rw [hrest.places] at hmem
  obtain ⟨m, hm, he⟩ := mem_window.mp hmem
  rw [ahead_add_one] at he
  have hroom := h.room
  rw [length_cons] at hroom
  have hzero := ahead_injective (by omega) (by omega) ((ahead_zero i).trans he)
  omega

theorem Queued.wrap (h : Queued head tail slots) (hfull : slots.length + 1 = n) : tail + 1 = head := by
  rw [h.tail, ← ahead_succ, hfull, ahead_full]

theorem Queued.nonempty (h : Queued head tail slots) (hne : head ≠ tail) : slots ≠ [] := by
  rintro rfl
  rw [h.tail, length_nil, ahead_zero] at hne
  exact hne rfl

end ProOS.Framework
