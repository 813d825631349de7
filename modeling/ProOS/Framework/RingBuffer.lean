import Mathlib

namespace ProOS.Framework

open Function List

variable {α : Type*}

/-- The `count` cells from `head` on, in an array of `n` cells that wraps around. -/
def ring (q : Nat → α) (n head count : Nat) : List α :=
  (List.range count).map (fun k => q ((head + k) % n))

@[simp] theorem ring_zero (q : Nat → α) (n head : Nat) : ring q n head 0 = [] := rfl

@[simp] theorem length_ring (q : Nat → α) (n head count : Nat) : (ring q n head count).length = count := by
  simp [ring]

theorem ring_push (q : Nat → α) {n head count : Nat} (h : count < n) (x : α) :
    ring (update q ((head + count) % n) x) n head (count + 1) = ring q n head count ++ [x] := by
  rw [ring, range_succ, map_append, map_singleton, update_self]
  congr 1
  apply map_congr_left
  intro k hk
  have hlt : k < count := mem_range.mp hk
  apply update_of_ne
  intro he
  -- two offsets below `n` from one head reach the same cell only if they are equal
  have hmod : k % n = count % n := Nat.ModEq.add_left_cancel' head he
  rw [Nat.mod_eq_of_lt (by omega), Nat.mod_eq_of_lt h] at hmod
  omega

theorem ring_pop (q : Nat → α) {n head : Nat} (hhead : head < n) (count : Nat) :
    ring q n head (count + 1) = q head :: ring q n ((head + 1) % n) count := by
  rw [ring, range_succ_eq_map, map_cons, Nat.add_zero, Nat.mod_eq_of_lt hhead, List.map_map]
  congr 1
  apply map_congr_left
  intro k _
  simp only [Function.comp_apply, Nat.mod_add_mod]
  congr 2
  omega

def newest (n : Nat) (l : List α) : List α := l.drop (l.length - n)

theorem newest_of_length_le {n : Nat} {l : List α} (h : l.length ≤ n) : newest n l = l := by
  rw [newest, Nat.sub_eq_zero_of_le h, drop_zero]

theorem newest_append (n : Nat) (l : List α) (x : α) : newest n (newest n l ++ [x]) = newest n (l ++ [x]) := by
  rcases n with _ | n
  · simp [newest]
  · rw [newest, newest, newest, ← drop_append_of_le_length (by omega), drop_drop]
    congr 1
    simp
    omega

theorem ring_push_newest (q : Nat → α) {n head count : Nat} (hhead : head < n) (hcount : count ≤ n) (x : α) :
    ring (update q ((head + count) % n) x) n (if count = n then (head + 1) % n else head)
      (if count = n then count else count + 1) = newest n (ring q n head count ++ [x]) := by
  by_cases hfull : count = n
  · obtain ⟨k, hk⟩ := Nat.exists_eq_succ_of_ne_zero (show count ≠ 0 by omega)
    have hplace : (head + count) % n = ((head + 1) % n + k) % n := by
      rw [Nat.mod_add_mod, hk, Nat.succ_eq_add_one, Nat.add_right_comm, Nat.add_assoc]
    rw [if_pos hfull, if_pos hfull, hplace, hk, ring_push _ (by omega), Nat.succ_eq_add_one, ring_pop _ hhead]
    simp [newest, ← hfull, hk]
  · rw [if_neg hfull, if_neg hfull, ring_push _ (by omega), newest_of_length_le (by simp; omega)]

end ProOS.Framework
