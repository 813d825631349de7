import ProOS.Framework.CellArray

/-! Arrays that are kept compact: the entries stand at the front, a count says how many there are,
and every cell behind them is blank. -/

namespace ProOS.Framework

open Function List

variable {α β : Type*}

def pad (entry : β → α) (blank : α) (l : List β) (j : Nat) : α := (l[j]?).elim blank entry

/-- `for (i = 0; i < n; ++i) if (a[i] == x)` up to the first hit. -/
def findCell [DecidableEq α] (a : Nat → α) (n : Nat) (x : α) : Option Nat :=
  (List.range n).find? (fun j => a j == x)

/-- The first entry equal to `x` is taken out and the entries behind it move up. -/
def removeCell [DecidableEq α] (blank : α) (a : Nat → α) (n : Nat) (x : α) : (Nat → α) × Nat :=
  match findCell a n x with
  | none => (a, n)
  | some i => (update (shiftDown a i n) (n - 1) blank, n - 1)

section Pad

variable {entry : β → α} {blank : α} {l : List β} {x : β} {j : Nat}

theorem pad_lt (h : j < l.length) : pad entry blank l j = entry l[j] := by
  rw [pad, getElem?_eq_getElem h, Option.elim_some]

theorem pad_ge (h : l.length ≤ j) : pad entry blank l j = blank := by
  rw [pad, getElem?_eq_none h, Option.elim_none]

theorem pad_nil : pad entry blank [] = fun _ => blank := by
  funext j
  rfl

theorem update_pad_length : update (pad entry blank l) l.length (entry x) = pad entry blank (l ++ [x]) := by
  funext j
  by_cases hj : j = l.length
  · subst hj
    rw [update_self, pad_lt (by simp)]
    simp
  · rw [update_of_ne hj, pad, pad, getElem?_append]
    split_ifs with hlt
    · rfl
    · rw [getElem?_eq_none (by omega), getElem?_eq_none (by simp; omega)]

theorem update_shiftDown_pad {i : Nat} (hi : i < l.length) :
    update (shiftDown (pad entry blank l) i l.length) (l.length - 1) blank = pad entry blank (l.eraseIdx i) := by
  have hlen : (l.eraseIdx i).length = l.length - 1 := length_eraseIdx_of_lt hi
  funext j
  by_cases hj : j = l.length - 1
  · rw [hj, update_self, pad_ge (by omega)]
  · rw [update_of_ne hj, shiftDown, shiftFrom_apply _ _ _ _ (by omega), pad, pad, pad,
      getElem?_eraseIdx]
    split_ifs with h₁ h₂ h₂
    · omega
    · rfl
    · rfl
    · rw [getElem?_eq_none (by omega), getElem?_eq_none (by omega)]

theorem range_split {m n : Nat} (h : m ≤ n) : List.range n = List.range m ++ List.range' m (n - m) := by
  have hjoin := @List.range'_append_1 0 m (n - m)
  simp only [← range_eq_range', Nat.zero_add] at hjoin
  rw [hjoin, Nat.add_sub_cancel' h]

variable [DecidableEq α]

theorem countP_pad (hentry : ∀ y ∈ l, entry y ≠ blank) {n : Nat} (hn : l.length ≤ n) :
    (List.range n).countP (fun j => pad entry blank l j != blank) = l.length := by
  have hfront : (List.range l.length).countP (fun j => pad entry blank l j != blank) =
      (List.range l.length).length := by
    apply countP_eq_length.mpr
    intro j hj
    have hj' := mem_range.mp hj
    rw [pad_lt hj']
    simpa using hentry _ (getElem_mem hj')
  have hback : (List.range' l.length (n - l.length)).countP (fun j => pad entry blank l j != blank) =
      0 := by
    apply countP_eq_zero.mpr
    intro j hj
    rw [pad_ge (mem_range'_1.mp hj).1]
    simp
  rw [range_split hn, countP_append, hfront, hback, length_range, Nat.add_zero]

variable [DecidableEq β]

theorem findCell_pad (hinj : Function.Injective entry) :
    findCell (pad entry blank l) l.length (entry x) = if x ∈ l then some (l.idxOf x) else none := by
  have hcell : ∀ j (hj : j < l.length), (pad entry blank l j == entry x) = (l[j] == x) := by
    intro j hj
    rw [pad_lt hj]
    simp [hinj.eq_iff]
  unfold findCell
  split_ifs with hx
  · have hlt := idxOf_lt_length_of_mem hx
    rw [find?_eq_some_iff_append]
    refine ⟨by rw [hcell _ hlt]; simp, List.range (l.idxOf x),
      (List.range' (l.idxOf x + 1) (l.length - (l.idxOf x + 1))), ?_, ?_⟩
    · rw [range_split hlt.le, show l.length - l.idxOf x = (l.length - (l.idxOf x + 1)) + 1 by omega,
        range'_succ]
    · intro j hj
      have hj' := mem_range.mp hj
      have hne : (l[j] == x) = false := not_of_lt_findIdx hj'
      rw [hcell j (by omega), hne]
      rfl
  · rw [find?_eq_none]
    intro j hj
    have hj' := mem_range.mp hj
    have hne : l[j] ≠ x := fun he => hx (he ▸ getElem_mem hj')
    rw [hcell j hj']
    simpa using hne

theorem removeCell_pad (hinj : Function.Injective entry) :
    removeCell blank (pad entry blank l) l.length (entry x) = (pad entry blank (l.erase x), (l.erase x).length) := by
  rw [removeCell, findCell_pad hinj]
  by_cases hx : x ∈ l
  · have hlt := idxOf_lt_length_of_mem hx
    rw [if_pos hx]
    simp only
    rw [update_shiftDown_pad hlt, ← erase_eq_eraseIdx_of_idxOf rfl, length_erase_of_mem hx]
  · rw [if_neg hx, erase_of_not_mem hx]

end Pad

section Entries

variable {entry : β → α} {blank : α} {l : List β} {x : β}

theorem exists_pad_iff (hinj : Function.Injective entry) (hx : entry x ≠ blank) {n : Nat}
    (hn : l.length ≤ n) : (∃ j < n, pad entry blank l j = entry x) ↔ x ∈ l := by
  constructor
  · rintro ⟨j, -, hj⟩
    by_cases hlt : j < l.length
    · rw [pad_lt hlt] at hj
      exact hinj hj ▸ getElem_mem hlt
    · rw [pad_ge (not_lt.mp hlt)] at hj
      exact absurd hj.symm hx
  · intro hmem
    obtain ⟨j, hj, rfl⟩ := mem_iff_getElem.mp hmem
    exact ⟨j, by omega, pad_lt hj⟩

theorem pad_injective (hinj : Function.Injective entry) (hnd : l.Nodup) {i j : Nat}
    (hi : pad entry blank l i ≠ blank) (h : pad entry blank l i = pad entry blank l j) : i = j := by
  have hilt : i < l.length := by
    by_contra hge
    exact hi (pad_ge (not_lt.mp hge))
  have hjlt : j < l.length := by
    by_contra hge
    exact hi (h.trans (pad_ge (not_lt.mp hge)))
  rw [pad_lt hilt, pad_lt hjlt] at h
  exact (hnd.getElem_inj_iff).mp (hinj h)

end Entries

end ProOS.Framework
