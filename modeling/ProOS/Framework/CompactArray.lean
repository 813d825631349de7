import Mathlib

namespace ProOS.Framework

open List

variable {α : Type*} [DecidableEq α] {keys : List α} {g k : α} {h i : Nat}

/-- The position `h`, kept as a pointer to the element `g` of an array that is closed up when an element leaves it, still
denotes `g` while `g` is in the array and denotes no element once it is not. -/
def Denotes (keys : List α) (h : Nat) (g : α) : Prop :=
  keys[h]? = if g ∈ keys then some g else none

instance : Decidable (Denotes keys h g) := inferInstanceAs (Decidable (_ = _))

theorem Denotes.of_getElem? (hk : keys[h]? = some g) : Denotes keys h g := by
  rw [Denotes, hk, if_pos (mem_of_getElem? hk)]

section

variable (hd : Denotes keys h g)

include hd

theorem Denotes.getElem? (hg : g ∈ keys) : keys[h]? = some g := by
  rw [hd, if_pos hg]

theorem Denotes.getElem?_eq_none (hg : g ∉ keys) : keys[h]? = none := by
  rw [hd, if_neg hg]

theorem Denotes.mem_iff : g ∈ keys ↔ h < keys.length := by
  by_cases hg : g ∈ keys
  · exact iff_of_true hg (List.getElem?_eq_some_iff.mp (hd.getElem? hg)).1
  · exact iff_of_false hg (not_lt.mpr (List.getElem?_eq_none_iff.mp (hd.getElem?_eq_none hg)))

/-- A new element goes to the first free position, so it spoils the pointers left there. -/
theorem Denotes.append_iff (hk : g ≠ k) : Denotes (keys ++ [k]) h g ↔ h ≠ keys.length := by
  by_cases hg : g ∈ keys
  · have hlt := hd.mem_iff.mp hg
    have hnew : (keys ++ [k])[h]? = some g := by
      rw [getElem?_append_left hlt]
      exact hd.getElem? hg
    exact iff_of_true (.of_getElem? hnew) hlt.ne
  · have hle : keys.length ≤ h := not_lt.mp (mt hd.mem_iff.mpr hg)
    have hg' : g ∉ keys ++ [k] := by simp [hg, hk]
    rw [Denotes, if_neg hg', List.getElem?_eq_none_iff, length_append, length_singleton]
    omega

/-- The elements above the one that leaves move down by one, and the pointers do not. -/
theorem Denotes.eraseIdx_iff (hn : keys.Nodup) (hi : i < keys.length) :
    Denotes (keys.eraseIdx i) h g ↔ h < i ∨ keys.length ≤ h ∨ (h = i ∧ i + 1 = keys.length) := by
  by_cases hg : g ∈ keys
  · have hlt := hd.mem_iff.mp hg
    have hat := hd.getElem? hg
    rcases lt_trichotomy h i with hhi | rfl | hhi
    · refine iff_of_true (.of_getElem? ?_) (.inl hhi)
      rw [getElem?_eraseIdx_of_lt hhi, hat]
    · -- the element itself leaves: the next one, if there is one, takes its place
      have hgone : g ∉ keys.eraseIdx h := by
        intro hmem
        obtain ⟨j, hj, hgj⟩ := mem_eraseIdx_iff_getElem?.mp hmem
        exact hj ((getElem?_inj (List.getElem?_eq_some_iff.mp hgj).1 hn).mp (hgj.trans hat.symm))
      rw [Denotes, if_neg hgone, getElem?_eraseIdx_of_ge le_rfl, List.getElem?_eq_none_iff]
      omega
    · refine iff_of_false ?_ (by omega)
      have hstay : g ∈ keys.eraseIdx i :=
        mem_eraseIdx_iff_getElem?.mpr ⟨h, hhi.ne', hat⟩
      intro hd'
      have hnext := hd'.getElem? hstay
      rw [getElem?_eraseIdx_of_ge hhi.le] at hnext
      have hsame := (getElem?_inj (List.getElem?_eq_some_iff.mp hnext).1 hn).mp (hnext.trans hat.symm)
      exact Nat.succ_ne_self h hsame
  · have hle : keys.length ≤ h := not_lt.mp (mt hd.mem_iff.mpr hg)
    refine iff_of_true ?_ (.inr (.inl hle))
    have hgone : g ∉ keys.eraseIdx i := fun hmem => hg (eraseIdx_subset hmem)
    rw [Denotes, if_neg hgone, List.getElem?_eq_none_iff]
    exact le_trans (length_eraseIdx_le _ _) hle

end

section Modify

variable {β γ : Type*} {l : List β} {n : Nat} {f : β → β}

theorem mem_modify {b : β} (hb : b ∈ l.modify n f) : ∃ a ∈ l, b = a ∨ b = f a := by
  obtain ⟨j, hj⟩ := mem_iff_getElem?.mp hb
  rw [getElem?_modify] at hj
  obtain ⟨a, ha, rfl⟩ := Option.map_eq_some_iff.mp hj
  refine ⟨a, mem_of_getElem? ha, ?_⟩
  split
  · exact .inr rfl
  · exact .inl rfl

theorem map_modify_of_eq {φ : β → γ} (hf : ∀ a, φ (f a) = φ a) : (l.modify n f).map φ = l.map φ := by
  apply ext_getElem?
  intro j
  rw [getElem?_map, getElem?_modify, getElem?_map]
  cases l[j]? with
  | none => rfl
  | some a =>
    show some (φ (if n = j then f a else a)) = some (φ a)
    split
    · rw [hf]
    · rfl

end Modify

end ProOS.Framework
