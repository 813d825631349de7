import Mathlib

namespace ProOS.Framework

open Option List

theorem find?_finRange_le {n : Nat} {q : Fin n → Bool} {f i : Fin n} (h : (List.finRange n).find? q = some f)
    (hi : q i = true) : f ≤ i := by
  obtain ⟨-, k, hk, hget, hbefore⟩ := find?_eq_some_iff_getElem.mp h
  by_contra hlt
  have hik : i.val < k := by
    rw [← hget, getElem_finRange] at hlt
    exact Nat.lt_of_not_le hlt
  have hnot := hbefore i.val hik
  rw [getElem_finRange] at hnot
  simp [hi] at hnot

section SlotTable

variable {n : Nat} {α κ : Type*} (key : α → Option κ)

def freeSlot (t : Fin n → α) : Option (Fin n) :=
  (List.finRange n).find? (fun i => (key (t i)).isNone)

def Keyed (t : Fin n → α) : Prop := ∀ i j k, key (t i) = some k → key (t j) = some k → i = j

variable {key} {t : Fin n → α} {i : Fin n} {k k' : κ} {e : α}

theorem key_of_freeSlot (h : freeSlot key t = some i) : key (t i) = none := by
  simpa using find?_some h

theorem Keyed.update (h : Keyed key t) (hnew : ∀ k', key e = some k' → k' = k)
    (hother : ∀ j, j ≠ i → key (t j) ≠ some k) : Keyed key (Function.update t i e) := by
  intro j₁ j₂ k' h₁ h₂
  by_cases e₁ : j₁ = i <;> by_cases e₂ : j₂ = i
  · rw [e₁, e₂]
  · subst e₁
    rw [Function.update_self] at h₁
    rw [Function.update_of_ne e₂, hnew k' h₁] at h₂
    exact absurd h₂ (hother j₂ e₂)
  · subst e₂
    rw [Function.update_self] at h₂
    rw [Function.update_of_ne e₁, hnew k' h₂] at h₁
    exact absurd h₁ (hother j₁ e₁)
  · rw [Function.update_of_ne e₁] at h₁
    rw [Function.update_of_ne e₂] at h₂
    exact h j₁ j₂ k' h₁ h₂

variable [DecidableEq κ]

variable (key) in
/-- The first slot that holds the key `k`; a slot without a key is free. -/
def slotOf (t : Fin n → α) (k : κ) : Option (Fin n) :=
  (List.finRange n).find? (fun i => decide (key (t i) = some k))

variable (key) in
def lookup (t : Fin n → α) (k : κ) : Option α := (slotOf key t k).map t

theorem key_of_slotOf (h : slotOf key t k = some i) : key (t i) = some k := by
  simpa using find?_some h

theorem slotOf_eq_none : slotOf key t k = none ↔ ∀ i, key (t i) ≠ some k := by
  simp [slotOf, find?_eq_none]

theorem lookup_eq_none : lookup key t k = none ↔ ∀ i, key (t i) ≠ some k := by
  rw [lookup, map_eq_none_iff, slotOf_eq_none]

theorem Keyed.slotOf_eq (h : Keyed key t) (hi : key (t i) = some k) : slotOf key t k = some i := by
  cases hs : slotOf key t k with
  | none => exact absurd hi (slotOf_eq_none.mp hs i)
  | some j => rw [h j i k (key_of_slotOf hs) hi]

theorem Keyed.lookup_eq_some (h : Keyed key t) : lookup key t k = some e ↔ ∃ i, t i = e ∧ key e = some k := by
  constructor
  · intro he
    obtain ⟨i, hi, rfl⟩ := map_eq_some_iff.mp he
    exact ⟨i, rfl, key_of_slotOf hi⟩
  · rintro ⟨i, rfl, hk⟩
    rw [lookup, h.slotOf_eq hk, map_some]

theorem Keyed.lookup_update_self (h : Keyed key (Function.update t i e)) (hnew : key e = some k) :
    lookup key (Function.update t i e) k = some e :=
  h.lookup_eq_some.mpr ⟨i, Function.update_self i e t, hnew⟩

theorem Keyed.lookup_update_other (h : Keyed key t) (h' : Keyed key (Function.update t i e))
    (hold : key (t i) ≠ some k') (hnew : key e ≠ some k') :
    lookup key (Function.update t i e) k' = lookup key t k' := by
  apply Option.ext
  intro f
  rw [h'.lookup_eq_some, h.lookup_eq_some]
  constructor
  · rintro ⟨j, hj, hf⟩
    by_cases hji : j = i
    · subst hji
      rw [Function.update_self] at hj
      subst hj
      exact absurd hf hnew
    · rw [Function.update_of_ne hji] at hj
      exact ⟨j, hj, hf⟩
  · rintro ⟨j, hj, hf⟩
    have hji : j ≠ i := by
      rintro rfl
      rw [← hj] at hf
      exact hold hf
    exact ⟨j, by rw [Function.update_of_ne hji]; exact hj, hf⟩

theorem Keyed.lookup_put (h : Keyed key t) (hnew : key e = some k)
    (hold : ∀ k', key (t i) = some k' → k' = k) (hother : ∀ j, j ≠ i → key (t j) ≠ some k) :
    lookup key (Function.update t i e) = Function.update (lookup key t) k (some e) := by
  have h' := h.update (fun k' hk' => some.inj (hk'.symm.trans hnew)) hother
  funext k'
  by_cases hk : k' = k
  · rw [hk, h'.lookup_update_self hnew, Function.update_self]
  · have hne : key e ≠ some k' := by
      rw [hnew]
      exact fun heq => hk (some.inj heq).symm
    rw [Function.update_of_ne hk, h.lookup_update_other h' (fun hi => hk (hold k' hi)) hne]

end SlotTable

section Best

variable {ι : Type*} (ok : ι → Bool) (size : ι → Nat)

/-- The loop that keeps the first of the largest candidates. -/
def keepBest (best : Option ι) (i : ι) : Option ι :=
  if ok i && best.all (fun b => size b < size i) then some i else best

variable {ok size} {is : List ι} {best : Option ι} {b i : ι}

theorem keepBest_mem (h : b ∈ is.foldl (keepBest ok size) best) : b ∈ is ∧ ok b = true ∨ b ∈ best := by
  induction is generalizing best with
  | nil => exact .inr h
  | cons i is ih =>
    rcases ih h with ⟨hmem, hok⟩ | hb
    · exact .inl ⟨mem_cons_of_mem i hmem, hok⟩
    · rw [keepBest] at hb
      split_ifs at hb with hc
      · obtain rfl := mem_some.mp hb
        exact .inl ⟨mem_cons_self, (Bool.and_eq_true_iff.mp hc).1⟩
      · exact .inr hb

theorem keepBest_mono (h : i ∈ best) : ∃ b ∈ is.foldl (keepBest ok size) best, size i ≤ size b := by
  induction is generalizing best i with
  | nil => exact ⟨i, h, le_rfl⟩
  | cons j is ih =>
    rw [foldl_cons, keepBest]
    split_ifs with hc
    · have hj : ∃ b ∈ is.foldl (keepBest ok size) (some j), size j ≤ size b := ih rfl
      obtain ⟨b, hb, hle⟩ := hj
      have hlt : size i < size j := by
        rw [mem_def.mp h] at hc
        simpa using (Bool.and_eq_true_iff.mp hc).2
      exact ⟨b, hb, hlt.le.trans hle⟩
    · exact ih h

theorem keepBest_le (hmem : i ∈ is) (hok : ok i = true) : ∃ b ∈ is.foldl (keepBest ok size) best, size i ≤ size b := by
  induction is generalizing best with
  | nil => cases hmem
  | cons j is ih =>
    rcases mem_cons.mp hmem with rfl | hmem
    · by_cases hc : best.all (fun b => size b < size i) = true
      · rw [foldl_cons, keepBest, if_pos (Bool.and_eq_true_iff.mpr ⟨hok, hc⟩)]
        exact keepBest_mono rfl
      · -- the candidate kept so far is at least as large
        cases best with
        | none => exact absurd rfl hc
        | some b =>
          have hle : size i ≤ size b := by simpa using hc
          rw [foldl_cons, keepBest, if_neg (by simp [hle])]
          have hkept : ∃ b' ∈ is.foldl (keepBest ok size) (some b), size b ≤ size b' := keepBest_mono rfl
          obtain ⟨b', hb', hle'⟩ := hkept
          exact ⟨b', hb', hle.trans hle'⟩
    · exact ih hmem

end Best

end ProOS.Framework
