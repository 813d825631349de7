import Mathlib

namespace ProOS.Framework

open Option List

variable {α κ : Type*} {i n : Nat} {taken : List Nat}

/-- The positions of `n` arrivals that have not been taken, oldest first. -/
def untaken (n : Nat) (taken : List Nat) : List Nat := (List.range n).filter (fun i => i ∉ taken)

/-- History of a queue from which elements are also taken out of turn. `arrived` lists all
arrivals, `taken` the positions taken so far in the order of taking, `left` what is queued.
Of two elements with the same key the older one is always taken first. -/
structure Selective (key : α → κ) (arrived : List α) (taken : List Nat) (left : List α) : Prop where
  nodup : taken.Nodup
  bound : ∀ d ∈ taken, d < arrived.length
  left_eq : left.map some = (untaken arrived.length taken).map (fun i => arrived[i]?)
  ordered : taken.Pairwise (fun d e => arrived[d]?.map key = arrived[e]?.map key → d < e)
  passed : ∀ d ∈ taken, ∀ e ∈ untaken arrived.length taken, e < d →
    arrived[e]?.map key ≠ arrived[d]?.map key

theorem mem_untaken :
    i ∈ untaken n taken ↔ i < n ∧ i ∉ taken := by simp [untaken]

theorem untaken_nodup (n : Nat) (taken : List Nat) : (untaken n taken).Nodup :=
  nodup_range.filter _

theorem untaken_sorted (n : Nat) (taken : List Nat) : (untaken n taken).Pairwise (· < ·) :=
  pairwise_lt_range.filter _

theorem untaken_succ (h : ∀ d ∈ taken, d < n) : untaken (n + 1) taken = untaken n taken ++ [n] := by
  have hn : n ∉ taken := fun hmem => lt_irrefl _ (h n hmem)
  simp [untaken, range_succ, filter_append, hn]

theorem untaken_take {d : Nat} (hi : (untaken n taken)[i]? = some d) :
    untaken n (taken ++ [d]) = (untaken n taken).eraseIdx i := by
  obtain ⟨hlt, hd⟩ := List.getElem?_eq_some_iff.mp hi
  have hsplit : untaken n (taken ++ [d]) = (untaken n taken).filter (fun e => e ≠ d) := by
    rw [untaken, untaken, List.filter_filter]
    apply filter_congr
    intro e _
    simp [not_or, and_comm]
  rw [hsplit, ← (untaken_nodup n taken).erase_getElem i hlt, hd,
    (untaken_nodup n taken).erase_eq_filter]
  apply filter_congr
  intro e _
  by_cases he : e = d <;> simp [he]

theorem Selective.empty (key : α → κ) : Selective key [] [] [] where
  nodup := nodup_nil
  bound := by simp
  left_eq := rfl
  ordered := List.Pairwise.nil
  passed := by simp

section

variable {key : α → κ} {arrived left : List α}

theorem Selective.push (h : Selective key arrived taken left) (x : α) :
    Selective key (arrived ++ [x]) taken (left ++ [x]) := by
  have hlen : (arrived ++ [x]).length = arrived.length + 1 := by simp
  have hold : ∀ i, i < arrived.length → (arrived ++ [x])[i]? = arrived[i]? := by
    intro i hi
    exact getElem?_append_left hi
  have huntaken := untaken_succ h.bound
  have hlast : (arrived ++ [x])[arrived.length]? = some x := by simp
  refine ⟨h.nodup, ?_, ?_, ?_, ?_⟩
  · intro d hd
    have := h.bound d hd
    omega
  · rw [hlen, huntaken, map_append, map_append, h.left_eq]
    congr 1
    · apply map_congr_left
      intro i hi
      exact (hold i (mem_untaken.mp hi).1).symm
    · rw [map_singleton, map_singleton, hlast]
  · apply h.ordered.imp_of_mem
    intro d e hd he hde heq
    rw [hold d (h.bound d hd), hold e (h.bound e he)] at heq
    exact hde heq
  · intro d hd e he hlt
    rw [hlen, huntaken, mem_append, mem_singleton] at he
    have hdb := h.bound d hd
    rcases he with he | rfl
    · rw [hold e (mem_untaken.mp he).1, hold d hdb]
      exact h.passed d hd e he hlt
    · omega

theorem Selective.take (h : Selective key arrived taken left) {p : α → Prop} {x : α}
    (hp : ∀ y z, key y = key z → p y → p z) (hx : left[i]? = some x) (hpx : p x)
    (hfirst : ∀ j y, j < i → left[j]? = some y → ¬p y) :
    ∃ d, d ∉ taken ∧ arrived[d]? = some x ∧ Selective key arrived (taken ++ [d]) (left.eraseIdx i) := by
  have hget : ∀ j : Nat, (left[j]?).map some =
      ((untaken arrived.length taken)[j]?).map (fun i => arrived[i]?) := by
    intro j
    rw [← getElem?_map, h.left_eq, getElem?_map]
  obtain ⟨d, hd, hdx⟩ : ∃ d, (untaken arrived.length taken)[i]? = some d ∧ arrived[d]? = some x := by
    have hi := hget i
    rw [hx] at hi
    obtain ⟨d, hd, hdx⟩ := map_eq_some_iff.mp hi.symm
    exact ⟨d, hd, hdx⟩
  have hmem := mem_of_getElem? hd
  obtain ⟨hlt, hnot⟩ := mem_untaken.mp hmem
  -- an untaken element before `d` stands before `x` in the queue, so the filter refused it
  have hskip : ∀ e ∈ untaken arrived.length taken, e < d →
      arrived[e]?.map key ≠ arrived[d]?.map key := by
    intro e he hed hkey
    obtain ⟨j, hj⟩ := getElem?_of_mem he
    have hji : j < i := by
      by_contra hge
      have hsorted := untaken_sorted arrived.length taken
      rcases Nat.lt_or_ge i j with hij | hij
      · have := pairwise_iff_getElem.mp hsorted i j
          (List.getElem?_eq_some_iff.mp hd).1 (List.getElem?_eq_some_iff.mp hj).1 hij
        rw [(List.getElem?_eq_some_iff.mp hd).2, (List.getElem?_eq_some_iff.mp hj).2] at this
        omega
      · obtain rfl : i = j := by omega
        rw [hd] at hj
        obtain rfl := some.inj hj
        omega
    have hjq := hget j
    rw [hj, map_some] at hjq
    obtain ⟨y, hy, hye⟩ := map_eq_some_iff.mp hjq
    rw [← hye, hdx, map_some, map_some] at hkey
    exact hfirst j y hji hy (hp x y (some.inj hkey).symm hpx)
  have hleft : untaken arrived.length (taken ++ [d]) =
      (untaken arrived.length taken).eraseIdx i := untaken_take hd
  refine ⟨d, hnot, hdx, ?_, ?_, ?_, ?_, ?_⟩
  · exact nodup_append'.mpr ⟨h.nodup, nodup_singleton d, by simpa using hnot⟩
  · intro e he
    rcases mem_append.mp he with he | he
    · exact h.bound e he
    · rw [mem_singleton.mp he]
      exact hlt
  · rw [hleft, ← eraseIdx_map, ← eraseIdx_map, h.left_eq]
  · apply pairwise_append.mpr
    refine ⟨h.ordered, pairwise_singleton _ _, ?_⟩
    intro e he f hf hkey
    obtain rfl := mem_singleton.mp hf
    by_contra hge
    have hne : e ≠ f := by
      rintro rfl
      exact hnot he
    exact h.passed e he f hmem (by omega) hkey.symm
  · intro e he f hf hlt'
    rw [hleft] at hf
    have hf' := mem_of_mem_eraseIdx hf
    rcases mem_append.mp he with he | he
    · exact h.passed e he f hf' hlt'
    · obtain rfl := mem_singleton.mp he
      exact hskip f hf' hlt'

end

end ProOS.Framework
