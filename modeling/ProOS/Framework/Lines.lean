import Mathlib

namespace ProOS.Framework

open List

section Lines

variable {α : Type*} {sep : α} {size : Nat} {line out : List α} {lines rest p q : List (List α)}

/-- Lines with the separator between them. -/
def joined (sep : α) (lines : List (List α)) : List α := [sep].intercalate lines

/-- Lines with the separator behind each of them. -/
def terminated (sep : α) (lines : List (List α)) : List α := lines.flatMap (· ++ [sep])

@[simp] theorem terminated_nil : terminated sep [] = [] := rfl

theorem terminated_append : terminated sep (p ++ q) = terminated sep p ++ terminated sep q :=
  flatMap_append

theorem terminated_singleton : terminated sep [line] = line ++ [sep] := flatMap_singleton _ _

theorem terminated_eq (h : lines ≠ []) : terminated sep lines = joined sep lines ++ [sep] := by
  induction lines with
  | nil => exact absurd rfl h
  | cons line lines ih =>
    cases lines with
    | nil => rw [terminated_singleton, joined, intercalate_singleton]
    | cons line' lines =>
      have hsplit : terminated sep (line :: line' :: lines) =
          line ++ [sep] ++ terminated sep (line' :: lines) := flatMap_cons
      rw [hsplit, ih (cons_ne_nil line' lines), joined, joined, intercalate_cons_cons,
        append_assoc (line ++ [sep])]

theorem dropLast_terminated : (terminated sep lines).dropLast = joined sep lines := by
  by_cases h : lines = []
  · rw [h]
    rfl
  · rw [terminated_eq h, dropLast_concat]

theorem length_terminated (h : lines ≠ []) : (terminated sep lines).length = (joined sep lines).length + 1 := by
  rw [terminated_eq h, length_append, length_singleton]

theorem length_joined_le (h : q <+: p) : (joined sep q).length ≤ (joined sep p).length := by
  obtain ⟨rest, rfl⟩ := h
  rw [← dropLast_terminated, ← dropLast_terminated, length_dropLast, length_dropLast, terminated_append,
    length_append]
  omega

theorem length_le_joined (lines : List (List α)) : lines.length ≤ (joined sep lines).length + 1 := by
  have hle : lines.length ≤ (terminated sep lines).length := by
    induction lines with
    | nil => exact Nat.zero_le _
    | cons line lines ih =>
      rw [terminated, flatMap_cons, ← terminated, length_append, length_append, length_singleton,
        length_cons]
      omega
  by_cases h : lines = []
  · rw [h]
    exact Nat.zero_le _
  · rwa [length_terminated h] at hle

/-- The loop that writes lines as long as the line, its separator and one more cell fit; with what is written, the lines
that are not. -/
def fillLines (sep : α) (size : Nat) : List (List α) → List α → List (List α) × List α
  | [], out => ([], out)
  | line :: lines, out =>
    if size ≤ out.length + line.length + 1 then (line :: lines, out)
    else fillLines sep size lines (out ++ line ++ [sep])

theorem fillLines_spec (lines : List (List α)) (out : List α) :
    ∃ p, lines = p ++ (fillLines sep size lines out).1 ∧ (fillLines sep size lines out).2 = out ++ terminated sep p ∧
      (p = [] ∨ (fillLines sep size lines out).2.length < size) ∧
      ∀ line ls, (fillLines sep size lines out).1 = line :: ls →
        size ≤ ((fillLines sep size lines out).2 ++ line ++ [sep]).length := by
  induction lines generalizing out with
  | nil =>
    refine ⟨[], rfl, by simp [fillLines], .inl rfl, ?_⟩
    intro line ls h
    cases h
  | cons line lines ih =>
    rw [fillLines]
    split_ifs with hfull
    · refine ⟨[], rfl, by simp, .inl rfl, ?_⟩
      intro line' ls h
      obtain ⟨rfl, rfl⟩ := List.cons.inj h
      simp only [length_append, length_singleton]
      exact hfull
    · obtain ⟨p, hlines, hout, hfits, hrest⟩ := ih (out ++ line ++ [sep])
      refine ⟨line :: p, ?_, ?_, ?_, hrest⟩
      · rw [cons_append, ← hlines]
      · rw [hout, terminated, terminated, flatMap_cons]
        simp only [append_assoc]
      · right
        rcases hfits with rfl | hfits
        · rw [hout]
          simp only [terminated_nil, append_nil, length_append, length_singleton]
          omega
        · exact hfits

theorem fillLines_rest_iff (lines : List (List α)) :
    (fillLines sep size lines []).1 = [] ↔ lines = [] ∨ (joined sep lines).length + 1 < size := by
  have hspec : ∃ p, lines = p ++ (fillLines sep size lines []).1 ∧ _ := fillLines_spec lines []
  obtain ⟨p, hlines, hout, hfits, hrest⟩ := hspec
  rw [nil_append] at hout
  cases hr : (fillLines sep size lines []).1 with
  | nil =>
    rw [hr, append_nil] at hlines
    rw [← hlines] at hout hfits
    refine iff_of_true rfl ?_
    by_cases hne : lines = []
    · exact .inl hne
    · right
      rw [← length_terminated hne, ← hout]
      exact hfits.resolve_left hne
  | cons line ls =>
    have hover := hrest line ls hr
    have hmore : (terminated sep (p ++ [line])).length ≤ (terminated sep lines).length := by
      rw [hlines, hr, terminated_append, terminated_append, length_append, length_append]
      have hcons : terminated sep (line :: ls) = terminated sep [line] ++ terminated sep ls :=
        terminated_append (p := [line])
      rw [hcons, length_append]
      omega
    rw [terminated_append, terminated_singleton, ← hout, ← append_assoc] at hmore
    have hne : lines ≠ [] := by
      rw [hlines, hr]
      simp
    refine iff_of_false (cons_ne_nil line ls) ?_
    rintro (hnil | hlt)
    · exact hne hnil
    · rw [← length_terminated hne] at hlt
      omega

/-- The longest beginning of the lines that fits, joined and with a terminator, into `size` cells. -/
structure LongestFit (sep : α) (size : Nat) (lines p : List (List α)) : Prop where
  initial : p <+: lines
  fits : (joined sep p).length < size
  longest : ∀ q, q <+: lines → (joined sep q).length < size → q.length ≤ p.length

/-- The loop writes the longest beginning that fits, unless there is one that takes all of the cells. -/
theorem fillLines_longestFit_iff (hsize : 0 < size) :
    (∃ p, LongestFit sep size lines p ∧ (fillLines sep size lines []).2.dropLast = joined sep p) ↔
      ∀ q, q <+: lines → joined sep q ≠ [] → (joined sep q).length + 1 ≠ size := by
  have hspec : ∃ p, lines = p ++ (fillLines sep size lines []).1 ∧ _ := fillLines_spec lines []
  obtain ⟨p, hlines, hout, hfits, hrest⟩ := hspec
  rw [nil_append] at hout
  have htext : (fillLines sep size lines []).2.dropLast = joined sep p := by rw [hout, dropLast_terminated]
  have hlen : (joined sep p).length = 0 ∨ (joined sep p).length + 1 < size := by
    rcases hfits with rfl | hfits
    · exact .inl rfl
    · by_cases hp : p = []
      · rw [hp]
        exact .inl rfl
      · rw [hout, length_terminated hp] at hfits
        exact .inr hfits
  constructor
  · rintro ⟨p', hfit, heq⟩ q hq hne hfull
    have hqp : q <+: p' := prefix_of_prefix_length_le hq hfit.initial (hfit.longest q hq (by omega))
    have hle : (joined sep q).length ≤ (joined sep p').length := length_joined_le hqp
    have hpos := length_pos_iff.mpr hne
    rw [htext] at heq
    rw [heq] at hlen
    have hlt := hfit.fits
    omega
  · intro hcond
    cases hr : (fillLines sep size lines []).1 with
    | nil =>
      rw [hr, append_nil] at hlines
      refine ⟨p, ⟨by rw [hlines], by omega, ?_⟩, htext⟩
      intro q hq _
      rw [← hlines]
      exact hq.length_le
    | cons line ls =>
      rw [hr] at hlines
      have hnext : p ++ [line] <+: lines := ⟨ls, by rw [hlines, append_assoc, singleton_append]⟩
      have hover : size ≤ (joined sep (p ++ [line])).length + 1 := by
        have hlast := hrest line ls hr
        rw [← length_terminated (by simp), terminated_append, terminated_singleton, ← hout, ← append_assoc]
        exact hlast
      by_cases hempty : joined sep (p ++ [line]) = []
      · -- one empty line and one cell: the terminator alone is the line as well as nothing
        rw [hempty, length_nil] at hover
        refine ⟨p ++ [line], ⟨hnext, by rw [hempty]; exact hsize, ?_⟩, ?_⟩
        · intro q _ hq
          have hle : q.length ≤ (joined sep q).length + 1 := length_le_joined q
          rw [length_append, length_singleton]
          omega
        · have hle : (joined sep p).length ≤ (joined sep (p ++ [line])).length := length_joined_le ⟨[line], rfl⟩
          rw [hempty, length_nil, Nat.le_zero, length_eq_zero_iff] at hle
          rw [htext, hempty, hle]
      · have hmore := hcond _ hnext hempty
        refine ⟨p, ⟨⟨_, hlines.symm⟩, by omega, ?_⟩, htext⟩
        intro q hq hfit
        by_contra hlong
        have hpre : p ++ [line] <+: q := by
          refine prefix_of_prefix_length_le hnext hq ?_
          rw [length_append, length_singleton]
          omega
        have hle : (joined sep (p ++ [line])).length ≤ (joined sep q).length := length_joined_le hpre
        omega

end Lines

end ProOS.Framework
