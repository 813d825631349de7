import Mathlib

namespace ProOS.Framework

open List

section Separated

variable {α : Type*} [DecidableEq α] {sep : α} {as bs xs : List α}

/-- The loop `for (; *p; ++p, ++i) if (*p == sep) last = i;`. -/
def lastFrom (sep : α) : List α → Nat → Option Nat → Option Nat
  | [], _, last => last
  | x :: xs, i, last => lastFrom sep xs (i + 1) (if x = sep then some i else last)

def lastIndexOf (sep : α) (xs : List α) : Option Nat := lastFrom sep xs 0 none

theorem lastFrom_of_notMem (h : sep ∉ xs) (i : Nat) (last : Option Nat) : lastFrom sep xs i last = last := by
  induction xs generalizing i last with
  | nil => rfl
  | cons x xs ih =>
    have hx : x ≠ sep := fun he => h (by simp [he])
    rw [lastFrom, if_neg hx]
    exact ih (fun hm => h (mem_cons_of_mem x hm)) (i + 1) last

theorem lastFrom_append (i : Nat) (last : Option Nat) :
    lastFrom sep (as ++ bs) i last = lastFrom sep bs (i + as.length) (lastFrom sep as i last) := by
  induction as generalizing i last with
  | nil => rfl
  | cons a as ih =>
    rw [cons_append, lastFrom, ih, lastFrom, length_cons]
    congr 1
    omega

theorem lastIndexOf_of_notMem (h : sep ∉ xs) : lastIndexOf sep xs = none :=
  lastFrom_of_notMem h 0 none

theorem lastIndexOf_split (h : sep ∉ bs) : lastIndexOf sep (as ++ sep :: bs) = some as.length := by
  rw [lastIndexOf, lastFrom_append, lastFrom, if_pos rfl, lastFrom_of_notMem h, Nat.zero_add]

omit [DecidableEq α] in
theorem exists_last_split (h : sep ∈ xs) : ∃ as bs, xs = as ++ sep :: bs ∧ sep ∉ bs := by
  induction xs using List.reverseRecOn with
  | nil => cases h
  | append_singleton xs x ih =>
    by_cases hx : x = sep
    · exact ⟨xs, [], by rw [hx], not_mem_nil⟩
    · have hm : sep ∈ xs := by simpa [Ne.symm hx] using h
      obtain ⟨as, bs, rfl, hbs⟩ := ih hm
      refine ⟨as, bs ++ [x], by simp, ?_⟩
      simpa [Ne.symm hx] using hbs

/-- The field read so far, unless it is empty. -/
def flushed : List α → List (List α)
  | [] => []
  | x :: xs => [x :: xs]

def fieldsFrom (sep : α) : List α → List α → List (List α)
  | [], field => flushed field
  | x :: xs, field =>
    if x = sep then flushed field ++ fieldsFrom sep xs [] else fieldsFrom sep xs (field ++ [x])

def fields (sep : α) (xs : List α) : List (List α) := fieldsFrom sep xs []

@[simp] theorem fields_nil : fields sep [] = [] := rfl

theorem fieldsFrom_append_sep (field : List α) :
    fieldsFrom sep (as ++ sep :: bs) field = fieldsFrom sep as field ++ fields sep bs := by
  induction as generalizing field with
  | nil => simp [fieldsFrom, fields]
  | cons a as ih =>
    rw [cons_append, fieldsFrom, fieldsFrom]
    by_cases ha : a = sep
    · rw [if_pos ha, if_pos ha, ih, append_assoc]
    · rw [if_neg ha, if_neg ha, ih]

theorem fields_append_sep : fields sep (as ++ sep :: bs) = fields sep as ++ fields sep bs :=
  fieldsFrom_append_sep []

theorem fields_sep_cons : fields sep (sep :: bs) = fields sep bs := by
  have h : fields sep ([] ++ sep :: bs) = fields sep [] ++ fields sep bs := fields_append_sep
  exact h

theorem fields_replicate (k : Nat) : fields sep (List.replicate k sep) = [] := by
  induction k with
  | zero => rfl
  | succ k ih => rw [replicate_succ, fields_sep_cons, ih]

theorem fieldsFrom_of_notMem (h : sep ∉ xs) (field : List α) : fieldsFrom sep xs field = flushed (field ++ xs) := by
  induction xs generalizing field with
  | nil => rw [fieldsFrom, append_nil]
  | cons x xs ih =>
    have hx : x ≠ sep := fun he => h (by simp [he])
    rw [fieldsFrom, if_neg hx, ih (fun hm => h (mem_cons_of_mem x hm)), append_assoc,
      singleton_append]

theorem fields_of_notMem (h : sep ∉ xs) (hne : xs ≠ []) : fields sep xs = [xs] := by
  rw [fields, fieldsFrom_of_notMem h, nil_append]
  cases xs with
  | nil => exact absurd rfl hne
  | cons x xs => rfl

theorem fields_dropWhile : fields sep (xs.dropWhile (· = sep)) = fields sep xs := by
  induction xs with
  | nil => rfl
  | cons x xs ih =>
    rw [dropWhile_cons]
    by_cases hx : x = sep
    · rw [if_pos (by simpa using hx), ih, hx, fields_sep_cons]
    · rw [if_neg (by simpa using hx)]

theorem fields_eq_cons (hne : xs.takeWhile (· ≠ sep) ≠ []) :
    fields sep xs = xs.takeWhile (· ≠ sep) :: fields sep (xs.dropWhile (· ≠ sep)) := by
  have hsplit := takeWhile_append_dropWhile (p := (· ≠ sep)) (l := xs)
  have hsep : sep ∉ xs.takeWhile (· ≠ sep) := by
    intro hm
    simpa using mem_takeWhile_imp hm
  cases hrest : xs.dropWhile (· ≠ sep) with
  | nil =>
    rw [hrest, append_nil] at hsplit
    rw [hsplit] at hsep hne
    rw [hsplit, fields_of_notMem hsep hne, fields_nil]
  | cons x rest =>
    have hx : x = sep := by
      have hhead := head?_dropWhile_not (· ≠ sep) xs
      rw [hrest] at hhead
      simpa using hhead
    rw [hrest, hx] at hsplit
    nth_rewrite 1 [← hsplit]
    rw [fields_append_sep, fields_of_notMem hsep hne, hx, fields_sep_cons, singleton_append]

theorem fields_flatMap {segs : List (List α)} (h : ∀ seg ∈ segs, seg ≠ [] ∧ sep ∉ seg) :
    fields sep (segs.flatMap (sep :: ·)) = segs := by
  induction segs using List.reverseRecOn with
  | nil => rfl
  | append_singleton segs seg ih =>
    have hseg := h seg (by simp)
    rw [flatMap_append, flatMap_singleton, fields_append_sep,
      ih (fun s hs => h s (mem_append_left _ hs)), fields_of_notMem hseg.2 hseg.1]

theorem mem_fieldsFrom {field seg : List α} (hf : sep ∉ field) (h : seg ∈ fieldsFrom sep xs field) :
    seg ≠ [] ∧ sep ∉ seg := by
  have hflush : ∀ f : List α, sep ∉ f → seg ∈ flushed f → seg ≠ [] ∧ sep ∉ seg := by
    intro f hsep hm
    cases f with
    | nil => cases hm
    | cons x f =>
      rw [flushed, mem_singleton] at hm
      rw [hm]
      exact ⟨cons_ne_nil x f, hsep⟩
  induction xs generalizing field with
  | nil => exact hflush field hf h
  | cons x xs ih =>
    rw [fieldsFrom] at h
    split_ifs at h with hx
    · rw [mem_append] at h
      rcases h with h | h
      · exact hflush field hf h
      · exact ih not_mem_nil h
    · refine ih ?_ h
      simpa [Ne.symm hx] using hf

theorem mem_fields {seg : List α} (h : seg ∈ fields sep xs) : seg ≠ [] ∧ sep ∉ seg :=
  mem_fieldsFrom not_mem_nil h

end Separated

end ProOS.Framework
