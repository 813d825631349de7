import Mathlib

namespace ProOS.Framework

open List

variable {ι : Type*} {next next' : ι → Option ι} {h t : Option ι} {x y : ι} {xs ys : List ι}

/-- Following `next` from the pointer `h` visits exactly `xs` and arrives at the pointer `t`. -/
def Seg (next : ι → Option ι) : Option ι → List ι → Option ι → Prop
  | h, [], t => h = t
  | h, x :: xs, t => h = some x ∧ Seg next (next x) xs t

/-- A null-terminated intrusive list. -/
def Linked (next : ι → Option ι) (h : Option ι) (xs : List ι) : Prop := Seg next h xs none

@[simp] theorem seg_nil : Seg next h [] t ↔ h = t := Iff.rfl

@[simp] theorem seg_cons : Seg next h (x :: xs) t ↔ h = some x ∧ Seg next (next x) xs t := Iff.rfl

@[simp] theorem linked_nil : Linked next h [] ↔ h = none := Iff.rfl

@[simp] theorem linked_cons :
    Linked next h (x :: xs) ↔ h = some x ∧ Linked next (next x) xs := Iff.rfl

theorem seg_append : Seg next h (xs ++ ys) t ↔ ∃ m, Seg next h xs m ∧ Seg next m ys t := by
  induction xs generalizing h with
  | nil => simp
  | cons x xs ih => simp [ih, and_assoc]

theorem linked_append :
    Linked next h (xs ++ ys) ↔ ∃ m, Seg next h xs m ∧ Linked next m ys := seg_append

theorem Linked.head_eq (hl : Linked next h xs) : h = xs.head? := by
  cases xs with
  | nil => simpa using hl
  | cons x xs => simpa using hl.1

theorem Linked.unique (hx : Linked next h xs) (hy : Linked next h ys) : xs = ys := by
  induction xs generalizing h ys with
  | nil =>
    cases ys with
    | nil => rfl
    | cons y ys =>
      have hn : h = none := hx
      simp [hn] at hy
  | cons x xs ih =>
    cases ys with
    | nil =>
      have hn : h = none := hy
      simp [hn] at hx
    | cons y ys =>
      obtain ⟨hx1, hx2⟩ := hx
      obtain ⟨hy1, hy2⟩ := hy
      obtain rfl : x = y := by simpa [hx1] using hy1
      rw [ih hx2 hy2]

theorem Seg.congr (hs : Seg next h xs t) (he : ∀ x ∈ xs, next' x = next x) : Seg next' h xs t := by
  induction xs generalizing h with
  | nil => exact hs
  | cons x xs ih =>
    refine ⟨hs.1, ?_⟩
    rw [he x (by simp)]
    exact ih hs.2 (fun z hz => he z (by simp [hz]))

theorem Linked.congr (hl : Linked next h xs) (he : ∀ x ∈ xs, next' x = next x) :
    Linked next' h xs := Seg.congr hl he

theorem Linked.from_mem (hl : Linked next h (xs ++ x :: ys)) : Linked next (some x) (x :: ys) := by
  obtain ⟨m, -, hm⟩ := linked_append.mp hl
  obtain rfl : m = some x := hm.1
  exact hm

theorem Linked.nodup (hl : Linked next h xs) : xs.Nodup := by
  induction xs generalizing h with
  | nil => simp
  | cons x xs ih =>
    refine nodup_cons.mpr ⟨?_, ih hl.2⟩
    intro hx
    obtain ⟨as, bs, rfl⟩ := append_of_mem hx
    -- a revisited node would be followed by two lists of different length
    have hb := (Linked.from_mem hl.2).2
    have he := congrArg List.length (Linked.unique hl.2 hb)
    simp at he
    omega

theorem Linked.not_mem_left (hl : Linked next h (xs ++ x :: ys)) : x ∉ xs :=
  fun hx => (nodup_append'.mp hl.nodup).2.2 hx (by simp)

theorem Linked.not_mem_right (hl : Linked next h (xs ++ x :: ys)) : x ∉ ys :=
  (nodup_cons.mp (nodup_append'.mp hl.nodup).2.1).1

theorem Linked.next_mem (hl : Linked next h xs) (hx : x ∈ xs) : next x = none ∨ ∃ y ∈ xs, next x = some y := by
  obtain ⟨as, bs, rfl⟩ := append_of_mem hx
  have hb := hl.from_mem.2
  cases bs with
  | nil => exact .inl hb
  | cons b bs => exact .inr ⟨b, by simp, hb.1⟩

theorem Linked.next_last (hl : Linked next h (xs ++ [x])) : next x = none :=
  (Linked.from_mem hl).2

theorem Linked.snoc (hl : Linked next h (xs ++ [x])) (hx : next' x = some y) (hy : next' y = none)
    (he : ∀ z ∈ xs, next' z = next z) : Linked next' h (xs ++ [x] ++ [y]) := by
  obtain ⟨m, hs, hm⟩ := linked_append.mp hl
  obtain rfl : m = some x := hm.1
  rw [append_assoc]
  refine linked_append.mpr ⟨some x, hs.congr he, ?_⟩
  simp [hx, hy]

theorem Linked.unlink (hl : Linked next h (xs ++ x :: y :: ys)) (hx : next' x = next y)
    (hxs : ∀ z ∈ xs, next' z = next z) (hys : ∀ z ∈ ys, next' z = next z) : Linked next' h (xs ++ x :: ys) := by
  obtain ⟨m, hs, hm⟩ := linked_append.mp hl
  refine linked_append.mpr ⟨m, hs.congr hxs, ?_⟩
  refine ⟨hm.1, ?_⟩
  rw [hx]
  exact Linked.congr hm.2.2 hys

theorem Linked.insert_after (hl : Linked next h (xs ++ x :: ys)) (hx : next' x = some y)
    (hy : next' y = next x) (hxs : ∀ z ∈ xs, next' z = next z) (hys : ∀ z ∈ ys, next' z = next z) :
    Linked next' h (xs ++ x :: y :: ys) := by
  obtain ⟨m, hs, hm⟩ := linked_append.mp hl
  refine linked_append.mpr ⟨m, hs.congr hxs, ?_⟩
  refine ⟨hm.1, ?_⟩
  rw [hx]
  refine ⟨rfl, ?_⟩
  rw [hy]
  exact Linked.congr hm.2 hys

end ProOS.Framework
