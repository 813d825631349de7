import ProOS.Framework.LinkedList

namespace ProOS.Framework

open Function List

variable {ι : Type*} {next : ι → Option ι} {h : Option ι} {x target : ι} {xs as bs : List ι}

/-- The nodes met by `for (iter = h; iter; iter = next(iter))`, if the loop ends in time. -/
def chain (next : ι → Option ι) : Nat → Option ι → Option (List ι)
  | _, none => some []
  | 0, some _ => none
  | n + 1, some x => (chain next n (next x)).map (fun xs => x :: xs)

theorem chain_of_linked (hl : Linked next h xs) {n : Nat} (hn : xs.length ≤ n) : chain next n h = some xs := by
  induction xs generalizing h n with
  | nil =>
    obtain rfl : h = none := hl
    cases n <;> rfl
  | cons x xs ih =>
    obtain ⟨rfl, hrest⟩ := hl
    obtain ⟨m, rfl⟩ : ∃ m, n = m + 1 := ⟨n - 1, by simp at hn; omega⟩
    have hx := ih hrest (by simpa using hn)
    simp [chain, hx]

variable [DecidableEq ι]

/-- The search for `target` that keeps the node before it: `some none` when the list ends
without it, `some (some prev)` when it is found. -/
def seek (next : ι → Option ι) (target : ι) : Nat → Option ι → Option ι → Option (Option (Option ι))
  | _, _, none => some none
  | 0, _, some _ => none
  | n + 1, prev, some x =>
    if x = target then some (some prev) else seek next target n (some x) (next x)

theorem seek_absent (hl : Linked next h xs) (hx : target ∉ xs) {n : Nat} (hn : xs.length ≤ n)
    (prev : Option ι) : seek next target n prev h = some none := by
  induction xs generalizing h n prev with
  | nil =>
    obtain rfl : h = none := hl
    cases n <;> rfl
  | cons x xs ih =>
    obtain ⟨rfl, hrest⟩ := hl
    obtain ⟨m, rfl⟩ : ∃ m, n = m + 1 := ⟨n - 1, by simp at hn; omega⟩
    have hne : x ≠ target := fun he => hx (by simp [he])
    rw [seek, if_neg hne]
    exact ih hrest (fun hm => hx (mem_cons_of_mem x hm)) (by simpa using hn) (some x)

theorem seek_found (hl : Linked next h (as ++ target :: bs)) (ha : target ∉ as) {n : Nat}
    (hn : (as ++ target :: bs).length ≤ n) (prev : Option ι) :
    seek next target n prev h = some (some (as.getLast?.or prev)) := by
  induction as generalizing h n prev with
  | nil =>
    obtain ⟨rfl, -⟩ := hl
    obtain ⟨m, rfl⟩ : ∃ m, n = m + 1 := ⟨n - 1, by simp at hn; omega⟩
    simp [seek]
  | cons a as ih =>
    obtain ⟨rfl, hrest⟩ := hl
    obtain ⟨m, rfl⟩ : ∃ m, n = m + 1 := ⟨n - 1, by simp at hn; omega⟩
    have hne : a ≠ target := fun he => ha (by simp [he])
    rw [seek, if_neg hne, ih hrest (fun hm => ha (mem_cons_of_mem a hm)) (by simpa using hn)]
    cases as with
    | nil => rfl
    | cons b as => simp [getLast?_cons_cons, Option.or_of_isSome]

/-- The links after `x` behind `prev` has been taken out and its own link cleared. -/
def bypass (next : ι → Option ι) (prev : Option ι) (x : ι) : ι → Option ι :=
  match prev with
  | some q => update (update next q (next x)) x none
  | none => update next x none

/-- The head of the list after `x` behind `prev` has been taken out. -/
def bypassHead (next : ι → Option ι) (h prev : Option ι) (x : ι) : Option ι :=
  match prev with
  | some _ => h
  | none => next x

theorem bypass_other {prev : Option ι} {y : ι} (hx : y ≠ x) (hp : prev ≠ some y) : bypass next prev x y = next y := by
  cases prev with
  | none => exact update_of_ne hx _ _
  | some q =>
    have hq : y ≠ q := fun he => hp (by rw [he])
    simp only [bypass, update_of_ne hx, update_of_ne hq]

theorem Linked.bypass (hl : Linked next h (as ++ x :: bs)) :
    Linked (bypass next as.getLast? x) (bypassHead next h as.getLast? x) (as ++ bs) := by
  have hxas := hl.not_mem_left
  have hxbs := hl.not_mem_right
  cases as using List.reverseRecOn with
  | nil =>
    obtain ⟨-, hrest⟩ := hl
    apply Linked.congr hrest
    intro y hy
    exact bypass_other (fun he => hxbs (he ▸ hy)) (by simp)
  | append_singleton as a =>
    have hlast : (as ++ [a]).getLast? = some a := by simp
    rw [append_assoc] at hl ⊢
    have hax : a ≠ x := fun he => hxas (by simp [he])
    have hanot := hl.not_mem_left
    have hanot' := hl.not_mem_right
    rw [hlast]
    apply hl.unlink
    · simp only [Framework.bypass, update_of_ne hax, update_self]
    · intro y hy
      apply bypass_other
      · rintro rfl
        exact hxas (by simp [hy])
      · intro he
        obtain rfl : a = y := by simpa using he
        exact hanot hy
    · intro y hy
      apply bypass_other
      · exact fun he => hxbs (he ▸ hy)
      · intro he
        obtain rfl : a = y := by simpa using he
        exact hanot' (mem_cons_of_mem x hy)

theorem Linked.push (hl : Linked next h xs) (hx : x ∉ xs) : Linked (update next x h) (some x) (x :: xs) := by
  refine ⟨rfl, ?_⟩
  rw [update_self]
  apply hl.congr
  intro y hy
  have hyx : y ≠ x := fun he => hx (he ▸ hy)
  exact update_of_ne hyx _ _

theorem Linked.put_after {z : ι} (hl : Linked next h (as ++ z :: bs)) (hx : x ∉ as ++ z :: bs) :
    Linked (update (update next x (next z)) z (some x)) h (as ++ z :: x :: bs) := by
  have hzx : z ≠ x := fun he => hx (by simp [he])
  have hother : ∀ y, y ≠ z → y ∈ as ++ z :: bs →
      update (update next x (next z)) z (some x) y = next y := by
    intro y hyz hy
    have hyx : y ≠ x := fun he => hx (he ▸ hy)
    rw [update_of_ne hyz, update_of_ne hyx]
  apply hl.insert_after
  · exact update_self _ _ _
  · rw [update_of_ne hzx.symm, update_self]
  · intro y hy
    exact hother y (fun he => hl.not_mem_left (he ▸ hy)) (mem_append_left _ hy)
  · intro y hy
    exact hother y (fun he => hl.not_mem_right (he ▸ hy)) (by simp [hy])

/-- `while (next(iter) && go(next(iter))) iter = next(iter)`. -/
def advance (next : ι → Option ι) (go : ι → Bool) : Nat → ι → Option ι
  | 0, _ => none
  | n + 1, x =>
    match next x with
    | some y => if go y then advance next go n y else some x
    | none => some x

omit [DecidableEq ι] in
theorem advance_mem (go : ι → Bool) {ys : List ι} (hl : Linked next (next x) ys) {n : Nat}
    (hn : ys.length < n) : ∃ z ∈ x :: ys, advance next go n x = some z := by
  induction ys generalizing x n with
  | nil =>
    obtain ⟨m, rfl⟩ : ∃ m, n = m + 1 := ⟨n - 1, by omega⟩
    have hx : next x = none := hl
    exact ⟨x, by simp, by simp [advance, hx]⟩
  | cons y ys ih =>
    obtain ⟨hx, hrest⟩ := hl
    obtain ⟨m, rfl⟩ : ∃ m, n = m + 1 := ⟨n - 1, by omega⟩
    simp only [advance, hx]
    by_cases hg : go y = true
    · obtain ⟨z, hz, hza⟩ := ih hrest (by simpa using hn)
      exact ⟨z, mem_cons_of_mem x hz, by rw [if_pos hg, hza]⟩
    · exact ⟨x, by simp, by rw [if_neg hg]⟩

end ProOS.Framework
