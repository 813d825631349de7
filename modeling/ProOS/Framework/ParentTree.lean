import ProOS.Framework.Returns

namespace ProOS.Framework

section ParentTree

variable {ι : Type*} {parent parent' : ι → Option ι} {root i j p : ι}

/-- The chain of parents from a node comes to the root. -/
inductive Rooted (parent : ι → Option ι) (root : ι) : ι → Prop
  | root : Rooted parent root root
  | child {i p : ι} : parent i = some p → Rooted parent root p → Rooted parent root i

theorem Rooted.congr {S : ι → Prop} (hr : Rooted parent root i) (hi : S i)
    (hclosed : ∀ i p, S i → i ≠ root → parent i = some p → S p)
    (hsame : ∀ i, S i → parent' i = parent i) : Rooted parent' root i := by
  induction hr with
  | root => exact .root
  | @child i p hp hrooted ih =>
    by_cases hroot : i = root
    · rw [hroot]
      exact .root
    · exact .child ((hsame i hi).trans hp) (ih (hclosed i p hi hroot hp))

theorem Rooted.eq_root_of_self (hr : Rooted parent root i) (hi : parent i = some i) : i = root := by
  induction hr with
  | root => rfl
  | @child i p hp _ ih =>
    obtain rfl := Option.some.inj (hp.symm.trans hi)
    exact ih hi

/-- The parents after a node is taken out and its children go to its parent. -/
def splice [DecidableEq ι] (parent : ι → Option ι) (j : ι) (i : ι) : Option ι :=
  if parent i = some j then parent j else parent i

theorem Rooted.splice [DecidableEq ι] (hr : Rooted parent root i) (hj : j ≠ root) (hne : i ≠ j) :
    Rooted (splice parent j) root i := by
  have hboth : (i ≠ j → Rooted (Framework.splice parent j) root i) ∧
      (i = j → ∀ q, parent j = some q → Rooted (Framework.splice parent j) root q) := by
    clear hne
    induction hr with
    | root => exact ⟨fun _ => .root, fun he => absurd he.symm hj⟩
    | @child i p hp hrooted ih =>
      constructor
      · intro _
        by_cases hpj : p = j
        · -- the parent is taken out: its own parent takes its place
          obtain rfl := hpj
          cases hrooted with
          | root => exact absurd rfl hj
          | child hq _ => exact .child (by rw [Framework.splice, if_pos hp, hq]) (ih.2 rfl _ hq)
        · refine .child ?_ (ih.1 hpj)
          rw [Framework.splice, hp, if_neg (fun he => hpj (Option.some.inj he))]
      · rintro rfl q hq
        obtain rfl := Option.some.inj (hp.symm.trans hq)
        refine ih.1 ?_
        rintro rfl
        exact hj (hrooted.eq_root_of_self hp)
  exact hboth.1 hne

/-- `while (node && node != root) { node = node->parent; ++depth; }` on fuel. -/
def depthFrom [DecidableEq ι] (parent : ι → Option ι) (root : Option ι) : Nat → Option ι → Option Nat
  | _, none => some 0
  | fuel, some i =>
    if root = some i then some 0
    else
      match fuel with
      | 0 => none
      | fuel + 1 => (depthFrom parent root fuel (parent i)).map (· + 1)

theorem depthFrom_root [DecidableEq ι] (n : Nat) : depthFrom parent (some root) n (some root) = some 0 := by
  cases n with
  | zero => rw [depthFrom, if_pos rfl]
  | succ n => rw [depthFrom, if_pos rfl]

theorem Rooted.depth [DecidableEq ι] (hr : Rooted parent root i) :
    Terminates (fun n => depthFrom parent (some root) n (some i)) := by
  induction hr with
  | root => exact ⟨0, 0, fun n _ => depthFrom_root n⟩
  | @child i p hp _ ih =>
    by_cases hroot : root = i
    · rw [← hroot]
      exact ⟨0, 0, fun n _ => depthFrom_root n⟩
    · obtain ⟨d, hd⟩ := ih
      apply Terminates.of_succ
      simp only [depthFrom, if_neg (fun he => hroot (Option.some.inj he)), hp]
      exact ⟨_, hd.map⟩

theorem depthFrom_self [DecidableEq ι] {top : Option ι} (hi : parent i = some i) (hne : top ≠ some i) (n : Nat) :
    depthFrom parent top n (some i) = none := by
  induction n with
  | zero => rw [depthFrom, if_neg hne]
  | succ n ih =>
    rw [depthFrom, if_neg hne, hi, ih]
    rfl

end ParentTree

end ProOS.Framework
