import Mathlib

namespace ProOS.Framework

open Option List

variable {α κ β : Type*}

inductive Place (β : Type*)
  | dir
  | file (content : β)
  deriving DecidableEq

def Place.content? : Place β → Option β
  | .dir => none
  | .file content => some content

/-- A directory is the place of a name that leads to one, and so is the content of a file. -/
def placeOf : α ⊕ β → Place β := Sum.elim (fun _ => .dir) .file

/-- The directory that the names lead to, where `look a k` is what the directory `a` has under the name `k`. -/
def descend (look : α → κ → Option (α ⊕ β)) : List κ → α → Option α
  | [], a => some a
  | k :: ks, a => ((look a k).bind Sum.getLeft?).bind (descend look ks)

/-- The tree below a root, as a function of its paths. -/
def treeFrom (look : α → κ → Option (α ⊕ β)) (root : α) (ks : List κ) : Option (Place β) :=
  ks.getLast?.elim (some .dir) fun k => (descend look ks.dropLast root).bind fun a => (look a k).map placeOf

/-- No directory has two names, and the root has none. -/
structure IsTree (look : α → κ → Option (α ⊕ β)) (root : α) : Prop where
  rootless : ∀ ks a k, descend look ks root = some a → look a k ≠ some (.inl root)
  once : ∀ ks ks' a a' k k' b, descend look ks root = some a → descend look ks' root = some a' →
    look a k = some (.inl b) → look a' k' = some (.inl b) → a = a' ∧ k = k'

section Descend

variable {look : α → κ → Option (α ⊕ β)} {root a b h : α} {k : κ} {ks ks' ms : List κ}

theorem step_eq_some : (look a k).bind Sum.getLeft? = some b ↔ look a k = some (.inl b) := by
  rw [bind_eq_some_iff]
  constructor
  · rintro ⟨x, hx, hleft⟩
    rw [hx, Sum.getLeft?_eq_some_iff.mp hleft]
  · intro hx
    exact ⟨_, hx, rfl⟩

theorem descend_append (ks ks' : List κ) (a : α) :
    descend look (ks ++ ks') a = (descend look ks a).bind (descend look ks') := by
  induction ks generalizing a with
  | nil => rfl
  | cons k ks ih =>
    rw [cons_append, descend, descend]
    cases (look a k).bind Sum.getLeft? with
    | none => rfl
    | some b => exact ih b

theorem descend_concat : descend look (ks ++ [k]) a = some b ↔
    ∃ c, descend look ks a = some c ∧ look c k = some (.inl b) := by
  have hone : ∀ c, descend look [k] c = (look c k).bind Sum.getLeft? := by
    intro c
    rw [descend]
    cases (look c k).bind Sum.getLeft? with
    | none => rfl
    | some b => rfl
  rw [descend_append, bind_eq_some_iff]
  refine exists_congr (fun c => and_congr_right (fun _ => ?_))
  rw [hone, step_eq_some]

@[simp] theorem treeFrom_nil : treeFrom look root [] = some .dir := rfl

theorem treeFrom_concat (ks : List κ) (k : κ) :
    treeFrom look root (ks ++ [k]) = (descend look ks root).bind fun a => (look a k).map placeOf := by
  rw [treeFrom, getLast?_concat, dropLast_concat]
  rfl

theorem placeOf_eq_dir {x : α ⊕ β} : placeOf x = .dir ↔ ∃ a, x = .inl a := by
  cases x with
  | inl a => exact ⟨fun _ => ⟨a, rfl⟩, fun _ => rfl⟩
  | inr b =>
    constructor
    · intro h
      cases h
    · rintro ⟨a, h⟩
      cases h

theorem treeFrom_eq_dir : treeFrom look root ks = some .dir ↔ ∃ a, descend look ks root = some a := by
  induction ks using List.reverseRecOn with
  | nil => exact ⟨fun _ => ⟨root, rfl⟩, fun _ => rfl⟩
  | append_singleton ks k _ =>
    rw [treeFrom_concat]
    constructor
    · intro htree
      obtain ⟨a, ha, hmap⟩ := bind_eq_some_iff.mp htree
      obtain ⟨x, hx, hplace⟩ := map_eq_some_iff.mp hmap
      obtain ⟨b, rfl⟩ := placeOf_eq_dir.mp hplace
      exact ⟨b, descend_concat.mpr ⟨a, ha, hx⟩⟩
    · rintro ⟨b, hb⟩
      obtain ⟨a, ha, hx⟩ := descend_concat.mp hb
      rw [ha, bind_some, hx]
      rfl

theorem treeFrom_parent (hk : treeFrom look root (ks ++ [k]) ≠ none) : treeFrom look root ks = some .dir := by
  rw [treeFrom_concat] at hk
  obtain ⟨x, hx⟩ := ne_none_iff_exists'.mp hk
  obtain ⟨a, ha, -⟩ := bind_eq_some_iff.mp hx
  exact treeFrom_eq_dir.mpr ⟨a, ha⟩

theorem IsTree.unique (ht : IsTree look root) (h : descend look ks root = some a) (h' : descend look ks' root = some a) :
    ks = ks' := by
  induction ks using List.reverseRecOn generalizing ks' a with
  | nil =>
    cases h
    rcases eq_nil_or_concat' ks' with rfl | ⟨ms', k', rfl⟩
    · rfl
    · obtain ⟨c, hc, hlook⟩ := descend_concat.mp h'
      exact absurd hlook (ht.rootless _ _ _ hc)
  | append_singleton ms k ih =>
    obtain ⟨c, hc, hlook⟩ := descend_concat.mp h
    rcases eq_nil_or_concat' ks' with rfl | ⟨ms', k', rfl⟩
    · cases h'
      exact absurd hlook (ht.rootless _ _ _ hc)
    · obtain ⟨c', hc', hlook'⟩ := descend_concat.mp h'
      obtain ⟨rfl, rfl⟩ := ht.once _ _ _ _ _ _ _ hc hc' hlook hlook'
      rw [ih hc hc']

end Descend

/-! ## A change at one name -/

/-- The name `k` of the directory `h` leads to something else, which is no directory with anything in it, as before. -/
structure EditAt (look look' : α → κ → Option (α ⊕ β)) (root h : α) (k : κ) : Prop where
  same : ∀ ks a k', descend look ks root = some a → look h k ≠ some (.inl a) → ¬(a = h ∧ k' = k) → look' a k' = look a k'
  before : ∀ c, look h k = some (.inl c) → ∀ k', look c k' = none
  after : ∀ c, look' h k = some (.inl c) → ∀ k', look' c k' = none

section Edit

variable {look look' : α → κ → Option (α ⊕ β)} {root a h : α} {k : κ} {ks ms : List κ}

theorem treeFrom_below (hms : descend look ms root = some h) (hempty : ∀ c, look h k = some (.inl c) → ∀ k', look c k' = none)
    (k' : κ) (ks : List κ) : treeFrom look root (ms ++ k :: (ks ++ [k'])) = none := by
  have hsplit : ms ++ k :: (ks ++ [k']) = (ms ++ k :: ks) ++ [k'] := by simp
  rw [hsplit, treeFrom_concat, descend_append, hms, bind_some, descend]
  cases hstep : (look h k).bind Sum.getLeft? with
  | none => rfl
  | some c =>
    have hnone := hempty c (step_eq_some.mp hstep)
    cases ks with
    | nil =>
      show (look c k').map placeOf = none
      rw [hnone, map_none]
    | cons k₂ ks =>
      rw [bind_some, descend, hnone]
      rfl

theorem EditAt.descend_eq (e : EditAt look look' root h k) (ht : IsTree look root) (hms : descend look ms root = some h)
    (hks : ¬(ms ++ [k]) <+: ks) : descend look' ks root = descend look ks root ∧
      ∀ a k', descend look ks root = some a → ks ++ [k'] ≠ ms ++ [k] → look' a k' = look a k' := by
  have hlook : ∀ ks, ¬(ms ++ [k]) <+: ks → ∀ a k', descend look ks root = some a → ks ++ [k'] ≠ ms ++ [k] →
      look' a k' = look a k' := by
    intro ks hks a k' ha hne
    refine e.same ks a k' ha ?_ ?_
    · intro hdir
      exact hks (ht.unique ha (descend_concat.mpr ⟨h, hms, hdir⟩) ▸ prefix_refl _)
    · rintro ⟨rfl, rfl⟩
      exact hne (by rw [ht.unique ha hms])
  refine ⟨?_, hlook ks hks⟩
  induction ks using List.reverseRecOn with
  | nil => rfl
  | append_singleton ks k' ih =>
    have hshort : ¬(ms ++ [k]) <+: ks := fun hp => hks (hp.trans (prefix_append ks [k']))
    have hne : ks ++ [k'] ≠ ms ++ [k] := fun heq => hks (heq ▸ prefix_refl _)
    rw [descend_append, descend_append, ih hshort]
    cases ha : descend look ks root with
    | none => rfl
    | some a =>
      rw [bind_some, bind_some, descend, descend, hlook ks hshort a k' ha hne]
      rfl

theorem EditAt.treeFrom_eq [DecidableEq κ] (e : EditAt look look' root h k) (ht : IsTree look root)
    (hms : descend look ms root = some h) :
    treeFrom look' root = Function.update (treeFrom look root) (ms ++ [k]) ((look' h k).map placeOf) := by
  have hself : ¬(ms ++ [k]) <+: ms := fun hp => absurd hp.length_le (by simp)
  have hms' : descend look' ms root = some h := ((e.descend_eq ht hms hself).1).trans hms
  funext ks
  by_cases hks : ks = ms ++ [k]
  · rw [hks, Function.update_self, treeFrom_concat, hms', bind_some]
  rw [Function.update_of_ne hks]
  by_cases hbelow : (ms ++ [k]) <+: ks
  · obtain ⟨rest, rfl⟩ := hbelow
    rcases eq_nil_or_concat' rest with rfl | ⟨rest, k', rfl⟩
    · exact absurd (append_nil _) hks
    · rw [append_assoc, singleton_append]
      exact (treeFrom_below hms' e.after k' rest).trans (treeFrom_below hms e.before k' rest).symm
  · rcases eq_nil_or_concat' ks with rfl | ⟨ks, k', rfl⟩
    · rfl
    · have hshort : ¬(ms ++ [k]) <+: ks := fun hp => hbelow (hp.trans (prefix_append ks [k']))
      obtain ⟨hdescend, hlook⟩ := e.descend_eq ht hms hshort
      rw [treeFrom_concat, treeFrom_concat, hdescend]
      cases ha : descend look ks root with
      | none => rfl
      | some a =>
        rw [bind_some, bind_some, hlook a k' ha hks]

end Edit

end ProOS.Framework
