import ProOS.Ramfs.Model

namespace ProOS.Ramfs

open ProOS.Framework Function Option List

variable {v v' : Volume} {i j : Fin ramfsMaxFiles} {name dir leaf : Str} {e : Entry} {kind : Bool}
  {data : Nat → UInt8}

abbrev Volume.Holds (v : Volume) (i : Fin ramfsMaxFiles) (name : Str) : Prop :=
  (v.files i).key = some name

def Volume.IsDir (v : Volume) (dir : Str) : Prop := ∃ j, v.Holds j dir ∧ (v.files j).isDirectory = true

/-- Directories hold nothing, files end with their terminator inside the array. -/
structure Entry.Ok (e : Entry) : Prop where
  dir : e.isDirectory = true → e.size = 0
  file : e.isDirectory = false → e.size < ramfsMaxFileSize ∧ e.data e.size = 0

structure Tree (v : Volume) : Prop where
  distinct : Keyed Entry.key v.files
  valid : ∀ i name, v.Holds i name → pathIsValid name = true
  parent : ∀ i dir leaf, v.Holds i (dir ++ slash :: leaf) → slash ∉ leaf → v.IsDir dir
  ok : ∀ i name, v.Holds i name → (v.files i).Ok

theorem key_eq_some : e.key = some name ↔ e.used = true ∧ e.name = name := by
  unfold Entry.key
  split_ifs with h
  · simp [h]
  · simp [h]

@[simp] theorem cleared_key (e : Entry) : e.cleared.key = none := rfl

theorem set_files (v : Volume) (i : Fin ramfsMaxFiles) (e : Entry) :
    (v.set i e).files = update v.files i e := rfl

theorem pathIsValid_iff : pathIsValid name = true ↔ name ≠ [] ∧ name.length < ramfsMaxName ∧
    name.head? ≠ some slash ∧ name.getLast? ≠ some slash := by
  simp [pathIsValid]

theorem take_of_valid (h : pathIsValid name = true) : name.take (ramfsMaxName - 1) = name := by
  have hlen := (pathIsValid_iff.mp h).2.1
  exact take_of_length_le (by simp only [ramfsMaxName] at *; omega)

theorem newEntry_key (old : Entry) (h : pathIsValid name = true) : (newEntry old name kind).key = some name := by
  rw [key_eq_some]
  exact ⟨rfl, take_of_valid h⟩

theorem newEntry_ok (old : Entry) (name : Str) (kind : Bool) : (newEntry old name kind).Ok := by
  refine ⟨fun _ => rfl, fun _ => ⟨?_, ?_⟩⟩
  · exact Nat.zero_lt_succ _
  · exact update_self 0 0 old.data

theorem ensureParentDirectory_spec (h : ensureParentDirectory v (dir ++ slash :: leaf) = true)
    (hleaf : slash ∉ leaf) : v.IsDir dir := by
  rw [ensureParentDirectory, lastIndexOf_split hleaf] at h
  simp only [take_left, findEntry] at h
  split_ifs at h
  cases hs : slotOf Entry.key v.files dir with
  | none => simp [hs] at h
  | some j =>
    simp only [hs] at h
    exact ⟨j, key_of_slotOf hs, h⟩

theorem createEntry_some (h : createEntry v name kind = some (v', i)) :
    pathIsValid name = true ∧
      ((v.Holds i name ∧ (v.files i).isDirectory = kind ∧ v' = v) ∨
        ((∀ j, ¬v.Holds j name) ∧ ensureParentDirectory v name = true ∧ (v.files i).key = none ∧
          v' = v.set i (newEntry (v.files i) name kind))) := by
  unfold createEntry findEntry at h
  by_cases hvalid : pathIsValid name = true
  · simp only [hvalid, Bool.not_true, Bool.false_eq_true, if_false] at h
    refine ⟨hvalid, ?_⟩
    cases hs : slotOf Entry.key v.files name with
    | some j =>
      simp only [hs] at h
      split_ifs at h with hk
      cases h
      exact .inl ⟨key_of_slotOf hs, hk, rfl⟩
    | none =>
      cases hp : ensureParentDirectory v name with
      | false => simp [hs, hp] at h
      | true =>
        cases hf : freeSlot Entry.key v.files with
        | none => simp [hs, hp, hf] at h
        | some j =>
          simp only [hs, hp, hf, Bool.not_true, Bool.false_eq_true, if_false] at h
          cases h
          exact .inr ⟨slotOf_eq_none.mp hs, rfl, key_of_freeSlot hf, rfl⟩
  · simp [hvalid] at h

theorem IsDir.set (h : v.IsDir dir) (hk : e.key = some name)
    (hold : ∀ k, v.Holds i k → k = name ∧ (v.files i).isDirectory = e.isDirectory) : (v.set i e).IsDir dir := by
  obtain ⟨j, hj, hd⟩ := h
  by_cases hji : j = i
  · subst hji
    obtain ⟨rfl, hkind⟩ := hold dir hj
    refine ⟨j, ?_, ?_⟩
    · rw [Volume.Holds, set_files, update_self, hk]
    · rw [set_files, update_self, ← hkind, hd]
  · refine ⟨j, ?_, ?_⟩
    · rw [Volume.Holds, set_files, update_of_ne hji]
      exact hj
    · rw [set_files, update_of_ne hji, hd]

theorem Tree.put (h : Tree v) (hk : e.key = some name) (hvalid : pathIsValid name = true) (hok : e.Ok)
    (hold : ∀ k, v.Holds i k → k = name ∧ (v.files i).isDirectory = e.isDirectory)
    (hother : ∀ j, j ≠ i → ¬v.Holds j name)
    (hparent : ∀ dir leaf, name = dir ++ slash :: leaf → slash ∉ leaf → v.IsDir dir) : Tree (v.set i e) := by
  have hnew : ∀ k, e.key = some k → k = name := by
    intro k hke
    exact some.inj (hke.symm.trans hk)
  constructor
  · exact h.distinct.update hnew hother
  · intro j k hj
    by_cases hji : j = i
    · subst hji
      rw [Volume.Holds, set_files, update_self] at hj
      rw [hnew k hj, hvalid]
    · rw [Volume.Holds, set_files, update_of_ne hji] at hj
      exact h.valid j k hj
  · intro j dir leaf hj hleaf
    refine IsDir.set ?_ hk hold
    by_cases hji : j = i
    · subst hji
      rw [Volume.Holds, set_files, update_self] at hj
      exact hparent dir leaf (hnew _ hj).symm hleaf
    · rw [Volume.Holds, set_files, update_of_ne hji] at hj
      exact h.parent j dir leaf hj hleaf
  · intro j k hj
    by_cases hji : j = i
    · subst hji
      rw [set_files, update_self]
      exact hok
    · rw [Volume.Holds, set_files, update_of_ne hji] at hj
      rw [set_files, update_of_ne hji]
      exact h.ok j k hj

theorem Tree.others (h : Tree v) (hi : v.Holds i name) : ∀ j, j ≠ i → ¬v.Holds j name := by
  intro j hji hj
  exact hji (h.distinct j i name hj hi)

theorem Tree.create (h : Tree v) (hc : createEntry v name kind = some (v', i)) :
    Tree v' ∧ v'.Holds i name ∧ (v'.files i).isDirectory = kind := by
  obtain ⟨hvalid, ⟨hi, hk, rfl⟩ | ⟨hnone, hp, hfree, rfl⟩⟩ := createEntry_some hc
  · exact ⟨h, hi, hk⟩
  · have hkey : (newEntry (v.files i) name kind).key = some name := newEntry_key (v.files i) hvalid
    refine ⟨h.put hkey hvalid (newEntry_ok _ _ _) ?_ (fun j _ => hnone j) ?_, ?_, ?_⟩
    · intro k hi
      rw [Volume.Holds, hfree] at hi
      cases hi
    · rintro dir leaf rfl hleaf
      exact ensureParentDirectory_spec hp hleaf
    · rw [Volume.Holds, set_files, update_self, hkey]
    · rw [set_files, update_self]
      rfl

theorem Tree.rewrite (h : Tree v) (hi : v.Holds i name) {size : Nat}
    (hok : ((v.files i).store data size).Ok) : Tree (v.set i ((v.files i).store data size)) := by
  refine h.put hi (h.valid i name hi) hok ?_ (h.others hi) ?_
  · intro k hk
    exact ⟨some.inj (hk.symm.trans hi), rfl⟩
  · rintro dir leaf rfl hleaf
    exact h.parent i dir leaf hi hleaf

theorem store_file_ok {size : Nat} (hk : e.isDirectory = false)
    (hs : size < ramfsMaxFileSize) : (e.store data size).Ok := by
  constructor
  · intro hd
    exact absurd hd (by simp [Entry.store, hk])
  · intro _
    exact ⟨hs, update_self size 0 data⟩

theorem store_dir_ok (hk : e.isDirectory = true) : (e.store data 0).Ok := by
  constructor
  · intro _
    rfl
  · intro hd
    exact absurd hd (by simp [Entry.store, hk])

/-- The volume with the entries in `D` cleared. -/
def Volume.drop (v : Volume) (D : Fin ramfsMaxFiles → Prop) [DecidablePred D] : Volume :=
  ⟨fun i => if D i then (v.files i).cleared else v.files i⟩

theorem drop_files_kept {D : Fin ramfsMaxFiles → Prop} [DecidablePred D] (hi : ¬D i) :
    (v.drop D).files i = v.files i := if_neg hi

theorem drop_holds {D : Fin ramfsMaxFiles → Prop} [DecidablePred D] :
    (v.drop D).Holds i name ↔ ¬D i ∧ v.Holds i name := by
  by_cases hd : D i
  · have hfile : (v.drop D).files i = (v.files i).cleared := if_pos hd
    simp [Volume.Holds, hfile, hd]
  · rw [Volume.Holds, drop_files_kept hd]
    simp [hd]

theorem Tree.drop (h : Tree v) (D : Fin ramfsMaxFiles → Prop) [DecidablePred D]
    (hD : ∀ i j dir leaf, v.Holds i dir → (v.files i).isDirectory = true → D i →
      v.Holds j (dir ++ slash :: leaf) → D j) : Tree (v.drop D) := by
  constructor
  · intro j₁ j₂ k h₁ h₂
    exact h.distinct j₁ j₂ k (drop_holds.mp h₁).2 (drop_holds.mp h₂).2
  · intro j k hj
    exact h.valid j k (drop_holds.mp hj).2
  · intro j dir leaf hj hleaf
    obtain ⟨hnot, hj'⟩ := drop_holds.mp hj
    obtain ⟨i, hi, hdir⟩ := h.parent j dir leaf hj' hleaf
    have hni : ¬D i := fun hdi => hnot (hD i j dir leaf hi hdir hdi hj')
    exact ⟨i, drop_holds.mpr ⟨hni, hi⟩, by rw [drop_files_kept hni, hdir]⟩
  · intro j k hj
    obtain ⟨hnot, hj'⟩ := drop_holds.mp hj
    rw [drop_files_kept hnot]
    exact h.ok j k hj'

theorem isBelow_iff {child : Str} : isBelow name child = true ↔ ∃ rest, child = name ++ slash :: rest := by
  constructor
  · intro h
    simp only [isBelow, Bool.and_eq_true, decide_eq_true_eq, isPrefixOf_iff_prefix, beq_iff_eq] at h
    obtain ⟨⟨hlen, rest, rfl⟩, hslash⟩ := h
    rw [getElem?_append_right le_rfl, Nat.sub_self] at hslash
    cases rest with
    | nil => simp at hslash
    | cons c rest =>
      rw [getElem?_cons_zero] at hslash
      exact ⟨rest, by rw [some.inj hslash]⟩
  · rintro ⟨rest, rfl⟩
    simp [isBelow]

/-- The entries that the removal of the entry in slot `i` clears. -/
def Doomed (v : Volume) (i : Fin ramfsMaxFiles) (name : Str) (j : Fin ramfsMaxFiles) : Prop :=
  j = i ∨ ((v.files i).isDirectory = true ∧ (v.files j).used = true ∧
    isBelow name (v.files j).name = true)

instance (v : Volume) (i : Fin ramfsMaxFiles) (name : Str) : DecidablePred (Doomed v i name) :=
  fun j => inferInstanceAs (Decidable (j = i ∨ ((v.files i).isDirectory = true ∧
    (v.files j).used = true ∧ isBelow name (v.files j).name = true)))

theorem ramfsVolumeRemove_found (hvalid : pathIsValid name = true) (hs : findEntry v name = some i) :
    ramfsVolumeRemove v (some name) = (0, v.drop (Doomed v i name)) := by
  simp only [ramfsVolumeRemove, hvalid, Bool.not_true, Bool.false_eq_true, if_false, hs]
  by_cases hd : (v.files i).isDirectory = true
  · simp only [hd, if_true, prune, Volume.drop, Prod.mk.injEq, Volume.mk.injEq, true_and]
    funext j
    by_cases hji : j = i
    · subst hji
      have hused : (v.files j).cleared.used = false := rfl
      simp only [Doomed, set_files, update_self, hused, Bool.false_and, Bool.false_eq_true,
        if_false, true_or, if_true]
    · simp only [Doomed, hji, hd, set_files, update_of_ne hji, Bool.and_eq_true, true_and,
        false_or]
  · simp only [if_neg hd, Prod.mk.injEq, true_and, Volume.set, Volume.drop, Volume.mk.injEq]
    funext j
    by_cases hji : j = i
    · subst hji
      simp [Doomed]
    · simp [Doomed, hji, hd]

theorem Tree.remove (h : Tree v) (hi : v.Holds i name) : Tree (v.drop (Doomed v i name)) := by
  apply h.drop (Doomed v i name)
  rintro j k dir leaf hj hdir hdoom hk
  obtain ⟨hused, hname⟩ := key_eq_some.mp hk
  rcases hdoom with rfl | ⟨hd, -, hbelow⟩
  · obtain rfl : dir = name := some.inj (hj.symm.trans hi)
    exact .inr ⟨hdir, hused, isBelow_iff.mpr ⟨leaf, hname⟩⟩
  · obtain ⟨rest, hrest⟩ := isBelow_iff.mp hbelow
    refine Or.inr ⟨hd, hused, isBelow_iff.mpr ⟨rest ++ slash :: leaf, ?_⟩⟩
    rw [hname, ← (key_eq_some.mp hj).2, hrest, append_assoc, cons_append]

end ProOS.Ramfs
