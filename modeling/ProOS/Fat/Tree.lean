import ProOS.Framework.NamedTree
import ProOS.Fat.FileEdit
import ProOS.Fat.Listing
import ProOS.Fat.Named

namespace ProOS.Fat

open ProOS.Framework Option List

/-! ## The tree on a disk -/

/-- What a name leads to: the first cluster of a directory, or the bytes of a file. -/
def look (v : Volume) (d : Disk) (a : Nat) (n : Name) : Option (Nat ⊕ List UInt8) :=
  (findEntry v d a n).map fun s =>
    if (d.entry s).isDirectory then .inl (d.entry s).firstCluster else .inr (content v d s)

/-- Names are short names, in which there is no difference of case. -/
def treeOf (v : Volume) (d : Disk) : List Name → Option (Place (List UInt8)) := treeFrom (look v d) (rootDirectory v)

/-- A sound volume in which every name is a short one and every directory has a cluster. -/
structure Orderly (v : Volume) (d : Disk) : Prop extends Sound v d where
  named : ∀ h s, Reach v d h → s ∈ kids v d h → ShortName (d.entry s).name
  dirs : ∀ h s, Reach v d h → s ∈ kids v d h → (d.entry s).isDirectory = true → 2 ≤ (d.entry s).firstCluster

section Tree

variable {v : Volume} {d : Disk} {a b h : Nat} {n : Name} {s : Slot} {ms : List Name} {path : Str}

theorem look_eq_none : look v d a n = none ↔ findEntry v d a n = none := map_eq_none_iff

theorem look_eq_inl : look v d a n = some (.inl b) ↔
    ∃ s, findEntry v d a n = some s ∧ (d.entry s).isDirectory = true ∧ (d.entry s).firstCluster = b := by
  rw [look, map_eq_some_iff]
  refine exists_congr (fun s => and_congr_right (fun _ => ?_))
  cases (d.entry s).isDirectory with
  | true => simp
  | false => simp

theorem look_file (hf : findEntry v d a n = some s) (hfile : (d.entry s).isDirectory = false) :
    look v d a n = some (.inr (content v d s)) := by
  rw [look, hf, map_some, hfile]
  rfl

theorem look_dir (hf : findEntry v d a n = some s) (hdir : (d.entry s).isDirectory = true) :
    look v d a n = some (.inl (d.entry s).firstCluster) :=
  look_eq_inl.mpr ⟨s, hf, hdir, rfl⟩

theorem look_empty (hkids : kids v d a = []) (n : Name) : look v d a n = none := by
  rw [look_eq_none, findEntry, hkids, find?_nil]

theorem Orderly.owns (ho : Orderly v d) (hr : Reach v d a) (hl : look v d a n = some (.inl b)) :
    Reach v d b ∧ ∃ s, findEntry v d a n = some s ∧ Owns v d (some s) b ∧ b ∈ chainOf v d b := by
  obtain ⟨s, hf, hdir, rfl⟩ := look_eq_inl.mp hl
  obtain ⟨hk, -⟩ := mem_of_findEntry hf
  have hge := ho.dirs a s hr hk hdir
  have hown := Owns.entry hr hk hge
  exact ⟨.child hr hk hdir hge, s, hf, hown, (ho.chains _ _ hown).head_mem⟩

theorem Orderly.reach (ho : Orderly v d) (hr : Reach v d h) (hd : descend (look v d) ms h = some a) : Reach v d a := by
  induction ms generalizing h with
  | nil =>
    cases hd
    exact hr
  | cons n ms ih =>
    obtain ⟨b, hstep, hrest⟩ := bind_eq_some_iff.mp hd
    exact ih (ho.owns hr (step_eq_some.mp hstep)).1 hrest

theorem Orderly.isTree (ho : Orderly v d) : IsTree (look v d) (rootDirectory v) where
  rootless ms a n hd hl := by
    obtain ⟨-, s, -, hown, -⟩ := ho.owns (ho.reach .root hd) hl
    exact ho.ne_root hown rfl
  once ms ms' a a' n n' b hd hd' hl hl' := by
    have hr := ho.reach .root hd
    have hr' := ho.reach .root hd'
    obtain ⟨-, s, hf, hown, hmem⟩ := ho.owns hr hl
    obtain ⟨-, s', hf', hown', -⟩ := ho.owns hr' hl'
    obtain rfl := some.inj (ho.once _ _ _ _ b hown hown' hmem hmem)
    obtain ⟨hk, hname⟩ := mem_of_findEntry hf
    obtain ⟨hk', hname'⟩ := mem_of_findEntry hf'
    exact ⟨ho.slot_unique hr hr' (mem_kids_slot hk) (mem_kids_slot hk'), hname.symm.trans hname'⟩

/-! ## Paths -/

/-- A path of a directory: its segments have the short names `ms`. -/
structure Spells (path : Str) (ms : List Name) : Prop where
  short : path.length < 128
  names : (fields slash path).map makeShortName = ms.map some

/-- A path of a file does not end with a slash either. -/
structure SpellsLeaf (path : Str) (ms : List Name) : Prop extends Spells path ms where
  leaf : path.getLast? ≠ some slash

theorem Orderly.stepDown_eq (ho : Orderly v d) (hr : Reach v d h) (n : Name) :
    stepDown v d h n = (look v d h n).bind Sum.getLeft? := by
  rw [stepDown, look]
  cases hf : findEntry v d h n with
  | none => rfl
  | some s =>
    obtain ⟨hk, -⟩ := mem_of_findEntry hf
    rw [bind_some, map_some, bind_some]
    cases hdir : (d.entry s).isDirectory with
    | false =>
      rw [if_pos (.inl rfl)]
      rfl
    | true =>
      have hge := ho.dirs h s hr hk hdir
      rw [if_neg]
      · rfl
      · rintro (hfalse | ⟨hzero, -⟩)
        · cases hfalse
        · omega

theorem Orderly.walk_eq (ho : Orderly v d) (hr : Reach v d h) {segments : List Str}
    (hnames : segments.map makeShortName = ms.map some) : walk v d segments h = descend (look v d) ms h := by
  induction segments generalizing h ms with
  | nil =>
    obtain rfl : ms = [] := map_eq_nil_iff.mp hnames.symm
    rfl
  | cons segment segments ih =>
    cases ms with
    | nil => cases hnames
    | cons n ms =>
      obtain ⟨hn, hrest⟩ := List.cons.inj hnames
      have hshort := makeShortName_short hn
      rw [walk_step, if_neg (by omega), hn, bind_some, ho.stepDown_eq hr, descend]
      cases hstep : (look v d h n).bind Sum.getLeft? with
      | none => rfl
      | some b => exact ih (ho.owns hr (step_eq_some.mp hstep)).1 hrest

theorem Orderly.walkLeaf_concat (ho : Orderly v d) (hp : SpellsLeaf path (ms ++ [n])) :
    walkLeaf v d path = (descend (look v d) ms (rootDirectory v)).map (·, n) := by
  have hnames := hp.names
  rw [map_append, map_singleton] at hnames
  by_cases hslash : slash ∈ path
  · obtain ⟨dir, leaf, rfl, hleaf⟩ := exists_last_split hslash
    have hne : leaf ≠ [] := by
      rintro rfl
      exact hp.leaf (by simp)
    rw [fields_append_sep, fields_of_notMem hleaf hne, map_append, map_singleton] at hnames
    obtain ⟨hdir, hlast⟩ := append_inj' hnames rfl
    have hn : makeShortName leaf = some n := (List.cons.inj hlast).1
    have hshort := makeShortName_short hn
    have hlen := hp.short
    rw [length_append] at hlen
    rw [walkLeaf, walkParent_split hleaf (by omega) (by omega), ho.walk_eq .root hdir]
    cases descend (look v d) ms (rootDirectory v) with
    | none => rfl
    | some a =>
      rw [map_some, bind_some]
      dsimp only
      rw [prepareShortName_eq, hn]
      rfl
  · have hne : path ≠ [] := by
      rintro rfl
      simp at hnames
    rw [fields_of_notMem hslash hne] at hnames
    obtain ⟨hnil, hlast⟩ := append_inj' (show [] ++ [makeShortName path] = ms.map some ++ [some n] from hnames) rfl
    obtain rfl : ms = [] := map_eq_nil_iff.mp hnil.symm
    have hn : makeShortName path = some n := (List.cons.inj hlast).1
    have hshort := makeShortName_short hn
    rw [walkLeaf, walkParent_plain hslash (by omega), bind_some]
    dsimp only
    rw [prepareShortName_eq, hn]
    rfl

theorem walkLeaf_nil (hp : SpellsLeaf path []) : walkLeaf v d path = none := by
  have hfields : fields slash path = [] := map_eq_nil_iff.mp hp.names
  obtain rfl : path = [] := by
    by_contra hne
    by_cases hslash : slash ∈ path
    · obtain ⟨dir, leaf, rfl, hleaf⟩ := exists_last_split hslash
      have hleafne : leaf ≠ [] := by
        rintro rfl
        exact hp.leaf (by simp)
      rw [fields_append_sep, fields_of_notMem hleaf hleafne] at hfields
      simp at hfields
    · rw [fields_of_notMem hslash hne] at hfields
      cases hfields
  rfl

theorem Orderly.contentAt_eq (ho : Orderly v d) (hp : SpellsLeaf path ms) :
    contentAt v d path = (treeOf v d ms).bind Place.content? := by
  rw [contentAt, entryAt]
  rcases eq_nil_or_concat' ms with rfl | ⟨ms, n, rfl⟩
  · rw [walkLeaf_nil hp]
    rfl
  · rw [ho.walkLeaf_concat hp, treeOf, treeFrom_concat]
    cases descend (look v d) ms (rootDirectory v) with
    | none => rfl
    | some a =>
      rw [map_some, bind_some, bind_some, look]
      cases findEntry v d a n with
      | none => rfl
      | some s =>
        rw [map_some, map_some, filter_some]
        cases (d.entry s).isDirectory with
        | true => rfl
        | false => rfl

end Tree

/-! ## What the calls show of a tree -/

/-- The line of a name in a listing, with a slash behind that of a directory. -/
def childLine (T : List Name → Option (Place (List UInt8))) (ms : List Name) (n : Name) : Str :=
  formatEntryName n ++ if T (ms ++ [n]) = some .dir then [slash] else []

/-- The file system is the tree `T` to those who read files and list directories. -/
structure Represents (v : Volume) (m : Mem) (T : List Name → Option (Place (List UInt8))) : Prop where
  root : T [] = some .dir
  parent : ∀ ms n, T (ms ++ [n]) ≠ none → T ms = some .dir
  named : ∀ ms n, T (ms ++ [n]) ≠ none → ShortName n
  read : ∀ path ms maxLen, SpellsLeaf path ms → 0 < maxLen →
    Returns (fun k => fatfsRead v k m path maxLen) (((T ms).bind Place.content?).map (List.take maxLen))
  list : ∀ path ms, Spells path ms → T ms = some .dir → ∃ children : List Name, children.Nodup ∧
    (∀ n, n ∈ children ↔ T (ms ++ [n]) ≠ none) ∧
    ∀ size, (joined newline (children.map (childLine T ms))).length + 1 < size →
      Returns (fun k => fatfsList v k m path size) (some ⟨joined newline (children.map (childLine T ms)) ++ [0],
        (joined newline (children.map (childLine T ms))).length⟩)

section Observed

variable {v : Volume} {m : Mem} {d : Disk} {a : Nat} {n : Name} {ms : List Name}

theorem treeOf_child (hd : descend (look v d) ms (rootDirectory v) = some a) (n : Name) :
    treeOf v d (ms ++ [n]) = (look v d a n).map placeOf := by
  rw [treeOf, treeFrom_concat, hd, bind_some]

theorem Orderly.mem_names (ho : Orderly v d) (hr : Reach v d a) (hd : descend (look v d) ms (rootDirectory v) = some a) :
    n ∈ (kids v d a).map (fun s => (d.entry s).name) ↔ treeOf v d (ms ++ [n]) ≠ none := by
  rw [treeOf_child hd, Ne, map_eq_none_iff, look_eq_none, List.mem_map]
  constructor
  · rintro ⟨s, hk, hname⟩
    rw [(ho.toSound.findEntry_kid hr).mpr ⟨hk, hname⟩]
    exact some_ne_none s
  · intro hne
    obtain ⟨s, hf⟩ := ne_none_iff_exists'.mp hne
    exact ⟨s, mem_of_findEntry hf⟩

theorem Orderly.line_eq (ho : Orderly v d) (hr : Reach v d a) (hd : descend (look v d) ms (rootDirectory v) = some a)
    {s : Slot} (hk : s ∈ kids v d a) : (d.entry s).text = childLine (treeOf v d) ms (d.entry s).name := by
  have hf := (ho.toSound.findEntry_kid hr).mpr ⟨hk, rfl⟩
  rw [Entry.text, (ho.named a s hr hk).takeWhile_format, childLine, treeOf_child hd]
  congr 1
  cases hdir : (d.entry s).isDirectory with
  | true =>
    rw [look_dir hf hdir]
    rfl
  | false =>
    rw [look_file hf hdir]
    rfl

theorem Orderly.nodup_names (ho : Orderly v d) (hr : Reach v d a) :
    ((kids v d a).map (fun s => (d.entry s).name)).Nodup := by
  have hslots : (dirSlots v d a).Nodup := slotsIn_nodup (dirAreas_nodup ho.toOwned hr)
  refine List.Nodup.map_on ?_ ((hslots.sublist (takeWhile_sublist _)).filter _)
  intro s hs t ht hname
  have hf := (ho.toSound.findEntry_kid hr).mpr ⟨hs, hname⟩
  have hf' := (ho.toSound.findEntry_kid hr).mpr ⟨ht, rfl⟩
  exact some.inj (hf.symm.trans hf')

theorem Orderly.represents (ho : Orderly v (view v m)) (hv : v.Fits) : Represents v m (treeOf v (view v m)) where
  root := rfl
  parent _ _ := treeFrom_parent
  named ms n hn := by
    obtain ⟨a, hd⟩ := treeFrom_eq_dir.mp (treeFrom_parent hn)
    have hr := ho.reach .root hd
    obtain ⟨s, hk, rfl⟩ := List.mem_map.mp ((ho.mem_names hr hd).mpr hn)
    exact ho.named a s hr hk
  read path ms maxLen hp hmax := by
    have hspec := fatfsRead_spec hv ho.toOwned path hmax
    rwa [ho.contentAt_eq hp] at hspec
  list path ms hp hdir := by
    obtain ⟨a, hd⟩ := treeFrom_eq_dir.mp hdir
    have hr := ho.reach .root hd
    refine ⟨_, ho.nodup_names hr, fun n => ho.mem_names hr hd, fun size hsize => ?_⟩
    have hlines : ((kids v (view v m) a).map (fun s => ((view v m).entry s).name)).map (childLine (treeOf v (view v m)) ms) =
        dirLines v (view v m) a := by
      rw [List.map_map]
      exact map_congr_left (fun s hk => (ho.line_eq hr hd hk).symm)
    rw [hlines] at hsize ⊢
    have hresolve := resolveDirectory_spec hv ho.toOwned path
    rw [ho.walk_eq .root hp.names, hd] at hresolve
    exact hresolve.onSuccess (listDirectory_whole hv (ho.toOwned.readable (.inl hr)) hsize)

end Observed

end ProOS.Fat
