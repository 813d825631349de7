import ProOS.Fat.Soundness
import ProOS.Fat.Codec

namespace ProOS.Fat

open ProOS.Framework Option List

/-! ## The directory that a path names -/

/-- The segments lead from the directory `h` to the directory `c`: each one is a short name and names a directory among
the entries in use. -/
inductive Names (v : Volume) (d : Disk) : List Str → Nat → Nat → Prop
  | here (h : Nat) : Names v d [] h h
  | down {segment : Str} {segments : List Str} {n : Name} {h c : Nat} {s : Slot} :
      makeShortName segment = some n → s ∈ lives v d h → (d.entry s).name = n → (d.entry s).isDirectory = true →
      Names v d segments (d.entry s).firstCluster c → Names v d (segment :: segments) h c

/-- No segment that the walk comes to is too long for the buffer of `fatfs_resolve_directory`, and the walk does not end
at a directory of FAT32 that has no cluster. -/
def passable (v : Volume) (d : Disk) : List Str → Nat → Bool
  | [], _ => true
  | segment :: segments, h =>
    if 16 ≤ segment.length then false
    else
      match (makeShortName segment).bind (findEntry v d h) with
      | none => true
      | some s =>
        if (d.entry s).isDirectory = false then true
        else if (d.entry s).firstCluster = 0 ∧ v.fatType = .fat32 then !segments.isEmpty
        else passable v d segments (d.entry s).firstCluster

/-- The segments before the last slash of a path. -/
def dirSegments (path : Str) : List Str :=
  match lastIndexOf slash path with
  | none => []
  | some i => fields slash (path.take i)

section Walk

variable {v : Volume} {d : Disk} {m : Mem} {segment path : Str} {segments rest : List Str} {n : Name} {h c : Nat} {s : Slot}

theorem mem_lives_of_kid (hs : s ∈ kids v d h) : s ∈ lives v d h := by
  obtain ⟨hused, hk⟩ := mem_filter.mp hs
  exact mem_filter.mpr ⟨hused, isKid_isLive hk⟩

theorem Sound.findEntry_kid (hs : Sound v d) (hr : Reach v d h) :
    findEntry v d h n = some s ↔ s ∈ kids v d h ∧ (d.entry s).name = n := by
  constructor
  · exact mem_of_findEntry
  · rintro ⟨hk, hname⟩
    cases hf : findEntry v d h n with
    | none =>
      have hnone := find?_eq_none.mp hf s hk
      rw [hname, beq_self_eq_true] at hnone
      exact absurd rfl hnone
    | some t =>
      obtain ⟨htk, htname⟩ := mem_of_findEntry hf
      rw [hs.names h hr t (mem_lives_of_kid htk) s (mem_lives_of_kid hk) (htname.trans hname.symm)]

theorem Sound.findEntry_iff (hs : Sound v d) (hr : Resolved v d h) (hn : ShortName n) :
    findEntry v d h n = some s ↔ s ∈ lives v d h ∧ (d.entry s).name = n := by
  have hkid : s ∈ lives v d h → (d.entry s).name = n → s ∈ kids v d h := by
    intro ht hname
    obtain ⟨hused, hlive⟩ := mem_filter.mp ht
    refine mem_filter.mpr ⟨hused, ?_⟩
    rw [Entry.isKid, hlive, hname, hn.not_dot]
    rfl
  constructor
  · intro hf
    obtain ⟨hmem, hname⟩ := mem_of_findEntry hf
    exact ⟨mem_lives_of_kid hmem, hname⟩
  · rintro ⟨hmem, hname⟩
    have hk := hkid hmem hname
    exact (hs.findEntry_kid (hr.of_kid hk)).mpr ⟨hk, hname⟩

theorem names_cons_iff (hs : Sound v d) (hr : Resolved v d h) : Names v d (segment :: segments) h c ↔
    ∃ s, (makeShortName segment).bind (findEntry v d h) = some s ∧ (d.entry s).isDirectory = true ∧
      Names v d segments (d.entry s).firstCluster c := by
  constructor
  · intro hnames
    cases hnames with
    | @down _ _ n _ _ s hn hmem hname hdir hrest =>
      refine ⟨s, ?_, hdir, hrest⟩
      rw [hn, bind_some]
      exact (hs.findEntry_iff hr (shortName_of_make hn)).mpr ⟨hmem, hname⟩
  · rintro ⟨s, hf, hdir, hrest⟩
    obtain ⟨n, hn, hf⟩ := bind_eq_some_iff.mp hf
    obtain ⟨hmem, hname⟩ := (hs.findEntry_iff hr (shortName_of_make hn)).mp hf
    exact .down hn hmem hname hdir hrest

theorem walk_cons (hlen : segment.length < 16) : walk v d (segment :: segments) h =
    ((makeShortName segment).bind (findEntry v d h)).bind fun s =>
      if (d.entry s).isDirectory = false ∨ (d.entry s).firstCluster = 0 ∧ v.fatType = .fat32 then none
      else walk v d segments (d.entry s).firstCluster := by
  rw [walk, if_neg (not_le.mpr hlen), Option.bind_assoc]

theorem not_names_zero (ht : v.fatType = .fat32) : ¬Names v d (segment :: segments) 0 c := by
  intro hnames
  cases hnames with
  | down _ hmem _ _ _ =>
    have hslots : dirSlots v d 0 = [] := by
      rw [dirSlots, dirAreas, if_neg (by simp [ht]), chainOf, if_pos (by omega)]
      rfl
    have hm := (takeWhile_sublist _).subset (mem_filter.mp hmem).1
    rw [hslots] at hm
    cases hm

theorem passable_cons (hlen : segment.length < 16) (hf : (makeShortName segment).bind (findEntry v d h) = some s)
    (hdir : (d.entry s).isDirectory = true) (hne : ¬((d.entry s).firstCluster = 0 ∧ v.fatType = .fat32)) :
    passable v d (segment :: segments) h = passable v d segments (d.entry s).firstCluster := by
  simp only [passable, if_neg (not_le.mpr hlen), hf, hdir, Bool.true_eq_false, if_false, if_neg hne]

theorem found_resolved (hr : Resolved v d h) (hf : (makeShortName segment).bind (findEntry v d h) = some s)
    (hdir : (d.entry s).isDirectory = true) (hne : ¬((d.entry s).firstCluster = 0 ∧ v.fatType = .fat32)) :
    Resolved v d (d.entry s).firstCluster := by
  obtain ⟨n, -, hf⟩ := bind_eq_some_iff.mp hf
  exact hr.child (mem_of_findEntry hf).1 hdir hne

theorem walk_names (hs : Sound v d) (hr : Resolved v d h) (hp : passable v d (segments ++ rest) h = true)
    (hw : walk v d segments h = some c) : Names v d segments h c := by
  induction segments generalizing h with
  | nil =>
    obtain rfl := some.inj hw
    exact .here h
  | cons segment segments ih =>
    by_cases hlen : segment.length < 16
    · rw [walk_cons hlen] at hw
      obtain ⟨s, hf, hw⟩ := bind_eq_some_iff.mp hw
      by_cases hbad : (d.entry s).isDirectory = false ∨ (d.entry s).firstCluster = 0 ∧ v.fatType = .fat32
      · rw [if_pos hbad] at hw
        cases hw
      · rw [if_neg hbad] at hw
        obtain ⟨hdir, hne⟩ := not_or.mp hbad
        rw [Bool.not_eq_false] at hdir
        rw [cons_append, passable_cons hlen hf hdir hne] at hp
        exact (names_cons_iff hs hr).mpr ⟨s, hf, hdir, ih (found_resolved hr hf hdir hne) hp hw⟩
    · rw [cons_append, passable, if_pos (not_lt.mp hlen)] at hp
      cases hp

theorem walk_exact_iff (hs : Sound v d) (hr : Resolved v d h) (segments : List Str) :
    (∀ c, walk v d segments h = some c ↔ Names v d segments h c) ↔ passable v d segments h = true := by
  induction segments generalizing h with
  | nil =>
    refine iff_of_true ?_ rfl
    intro c
    constructor
    · intro hw
      cases hw
      exact .here h
    · intro hnames
      cases hnames
      rfl
  | cons segment segments ih =>
    by_cases hlen : segment.length < 16
    · simp only [walk_cons hlen, names_cons_iff hs hr]
      cases hf : (makeShortName segment).bind (findEntry v d h) with
      | none =>
        refine iff_of_true (fun c => iff_of_false (by simp) (by simp)) ?_
        simp only [passable, if_neg (not_le.mpr hlen), hf]
      | some s =>
        simp only [bind_some, some.injEq, exists_eq_left']
        cases hdir : (d.entry s).isDirectory with
        | false =>
          refine iff_of_true (fun c => iff_of_false (by simp) (by simp)) ?_
          simp only [passable, if_neg (not_le.mpr hlen), hf, hdir, if_true]
        | true =>
          by_cases hzero : (d.entry s).firstCluster = 0 ∧ v.fatType = .fat32
          · -- the code refuses the directory, and only a path that ends here names it
            have hpass : passable v d (segment :: segments) h = !segments.isEmpty := by
              simp only [passable, if_neg (not_le.mpr hlen), hf, hdir, Bool.true_eq_false, if_false, if_pos hzero]
            rw [if_pos (.inr hzero), hpass, hzero.1]
            cases segments with
            | nil =>
              refine iff_of_false ?_ (by decide)
              intro hall
              cases (hall 0).mpr ⟨rfl, .here 0⟩
            | cons next segments =>
              refine iff_of_true ?_ rfl
              exact fun c => iff_of_false (by simp) (fun hnames => not_names_zero hzero.2 hnames.2)
          · rw [if_neg (by simpa using hzero), passable_cons hlen hf hdir hzero,
              ← ih (found_resolved hr hf hdir hzero)]
            simp only [true_and]
    · have hw : walk v d (segment :: segments) h = some h := by rw [walk, if_pos (not_lt.mp hlen)]
      have hpass : passable v d (segment :: segments) h = false := by rw [passable, if_pos (not_lt.mp hlen)]
      rw [hpass]
      refine iff_of_false ?_ Bool.false_ne_true
      intro hall
      cases (hall h).mp hw with
      | down hn _ _ _ _ => exact hlen (makeShortName_short hn)

/-! ## The calls -/

/-- A call on the path looks for its entry in the directory that the path names, and does nothing when there is none. -/
structure ActsThere (v : Volume) (m : Mem) (path : Str) : Prop where
  parent : ∀ l, Returns (fun n => locate v n m path) (some l) →
    Names v (view v m) (dirSegments path) (rootDirectory v) l.parent ∧
      l.scan.found = (findEntry v (view v m) l.parent l.shortName).map v.slotAddr
  write : (∀ h, ¬Names v (view v m) (dirSegments path) (rootDirectory v) h) → ∀ isNull data mode,
    Returns (fun n => fatfsWrite v n m path isNull data mode) (m, false)
  mkdir : (∀ h, ¬Names v (view v m) (dirSegments path) (rootDirectory v) h) →
    Returns (fun n => fatfsMkdir v n m path) (m, false)
  remove : (∀ h, ¬Names v (view v m) (dirSegments path) (rootDirectory v) h) →
    Returns (fun n => fatfsRemove v n m path) (m, false)
  read : (∀ h, ¬Names v (view v m) (dirSegments path) (rootDirectory v) h) → ∀ maxLen,
    Returns (fun n => fatfsRead v n m path maxLen) none

theorem walkLeaf_walk {leaf : Nat × Name} (hw : walkLeaf v d path = some leaf) :
    walk v d (dirSegments path) (rootDirectory v) = some leaf.1 := by
  obtain ⟨⟨parent, segment⟩, hp, hl⟩ := bind_eq_some_iff.mp hw
  obtain ⟨n, -, rfl⟩ := map_eq_some_iff.mp hl
  rw [dirSegments]
  unfold walkParent at hp
  cases hi : lastIndexOf slash path with
  | none =>
    simp only [hi] at hp
    split_ifs at hp
    cases hp
    rfl
  | some i =>
    simp only [hi] at hp
    by_cases hlong : 128 ≤ i
    · rw [if_pos hlong] at hp
      cases hp
    · rw [if_neg hlong] at hp
      obtain ⟨q, hq, hp⟩ := bind_eq_some_iff.mp hp
      split_ifs at hp
      cases hp
      exact hq

theorem dirSegments_append (path : Str) : ∃ rest, fields slash path = dirSegments path ++ rest := by
  by_cases hs : slash ∈ path
  · obtain ⟨dir, leaf, rfl, hleaf⟩ := exists_last_split hs
    refine ⟨fields slash leaf, ?_⟩
    simp only [dirSegments, lastIndexOf_split hleaf, take_left]
    exact fields_append_sep
  · rw [dirSegments, lastIndexOf_of_notMem hs]
    exact ⟨_, rfl⟩

theorem actsThere (hv : v.Fits) (hs : Sound v (view v m))
    (hp : passable v (view v m) (fields slash path) (rootDirectory v) = true) : ActsThere v m path := by
  obtain ⟨rest, hsegs⟩ := dirSegments_append path
  rw [hsegs] at hp
  have hnamed : ∀ {leaf}, walkLeaf v (view v m) path = some leaf →
      Names v (view v m) (dirSegments path) (rootDirectory v) leaf.1 := by
    intro leaf hw
    exact walk_names hs (.inl .root) hp (walkLeaf_walk hw)
  have hnone : (∀ h, ¬Names v (view v m) (dirSegments path) (rootDirectory v) h) →
      Returns (fun n => locate v n m path) none := by
    intro hno
    refine locate_none hv hs.toOwned ?_
    cases hw : walkLeaf v (view v m) path with
    | none => rfl
    | some leaf => exact absurd (hnamed hw) (hno leaf.1)
  constructor
  · intro l hl
    cases hw : walkLeaf v (view v m) path with
    | none => cases hl.unique (locate_none hv hs.toOwned hw)
    | some leaf =>
      obtain ⟨scan, hret, hscan⟩ := locate_some hv hs.toOwned hw
      obtain rfl := some.inj (hret.unique hl)
      exact ⟨hnamed hw, hscan.found_eq (walkLeaf_spec hw).2⟩
  · intro hno isNull data mode
    exact (hnone hno).bind (.of_some _)
  · intro hno
    exact (hnone hno).map
  · intro hno
    exact (hnone hno).bind (.of_some _)
  · intro hno maxLen
    unfold fatfsRead
    split
    · exact .of_some _
    · exact (hnone hno).onFailure

/-- `fatfs_resolve_directory` gives exactly the directory that the path names, and the calls act there, if and only if the
path is passable. -/
theorem resolve_exact_iff (v : Volume) (m : Mem) (path : Str) (hv : v.Fits) (hs : Sound v (view v m)) :
    ((∀ c, Returns (fun n => resolveDirectory v n m path) (some c) ↔
        Names v (view v m) (fields slash path) (rootDirectory v) c) ∧ ActsThere v m path) ↔
      passable v (view v m) (fields slash path) (rootDirectory v) = true := by
  have hres := resolveDirectory_spec hv hs.toOwned path
  have hwalk : ∀ c, Returns (fun n => resolveDirectory v n m path) (some c) ↔
      walk v (view v m) (fields slash path) (rootDirectory v) = some c := by
    intro c
    constructor
    · exact fun hret => hres.unique hret
    · intro hw
      rwa [hw] at hres
  simp only [hwalk, walk_exact_iff hs (.inl .root)]
  constructor
  · exact fun h => h.1
  · exact fun hp => ⟨hp, actsThere hv hs hp⟩

end Walk

end ProOS.Fat
