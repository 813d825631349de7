import ProOS.Ramfs.Calls
import ProOS.Framework.Lines

namespace ProOS.Ramfs

open ProOS.Framework Option List

def newline : UInt8 := 10

/-- What the loop of `ramfs_volume_list` takes for the name of an entry inside `dir`, the root being the empty string. -/
def childName (dir name : Str) : Option Str :=
  if dir = [] then
    if slash ∈ name then none else some name
  else if name.length ≤ dir.length then none
  else if !dir.isPrefixOf name then none
  else if name[dir.length]? ≠ some slash then none
  else
    let child := name.drop (dir.length + 1)
    if child = [] then none
    else if slash ∈ child then none
    else some child

def listLoop (v : Volume) (dir : Str) (bufferSize : Nat) : List (Fin ramfsMaxFiles) → Str → Str
  | [], out => out
  | i :: is, out =>
    let entry := v.files i
    if !entry.used then listLoop v dir bufferSize is out
    else
      match childName dir entry.name with
      | none => listLoop v dir bufferSize is out
      | some child =>
        let extra := if entry.isDirectory then 1 else 0
        if bufferSize ≤ out.length + child.length + extra + 1 then out
        else
          listLoop v dir bufferSize is
            (out ++ child ++ (if entry.isDirectory then [slash] else []) ++ [newline])

/-- The value returned and the string in the buffer; the last line break gives way to the terminator. -/
def ramfsVolumeList (v : Volume) (directory : Option Str) (hasBuffer : Bool) (bufferSize : Nat) :
    Int × Option Str :=
  if !hasBuffer || bufferSize == 0 then (-1, none)
  else
    let dir := directory.getD []
    if dir ≠ [] ∧ (pathIsValid dir = false ∨ (findEntry v dir).any (fun i => (v.files i).isDirectory) = false) then
      (-1, none)
    else
      let text := (listLoop v dir bufferSize (List.finRange ramfsMaxFiles) []).dropLast
      (text.length, some text)

/-! ## The children of a directory -/

/-- What stands before the last slash of a name; the root is the empty string. -/
def parentName (name : Str) : Str :=
  match lastIndexOf slash name with
  | none => []
  | some last => name.take last

def leafName (name : Str) : Str :=
  match lastIndexOf slash name with
  | none => name
  | some last => name.drop (last + 1)

/-- The line of an entry in the listing of its parent. -/
def Entry.line (dir : Str) (e : Entry) : Option Str :=
  if e.used = true ∧ parentName e.name = dir then
    some (leafName e.name ++ if e.isDirectory then [slash] else [])
  else none

/-- The lines of the immediate children of a directory, in the order of the slots. -/
def Volume.children (v : Volume) (dir : Str) : List Str :=
  (List.finRange ramfsMaxFiles).filterMap (fun i => (v.files i).line dir)

variable {v : Volume} {dir name leaf : Str} {size : Nat}

theorem parentName_of_notMem (h : slash ∉ name) : parentName name = [] := by
  rw [parentName, lastIndexOf_of_notMem h]

theorem leafName_of_notMem (h : slash ∉ name) : leafName name = name := by
  rw [leafName, lastIndexOf_of_notMem h]

theorem parentName_split (h : slash ∉ leaf) : parentName (dir ++ slash :: leaf) = dir := by
  rw [parentName, lastIndexOf_split h]
  exact take_left

theorem leafName_split (h : slash ∉ leaf) : leafName (dir ++ slash :: leaf) = leaf := by
  rw [leafName, lastIndexOf_split h]
  simp

theorem childName_below (hdir : dir ≠ []) (hleaf : leaf ≠ []) :
    childName dir (dir ++ slash :: leaf) = if slash ∈ leaf then none else some leaf := by
  simp [childName, hdir, hleaf]

theorem childName_not_below (hdir : dir ≠ []) (h : isBelow dir name = false) : childName dir name = none := by
  rw [childName, if_neg hdir]
  by_cases hlen : name.length ≤ dir.length
  · rw [if_pos hlen]
  cases hpre : dir.isPrefixOf name with
  | false => rw [if_neg hlen, if_pos (by decide)]
  | true =>
    rw [if_neg hlen, if_neg (by decide), if_pos]
    intro hslash
    rw [isBelow, hpre, hslash, decide_eq_true (not_le.mp hlen)] at h
    exact absurd h (by decide)

theorem childName_eq (hvalid : pathIsValid name = true) (dir : Str) :
    childName dir name = if parentName name = dir then some (leafName name) else none := by
  obtain ⟨hne, -, hhead, hlast⟩ := pathIsValid_iff.mp hvalid
  by_cases hdir : dir = []
  · rw [hdir, childName, if_pos rfl]
    by_cases hs : slash ∈ name
    · -- the name does not start with its slash, so that the parent is not the root
      obtain ⟨upper, leaf, rfl, hleaf⟩ := exists_last_split hs
      have hupper : upper ≠ [] := by
        rintro rfl
        exact hhead rfl
      rw [if_pos hs, parentName_split hleaf, if_neg hupper]
    · rw [if_neg hs, parentName_of_notMem hs, leafName_of_notMem hs, if_pos rfl]
  · by_cases hbelow : isBelow dir name = true
    · obtain ⟨leaf, rfl⟩ := isBelow_iff.mp hbelow
      have hleaf : leaf ≠ [] := by
        rintro rfl
        exact hlast (by simp)
      rw [childName_below hdir hleaf]
      by_cases hs : slash ∈ leaf
      · obtain ⟨upper, last, rfl, hsep⟩ := exists_last_split hs
        have hsplit : dir ++ slash :: (upper ++ slash :: last) = (dir ++ slash :: upper) ++ slash :: last := by simp
        rw [if_pos hs, hsplit, parentName_split hsep, if_neg (by simp)]
      · rw [if_neg hs, parentName_split hs, leafName_split hs, if_pos rfl]
    · rw [childName_not_below hdir (Bool.eq_false_iff.mpr hbelow), if_neg]
      intro hparent
      by_cases hs : slash ∈ name
      · obtain ⟨upper, leaf, rfl, hleaf⟩ := exists_last_split hs
        rw [parentName_split hleaf] at hparent
        exact hbelow (isBelow_iff.mpr ⟨leaf, by rw [hparent]⟩)
      · rw [parentName_of_notMem hs] at hparent
        exact hdir hparent.symm

/-! ## The listing -/

theorem listLoop_eq (h : Tree v) (dir : Str) (size : Nat) (is : List (Fin ramfsMaxFiles)) (out : Str) :
    listLoop v dir size is out = (fillLines newline size (is.filterMap fun i => (v.files i).line dir) out).2 := by
  induction is generalizing out with
  | nil => rfl
  | cons i is ih =>
    rw [listLoop]
    by_cases hu : (v.files i).used = true
    · have hchild := childName_eq (h.valid i (v.files i).name (key_eq_some.mpr ⟨hu, rfl⟩)) dir
      by_cases hparent : parentName (v.files i).name = dir
      · have hline : (v.files i).line dir =
            some (leafName (v.files i).name ++ if (v.files i).isDirectory then [slash] else []) := by
          rw [Entry.line, if_pos ⟨hu, hparent⟩]
        rw [if_pos hparent] at hchild
        have hextra : (if (v.files i).isDirectory = true then [slash] else []).length =
            if (v.files i).isDirectory = true then 1 else 0 := by
          split_ifs
          · rfl
          · rfl
        simp only [hu, hchild, filterMap_cons, hline, fillLines, length_append, hextra, Bool.not_true,
          Bool.false_eq_true, if_false, ← Nat.add_assoc]
        split_ifs
        · rfl
        · rw [ih, ← append_assoc out]
        · rfl
        · rw [ih, ← append_assoc out]
      · have hline : (v.files i).line dir = none := by rw [Entry.line, if_neg (fun hc => hparent hc.2)]
        rw [if_neg hparent] at hchild
        simp only [hu, hchild, filterMap_cons, hline]
        exact ih out
    · have hline : (v.files i).line dir = none := by rw [Entry.line, if_neg (fun hc => hu hc.1)]
      rw [if_pos (by simpa using hu), filterMap_cons, hline]
      exact ih out

theorem ramfsVolumeList_eq (h : Tree v) {directory : Option Str} (hsize : 0 < size)
    (hdir : directory.getD [] = [] ∨ v.IsDir (directory.getD [])) :
    ramfsVolumeList v directory true size =
      (((fillLines newline size (v.children (directory.getD [])) []).2.dropLast.length : Int),
        some (fillLines newline size (v.children (directory.getD [])) []).2.dropLast) := by
  have hzero : (size == 0) = false := beq_eq_false_iff_ne.mpr hsize.ne'
  have hguard : ¬(directory.getD [] ≠ [] ∧ (pathIsValid (directory.getD []) = false ∨
      (findEntry v (directory.getD [])).any (fun i => (v.files i).isDirectory) = false)) := by
    rintro ⟨hne, hbad⟩
    obtain ⟨i, hi, hkind⟩ := hdir.resolve_left hne
    rw [h.valid i _ hi, findEntry, h.distinct.slotOf_eq hi, any_some, hkind] at hbad
    rcases hbad with hbad | hbad
    · cases hbad
    · cases hbad
  simp only [ramfsVolumeList, hzero, Bool.not_true, Bool.or_self, Bool.false_eq_true, if_false, if_neg hguard,
    listLoop_eq h]
  rfl

theorem children_ne_nil (h : Tree v) {line : Str} (hline : line ∈ v.children dir) : line ≠ [] := by
  obtain ⟨i, -, hi⟩ := mem_filterMap.mp hline
  have hc : (v.files i).used = true ∧ parentName (v.files i).name = dir := by
    by_contra hc
    rw [Entry.line, if_neg hc] at hi
    cases hi
  rw [Entry.line, if_pos hc] at hi
  rw [← some.inj hi]
  have hvalid := h.valid i (v.files i).name (key_eq_some.mpr ⟨hc.1, rfl⟩)
  obtain ⟨hne, -, -, hlast⟩ := pathIsValid_iff.mp hvalid
  have hleaf : leafName (v.files i).name ≠ [] := by
    by_cases hs : slash ∈ (v.files i).name
    · obtain ⟨upper, leaf, hsplit, hleaf⟩ := exists_last_split hs
      rw [hsplit, leafName_split hleaf]
      rintro rfl
      exact hlast (by simp [hsplit])
    · rwa [leafName_of_notMem hs]
  exact fun happ => hleaf (append_eq_nil_iff.mp happ).1

theorem joined_children_ne_nil (h : Tree v) {q : List Str} (hq : q <+: v.children dir) (hne : q ≠ []) :
    joined newline q ≠ [] := by
  cases q with
  | nil => exact absurd rfl hne
  | cons line q =>
    have hline := children_ne_nil h (hq.subset (mem_cons_self (a := line) (l := q)))
    intro hempty
    have hle : (joined newline [line]).length ≤ (joined newline (line :: q)).length := length_joined_le ⟨q, rfl⟩
    rw [hempty, length_nil, Nat.le_zero, length_eq_zero_iff, joined, intercalate_singleton] at hle
    exact hline hle

/-- A listing is the longest beginning of the children that fits if and only if there is no beginning that takes the
buffer up to its last byte. -/
theorem ramfs_list_exact_iff (memory : Volume) (tr : List Event) (v : Volume) (directory : Option Str) (size : Nat)
    (hx : Exec Step (ramfsVolumeInit memory) tr v) (hsize : 0 < size)
    (hdir : directory.getD [] = [] ∨ v.IsDir (directory.getD [])) :
    (∃ p, LongestFit newline size (v.children (directory.getD [])) p ∧
        ramfsVolumeList v directory true size = (((joined newline p).length : Int), some (joined newline p))) ↔
      ∀ q, q <+: v.children (directory.getD []) → q ≠ [] → (joined newline q).length + 1 ≠ size := by
  have htree := reachable_tree hx
  have hresult : ∀ p, ramfsVolumeList v directory true size =
      (((joined newline p).length : Int), some (joined newline p)) ↔
        (fillLines newline size (v.children (directory.getD [])) []).2.dropLast = joined newline p := by
    intro p
    rw [ramfsVolumeList_eq htree hsize hdir]
    constructor
    · intro heq
      exact some.inj (Prod.mk.inj heq).2
    · intro heq
      rw [heq]
  simp only [hresult]
  rw [fillLines_longestFit_iff hsize]
  constructor
  · intro hcond q hq hne
    exact hcond q hq (joined_children_ne_nil htree hq hne)
  · intro hcond q hq hne
    refine hcond q hq ?_
    rintro rfl
    exact hne rfl

/-- The one file "b" does not get into a buffer of two bytes. -/
theorem ramfs_list_drops_last :
    ¬∀ (memory : Volume) (tr : List Event) (v : Volume) (directory : Option Str) (size : Nat),
      Exec Step (ramfsVolumeInit memory) tr v → 0 < size →
      (directory.getD [] = [] ∨ v.IsDir (directory.getD [])) →
      ∃ p, LongestFit newline size (v.children (directory.getD [])) p ∧
        ramfsVolumeList v directory true size = (((joined newline p).length : Int), some (joined newline p)) := by
  intro hall
  obtain ⟨p, hfit, hlist⟩ := hall emptyMemory reuseTrace reusedVolume none 2 reuseTrace_exec (by decide) (.inl rfl)
  have hchildren : reusedVolume.children [] = [[98]] := by decide +kernel
  have hempty : ramfsVolumeList reusedVolume none true 2 = (0, some []) := by decide +kernel
  have hlong := hfit.longest [[98]] (by rw [getD_none, hchildren]) (by decide)
  rw [hempty] at hlist
  have hne : p ≠ [] := by
    rintro rfl
    exact absurd hlong (by decide)
  exact joined_children_ne_nil (reachable_tree reuseTrace_exec) hfit.initial hne
    (some.inj (Prod.mk.inj hlist).2).symm

theorem ramfs_list_exact_roomy : reusedVolume.children [] = [[98]] ∧
    ∃ p, LongestFit newline 3 (reusedVolume.children []) p ∧
      ramfsVolumeList reusedVolume none true 3 = (((joined newline p).length : Int), some (joined newline p)) := by
  have hchildren : reusedVolume.children [] = [[98]] := by decide +kernel
  refine ⟨hchildren, ?_⟩
  refine (ramfs_list_exact_iff emptyMemory reuseTrace reusedVolume none 3 reuseTrace_exec (by decide) (.inl rfl)).mpr ?_
  intro q hq hne
  rw [getD_none, hchildren] at hq
  have hq' : q = [[98]] := by
    rcases prefix_cons_iff.mp hq with rfl | ⟨q', rfl, hq'⟩
    · exact absurd rfl hne
    · rw [prefix_nil.mp hq']
  rw [hq']
  decide

end ProOS.Ramfs
