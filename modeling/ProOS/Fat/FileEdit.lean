import ProOS.Fat.ReadSpec
import ProOS.Fat.CallSpec

namespace ProOS.Fat

open ProOS.Framework Option

/-- The directory that a name leads to from the directory `h`. -/
def stepDown (v : Volume) (d : Disk) (h : Nat) (n : Name) : Option Nat :=
  (findEntry v d h n).bind fun s =>
    if (d.entry s).isDirectory = false ∨ (d.entry s).firstCluster = 0 ∧ v.fatType = .fat32 then none
    else some (d.entry s).firstCluster

section Walk

variable {v : Volume} {d d' : Disk} {a h : Nat} {n : Name} {s : Slot} {path : Str}

theorem stepDown_file (hf : findEntry v d h n = some s) (hfile : (d.entry s).isDirectory = false) :
    stepDown v d h n = none := by
  rw [stepDown, hf, bind_some, if_pos (.inl hfile)]

theorem stepDown_resolved (hr : Resolved v d h) (hs : stepDown v d h n = some a) : Resolved v d a := by
  obtain ⟨s, hf, hif⟩ := bind_eq_some_iff.mp hs
  obtain ⟨hcond, ha⟩ := ite_none_left_eq_some.mp hif
  cases ha
  have hdir : (d.entry s).isDirectory = true := by
    cases hd : (d.entry s).isDirectory with
    | true => rfl
    | false => exact absurd (.inl hd) hcond
  exact hr.child (mem_of_findEntry hf).1 hdir (fun hz => hcond (.inr hz))

theorem walk_step (segment : Str) (segments : List Str) (h : Nat) : walk v d (segment :: segments) h =
    if 16 ≤ segment.length then some h
    else (makeShortName segment).bind fun n => (stepDown v d h n).bind (walk v d segments) := by
  rw [walk]
  refine if_congr Iff.rfl rfl ?_
  cases makeShortName segment with
  | none => rfl
  | some n =>
    rw [bind_some, bind_some, stepDown]
    cases findEntry v d h n with
    | none => rfl
    | some s =>
      rw [bind_some, bind_some]
      split
      · rfl
      · rfl

theorem walk_congr (hstep : ∀ a n, Resolved v d a → stepDown v d' a n = stepDown v d a n) (hr : Resolved v d h)
    (segments : List Str) : walk v d' segments h = walk v d segments h := by
  induction segments generalizing h with
  | nil => rfl
  | cons segment segments ih =>
    rw [walk_step, walk_step]
    refine if_congr Iff.rfl rfl ?_
    cases makeShortName segment with
    | none => rfl
    | some n =>
      rw [bind_some, bind_some, hstep h n hr]
      cases hs : stepDown v d h n with
      | none => rfl
      | some a => exact ih (stepDown_resolved hr hs)

theorem walkLeaf_congr (hstep : ∀ a n, Resolved v d a → stepDown v d' a n = stepDown v d a n) (path : Str) :
    walkLeaf v d' path = walkLeaf v d path := by
  rw [walkLeaf, walkLeaf]
  have hparent : walkParent v d' path = walkParent v d path := by
    rw [walkParent, walkParent]
    cases lastIndexOf slash path with
    | none => rfl
    | some i =>
      dsimp only
      rw [walk_congr hstep (.inl .root)]
  rw [hparent]

end Walk

/-! ## A file is changed -/

/-- The name `n` of the directory `h` leads to the file `s`, which was there before or is new, and nothing else has
changed. -/
structure FileEdit (v : Volume) (d d' : Disk) (h : Nat) (n : Name) (s : Slot) : Prop where
  reach : ∀ a, Reach v d' a ↔ Reach v d a
  find : ∀ a n', Resolved v d a → findEntry v d' a n' = if a = h ∧ n' = n then some s else findEntry v d a n'
  file : (d'.entry s).isDirectory = false
  before : ∀ t, findEntry v d h n = some t → (d.entry t).isDirectory = false
  entry : ∀ a n' t, Resolved v d a → ¬(a = h ∧ n' = n) → findEntry v d a n' = some t → d'.entry t = d.entry t
  bytes : ∀ a n' t, Resolved v d a → ¬(a = h ∧ n' = n) → findEntry v d a n' = some t →
    (d.entry t).isDirectory = false → fileBytes v d' t = fileBytes v d t

section FileEdit

variable {v : Volume} {d d₁ d' : Disk} {a h : Nat} {n n' : Name} {s t : Slot} {old new : List Nat} {path : Str}

theorem findEntry_one (v : Volume) (d : Disk) (n : Name) : findEntry v d 1 n = none := by
  have hkids : kids v d 1 = [] := by rw [kids, usedSlots, dirSlots_one, List.takeWhile_nil, List.filter_nil]
  rw [findEntry, hkids, List.find?_nil]

theorem FileEdit.of_found (hf : findEntry v d h n = some s) (hfile : (d.entry s).isDirectory = false) :
    FileEdit v d d h n s := by
  refine ⟨fun _ => Iff.rfl, ?_, hfile, ?_, fun _ _ _ _ _ _ => rfl, fun _ _ _ _ _ _ _ => rfl⟩
  · intro a n' _
    by_cases hc : a = h ∧ n' = n
    · rw [if_pos hc, hc.1, hc.2, hf]
    · rw [if_neg hc]
  · intro t ht
    obtain rfl := some.inj (hf.symm.trans ht)
    exact hfile

theorem Made.findEntry {attr : UInt8} (hm : Made v d d' h s n attr) (hv : v.Fits) (ho : Owned v d) (hr : Resolved v d a)
    (n' : Name) : findEntry v d' a n' = if a = h ∧ n' = n then some s else findEntry v d a n' := by
  obtain ⟨d₁, hgrown, hfills⟩ := hm.filled
  have ho₁ := Made.owned₁ hv ho hgrown
  have hname : (d'.entry s).name = n := by rw [hm.entry]
  rcases hr with hr | rfl
  · have hsame : Reach v d₁ a ∧ ∀ n', Fat.findEntry v d₁ a n' = Fat.findEntry v d a n' := by
      rcases hgrown with rfl | ⟨c, g⟩
      · exact ⟨hr, fun _ => rfl⟩
      · exact ⟨(g.reach_iff hv ho).mpr hr, (g.sameDir hv ho hr).findEntry⟩
    by_cases hah : a = h
    · subst hah
      rw [hfills.findEntry ho₁ (by rw [hname, hsame.2, hm.missing]), hname, hsame.2]
      exact if_congr (by simp) rfl rfl
    · have hnot : s ∉ dirSlots v d₁ a := fun hs => hah (ho₁.slot_unique hsame.1 hfills.reach hs hfills.slot)
      rw [(hfills.only.sameDir hnot).findEntry, hsame.2, if_neg (fun hc => hah hc.1)]
  · have hne : (1 : Nat) ≠ h := by
      rintro rfl
      have hs := hfills.slot
      rw [dirSlots_one] at hs
      cases hs
    rw [findEntry_one, findEntry_one, if_neg (fun hc => hne hc.1)]

theorem FileEdit.of_made (hm : Made v d d' h s n attrArchive) (hv : v.Fits) (ho : Owned v d) : FileEdit v d d' h n s := by
  have hframe := hm.frame hv ho
  have hother : ∀ a n' t, Resolved v d a → findEntry v d a n' = some t → Reach v d a ∧ t ∈ kids v d a ∧ t ≠ s := by
    intro a n' t hr hf
    obtain ⟨hk, -⟩ := mem_of_findEntry hf
    have hra := hr.of_kid hk
    exact ⟨hra, hk, fun he => hm.not_kid hv ho hra (he ▸ hk)⟩
  refine ⟨fun a => hm.reach_iff hv ho, fun a n' hr => hm.findEntry hv ho hr n', ?_, ?_, ?_, ?_⟩
  · rw [hm.entry]
    exact isDirectory_archive n
  · intro t ht
    rw [hm.missing] at ht
    cases ht
  · intro a n' t hr _ hf
    obtain ⟨hra, hk, hts⟩ := hother a n' t hr hf
    exact hframe.entry a t hra trivial hk hts
  · intro a n' t hr _ hf hfile
    obtain ⟨hra, hk, hts⟩ := hother a n' t hr hf
    exact hframe.bytes a t hra trivial hk hts hfile

theorem FileEdit.resolved (e : FileEdit v d d' h n s) : Resolved v d' a ↔ Resolved v d a := or_congr_left (e.reach a)

theorem FileEdit.rechains (e : FileEdit v d d₁ h n s) (ho : Owned v d₁) (g : Rechains v d₁ d' h s old new) :
    FileEdit v d d' h n s := by
  have hframe := g.file_frame ho e.file
  have hself : findEntry v d₁ h n = some s := by rw [e.find h n (.inl ((e.reach h).mp g.reach)), if_pos ⟨rfl, rfl⟩]
  have hother : ∀ a n' t, Resolved v d a → ¬(a = h ∧ n' = n) → Fat.findEntry v d a n' = some t →
      Reach v d₁ a ∧ t ∈ kids v d₁ a ∧ t ≠ s := by
    intro a n' t hr hne hf
    have hf₁ : Fat.findEntry v d₁ a n' = some t := by rw [e.find a n' hr, if_neg hne, hf]
    obtain ⟨hk, hname⟩ := mem_of_findEntry hf₁
    have hra := (e.resolved.mpr hr).of_kid hk
    refine ⟨hra, hk, ?_⟩
    rintro rfl
    exact hne ⟨g.kid_eq ho hra hk, hname.symm.trans (mem_of_findEntry hself).2⟩
  refine ⟨?_, ?_, ?_, e.before, ?_, ?_⟩
  · intro a
    rw [g.file_reach ho e.file, e.reach a]
  · intro a n' hr
    rw [← e.find a n' hr]
    rcases e.resolved.mpr hr with hra | rfl
    · exact (g.sameDir ho hra (fun hdir => by rw [e.file] at hdir; cases hdir)).findEntry n'
    · rw [findEntry_one, findEntry_one]
  · rw [Entry.isDirectory_congr g.attr]
    exact e.file
  · intro a n' t hr hne hf
    obtain ⟨hra, hk, hts⟩ := hother a n' t hr hne hf
    rw [hframe.entry a t hra trivial hk hts, e.entry a n' t hr hne hf]
  · intro a n' t hr hne hf hfile
    obtain ⟨hra, hk, hts⟩ := hother a n' t hr hne hf
    rw [hframe.bytes a t hra trivial hk hts (by rw [e.entry a n' t hr hne hf]; exact hfile), e.bytes a n' t hr hne hf hfile]

theorem FileEdit.of_target {m m₁ : Mem} (ht : Target v m m₁ h s n) (hv : v.Fits) (ho : Owned v (view v m))
    (hfile : ((view v m₁).entry s).isDirectory = false) : FileEdit v (view v m) (view v m₁) h n s := by
  cases ht with
  | found hm hfind =>
    subst hm
    exact .of_found hfind hfile
  | made hmade => exact .of_made hmade hv ho

theorem FileEdit.appended {data : List UInt8} {ok : Bool} {m m' : Mem} (e : FileEdit v d (view v m) h n s)
    (ho : Owned v (view v m)) (hrun : AppendRun v m m' h s data ok) : FileEdit v d (view v m') h n s := by
  cases hrun with
  | idle hm _ =>
    subst hm
    exact e
  | ran hstart _ _ g _ _ =>
    have ho₁ := hstart.owned ho e.file
    cases hstart with
    | kept hm _ _ =>
      subst hm
      exact e.rechains ho₁ g
    | fresh _ c _ g₀ _ _ _ => exact (e.rechains ho g₀).rechains ho₁ g

section

variable (e : FileEdit v d d' h n s)

include e

theorem FileEdit.stepDown_eq (hr : Resolved v d a) (n' : Name) : stepDown v d' a n' = stepDown v d a n' := by
  by_cases hc : a = h ∧ n' = n
  · have hnew : findEntry v d' a n' = some s := by rw [e.find a n' hr, if_pos hc]
    rw [stepDown_file hnew e.file, hc.1, hc.2]
    cases hf : findEntry v d h n with
    | none => rw [stepDown, hf, bind_none]
    | some t => rw [stepDown_file hf (e.before t hf)]
  · rw [stepDown, stepDown, e.find a n' hr, if_neg hc]
    cases hf : findEntry v d a n' with
    | none => rfl
    | some t => rw [bind_some, bind_some, e.entry a n' t hr hc hf]

theorem FileEdit.walkLeaf_eq (path : Str) : walkLeaf v d' path = walkLeaf v d path :=
  walkLeaf_congr (fun _ n' hr => e.stepDown_eq hr n') path

theorem FileEdit.entryAt_self (hpath : walkLeaf v d path = some (h, n)) : entryAt v d' path = some s := by
  rw [entryAt, e.walkLeaf_eq, hpath, bind_some, e.find h n (walkLeaf_spec hpath).1, if_pos ⟨rfl, rfl⟩]

theorem FileEdit.contentAt_other (hpath : walkLeaf v d path ≠ some (h, n)) :
    contentAt v d' path = contentAt v d path := by
  rw [contentAt, contentAt, entryAt, entryAt, e.walkLeaf_eq]
  cases hw : walkLeaf v d path with
  | none => simp only [bind_none, filter_none, map_none]
  | some leaf =>
    obtain ⟨a, n'⟩ := leaf
    have hne : ¬(a = h ∧ n' = n) := by
      rintro ⟨rfl, rfl⟩
      exact hpath hw
    have hr := (walkLeaf_spec hw).1
    rw [bind_some, bind_some, e.find a n' hr, if_neg hne]
    cases hf : findEntry v d a n' with
    | none => simp only [filter_none, map_none]
    | some t =>
      have hentry := e.entry a n' t hr hne hf
      rw [filter_some, filter_some, hentry]
      cases hdir : (d.entry t).isDirectory with
      | true => rw [Bool.not_true, if_neg Bool.false_ne_true, map_none, map_none]
      | false =>
        rw [Bool.not_false, if_pos rfl, map_some, map_some, content, content, e.bytes a n' t hr hne hf hdir,
          hentry]

end

end FileEdit

end ProOS.Fat
