import ProOS.Fat.EntryEffects

namespace ProOS.Fat

open ProOS.Framework

/-- The entry `s` of the directory `h` gives up the clusters `old` and gets the clusters `new`, which it
had or which were free. -/
structure Rechains (v : Volume) (d d' : Disk) (h : Nat) (s : Slot) (old new : List Nat) : Prop where
  reach : Reach v d h
  kid : s ∈ kids v d h
  had : old = chainOf v d (d.entry s).firstCluster
  name : (d'.entry s).name = (d.entry s).name
  attr : (d'.entry s).attr = (d.entry s).attr
  kept : ∀ x, x ∉ old → d.fat x ≠ 0 → d'.fat x = d.fat x
  taken : ∀ x, v.InRange x → d'.fat x ≠ 0 → x ∈ new ∨ x ∉ old ∧ d.fat x ≠ 0
  source : ∀ x ∈ new, x ∈ old ∨ d.fat x = 0
  chain : new = [] ∧ (d'.entry s).firstCluster < 2 ∨
    HasChain v d' (d'.entry s).firstCluster ∧ chainOf v d' (d'.entry s).firstCluster = new
  cell : ∀ r i, r ∉ old → (r = 0 ∨ d.fat r ≠ 0) → (r = s.1 → i < 32 * s.2 ∨ 32 * s.2 + 32 ≤ i) →
    d'.cell r i = d.cell r i

/-- A directory with nothing in it but its dots. -/
structure EmptyDir (v : Volume) (d : Disk) (h : Nat) : Prop where
  kids : kids v d h = []
  names : ∀ s ∈ lives v d h, ∀ t ∈ lives v d h, (d.entry s).name = (d.entry t).name → s = t
  ends : (dirSlots v d h).Pairwise (fun s t => (d.entry s).isEnd = true → (d.entry t).isEnd = true)

namespace Rechains

variable {v : Volume} {d d' : Disk} {a h h' r x : Nat} {s t : Slot} {o : Option Slot} {old new : List Nat}

theorem old_chain (g : Rechains v d d' h s old new) (hx : x ∈ old) :
    2 ≤ (d.entry s).firstCluster ∧ Owns v d (some s) (d.entry s).firstCluster := by
  have hge : 2 ≤ (d.entry s).firstCluster := by
    by_contra hlt
    rw [g.had, chainOf, if_pos (by omega)] at hx
    cases hx
  exact ⟨hge, .entry g.reach g.kid hge⟩

/-- The directory is not the one that changes its clusters. -/
def Other (d : Disk) (s : Slot) (h' : Nat) : Prop :=
  (d.entry s).isDirectory = true → 2 ≤ (d.entry s).firstCluster → h' ≠ (d.entry s).firstCluster

section

variable (g : Rechains v d d' h s old new)

include g

theorem area_kept (ho : Owned v d) (hr : Reach v d h') (hoth : Other d s h')
    (hm : r ∈ dirAreas v d h') : r ∉ old ∧ (r = 0 ∨ d.fat r ≠ 0) := by
  refine ⟨?_, ho.area_taken hr hm⟩
  intro hold
  obtain ⟨hge, hown⟩ := g.old_chain hold
  obtain ⟨he, hdir⟩ := ho.area_own hr hown hm (g.had ▸ hold)
  exact hoth hdir hge he

theorem dirAreas_eq (ho : Owned v d) (hr : Reach v d h') (hoth : Other d s h') :
    dirAreas v d' h' = dirAreas v d h' := by
  rcases ho.reach_chain hr with ⟨rfl, ht⟩ | hc
  · rw [dirAreas_zero ht, dirAreas_zero ht]
  · rw [dirAreas_chain hc.two_le, dirAreas_chain hc.two_le]
    refine (hc.congr ?_).2
    intro x hx
    have hm := g.area_kept ho hr hoth (by rwa [dirAreas_chain hc.two_le])
    exact g.kept x hm.1 (hc.fat_ne_zero hx)

theorem slots_eq (ho : Owned v d) (hr : Reach v d h') (hoth : Other d s h') : dirSlots v d' h' = dirSlots v d h' := by
  rw [dirSlots, dirSlots, g.dirAreas_eq ho hr hoth]

theorem entry_eq (ho : Owned v d) (hr : Reach v d h') (hoth : Other d s h')
    (ht : t ∈ dirSlots v d h') (hts : t ≠ s) : d'.entry t = d.entry t := by
  obtain ⟨hold, huse⟩ := g.area_kept ho hr hoth (mem_slotsIn.mp ht).1
  apply readEntry_congr
  intro i hi
  refine g.cell _ _ hold huse ?_
  intro hr
  have hidx : t.2 ≠ s.2 := fun he => hts (Prod.ext hr he)
  omega

theorem name_attr_eq (ho : Owned v d) (hr : Reach v d h') (hoth : Other d s h')
    (ht : t ∈ dirSlots v d h') : (d'.entry t).name = (d.entry t).name ∧ (d'.entry t).attr = (d.entry t).attr := by
  by_cases hts : t = s
  · rw [hts]
    exact ⟨g.name, g.attr⟩
  · rw [g.entry_eq ho hr hoth ht hts]
    exact ⟨rfl, rfl⟩

theorem sameDir (ho : Owned v d) (hr : Reach v d h') (hoth : Other d s h') : SameDir v d d' h' :=
  .of_slots (g.slots_eq ho hr hoth) (fun _ ht => (g.name_attr_eq ho hr hoth ht).1)
    (fun _ ht => (g.name_attr_eq ho hr hoth ht).2)

theorem ends_eq (ho : Owned v d) (hr : Reach v d h') (hoth : Other d s h') :
    (dirSlots v d' h').Pairwise (fun s t => (d'.entry s).isEnd = true → (d'.entry t).isEnd = true) :=
  ends_congr (g.slots_eq ho hr hoth) (fun _ ht => Entry.isEnd_congr (g.name_attr_eq ho hr hoth ht).1)
    (ho.ends h' hr)

theorem other_parent (ho : Owned v d) : Other d s h :=
  fun _ hge => (ho.ne_self g.reach g.kid hge).symm

theorem kid_eq (ho : Owned v d) (hr : Reach v d h') (ht : s ∈ kids v d h') :
    h' = h := ho.slot_unique hr g.reach (mem_kids_slot ht) (mem_kids_slot g.kid)

theorem reach_iff (ho : Owned v d)
    (hold : (d.entry s).isDirectory = true → 2 ≤ (d.entry s).firstCluster → kids v d (d.entry s).firstCluster = [])
    (hnew : (d.entry s).isDirectory = true → 2 ≤ (d'.entry s).firstCluster →
      kids v d' (d'.entry s).firstCluster = []) : Reach v d' a ↔ Reach v d a ∧ Other d s a ∨
      (d.entry s).isDirectory = true ∧ 2 ≤ (d'.entry s).firstCluster ∧ a = (d'.entry s).firstCluster := by
  have hdir : (d'.entry s).isDirectory = (d.entry s).isDirectory := Entry.isDirectory_congr g.attr
  have hroot : Other d s (rootDirectory v) := fun _ hge => (ho.ne_root (.entry g.reach g.kid hge)).symm
  -- two entries with one first cluster are one
  have hsame : ∀ {p t}, Reach v d p → t ∈ kids v d p → 2 ≤ (d.entry t).firstCluster →
      (d.entry t).firstCluster = (d.entry s).firstCluster → t = s := by
    intro p t hp ht hge he
    have hown := Owns.entry hp ht hge
    have hown' := Owns.entry g.reach g.kid (he ▸ hge)
    have hm := (ho.chains _ _ hown).head_mem
    exact Option.some.inj (ho.once _ _ _ _ _ hown hown' hm (by rw [← he]; exact hm))
  constructor
  · intro hr
    induction hr with
    | root => exact .inl ⟨.root, hroot⟩
    | @child p t _ hmem htd hge ih =>
      rcases ih with ⟨hp, hoth⟩ | ⟨hsd, hge', rfl⟩
      · rw [(g.sameDir ho hp hoth).kids] at hmem
        by_cases hts : t = s
        · rw [hts] at htd hge ⊢
          exact .inr ⟨hdir ▸ htd, hge, rfl⟩
        · rw [g.entry_eq ho hp hoth (mem_kids_slot hmem) hts] at htd hge ⊢
          exact .inl ⟨.child hp hmem htd hge, fun _ _ he => hts (hsame hp hmem hge he)⟩
      · rw [hnew hsd hge'] at hmem
        cases hmem
  · have hkept : ∀ {a}, Reach v d a → Other d s a → Reach v d' a := by
      intro a hr
      induction hr with
      | root => exact fun _ => .root
      | @child p t hp hmem htd hge ih =>
        intro hoth
        have hothp : Other d s p := by
          rintro hsd hge' rfl
          rw [hold hsd hge'] at hmem
          cases hmem
        have hts : t ≠ s := by
          rintro rfl
          exact hoth htd hge rfl
        have he := g.entry_eq ho hp hothp (mem_kids_slot hmem) hts
        rw [← (g.sameDir ho hp hothp).kids] at hmem
        rw [← he] at htd hge ⊢
        exact .child (ih hothp) hmem htd hge
    rintro (⟨hr, hoth⟩ | ⟨hsd, hge, rfl⟩)
    · exact hkept hr hoth
    · have hk : s ∈ kids v d' h := by
        rw [(g.sameDir ho g.reach (g.other_parent ho)).kids]
        exact g.kid
      exact .child (hkept g.reach (g.other_parent ho)) hk (hdir ▸ hsd) hge

end

section Owned

variable (g : Rechains v d d' h s old new) (ho : Owned v d)
  (hold : (d.entry s).isDirectory = true → 2 ≤ (d.entry s).firstCluster → kids v d (d.entry s).firstCluster = [])
  (hnew : (d.entry s).isDirectory = true → 2 ≤ (d'.entry s).firstCluster → EmptyDir v d' (d'.entry s).firstCluster)

include g ho hold hnew

theorem owns_iff : Owns v d' o a ↔ (o ≠ some s ∧ Owns v d o a) ∨
    (o = some s ∧ 2 ≤ (d'.entry s).firstCluster ∧ a = (d'.entry s).firstCluster) := by
  have hreach : ∀ {a}, _ := fun {a} => g.reach_iff (a := a) ho hold (fun hd hge => (hnew hd hge).kids)
  constructor
  · intro hown
    cases hown with
    | root ht => exact .inl ⟨by simp, .root ht⟩
    | @entry p t hr hs hge =>
      rcases hreach.mp hr with ⟨hp, hoth⟩ | ⟨hsd, hge', rfl⟩
      · rw [(g.sameDir ho hp hoth).kids] at hs
        by_cases hts : t = s
        · subst hts
          exact .inr ⟨rfl, hge, rfl⟩
        · rw [g.entry_eq ho hp hoth (mem_kids_slot hs) hts] at hge ⊢
          exact .inl ⟨fun he => hts (Option.some.inj he), .entry hp hs hge⟩
      · rw [(hnew hsd hge').kids] at hs
        cases hs
  · rintro (⟨hne, hown⟩ | ⟨rfl, hge, rfl⟩)
    · cases hown with
      | root ht => exact .root ht
      | @entry p t hr hs hge =>
        have hothp : Other d s p := by
          rintro hsd hge' rfl
          rw [hold hsd hge'] at hs
          cases hs
        have hts : t ≠ s := fun he => hne (he ▸ rfl)
        rw [← g.entry_eq ho hr hothp (mem_kids_slot hs) hts] at hge ⊢
        rw [← (g.sameDir ho hr hothp).kids] at hs
        exact .entry (hreach.mpr (.inl ⟨hr, hothp⟩)) hs hge
    · have hk : s ∈ kids v d' h := by
        rw [(g.sameDir ho g.reach (g.other_parent ho)).kids]
        exact g.kid
      exact .entry (hreach.mpr (.inl ⟨g.reach, g.other_parent ho⟩)) hk hge

omit hold hnew in
theorem chain_kept (hne : o ≠ some s) (hown : Owns v d o a) : HasChain v d' a ∧ chainOf v d' a = chainOf v d a := by
  have hc := ho.chains _ _ hown
  apply hc.congr
  intro x hx
  refine g.kept x ?_ (hc.fat_ne_zero hx)
  intro hm
  obtain ⟨-, hown'⟩ := g.old_chain hm
  exact hne (ho.once _ _ _ _ _ hown hown' hx (g.had ▸ hm))

omit ho hold hnew in
theorem chain_new (hge : 2 ≤ (d'.entry s).firstCluster) :
    HasChain v d' (d'.entry s).firstCluster ∧ chainOf v d' (d'.entry s).firstCluster = new := by
  rcases g.chain with ⟨-, hlt⟩ | hc
  · omega
  · exact hc

theorem owned : Owned v d' := by
  have howns : ∀ {o a}, _ := fun {o a} => g.owns_iff (o := o) (a := a) ho hold hnew
  refine ⟨?_, ?_, ?_⟩
  · intro o a hown
    rcases howns.mp hown with ⟨hne, hown⟩ | ⟨-, hge, rfl⟩
    · exact (g.chain_kept ho hne hown).1
    · exact (g.chain_new hge).1
  · -- a cluster of the new chain lay on the old one, or on none
    have hapart : ∀ {o a x}, o ≠ some s → Owns v d o a → x ∈ chainOf v d a → x ∉ new := by
      intro o a x hne hown hx hm
      rcases g.source x hm with hm | hz
      · obtain ⟨-, hown'⟩ := g.old_chain hm
        exact hne (ho.once _ _ _ _ _ hown hown' hx (g.had ▸ hm))
      · exact (ho.chains _ _ hown).fat_ne_zero hx hz
    intro o o' a a' x hown hown' hx hx'
    rcases howns.mp hown with ⟨hne, hown⟩ | ⟨rfl, hge, rfl⟩
    · rw [(g.chain_kept ho hne hown).2] at hx
      rcases howns.mp hown' with ⟨hne', hown'⟩ | ⟨rfl, hge, rfl⟩
      · rw [(g.chain_kept ho hne' hown').2] at hx'
        exact ho.once _ _ _ _ _ hown hown' hx hx'
      · rw [(g.chain_new hge).2] at hx'
        exact absurd hx' (hapart hne hown hx)
    · rw [(g.chain_new hge).2] at hx
      rcases howns.mp hown' with ⟨hne', hown'⟩ | ⟨rfl, -, -⟩
      · rw [(g.chain_kept ho hne' hown').2] at hx'
        exact absurd hx (hapart hne' hown' hx')
      · rfl
  · intro h' hr
    rcases (g.reach_iff ho hold (fun hd hge => (hnew hd hge).kids)).mp hr with ⟨hr, hoth⟩ | ⟨hd, hge, rfl⟩
    · exact g.ends_eq ho hr hoth
    · exact (hnew hd hge).ends

end Owned

theorem sound (g : Rechains v d d' h s old new) (hs : Sound v d)
    (hold : (d.entry s).isDirectory = true → 2 ≤ (d.entry s).firstCluster → kids v d (d.entry s).firstCluster = [])
    (hnew : (d.entry s).isDirectory = true → 2 ≤ (d'.entry s).firstCluster →
      EmptyDir v d' (d'.entry s).firstCluster) : Sound v d' := by
  have ho := hs.toOwned
  refine ⟨g.owned ho hold hnew, ?_, ?_⟩
  · intro x hx hne
    rcases g.taken x hx hne with hm | ⟨hnot, hfat⟩
    · rcases g.chain with ⟨rfl, -⟩ | ⟨hc, he⟩
      · cases hm
      · exact ⟨some s, _, (g.owns_iff ho hold hnew).mpr (.inr ⟨rfl, hc.two_le, rfl⟩), he.symm ▸ hm⟩
    · obtain ⟨o, a, hown, hm⟩ := hs.cover x hx hfat
      have hos : o ≠ some s := by
        rintro rfl
        cases hown with
        | entry _ _ _ => exact hnot (g.had ▸ hm)
      refine ⟨o, a, (g.owns_iff ho hold hnew).mpr (.inl ⟨hos, hown⟩), ?_⟩
      rwa [(g.chain_kept ho hos hown).2]
  · intro h' hr
    rcases (g.reach_iff ho hold (fun hd hge => (hnew hd hge).kids)).mp hr with ⟨hr, hoth⟩ | ⟨hd, hge, rfl⟩
    · exact (g.sameDir ho hr hoth).names (hs.names h' hr)
    · exact (hnew hd hge).names

end Rechains

end ProOS.Fat
