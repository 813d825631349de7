import ProOS.Fat.Ownership

namespace ProOS.Fat

open ProOS.Framework Function List

/-! ## Directories that stay as they are -/

section Same

variable {v : Volume} {d d' : Disk} {h : Nat} {s t : Slot} {n : Name}

theorem Entry.isEnd_congr {e e' : Entry} (hn : e'.name = e.name) : e'.isEnd = e.isEnd := by
  rw [Entry.isEnd, Entry.isEnd, hn]

theorem Entry.isLive_congr {e e' : Entry} (hn : e'.name = e.name) (ha : e'.attr = e.attr) : e'.isLive = e.isLive := by
  simp only [Entry.isLive, Entry.isEnd, Entry.isFree, Entry.isVolume, hn, ha]

theorem Entry.isKid_congr {e e' : Entry} (hn : e'.name = e.name) (ha : e'.attr = e.attr) : e'.isKid = e.isKid := by
  rw [Entry.isKid, Entry.isKid, Entry.isLive_congr hn ha, hn]

theorem Entry.isDirectory_congr {e e' : Entry} (ha : e'.attr = e.attr) : e'.isDirectory = e.isDirectory := by
  rw [Entry.isDirectory, Entry.isDirectory, ha]

theorem takeWhile_congr {α : Type} {p q : α → Bool} {l : List α} (hl : ∀ a ∈ l, p a = q a) :
    l.takeWhile p = l.takeWhile q := by
  induction l with
  | nil => rfl
  | cons a l ih =>
    rw [takeWhile_cons, takeWhile_cons, hl a (by simp), ih (fun b hb => hl b (mem_cons_of_mem a hb))]

/-- The directory shows the same entries under the same names. -/
structure SameDir (v : Volume) (d d' : Disk) (h : Nat) : Prop where
  used : usedSlots v d' h = usedSlots v d h
  name : ∀ t ∈ usedSlots v d h, (d'.entry t).name = (d.entry t).name
  attr : ∀ t ∈ usedSlots v d h, (d'.entry t).attr = (d.entry t).attr

theorem SameDir.of_slots (hs : dirSlots v d' h = dirSlots v d h)
    (hn : ∀ t ∈ dirSlots v d h, (d'.entry t).name = (d.entry t).name)
    (ha : ∀ t ∈ dirSlots v d h, (d'.entry t).attr = (d.entry t).attr) : SameDir v d d' h := by
  have hused : ∀ {t}, t ∈ usedSlots v d h → t ∈ dirSlots v d h := fun ht => (takeWhile_sublist _).subset ht
  refine ⟨?_, fun t ht => hn t (hused ht), fun t ht => ha t (hused ht)⟩
  rw [usedSlots, usedSlots, hs]
  apply takeWhile_congr
  intro t ht
  rw [Entry.isEnd_congr (hn t ht)]

theorem SameDir.kids (hd : SameDir v d d' h) : kids v d' h = kids v d h := by
  rw [Fat.kids, Fat.kids, hd.used]
  apply filter_congr
  intro t ht
  rw [Entry.isKid_congr (hd.name t ht) (hd.attr t ht)]

theorem SameDir.lives (hd : SameDir v d d' h) : lives v d' h = lives v d h := by
  rw [Fat.lives, Fat.lives, hd.used]
  apply filter_congr
  intro t ht
  rw [Entry.isLive_congr (hd.name t ht) (hd.attr t ht)]

theorem mem_used_not_end (hs : s ∈ usedSlots v d h) : (d.entry s).isEnd = false := by
  have hp : (!(d.entry s).isEnd) = true := mem_takeWhile_imp (p := fun s => !(d.entry s).isEnd) hs
  simpa using hp

theorem findEntry_used : findEntry v d h n =
    (usedSlots v d h).find? (fun t => (d.entry t).isKid && (d.entry t).name == n) := by
  rw [findEntry, kids, find?_filter]
  apply find?_congr
  intro t _
  rw [Bool.eq_iff_iff, decide_eq_true_iff, Bool.and_eq_true]

theorem mem_kids_used (hs : s ∈ kids v d h) : s ∈ usedSlots v d h := (mem_filter.mp hs).1

theorem SameDir.findEntry (hd : SameDir v d d' h) (n : Name) : findEntry v d' h n = findEntry v d h n := by
  rw [Fat.findEntry, Fat.findEntry, hd.kids]
  apply find?_congr
  intro t ht
  rw [hd.name t (mem_kids_used ht)]

theorem SameDir.names (hd : SameDir v d d' h)
    (hn : ∀ s ∈ Fat.lives v d h, ∀ t ∈ Fat.lives v d h, (d.entry s).name = (d.entry t).name → s = t) :
    ∀ s ∈ Fat.lives v d' h, ∀ t ∈ Fat.lives v d' h, (d'.entry s).name = (d'.entry t).name → s = t := by
  intro s hs t ht he
  rw [hd.lives] at hs ht
  rw [hd.name s (mem_filter.mp hs).1, hd.name t (mem_filter.mp ht).1] at he
  exact hn s hs t ht he

theorem ends_congr (hs : dirSlots v d' h = dirSlots v d h)
    (hn : ∀ t ∈ dirSlots v d h, (d'.entry t).isEnd = (d.entry t).isEnd)
    (he : (dirSlots v d h).Pairwise (fun s t => (d.entry s).isEnd = true → (d.entry t).isEnd = true)) :
    (dirSlots v d' h).Pairwise (fun s t => (d'.entry s).isEnd = true → (d'.entry t).isEnd = true) := by
  rw [hs]
  apply he.imp_of_mem
  intro s t hs ht hst
  rwa [hn s hs, hn t ht]

theorem reach_congr (hk : ∀ h, Reach v d h → kids v d' h = kids v d h)
    (hs : ∀ h, Reach v d h → ∀ s ∈ kids v d h, (d.entry s).isDirectory = true ∨ (d'.entry s).isDirectory = true →
      (d'.entry s).isDirectory = (d.entry s).isDirectory ∧ (d'.entry s).firstCluster = (d.entry s).firstCluster) :
    Reach v d' h ↔ Reach v d h := by
  constructor
  · intro hr
    induction hr with
    | root => exact .root
    | @child p s _ hmem hdir hge ih =>
      rw [hk p ih] at hmem
      obtain ⟨hd, hf⟩ := hs p ih s hmem (.inr hdir)
      rw [hd] at hdir
      rw [hf] at hge ⊢
      exact .child ih hmem hdir hge
  · intro hr
    induction hr with
    | root => exact .root
    | @child p s hp hmem hdir hge ih =>
      obtain ⟨hd, hf⟩ := hs p hp s hmem (.inl hdir)
      rw [← hd] at hdir
      rw [← hf] at hge ⊢
      rw [← hk p hp] at hmem
      exact .child ih hmem hdir hge

end Same

/-! ## A directory grows by a cluster -/

/-- The free cluster `c`, all zeros, becomes the last one of the directory `h`. -/
structure GrowsDir (v : Volume) (d d' : Disk) (h c : Nat) : Prop where
  reach : Reach v d h
  chain : HasChain v d h
  range : v.InRange c
  free : d.fat c = 0
  link : ∃ init last, chainOf v d h = init ++ [last] ∧
    d'.fat = update (update d.fat last c) c (eocMarker v)
  cell : ∀ r, r ≠ c → d'.cell r = d.cell r
  zero : ∀ i, d'.cell c i = 0

theorem isEoc_eocMarker (v : Volume) : isEoc v (eocMarker v) = true := by
  unfold isEoc eocMarker
  cases v.fatType <;> decide

theorem Volume.Fits.not_eoc {v : Volume} {c : Nat} (h : v.Fits) (hc : v.InRange c) : isEoc v c = false := by
  have hlt := hc.2
  unfold isEoc
  cases ht : v.fatType with
  | fat16 =>
    have := h.fat16 ht
    simp only [decide_eq_false_iff_not]
    omega
  | fat32 =>
    have := (h.fat32 ht).1
    simp only [decide_eq_false_iff_not]
    omega

section GrowsDir

variable {v : Volume} {d d' : Disk} {a c h h' x : Nat} {s t : Slot} {o : Option Slot}

namespace GrowsDir

theorem last_mem (g : GrowsDir v d d' h c) (hx : d'.fat x ≠ d.fat x) : x = c ∨ x ∈ chainOf v d h := by
  obtain ⟨init, last, hl, hf⟩ := g.link
  by_cases hc : x = c
  · exact .inl hc
  · right
    by_cases hlast : x = last
    · simp [hl, hlast]
    · rw [hf, update_of_ne hc, update_of_ne hlast] at hx
      exact absurd rfl hx

theorem grown (hv : v.Fits) (g : GrowsDir v d d' h c) : HasChain v d' h ∧ chainOf v d' h = chainOf v d h ++ [c] := by
  obtain ⟨init, last, hl, hf⟩ := g.link
  have hnodup := hl ▸ g.chain.nodup
  have hlast : last ∉ init := (nodup_append'.mp hnodup).2.2.symm (by simp)
  have hc : c ∉ chainOf v d h := fun hm => g.chain.fat_ne_zero hm g.free
  have hlc : last ≠ c := fun he => hc (by simp [hl, he])
  have hlink : Linked (d'.next v) (some h) (init ++ [last] ++ [c]) := by
    apply (hl ▸ g.chain.linked).snoc
    · rw [Disk.next, hf, update_of_ne hlc, update_self, hv.not_eoc g.range]
      rfl
    · rw [Disk.next, hf, update_self, isEoc_eocMarker]
      rfl
    · intro z hz
      have hzc : z ≠ c := fun he => hc (by simp [hl, ← he, hz])
      have hzl : z ≠ last := fun he => hlast (he ▸ hz)
      rw [Disk.next, Disk.next, hf, update_of_ne hzc, update_of_ne hzl]
  have hrange : ∀ x ∈ init ++ [last] ++ [c], v.InRange x := by
    intro x hx
    rcases mem_append.mp hx with hx | hx
    · exact g.chain.range x (hl ▸ hx)
    · exact mem_singleton.mp hx ▸ g.range
  rw [hl]
  exact ⟨.of_linked hlink hrange, chainOf_linked hlink hrange⟩

theorem apart (g : GrowsDir v d d' h c) (ha : HasChain v d a) (hd : ∀ x ∈ chainOf v d a, x ∉ chainOf v d h) :
    HasChain v d' a ∧ chainOf v d' a = chainOf v d a := by
  apply ha.congr
  intro x hx
  by_contra hne
  rcases g.last_mem hne with rfl | hm
  · exact ha.fat_ne_zero hx g.free
  · exact hd x hx hm

theorem entry (g : GrowsDir v d d' h c) (ht : t.1 ≠ c) : d'.entry t = d.entry t := by
  rw [Disk.entry, Disk.entry, g.cell _ ht]

theorem entry_new (g : GrowsDir v d d' h c) (ht : t.1 = c) : (d'.entry t).isEnd = true := by
  have hcell : (fun i => d'.cell t.1 (32 * t.2 + i)) 0 = 0 := by rw [ht]; exact g.zero _
  simpa [Entry.isEnd, Disk.entry, readEntry, entryEnd, cells] using hcell

theorem not_area (g : GrowsDir v d d' h c) (ho : Owned v d) (hr : Reach v d h') : c ∉ dirAreas v d h' := by
  intro hm
  rcases ho.reach_chain hr with ⟨rfl, ht⟩ | hc
  · rw [dirAreas_zero ht, mem_singleton] at hm
    have := g.range.1
    omega
  · rw [dirAreas_chain hc.two_le] at hm
    exact hc.fat_ne_zero hm g.free

section

variable (hv : v.Fits)

include hv

theorem chain_of_owner (g : GrowsDir v d d' h c) (ho : Owned v d) (hown : Owns v d o a) :
    HasChain v d' a ∧ chainOf v d' a = chainOf v d a ++ if a = h then [c] else [] := by
  split_ifs with ha
  · rw [ha]
    exact g.grown hv
  · rw [append_nil]
    refine g.apart (ho.chains _ _ hown) ?_
    intro x hx hxh
    rcases g.reach.owner with ⟨h0, -⟩ | ⟨o', hown', -⟩
    · have := g.chain.two_le
      omega
    · obtain rfl := ho.once _ _ _ _ _ hown hown' hx hxh
      exact ha (hown.unique hown')

theorem slots (g : GrowsDir v d d' h c) (ho : Owned v d) (hr : Reach v d h') :
    dirSlots v d' h' = dirSlots v d h' ++ if h' = h then slotsIn v [c] else [] := by
  rcases hr.owner with ⟨rfl, ht⟩ | ⟨o, hown, -⟩
  · have hne : (0 : Nat) ≠ h := by
      have := g.chain.two_le
      omega
    rw [if_neg hne, append_nil, dirSlots, dirSlots, dirAreas_zero ht, dirAreas_zero ht]
  · obtain ⟨hc, hchain⟩ := g.chain_of_owner hv ho hown
    rw [dirSlots, dirSlots, dirAreas_chain hc.two_le, dirAreas_chain hc.two_le, hchain, slotsIn_append]
    split
    · rfl
    · rfl

theorem sameDir (g : GrowsDir v d d' h c) (ho : Owned v d) (hr : Reach v d h') : SameDir v d d' h' := by
  have hnot := g.not_area ho hr
  have hentry : ∀ t ∈ dirSlots v d h', d'.entry t = d.entry t := by
    intro t ht
    apply g.entry
    rintro rfl
    exact hnot (mem_slotsIn.mp ht).1
  have hused : ∀ t ∈ usedSlots v d h', d'.entry t = d.entry t :=
    fun t ht => hentry t ((takeWhile_sublist _).subset ht)
  refine ⟨?_, fun t ht => by rw [hused t ht], fun t ht => by rw [hused t ht]⟩
  have hnew : (if h' = h then slotsIn v [c] else []).takeWhile (fun s => !(d'.entry s).isEnd) = [] := by
    split
    · cases hl : slotsIn v [c] with
      | nil => rfl
      | cons t l =>
        have ht : t ∈ slotsIn v [c] := by simp [hl]
        have hend := g.entry_new (mem_singleton.mp (mem_slotsIn.mp ht).1)
        rw [takeWhile_cons, hend]
        rfl
    · rfl
  have hold : (dirSlots v d h').takeWhile (fun s => !(d'.entry s).isEnd) = usedSlots v d h' :=
    takeWhile_congr (fun t ht => by rw [hentry t ht])
  rw [usedSlots, g.slots hv ho hr, takeWhile_append, hold, hnew, append_nil]
  split
  · rename_i hlen
    rw [usedSlots] at hlen ⊢
    exact ((takeWhile_sublist _).eq_of_length hlen).symm
  · rfl

theorem reach_iff (g : GrowsDir v d d' h c) (ho : Owned v d) : Reach v d' a ↔ Reach v d a := by
  apply reach_congr (fun h' hr => (g.sameDir hv ho hr).kids)
  intro h' hr s hs _
  have hentry : d'.entry s = d.entry s := by
    apply g.entry
    intro he
    exact g.not_area ho hr (he ▸ (mem_slotsIn.mp (mem_kids_slot hs)).1)
  rw [hentry]
  exact ⟨rfl, rfl⟩

theorem owns_iff (g : GrowsDir v d d' h c) (ho : Owned v d) : Owns v d' o a ↔ Owns v d o a := by
  have hentry : ∀ {h' s}, Reach v d h' → s ∈ kids v d h' → d'.entry s = d.entry s := by
    intro h' s hr hs
    apply g.entry
    intro he
    exact g.not_area ho hr (he ▸ (mem_slotsIn.mp (mem_kids_slot hs)).1)
  constructor
  · intro hown
    cases hown with
    | root ht => exact .root ht
    | @entry p s hr hs hge =>
      have hr' := (g.reach_iff hv ho).mp hr
      rw [(g.sameDir hv ho hr').kids] at hs
      rw [hentry hr' hs] at hge ⊢
      exact .entry hr' hs hge
  · intro hown
    cases hown with
    | root ht => exact .root ht
    | @entry p s hr hs hge =>
      rw [← hentry hr hs] at hge ⊢
      rw [← (g.sameDir hv ho hr).kids] at hs
      exact .entry ((g.reach_iff hv ho).mpr hr) hs hge

theorem owned (g : GrowsDir v d d' h c) (ho : Owned v d) : Owned v d' := by
  refine ⟨?_, ?_, ?_⟩
  · intro o a hown
    exact (g.chain_of_owner hv ho ((g.owns_iff hv ho).mp hown)).1
  · intro o o' a a' x hown hown' hx hx'
    have hold := (g.owns_iff hv ho).mp hown
    have hold' := (g.owns_iff hv ho).mp hown'
    have hsplit : ∀ {o a}, Owns v d o a → x ∈ chainOf v d' a → x ∈ chainOf v d a ∨ (x = c ∧ a = h) := by
      intro o a hown hx
      rw [(g.chain_of_owner hv ho hown).2, mem_append] at hx
      rcases hx with hx | hx
      · exact .inl hx
      · split_ifs at hx with ha
        · rw [mem_singleton] at hx
          exact .inr ⟨hx, ha⟩
        · cases hx
    -- the new cluster lies on no chain of before
    have hfree : ∀ {o a}, Owns v d o a → c ∉ chainOf v d a := fun hown hm =>
      (ho.chains _ _ hown).fat_ne_zero hm g.free
    rcases hsplit hold hx with hx₁ | ⟨rfl, rfl⟩
    · rcases hsplit hold' hx' with hx₂ | ⟨rfl, -⟩
      · exact ho.once _ _ _ _ _ hold hold' hx₁ hx₂
      · exact absurd hx₁ (hfree hold)
    · rcases hsplit hold' hx' with hx₂ | ⟨-, rfl⟩
      · exact absurd hx₂ (hfree hold')
      · exact ho.once _ _ _ _ _ hold hold' g.chain.head_mem g.chain.head_mem
  · intro h' hr'
    have hr := (g.reach_iff hv ho).mp hr'
    have hnot := g.not_area ho hr
    have hentry : ∀ t ∈ dirSlots v d h', d'.entry t = d.entry t := by
      intro t ht
      apply g.entry
      rintro rfl
      exact hnot (mem_slotsIn.mp ht).1
    have hnew : ∀ t ∈ (if h' = h then slotsIn v [c] else []), (d'.entry t).isEnd = true := by
      intro t ht
      split at ht
      · exact g.entry_new (mem_singleton.mp (mem_slotsIn.mp ht).1)
      · cases ht
    rw [g.slots hv ho hr, pairwise_append]
    refine ⟨?_, ?_, ?_⟩
    · apply (ho.ends h' hr).imp_of_mem
      intro s t hs ht hst
      rwa [hentry s hs, hentry t ht]
    · exact pairwise_of_forall_mem_list (fun s _ t ht _ => hnew t ht)
    · exact fun s _ t ht _ => hnew t ht

theorem sound (g : GrowsDir v d d' h c) (hs : Sound v d) : Sound v d' := by
  have ho := hs.toOwned
  refine ⟨g.owned hv ho, ?_, ?_⟩
  · intro x hx hne
    have hkeep : (∃ o a, Owns v d o a ∧ x ∈ chainOf v d a) → ∃ o a, Owns v d' o a ∧ x ∈ chainOf v d' a := by
      rintro ⟨o, a, hown, hm⟩
      refine ⟨o, a, (g.owns_iff hv ho).mpr hown, ?_⟩
      rw [(g.chain_of_owner hv ho hown).2]
      exact mem_append_left _ hm
    have howner : ∃ o, Owns v d o h := by
      rcases g.reach.owner with ⟨h0, -⟩ | ⟨o, hown, -⟩
      · have := g.chain.two_le
        omega
      · exact ⟨o, hown⟩
    obtain ⟨o, hown⟩ := howner
    by_cases hold : d.fat x = 0
    · rcases g.last_mem (x := x) (by rw [hold]; exact hne) with rfl | hm
      · refine ⟨o, h, (g.owns_iff hv ho).mpr hown, ?_⟩
        rw [(g.grown hv).2]
        simp
      · exact absurd hold (g.chain.fat_ne_zero hm)
    · exact hkeep (hs.cover x hx hold)
  · intro h' hr'
    have hr := (g.reach_iff hv ho).mp hr'
    exact (g.sameDir hv ho hr).names (hs.names h' hr)

end

end GrowsDir

end GrowsDir

end ProOS.Fat
