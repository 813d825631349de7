import ProOS.Fat.Effects

namespace ProOS.Fat

open ProOS.Framework List

/-! ## One slot changes -/

section OneSlot

variable {v : Volume} {d d' : Disk} {a c h h' : Nat} {s t : Slot} {o : Option Slot} {n : Name}

namespace SlotOnly

section

variable (hs : SlotOnly s d d')

include hs

theorem next : d'.next v = d.next v := by
  funext x
  rw [Disk.next, Disk.next, hs.fat]

theorem chainOf : Fat.chainOf v d' c = Fat.chainOf v d c := by
  rw [Fat.chainOf, Fat.chainOf, hs.next]

theorem hasChain : HasChain v d' c ↔ HasChain v d c :=
  ⟨fun h => ⟨hs.chainOf (v := v) ▸ hs.next (v := v) ▸ h.linked, hs.chainOf (v := v) ▸ h.range⟩,
    fun h => ⟨by rw [hs.chainOf, hs.next]; exact h.linked, by rw [hs.chainOf]; exact h.range⟩⟩

theorem dirSlots : Fat.dirSlots v d' h = Fat.dirSlots v d h := by
  rw [Fat.dirSlots, Fat.dirSlots, dirAreas, dirAreas, hs.chainOf]

theorem sameDir (hnot : s ∉ Fat.dirSlots v d h) : SameDir v d d' h := by
  have hentry : ∀ t ∈ Fat.dirSlots v d h, d'.entry t = d.entry t :=
    fun t ht => hs.entry (fun he => hnot (he ▸ ht))
  exact .of_slots hs.dirSlots (fun t ht => by rw [hentry t ht]) (fun t ht => by rw [hentry t ht])

end

end SlotOnly

/-- Without a chain before and after, the slot has no part in who owns what. -/
structure Unowned (v : Volume) (d d' : Disk) (h : Nat) (s : Slot) : Prop where
  reach : Reach v d h
  slot : s ∈ dirSlots v d h
  only : SlotOnly s d d'
  others : ∀ t, t ≠ s → (t ∈ kids v d' h ↔ t ∈ kids v d h)
  before : s ∈ kids v d h → (d.entry s).firstCluster < 2
  after : s ∈ kids v d' h → (d'.entry s).firstCluster < 2

namespace Unowned

section

variable (u : Unowned v d d' h s)

include u

theorem sameDir (ho : Owned v d) (hr : Reach v d h') (hne : h' ≠ h) : SameDir v d d' h' :=
  u.only.sameDir (fun hs => hne (ho.slot_unique hr u.reach hs u.slot))

theorem kid_iff (ho : Owned v d) (hr : Reach v d h') :
    (t ∈ kids v d' h' ∧ 2 ≤ (d'.entry t).firstCluster ↔ t ∈ kids v d h' ∧ 2 ≤ (d.entry t).firstCluster) ∧
      (t ∈ kids v d' h' → 2 ≤ (d'.entry t).firstCluster → d'.entry t = d.entry t) := by
  by_cases hts : t = s
  · subst hts
    by_cases hh : h' = h
    · subst hh
      refine ⟨⟨?_, ?_⟩, ?_⟩
      · rintro ⟨hk, hge⟩
        have := u.after hk
        omega
      · rintro ⟨hk, hge⟩
        have := u.before hk
        omega
      · intro hk hge
        have := u.after hk
        omega
    · have hsame := u.sameDir ho hr hh
      have hnot : t ∉ kids v d h' := fun hk => hh (ho.slot_unique hr u.reach (mem_kids_slot hk) u.slot)
      rw [hsame.kids]
      exact ⟨⟨fun hk => absurd hk.1 hnot, fun hk => absurd hk.1 hnot⟩, fun hk => absurd hk hnot⟩
  · have hentry := u.only.entry hts
    have hkid : t ∈ kids v d' h' ↔ t ∈ kids v d h' := by
      by_cases hh : h' = h
      · rw [hh]
        exact u.others t hts
      · rw [(u.sameDir ho hr hh).kids]
    rw [hentry, hkid]
    exact ⟨Iff.rfl, fun _ _ => rfl⟩

theorem reach_iff (ho : Owned v d) : Reach v d' a ↔ Reach v d a := by
  constructor
  · intro hr
    induction hr with
    | root => exact .root
    | @child p t _ hmem hdir hge ih =>
      obtain ⟨hiff, hsame⟩ := u.kid_iff (t := t) ho ih
      rw [hsame hmem hge] at hdir ⊢
      obtain ⟨hmem, hge⟩ := hiff.mp ⟨hmem, hge⟩
      exact .child ih hmem hdir hge
  · intro hr
    induction hr with
    | root => exact .root
    | @child p t hp hmem hdir hge ih =>
      obtain ⟨hiff, hsame⟩ := u.kid_iff (t := t) ho hp
      obtain ⟨hmem, hge⟩ := hiff.mpr ⟨hmem, hge⟩
      have he := hsame hmem hge
      rw [← he] at hdir ⊢
      exact .child ih hmem hdir hge

theorem owns_iff (ho : Owned v d) : Owns v d' o a ↔ Owns v d o a := by
  constructor
  · intro hown
    cases hown with
    | root ht => exact .root ht
    | @entry p t hr hs hge =>
      have hr' := (u.reach_iff ho).mp hr
      obtain ⟨hiff, hsame⟩ := u.kid_iff (t := t) ho hr'
      rw [hsame hs hge]
      obtain ⟨hs, hge⟩ := hiff.mp ⟨hs, hge⟩
      exact .entry hr' hs hge
  · intro hown
    cases hown with
    | root ht => exact .root ht
    | @entry p t hr hs hge =>
      obtain ⟨hiff, hsame⟩ := u.kid_iff (t := t) ho hr
      obtain ⟨hs, hge⟩ := hiff.mpr ⟨hs, hge⟩
      rw [← hsame hs hge]
      exact .entry ((u.reach_iff ho).mpr hr) hs hge

theorem owned (ho : Owned v d)
    (hends : (dirSlots v d' h).Pairwise (fun s t => (d'.entry s).isEnd = true → (d'.entry t).isEnd = true)) :
    Owned v d' := by
  refine ⟨?_, ?_, ?_⟩
  · intro o a hown
    exact u.only.hasChain.mpr (ho.chains o a ((u.owns_iff ho).mp hown))
  · intro o o' a a' x hown hown' hx hx'
    rw [u.only.chainOf] at hx hx'
    exact ho.once o o' a a' x ((u.owns_iff ho).mp hown) ((u.owns_iff ho).mp hown') hx hx'
  · intro h' hr'
    by_cases hh : h' = h
    · exact hh ▸ hends
    · have hr := (u.reach_iff ho).mp hr'
      have hnot : s ∉ dirSlots v d h' := fun hs => hh (ho.slot_unique hr u.reach hs u.slot)
      refine ends_congr u.only.dirSlots ?_ (ho.ends h' hr)
      intro t ht
      rw [u.only.entry (fun he => hnot (he ▸ ht))]

theorem sound (hs : Sound v d)
    (hends : (dirSlots v d' h).Pairwise (fun s t => (d'.entry s).isEnd = true → (d'.entry t).isEnd = true))
    (hnames : ∀ s ∈ lives v d' h, ∀ t ∈ lives v d' h, (d'.entry s).name = (d'.entry t).name → s = t) : Sound v d' := by
  have ho := hs.toOwned
  refine ⟨u.owned ho hends, ?_, ?_⟩
  · intro x hx hne
    rw [u.only.fat] at hne
    obtain ⟨o, a, hown, hm⟩ := hs.cover x hx hne
    exact ⟨o, a, (u.owns_iff ho).mpr hown, by rwa [u.only.chainOf]⟩
  · intro h' hr'
    by_cases hh : h' = h
    · exact hh ▸ hnames
    · have hr := (u.reach_iff ho).mp hr'
      exact (u.sameDir ho hr hh).names (hs.names h' hr)

end

end Unowned

/-! ## A slot is filled -/

/-- A freed slot, or the first one behind the entries. -/
def Room (v : Volume) (d : Disk) (h : Nat) (s : Slot) : Prop :=
  s ∈ usedSlots v d h ∧ (d.entry s).isFree = true ∨
    ∃ rest, dirSlots v d h = usedSlots v d h ++ s :: rest ∧ (d.entry s).isEnd = true

/-- The slot becomes an entry without clusters. -/
structure Fills (v : Volume) (d d' : Disk) (h : Nat) (s : Slot) : Prop where
  reach : Reach v d h
  only : SlotOnly s d d'
  room : Room v d h s
  kid : (d'.entry s).isKid = true
  bare : (d'.entry s).firstCluster < 2

theorem isFree_not_live {e : Entry} (h : e.isFree = true) : e.isLive = false := by
  simp [Entry.isLive, h]

theorem isEnd_not_live {e : Entry} (h : e.isEnd = true) : e.isLive = false := by
  simp [Entry.isLive, h]

theorem isFree_not_end {e : Entry} (h : e.isFree = true) : e.isEnd = false := by
  unfold Entry.isFree at h
  unfold Entry.isEnd
  rw [beq_iff_eq] at h
  rw [h]
  decide

theorem not_live_not_kid {e : Entry} (h : e.isLive = false) : e.isKid = false := by
  simp [Entry.isKid, h]

theorem not_mem_used (hend : (d.entry s).isEnd = true) : s ∉ usedSlots v d h := by
  intro hs
  have hne := mem_used_not_end hs
  rw [hend] at hne
  cases hne

namespace Fills

section

variable (f : Fills v d d' h s)

include f

theorem slot : s ∈ dirSlots v d h := by
  rcases f.room with ⟨hs, -⟩ | ⟨rest, hs, -⟩
  · exact (takeWhile_sublist _).subset hs
  · rw [hs]
    simp

theorem not_live : (d.entry s).isLive = false := by
  rcases f.room with ⟨-, hs⟩ | ⟨rest, -, hs⟩
  · exact isFree_not_live hs
  · exact isEnd_not_live hs

theorem not_end : (d'.entry s).isEnd = false := isLive_not_end (isKid_isLive f.kid)

theorem behind_end (ho : Owned v d) {rest : List Slot}
    (hs : dirSlots v d h = usedSlots v d h ++ s :: rest) (hend : (d.entry s).isEnd = true) :
    ∀ t ∈ rest, (d'.entry t).isEnd = true := by
  intro t ht
  have hpair := ho.ends h f.reach
  rw [hs, pairwise_append] at hpair
  have hts : t ≠ s := by
    rintro rfl
    have hnodup := slotsIn_nodup (v := v) (dirAreas_nodup ho f.reach)
    rw [← dirSlots, hs, nodup_append'] at hnodup
    exact (nodup_cons.mp hnodup.2.1).1 ht
  rw [f.only.entry hts]
  exact (pairwise_cons.mp hpair.2.1).1 t ht hend

theorem used (ho : Owned v d) : s ∈ usedSlots v d h ∧ usedSlots v d' h = usedSlots v d h ∨
    s ∉ usedSlots v d h ∧ usedSlots v d' h = usedSlots v d h ++ [s] := by
  rcases f.room with ⟨hs, hfree⟩ | ⟨rest, hs, hend⟩
  · refine .inl ⟨hs, ?_⟩
    rw [usedSlots, f.only.dirSlots]
    apply takeWhile_congr
    intro t _
    by_cases hts : t = s
    · rw [hts, f.not_end, isFree_not_end hfree]
    · rw [f.only.entry hts]
  · have hnot := not_mem_used (v := v) (h := h) hend
    have hkept : ∀ t ∈ usedSlots v d h, (!(d'.entry t).isEnd) = true := by
      intro t ht
      rw [f.only.entry (fun he => hnot (he ▸ ht)), mem_used_not_end ht]
      rfl
    have hrest : rest.takeWhile (fun t => !(d'.entry t).isEnd) = [] := by
      cases rest with
      | nil => rfl
      | cons t rest =>
        have := f.behind_end ho hs hend t (by simp)
        rw [takeWhile_cons, this]
        rfl
    refine .inr ⟨hnot, ?_⟩
    have hslots := f.only.dirSlots (v := v) (h := h)
    rw [usedSlots, hslots, hs, takeWhile_append_of_pos hkept, takeWhile_cons, f.not_end, hrest]
    rfl

theorem mem_used (ho : Owned v d) : t ∈ usedSlots v d' h ↔ t ∈ usedSlots v d h ∨ t = s := by
  rcases f.used ho with ⟨hs, hu⟩ | ⟨-, hu⟩
  · rw [hu]
    constructor
    · exact .inl
    · rintro (ht | rfl)
      · exact ht
      · exact hs
  · rw [hu, mem_append, mem_singleton]

theorem unowned (ho : Owned v d) : Unowned v d d' h s where
  reach := f.reach
  slot := f.slot
  only := f.only
  others t hts := by
    rw [kids, kids, mem_filter, mem_filter, f.mem_used ho, f.only.entry hts, or_iff_left hts]
  before hs := by
    have hk := mem_kids_isKid hs
    rw [not_live_not_kid f.not_live] at hk
    cases hk
  after _ := f.bare

theorem mem_kids (ho : Owned v d) : t ∈ kids v d' h ↔ t ∈ kids v d h ∨ t = s := by
  by_cases hts : t = s
  · subst hts
    refine ⟨fun _ => .inr rfl, fun _ => mem_filter.mpr ⟨(f.mem_used ho).mpr (.inr rfl), f.kid⟩⟩
  · rw [(f.unowned ho).others t hts, or_iff_left hts]

theorem ends (ho : Owned v d) :
    (dirSlots v d' h).Pairwise (fun s t => (d'.entry s).isEnd = true → (d'.entry t).isEnd = true) := by
  rcases f.room with ⟨-, hfree⟩ | ⟨rest, hs, hend⟩
  · refine ends_congr f.only.dirSlots ?_ (ho.ends h f.reach)
    intro t _
    by_cases hts : t = s
    · rw [hts, f.not_end, isFree_not_end hfree]
    · rw [f.only.entry hts]
  · have hpair := ho.ends h f.reach
    have hnot := not_mem_used (v := v) (h := h) hend
    have hlow : ∀ t ∈ usedSlots v d h, (d'.entry t).isEnd = false := by
      intro t ht
      rw [f.only.entry (fun he => hnot (he ▸ ht))]
      exact mem_used_not_end ht
    have hhigh := f.behind_end ho hs hend
    rw [f.only.dirSlots, hs, pairwise_append, pairwise_cons]
    refine ⟨?_, ⟨?_, ?_⟩, ?_⟩
    · refine pairwise_of_forall_mem_list (fun t ht _ _ he => ?_)
      rw [hlow t ht] at he
      cases he
    · intro t _ he
      rw [f.not_end] at he
      cases he
    · exact pairwise_of_forall_mem_list (fun _ _ t ht _ => hhigh t ht)
    · intro t ht _ _ he
      rw [hlow t ht] at he
      cases he

theorem owned (ho : Owned v d) : Owned v d' := (f.unowned ho).owned ho (f.ends ho)

theorem sound (hs : Sound v d) (hnew : ∀ t ∈ lives v d h, (d.entry t).name ≠ (d'.entry s).name) : Sound v d' := by
  have ho := hs.toOwned
  have hlive : ∀ {t}, t ∈ lives v d' h → t = s ∨ t ≠ s ∧ t ∈ lives v d h := by
    intro t ht
    by_cases hts : t = s
    · exact .inl hts
    · obtain ⟨hu, hl⟩ := mem_filter.mp ht
      rw [f.only.entry hts] at hl
      rcases (f.mem_used ho).mp hu with hu | hu
      · exact .inr ⟨hts, mem_filter.mpr ⟨hu, hl⟩⟩
      · exact absurd hu hts
  refine (f.unowned ho).sound hs (f.ends ho) ?_
  intro a ha b hb he
  rcases hlive ha with rfl | ⟨hna, ha⟩
  · rcases hlive hb with rfl | ⟨hnb, hb⟩
    · rfl
    · rw [f.only.entry hnb] at he
      exact absurd he.symm (hnew b hb)
  · rcases hlive hb with rfl | ⟨hnb, hb⟩
    · rw [f.only.entry hna] at he
      exact absurd he (hnew a ha)
    · rw [f.only.entry hna, f.only.entry hnb] at he
      exact hs.names h f.reach a ha b hb he

theorem findEntry (ho : Owned v d) (hnone : findEntry v d h (d'.entry s).name = none) :
    Fat.findEntry v d' h n = if n = (d'.entry s).name then some s else Fat.findEntry v d h n := by
  have hnot : ∀ t ∈ kids v d h, (d.entry t).name ≠ (d'.entry s).name := by
    intro t ht he
    have := find?_eq_none.mp hnone t ht
    simp [he] at this
  rw [findEntry_used, findEntry_used]
  by_cases hn : n = (d'.entry s).name
  · rw [if_pos hn]
    subst hn
    have hmem : s ∈ usedSlots v d' h := (f.mem_used ho).mpr (.inr rfl)
    have hall : ∀ t ∈ usedSlots v d' h, ((d'.entry t).isKid && (d'.entry t).name == (d'.entry s).name) = true →
        t = s := by
      intro t ht hp
      by_contra hts
      rw [f.only.entry hts, Bool.and_eq_true, beq_iff_eq] at hp
      have hk : t ∈ kids v d h := by
        rcases (f.mem_used ho).mp ht with hu | hu
        · exact mem_filter.mpr ⟨hu, hp.1⟩
        · exact absurd hu hts
      exact hnot t hk hp.2
    cases hf : (usedSlots v d' h).find? (fun t => (d'.entry t).isKid && (d'.entry t).name == (d'.entry s).name) with
    | none =>
      have := find?_eq_none.mp hf s hmem
      simp [f.kid] at this
    | some t =>
      have hp : ((d'.entry t).isKid && (d'.entry t).name == (d'.entry s).name) = true :=
        find?_some (p := fun t => (d'.entry t).isKid && (d'.entry t).name == (d'.entry s).name) hf
      rw [hall t (mem_of_find?_eq_some hf) hp]
  · have hother : (usedSlots v d h).find? (fun t => (d'.entry t).isKid && (d'.entry t).name == n) =
        (usedSlots v d h).find? (fun t => (d.entry t).isKid && (d.entry t).name == n) := by
      apply find?_congr
      intro t _
      by_cases hts : t = s
      · subst hts
        have hne : ((d'.entry t).name == n) = false := by simpa using Ne.symm hn
        rw [hne, not_live_not_kid f.not_live, Bool.and_false, Bool.false_and]
      · rw [f.only.entry hts]
    rw [if_neg hn]
    rcases f.used ho with ⟨-, hu⟩ | ⟨-, hu⟩
    · rw [hu]
      exact hother
    · rw [hu, find?_append, hother]
      have hs : [s].find? (fun t => (d'.entry t).isKid && (d'.entry t).name == n) = none := by
        simp [Ne.symm hn]
      rw [hs, Option.or_none]

end

end Fills

/-! ## An entry is freed -/

/-- An entry without clusters is marked as free. -/
structure Frees (v : Volume) (d d' : Disk) (h : Nat) (s : Slot) : Prop where
  reach : Reach v d h
  kid : s ∈ kids v d h
  bare : (d.entry s).firstCluster < 2
  only : SlotOnly s d d'
  freed : (d'.entry s).isFree = true

namespace Frees

section

variable (f : Frees v d d' h s)

include f

theorem used : usedSlots v d' h = usedSlots v d h := by
  rw [usedSlots, usedSlots, f.only.dirSlots]
  apply takeWhile_congr
  intro t _
  by_cases hts : t = s
  · rw [hts, isFree_not_end f.freed, isLive_not_end (isKid_isLive (mem_kids_isKid f.kid))]
  · rw [f.only.entry hts]

theorem kids_eq : kids v d' h = (kids v d h).filter (fun t => t ≠ s) := by
  rw [kids, kids, f.used, List.filter_filter]
  apply filter_congr
  intro t _
  by_cases hts : t = s
  · rw [hts, not_live_not_kid (isFree_not_live f.freed)]
    simp
  · rw [f.only.entry hts]
    simp [hts]

theorem unowned : Unowned v d d' h s where
  reach := f.reach
  slot := mem_kids_slot f.kid
  only := f.only
  others t hts := by
    rw [f.kids_eq, mem_filter]
    simp [hts]
  before _ := f.bare
  after hs := by
    rw [f.kids_eq, mem_filter] at hs
    simp at hs

theorem ends (ho : Owned v d) :
    (dirSlots v d' h).Pairwise (fun s t => (d'.entry s).isEnd = true → (d'.entry t).isEnd = true) := by
  refine ends_congr f.only.dirSlots ?_ (ho.ends h f.reach)
  intro t _
  by_cases hts : t = s
  · rw [hts, isFree_not_end f.freed, isLive_not_end (isKid_isLive (mem_kids_isKid f.kid))]
  · rw [f.only.entry hts]

theorem sound (hs : Sound v d) : Sound v d' := by
  have hlive : ∀ {t}, t ∈ lives v d' h → t ≠ s ∧ t ∈ lives v d h := by
    intro t ht
    obtain ⟨hu, hl⟩ := mem_filter.mp ht
    by_cases hts : t = s
    · rw [hts, isFree_not_live f.freed] at hl
      cases hl
    · rw [f.used] at hu
      rw [f.only.entry hts] at hl
      exact ⟨hts, mem_filter.mpr ⟨hu, hl⟩⟩
  refine f.unowned.sound hs (f.ends hs.toOwned) ?_
  intro a ha b hb he
  obtain ⟨hna, ha⟩ := hlive ha
  obtain ⟨hnb, hb⟩ := hlive hb
  rw [f.only.entry hna, f.only.entry hnb] at he
  exact hs.names h f.reach a ha b hb he

end

end Frees

end OneSlot

end ProOS.Fat
