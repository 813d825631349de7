import ProOS.Fat.Disk
import ProOS.Framework.ListWalk

namespace ProOS.Fat

open ProOS.Framework List

/-! ## Chains -/

/-- The link of a cluster, if it is not the last one of its chain. -/
def Disk.next (v : Volume) (d : Disk) (c : Nat) : Option Nat :=
  if isEoc v (d.fat c) then none else some (d.fat c)

/-- The clusters of the chain that starts at `c`, if it comes to an end. -/
def chainOf (v : Volume) (d : Disk) (c : Nat) : List Nat :=
  if c < 2 then [] else (chain (d.next v) v.totalClusters (some c)).getD []

/-- The links from `c` on stay among the clusters and come to an end. -/
structure HasChain (v : Volume) (d : Disk) (c : Nat) : Prop where
  linked : Linked (d.next v) (some c) (chainOf v d c)
  range : ∀ x ∈ chainOf v d c, v.InRange x

section Chains

variable {v : Volume} {d d' : Disk} {c x y : Nat} {l : List Nat}

theorem length_le_of_range (hl : l.Nodup) (hr : ∀ x ∈ l, v.InRange x) : l.length ≤ v.totalClusters := by
  have hsub : l.toFinset ⊆ Finset.Ico 2 (v.totalClusters + 2) := by
    intro x hx
    have := hr x (List.mem_toFinset.mp hx)
    exact Finset.mem_Ico.mpr this
  have hcard := Finset.card_le_card hsub
  rwa [toFinset_card_of_nodup hl, Nat.card_Ico, Nat.add_sub_cancel] at hcard

theorem chainOf_linked (hl : Linked (d.next v) (some c) l) (hr : ∀ x ∈ l, v.InRange x) : chainOf v d c = l := by
  have hc : v.InRange c := by
    cases l with
    | nil => cases hl
    | cons y l =>
      cases hl.1
      exact hr c (by simp)
  rw [chainOf, if_neg (not_lt.mpr hc.1), chain_of_linked hl (length_le_of_range hl.nodup hr), Option.getD_some]

theorem HasChain.of_linked (hl : Linked (d.next v) (some c) l) (hr : ∀ x ∈ l, v.InRange x) : HasChain v d c := by
  have he := chainOf_linked hl hr
  exact ⟨by rwa [he], by rwa [he]⟩

namespace HasChain

section

variable (h : HasChain v d c)

include h

theorem nodup : (chainOf v d c).Nodup := h.linked.nodup

theorem split : ∃ l, chainOf v d c = c :: l ∧ Linked (d.next v) (d.next v c) l := by
  have hl := h.linked
  cases hc : chainOf v d c with
  | nil =>
    rw [hc] at hl
    cases hl
  | cons y l =>
    rw [hc] at hl
    cases hl.1
    exact ⟨l, rfl, hl.2⟩

theorem head_mem : c ∈ chainOf v d c := by
  obtain ⟨l, hl, -⟩ := h.split
  rw [hl]
  exact mem_cons_self

theorem two_le : 2 ≤ c := (h.range c h.head_mem).1

theorem ne_nil : chainOf v d c ≠ [] := ne_nil_of_mem h.head_mem

theorem fat_ne_zero (hx : x ∈ chainOf v d c) : d.fat x ≠ 0 := by
  have heoc : isEoc v 0 = false := not_eoc_zero
  intro hz
  rcases h.linked.next_mem hx with hn | ⟨y, hy, hn⟩
  · rw [Disk.next, hz, heoc] at hn
    cases hn
  · rw [Disk.next, hz, heoc] at hn
    obtain rfl : 0 = y := by simpa using hn
    have := (h.range 0 hy).1
    omega

theorem congr (hf : ∀ x ∈ chainOf v d c, d'.fat x = d.fat x) : HasChain v d' c ∧ chainOf v d' c = chainOf v d c := by
  have hl : Linked (d'.next v) (some c) (chainOf v d c) :=
    h.linked.congr (fun x hx => by rw [Disk.next, Disk.next, hf x hx])
  exact ⟨.of_linked hl h.range, chainOf_linked hl h.range⟩

end

end HasChain

end Chains

/-! ## Directories -/

/-- The areas of the directory whose first cluster is `h`. -/
def dirAreas (v : Volume) (d : Disk) (h : Nat) : List Nat :=
  if h = 0 ∧ v.fatType = .fat16 then [0] else chainOf v d h

def slotsIn (v : Volume) (areas : List Nat) : List Slot :=
  areas.flatMap (fun r => (List.range (v.slotCount r)).map (Prod.mk r))

def dirSlots (v : Volume) (d : Disk) (h : Nat) : List Slot := slotsIn v (dirAreas v d h)

namespace Entry

def isLive (e : Entry) : Bool := !e.isEnd && !e.isFree && !e.isVolume

/-- An entry in use that is not one of the dots. -/
def isKid (e : Entry) : Bool := e.isLive && !nameIsDot e.name

end Entry

def usedSlots (v : Volume) (d : Disk) (h : Nat) : List Slot :=
  (dirSlots v d h).takeWhile (fun s => !(d.entry s).isEnd)

def lives (v : Volume) (d : Disk) (h : Nat) : List Slot := (usedSlots v d h).filter (fun s => (d.entry s).isLive)

def kids (v : Volume) (d : Disk) (h : Nat) : List Slot := (usedSlots v d h).filter (fun s => (d.entry s).isKid)

inductive Reach (v : Volume) (d : Disk) : Nat → Prop
  | root : Reach v d (rootDirectory v)
  | child {h : Nat} {s : Slot} : Reach v d h → s ∈ kids v d h → (d.entry s).isDirectory = true →
      2 ≤ (d.entry s).firstCluster → Reach v d (d.entry s).firstCluster

/-- The entry of the name in use, the first one if there were several. -/
def findEntry (v : Volume) (d : Disk) (h : Nat) (n : Name) : Option Slot :=
  (kids v d h).find? (fun s => (d.entry s).name == n)

/-- Who a chain belongs to: an entry in use, or nobody for the root directory of FAT32. -/
inductive Owns (v : Volume) (d : Disk) : Option Slot → Nat → Prop
  | root : v.fatType = .fat32 → Owns v d none v.rootCluster
  | entry {h : Nat} {s : Slot} : Reach v d h → s ∈ kids v d h → 2 ≤ (d.entry s).firstCluster →
      Owns v d (some s) (d.entry s).firstCluster

/-- Every owner has a chain of its own, and nothing but end markers stands behind an end marker. -/
structure Owned (v : Volume) (d : Disk) : Prop where
  chains : ∀ o c, Owns v d o c → HasChain v d c
  once : ∀ o o' c c' x, Owns v d o c → Owns v d o' c' → x ∈ chainOf v d c → x ∈ chainOf v d c' → o = o'
  ends : ∀ h, Reach v d h →
    (dirSlots v d h).Pairwise (fun s t => (d.entry s).isEnd = true → (d.entry t).isEnd = true)

/-- No cluster is lost, and no name stands twice in a directory. -/
structure Sound (v : Volume) (d : Disk) : Prop extends Owned v d where
  cover : ∀ x, v.InRange x → d.fat x ≠ 0 → ∃ o c, Owns v d o c ∧ x ∈ chainOf v d c
  names : ∀ h, Reach v d h → ∀ s ∈ lives v d h, ∀ t ∈ lives v d h,
    (d.entry s).name = (d.entry t).name → s = t

section Directories

variable {v : Volume} {d : Disk} {c c' h h' r : Nat} {s t : Slot} {o o' : Option Slot} {l : List Nat}

theorem mem_slotsIn : s ∈ slotsIn v l ↔ s.1 ∈ l ∧ s.2 < v.slotCount s.1 := by
  simp only [slotsIn, mem_flatMap, List.mem_map, mem_range]
  constructor
  · rintro ⟨r, hr, i, hi, rfl⟩
    exact ⟨hr, hi⟩
  · rintro ⟨hr, hi⟩
    exact ⟨s.1, hr, s.2, hi, rfl⟩

theorem slotsIn_append (l l' : List Nat) : slotsIn v (l ++ l') = slotsIn v l ++ slotsIn v l' :=
  flatMap_append

theorem slotsIn_nodup (hl : l.Nodup) : (slotsIn v l).Nodup := by
  rw [slotsIn, nodup_flatMap]
  refine ⟨?_, ?_⟩
  · intro r _
    exact (nodup_range).map (fun _ _ he => (Prod.mk.inj he).2)
  · refine hl.imp ?_
    intro r r' hne
    simp only [Function.onFun, disjoint_left, List.mem_map]
    rintro s ⟨i, -, rfl⟩ ⟨j, -, he⟩
    exact hne (Prod.mk.inj he).1.symm

theorem isKid_isLive {e : Entry} (h : e.isKid = true) : e.isLive = true := by
  rw [Entry.isKid, Bool.and_eq_true] at h
  exact h.1

theorem isLive_not_end {e : Entry} (h : e.isLive = true) : e.isEnd = false := by
  rw [Entry.isLive, Bool.and_eq_true, Bool.and_eq_true] at h
  simpa using h.1.1

theorem mem_kids_isKid (hs : s ∈ kids v d h) : (d.entry s).isKid = true := (mem_filter.mp hs).2

theorem mem_kids_slot (hs : s ∈ kids v d h) : s ∈ dirSlots v d h :=
  (takeWhile_sublist _).subset (mem_filter.mp hs).1

theorem dirAreas_zero (ht : v.fatType = .fat16) : dirAreas v d 0 = [0] := if_pos ⟨rfl, ht⟩

theorem dirAreas_chain (hh : 2 ≤ h) : dirAreas v d h = chainOf v d h := if_neg (by omega)

theorem Owns.unique (ho : Owns v d o c) (ho' : Owns v d o c') : c = c' := by
  cases ho with
  | root _ =>
    cases ho' with
    | root _ => rfl
  | entry _ _ _ =>
    cases ho' with
    | entry _ _ _ => rfl

theorem Reach.owner (hr : Reach v d h) : (h = 0 ∧ v.fatType = .fat16) ∨
    ∃ o, Owns v d o h ∧ ∀ s, o = some s → (d.entry s).isDirectory = true := by
  cases hr with
  | root =>
    unfold rootDirectory
    cases ht : v.fatType with
    | fat16 => exact .inl ⟨rfl, rfl⟩
    | fat32 => exact .inr ⟨none, .root ht, fun s hs => by cases hs⟩
  | child hr hs hdir hc =>
    refine .inr ⟨_, .entry hr hs hc, ?_⟩
    intro t ht
    cases ht
    exact hdir

section

variable (ho : Owned v d)

include ho

theorem Owned.reach_chain (hr : Reach v d h) : (h = 0 ∧ v.fatType = .fat16) ∨ HasChain v d h := by
  rcases hr.owner with h0 | ⟨o, hown, -⟩
  · exact .inl h0
  · exact .inr (ho.chains o h hown)

theorem Owned.area_of_mem (hr : Reach v d h) (hx : r ∈ dirAreas v d h) : v.Area r := by
  rcases ho.reach_chain hr with ⟨rfl, ht⟩ | hc
  · rw [dirAreas_zero ht, mem_singleton] at hx
    exact .inl ⟨hx, ht⟩
  · rw [dirAreas_chain hc.two_le] at hx
    exact .inr (hc.range r hx)

theorem Owned.has_of_mem (hr : Reach v d h) (hs : s ∈ dirSlots v d h) : v.Has s := by
  obtain ⟨h₁, h₂⟩ := mem_slotsIn.mp hs
  exact ⟨ho.area_of_mem hr h₁, h₂⟩

theorem Owned.dir_unique (hr : Reach v d h) (hr' : Reach v d h') (hx : r ∈ dirAreas v d h)
    (hx' : r ∈ dirAreas v d h') : h = h' := by
  have hzero : ∀ {c}, HasChain v d c → 0 ∉ chainOf v d c := fun hc h0 => by
    have := (hc.range 0 h0).1
    omega
  rcases hr.owner with ⟨rfl, ht⟩ | ⟨o, hown, -⟩
  · rw [dirAreas_zero ht, mem_singleton] at hx
    rcases hr'.owner with ⟨rfl, -⟩ | ⟨o', hown', -⟩
    · rfl
    · have hc' := ho.chains _ _ hown'
      rw [dirAreas_chain hc'.two_le, hx] at hx'
      exact absurd hx' (hzero hc')
  · have hc := ho.chains _ _ hown
    rw [dirAreas_chain hc.two_le] at hx
    rcases hr'.owner with ⟨rfl, ht⟩ | ⟨o', hown', -⟩
    · rw [dirAreas_zero ht, mem_singleton] at hx'
      rw [hx'] at hx
      exact absurd hx (hzero hc)
    · have hc' := ho.chains _ _ hown'
      rw [dirAreas_chain hc'.two_le] at hx'
      obtain rfl := ho.once _ _ _ _ _ hown hown' hx hx'
      exact hown.unique hown'

theorem Owned.slot_unique (hr : Reach v d h) (hr' : Reach v d h') (hs : s ∈ dirSlots v d h)
    (hs' : s ∈ dirSlots v d h') : h = h' :=
  ho.dir_unique hr hr' (mem_slotsIn.mp hs).1 (mem_slotsIn.mp hs').1

theorem Owned.area_own (hr : Reach v d h) (hown : Owns v d (some s) c) (hx : r ∈ dirAreas v d h)
    (hx' : r ∈ chainOf v d c) : h = c ∧ (d.entry s).isDirectory = true := by
  have hc := ho.chains _ _ hown
  rcases hr.owner with ⟨rfl, ht⟩ | ⟨o, hown', hdir⟩
  · rw [dirAreas_zero ht, mem_singleton] at hx
    rw [hx] at hx'
    have := (hc.range 0 hx').1
    omega
  · have hc' := ho.chains _ _ hown'
    rw [dirAreas_chain hc'.two_le] at hx
    obtain rfl := ho.once _ _ _ _ _ hown' hown hx hx'
    exact ⟨hown'.unique hown, hdir s rfl⟩

theorem Owned.ne_root (hown : Owns v d (some s) c) : c ≠ rootDirectory v := by
  have hc := ho.chains _ _ hown
  have := hc.two_le
  unfold rootDirectory
  cases ht : v.fatType with
  | fat16 =>
    show c ≠ 0
    omega
  | fat32 =>
    show c ≠ v.rootCluster
    rintro rfl
    cases ho.once _ _ _ _ _ hown (.root ht) hc.head_mem hc.head_mem

theorem Owned.ne_self (hr : Reach v d h) (hs : s ∈ kids v d h)
    (hc : 2 ≤ (d.entry s).firstCluster) : (d.entry s).firstCluster ≠ h := by
  induction hr generalizing s with
  | root => exact ho.ne_root (.entry .root hs hc)
  | @child p t hp ht hdir hge ih =>
    intro he
    have hown := Owns.entry hp ht hge
    have hown' := Owns.entry (.child hp ht hdir hge) hs hc
    have hmem := (ho.chains _ _ hown).head_mem
    obtain rfl : t = s := Option.some.inj (ho.once _ _ _ _ _ hown hown' hmem (by rw [he]; exact hmem))
    -- the slot lies in one directory only, so that the parent would be its own child
    have hpar := ho.slot_unique hp (.child hp ht hdir hge) (mem_kids_slot ht) (mem_kids_slot hs)
    exact ih ht hc hpar.symm

theorem Owned.area_taken (hr : Reach v d h) (hx : r ∈ dirAreas v d h) : r = 0 ∨ d.fat r ≠ 0 := by
  rcases ho.reach_chain hr with ⟨rfl, ht⟩ | hc
  · rw [dirAreas_zero ht, mem_singleton] at hx
    exact .inl hx
  · rw [dirAreas_chain hc.two_le] at hx
    exact .inr (hc.fat_ne_zero hx)

theorem dirAreas_nodup (hr : Reach v d h) : (dirAreas v d h).Nodup := by
  rcases ho.reach_chain hr with ⟨rfl, ht⟩ | hc
  · rw [dirAreas_zero ht]
    exact nodup_singleton 0
  · rw [dirAreas_chain hc.two_le]
    exact hc.nodup

end

end Directories

end ProOS.Fat
