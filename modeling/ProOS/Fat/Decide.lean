import ProOS.Fat.Ownership

namespace ProOS.Fat

open ProOS.Framework List

/-! ## Deciding soundness

The tree of a volume is found level by level. When a level adds no directory, ownership is a question about finite lists. -/

def subdirs (v : Volume) (d : Disk) (h : Nat) : List Nat :=
  ((kids v d h).filter (fun s => (d.entry s).isDirectory && decide (2 ≤ (d.entry s).firstCluster))).map
    (fun s => (d.entry s).firstCluster)

def dirsWithin (v : Volume) (d : Disk) : Nat → List Nat
  | 0 => [rootDirectory v]
  | n + 1 => rootDirectory v :: (dirsWithin v d n).flatMap (subdirs v d)

def Closed (v : Volume) (d : Disk) (n : Nat) : Prop :=
  ∀ h ∈ dirsWithin v d n, ∀ c ∈ subdirs v d h, c ∈ dirsWithin v d n

instance (v : Volume) (d : Disk) (n : Nat) : Decidable (Closed v d n) :=
  inferInstanceAs (Decidable (∀ h ∈ dirsWithin v d n, ∀ c ∈ subdirs v d h, c ∈ dirsWithin v d n))

/-- The owners of the directory `h`, with their chains. -/
def ownersIn (v : Volume) (d : Disk) (h : Nat) : List (Option Slot × Nat) :=
  ((kids v d h).filter (fun s => decide (2 ≤ (d.entry s).firstCluster))).map
    (fun s => (some s, (d.entry s).firstCluster))

def owners (v : Volume) (d : Disk) (n : Nat) : List (Option Slot × Nat) :=
  (if v.fatType = .fat32 then [(none, v.rootCluster)] else []) ++ (dirsWithin v d n).flatMap (ownersIn v d)

section Levels

variable {v : Volume} {d : Disk} {c h n : Nat} {o : Option Slot}

theorem mem_subdirs : c ∈ subdirs v d h ↔
    ∃ s ∈ kids v d h, (d.entry s).isDirectory = true ∧ 2 ≤ (d.entry s).firstCluster ∧ (d.entry s).firstCluster = c := by
  simp only [subdirs, List.mem_map, mem_filter, Bool.and_eq_true, decide_eq_true_eq]
  constructor
  · rintro ⟨s, ⟨hs, hdir, hge⟩, rfl⟩
    exact ⟨s, hs, hdir, hge, rfl⟩
  · rintro ⟨s, hs, hdir, hge, rfl⟩
    exact ⟨s, ⟨hs, hdir, hge⟩, rfl⟩

theorem reach_of_mem (hm : h ∈ dirsWithin v d n) : Reach v d h := by
  induction n generalizing h with
  | zero =>
    obtain rfl := mem_singleton.mp hm
    exact .root
  | succ n ih =>
    rcases mem_cons.mp hm with rfl | hm
    · exact .root
    · obtain ⟨a, ha, hsub⟩ := mem_flatMap.mp hm
      obtain ⟨s, hs, hdir, hge, rfl⟩ := mem_subdirs.mp hsub
      exact .child (ih ha) hs hdir hge

theorem root_mem (v : Volume) (d : Disk) (n : Nat) : rootDirectory v ∈ dirsWithin v d n := by
  cases n with
  | zero => exact mem_singleton.mpr rfl
  | succ n => exact mem_cons_self

theorem Closed.reach_iff (hc : Closed v d n) : Reach v d h ↔ h ∈ dirsWithin v d n := by
  refine ⟨fun hr => ?_, reach_of_mem⟩
  induction hr with
  | root => exact root_mem v d n
  | child _ hs hdir hge ih => exact hc _ ih _ (mem_subdirs.mpr ⟨_, hs, hdir, hge, rfl⟩)

theorem mem_ownersIn : (o, c) ∈ ownersIn v d h ↔
    ∃ s ∈ kids v d h, 2 ≤ (d.entry s).firstCluster ∧ o = some s ∧ c = (d.entry s).firstCluster := by
  simp only [ownersIn, List.mem_map, mem_filter, decide_eq_true_eq, Prod.mk.injEq]
  constructor
  · rintro ⟨s, ⟨hs, hge⟩, rfl, rfl⟩
    exact ⟨s, hs, hge, rfl, rfl⟩
  · rintro ⟨s, hs, hge, rfl, rfl⟩
    exact ⟨s, ⟨hs, hge⟩, rfl, rfl⟩

theorem Closed.owns_iff (hc : Closed v d n) : Owns v d o c ↔ (o, c) ∈ owners v d n := by
  rw [owners, mem_append, mem_flatMap]
  constructor
  · rintro (ht | ⟨hr, hs, hge⟩)
    · rw [if_pos ht]
      exact .inl (mem_singleton.mpr rfl)
    · exact .inr ⟨_, hc.reach_iff.mp hr, mem_ownersIn.mpr ⟨_, hs, hge, rfl, rfl⟩⟩
  · rintro (hroot | ⟨h, hh, hm⟩)
    · split at hroot
      · rename_i ht
        obtain ⟨rfl, rfl⟩ := Prod.mk.inj (mem_singleton.mp hroot)
        exact .root ht
      · cases hroot
    · obtain ⟨s, hs, hge, rfl, rfl⟩ := mem_ownersIn.mp hm
      exact .entry (hc.reach_iff.mpr hh) hs hge

end Levels

/-! ## The check -/

section Check

variable {ι : Type*} [DecidableEq ι]

instance decidableSeg (next : ι → Option ι) : (h : Option ι) → (xs : List ι) → (t : Option ι) → Decidable (Seg next h xs t)
  | h, [], t => inferInstanceAs (Decidable (h = t))
  | h, x :: xs, t =>
    have := decidableSeg next (next x) xs t
    inferInstanceAs (Decidable (h = some x ∧ Seg next (next x) xs t))

instance (next : ι → Option ι) (h : Option ι) (xs : List ι) : Decidable (Linked next h xs) :=
  inferInstanceAs (Decidable (Seg next h xs none))

end Check

instance (v : Volume) (d : Disk) (c : Nat) : Decidable (HasChain v d c) :=
  decidable_of_iff (Linked (d.next v) (some c) (chainOf v d c) ∧ ∀ x ∈ chainOf v d c, v.InRange x)
    ⟨fun h => ⟨h.1, h.2⟩, fun h => ⟨h.linked, h.range⟩⟩

/-- `Owned` over the directories and owners down to the depth `n`. -/
def OwnedWithin (v : Volume) (d : Disk) (n : Nat) : Prop :=
  (∀ p ∈ owners v d n, HasChain v d p.2) ∧
    (∀ p ∈ owners v d n, ∀ q ∈ owners v d n, ∀ x ∈ chainOf v d p.2, x ∈ chainOf v d q.2 → p.1 = q.1) ∧
    ∀ h ∈ dirsWithin v d n,
      (dirSlots v d h).Pairwise (fun s t => (d.entry s).isEnd = true → (d.entry t).isEnd = true)

def CoveredWithin (v : Volume) (d : Disk) (n : Nat) : Prop :=
  (∀ x ∈ List.range' 2 v.totalClusters, d.fat x ≠ 0 → ∃ p ∈ owners v d n, x ∈ chainOf v d p.2) ∧
    ∀ h ∈ dirsWithin v d n, ∀ s ∈ lives v d h, ∀ t ∈ lives v d h, (d.entry s).name = (d.entry t).name → s = t

instance (v : Volume) (d : Disk) (n : Nat) : Decidable (OwnedWithin v d n) := by
  unfold OwnedWithin
  infer_instance

instance (v : Volume) (d : Disk) (n : Nat) : Decidable (CoveredWithin v d n) := by
  unfold CoveredWithin
  infer_instance

section Sound

variable {v : Volume} {d : Disk} {n : Nat}

theorem Closed.owned_iff (hc : Closed v d n) : Owned v d ↔ OwnedWithin v d n := by
  constructor
  · intro ho
    refine ⟨fun p hp => ho.chains p.1 p.2 (hc.owns_iff.mpr hp), fun p hp q hq x hx hx' => ?_, fun h hh => ?_⟩
    · exact ho.once p.1 q.1 p.2 q.2 x (hc.owns_iff.mpr hp) (hc.owns_iff.mpr hq) hx hx'
    · exact ho.ends h (hc.reach_iff.mpr hh)
  · rintro ⟨hchains, honce, hends⟩
    refine ⟨fun o c hown => hchains _ (hc.owns_iff.mp hown), fun o o' c c' x hown hown' hx hx' => ?_, fun h hr => ?_⟩
    · exact honce _ (hc.owns_iff.mp hown) _ (hc.owns_iff.mp hown') x hx hx'
    · exact hends h (hc.reach_iff.mp hr)

theorem mem_clusters {x : Nat} : x ∈ List.range' 2 v.totalClusters ↔ v.InRange x := by
  rw [mem_range'_1, Volume.InRange]
  omega

theorem Closed.sound_iff (hc : Closed v d n) : Sound v d ↔ OwnedWithin v d n ∧ CoveredWithin v d n := by
  rw [← hc.owned_iff]
  constructor
  · intro hs
    refine ⟨hs.toOwned, fun x hx hne => ?_, fun h hh => hs.names h (hc.reach_iff.mpr hh)⟩
    obtain ⟨o, c, hown, hmem⟩ := hs.cover x (mem_clusters.mp hx) hne
    exact ⟨(o, c), hc.owns_iff.mp hown, hmem⟩
  · rintro ⟨ho, hcover, hnames⟩
    refine ⟨ho, fun x hx hne => ?_, fun h hr => hnames h (hc.reach_iff.mp hr)⟩
    obtain ⟨⟨o, c⟩, hown, hmem⟩ := hcover x (mem_clusters.mpr hx) hne
    exact ⟨o, c, hc.owns_iff.mpr hown, hmem⟩

end Sound

end ProOS.Fat
