import ProOS.Fat.Scan

namespace ProOS.Fat

open ProOS.Framework Option List

/-! ## A slot for a new entry -/

/-- The directory, grown by a cluster if it had no room, has the slot to spare; `d'` differs from it in
that slot only. -/
structure TakesSlot (v : Volume) (d d₁ d' : Disk) (h : Nat) (s : Slot) : Prop where
  reach : Reach v d h
  grown : d₁ = d ∨ (∀ t, ¬Room v d h t) ∧ ∃ c, GrowsDir v d d₁ h c
  room : Room v d₁ h s
  only : SlotOnly s d₁ d'

section TakeSlot

variable {v : Volume} {m : Mem} {d d' : Disk} {c h : Nat} {s : Slot} {target : Option Name} {scan : DirScan}

/-- What the tree tells of a directory that a path has led to. -/
def Resolved (v : Volume) (d : Disk) (h : Nat) : Prop := Reach v d h ∨ h = 1

theorem Owned.readable (ho : Owned v d) (hr : Resolved v d h) : Readable v d h := by
  rcases hr with hr | rfl
  · rcases ho.reach_chain hr with ⟨rfl, -⟩ | hc
    · exact .inl (by omega)
    · exact .inr hc
  · exact .inl (by omega)

theorem dirSlots_one (v : Volume) (d : Disk) : dirSlots v d 1 = [] := by
  rw [dirSlots, dirAreas, if_neg (by simp), chainOf, if_pos (by omega)]
  rfl

theorem used_append (v : Volume) (d : Disk) (h : Nat) :
    dirSlots v d h = usedSlots v d h ++ (dirSlots v d h).dropWhile (fun s => !(d.entry s).isEnd) :=
  takeWhile_append_dropWhile.symm

theorem not_room (hfree : (usedSlots v d h).find? (fun s => (d.entry s).isFree) = none)
    (hzero : (dirSlots v d h).dropWhile (fun s => !(d.entry s).isEnd) = []) : ¬Room v d h s := by
  rintro (⟨hs, hf⟩ | ⟨rest, hs, -⟩)
  · exact find?_eq_none.mp hfree s hs hf
  · have happ := used_append v d h
    rw [hzero, append_nil] at happ
    rw [happ] at hs
    simpa using congrArg List.length hs

theorem growsDir_of_view (hv : v.Fits) (hr : Reach v (view v m) h) (hc : HasChain v (view v m) h)
    {init : List Nat} {last : Nat} (hl : chainOf v (view v m) h = init ++ [last]) (hrange : v.InRange c)
    (hfree : (view v m).fat c = 0) {m' : Mem} (hm' : view v m' = ((view v m).setFat c (eocMarker v)).clear c) :
    GrowsDir v (view v m) (view v (zeroCluster v (writeFat v (writeFat v m' last c) c (eocMarker v)) c)) h c := by
  have hlast : v.InRange last := hc.range last (by simp [hl])
  have hview : view v (zeroCluster v (writeFat v (writeFat v m' last c) c (eocMarker v)) c) =
      ((((view v m).setFat c (eocMarker v)).clear c).setFat last c |>.setFat c (eocMarker v)).clear c := by
    rw [view_zeroCluster hv hrange, view_writeFat hv hrange.2 (eocMarker_lt v),
      view_writeFat hv hlast.2 (hv.lt_fatLimit hrange), hm']
  refine ⟨hr, hc, hrange, hfree, ⟨init, last, hl, ?_⟩, ?_, ?_⟩
  · rw [hview]
    funext x
    simp only [Disk.clear_fat, Disk.setFat_fat, Function.update_apply]
    by_cases hx : x = c
    · rw [if_pos hx, if_pos hx]
    · rw [if_neg hx, if_neg hx, if_neg hx]
  · intro r hrc
    rw [hview, Disk.clear_cell, if_neg hrc, Disk.setFat_cell, Disk.setFat_cell, Disk.clear_cell, if_neg hrc,
      Disk.setFat_cell]
  · intro i
    rw [hview, Disk.clear_cell, if_pos rfl]

theorem GrowsDir.room (hv : v.Fits) (hcs : 32 ≤ clusterSizeBytes v) (g : GrowsDir v d d' h c) (ho : Owned v d)
    (hzero : (dirSlots v d h).dropWhile (fun s => !(d.entry s).isEnd) = []) : Room v d' h (c, 0) := by
  have hused : dirSlots v d h = usedSlots v d h := by
    have happ := used_append v d h
    rwa [hzero, append_nil] at happ
  have hcount : 0 < v.slotCount c := by
    rw [slotCount_cluster g.range, entriesPerCluster]
    omega
  obtain ⟨n, hn⟩ : ∃ n, v.slotCount c = n + 1 := ⟨v.slotCount c - 1, by omega⟩
  refine .inr ⟨((List.range n).map Nat.succ).map (Prod.mk c), ?_, g.entry_new rfl⟩
  rw [g.slots hv ho g.reach, if_pos rfl, (g.sameDir hv ho g.reach).used, ← hused, slotsIn_cons, hn,
    range_succ_eq_map]
  simp [slotsIn]

theorem dirTakeSlot_spec (hv : v.Fits) (hcs : 32 ≤ clusterSizeBytes v) (ho : Owned v (view v m))
    (hr : Resolved v (view v m) h) (hs : ScanSpec v (view v m) h target scan) (hf : scan.found = none) :
    dirTakeSlot v m h scan = (m, none) ∨ ∃ m' s d₁, dirTakeSlot v m h scan = (m', some (v.slotAddr s)) ∧
      v.Has s ∧ TakesSlot v (view v m) d₁ (view v m') h s ∧ Stored v m m' := by
  have hfree := hs.free hf
  have hzero := hs.zero hf
  have hreach : dirSlots v (view v m) h ≠ [] → Reach v (view v m) h := by
    intro hne
    rcases hr with hr | rfl
    · exact hr
    · exact absurd (dirSlots_one v _) hne
  have hhas : ∀ {s}, s ∈ dirSlots v (view v m) h → v.Has s := fun hm => dirSlots_has (ho.readable hr) hm
  unfold dirTakeSlot
  rw [hf]
  cases hff : (usedSlots v (view v m) h).find? (fun s => ((view v m).entry s).isFree) with
  | some s =>
    have hused := mem_of_find?_eq_some hff
    have hmem : s ∈ dirSlots v (view v m) h := (takeWhile_sublist _).subset hused
    have hisFree : ((view v m).entry s).isFree = true :=
      find?_some (p := fun s => ((view v m).entry s).isFree) hff
    rw [hff] at hfree
    rw [hfree]
    exact .inr ⟨m, s, view v m, rfl, hhas hmem, ⟨hreach (ne_nil_of_mem hmem), .inl rfl,
      .inl ⟨hused, hisFree⟩, .refl s _⟩, .refl v m⟩
  | none =>
    rw [hff] at hfree
    rw [hfree]
    cases hdrop : (dirSlots v (view v m) h).dropWhile (fun s => !((view v m).entry s).isEnd) with
    | cons s rest =>
      have happ := used_append v (view v m) h
      rw [hdrop] at happ
      have hmem : s ∈ dirSlots v (view v m) h := by
        rw [happ]
        simp
      have hend : ((view v m).entry s).isEnd = true := by
        have hhead := head_dropWhile_not (fun s => !((view v m).entry s).isEnd)
          (l := dirSlots v (view v m) h) (by rw [hdrop]; simp)
        simpa [hdrop] using hhead
      rw [hdrop] at hzero
      rw [hzero]
      have honly : SlotOnly s (view v m) (view v (writeBytes m (v.slotAddr s) [entryFree])) := by
        rw [view_markFree hv (hhas hmem)]
        exact .modify markFree_agreeOff
      exact .inr ⟨_, s, view v m, rfl, hhas hmem, ⟨hreach (ne_nil_of_mem hmem), .inl rfl,
        .inr ⟨rest, happ, hend⟩, honly⟩, .of_slot markFree_agreeOff hv (hhas hmem)⟩
    | nil =>
      rw [hdrop] at hzero
      rw [hzero]
      dsimp only [head?_nil, map_none]
      by_cases hlt : h < 2
      · rw [if_pos hlt]
        exact .inl rfl
      · rw [if_neg hlt]
        have hge : 2 ≤ h := by omega
        rcases allocateCluster_spec hv m with ⟨ha, -⟩ | ⟨m', c, ha, hrange, hcfree, hm', hconf⟩
        · rw [ha]
          exact .inl rfl
        · have hr' : Reach v (view v m) h := hr.resolve_right (by omega)
          have hc : HasChain v (view v m) h := by
            rcases ho.reach_chain hr' with ⟨h0, -⟩ | hc
            · omega
            · exact hc
          obtain ⟨init, hinit⟩ := hs.last hf hzero hge
          have hlast : v.InRange scan.lastCluster := hc.range _ (by simp [hinit])
          have hlast₂ := hlast.1
          have hcpos : c ≠ 0 := by
            have := hrange.1
            omega
          have g := growsDir_of_view hv hr' hc hinit hrange hcfree hm'
          rw [ha]
          dsimp only
          have hnz : scan.lastCluster ≠ 0 := by omega
          rw [if_neg hcpos, if_pos hnz, if_pos hlast₂, hv.clusterPtr_eq hrange]
          refine .inr ⟨_, (c, 0), _, rfl, ⟨.inr hrange, ?_⟩, ⟨hr', .inr ⟨fun t => not_room hff hdrop, c, g⟩,
            g.room hv hcs ho hdrop, .refl _ _⟩, ((hconf.trans (writeFat_stored hv _ _ _)).trans
              (writeFat_stored hv _ _ _)).trans (zeroCluster_stored hv hrange _)⟩
          show 0 < v.slotCount c
          rw [slotCount_cluster hrange, entriesPerCluster]
          omega

end TakeSlot

/-! ## Paths -/

def walk (v : Volume) (d : Disk) : List Str → Nat → Option Nat
  | [], h => some h
  | segment :: segments, h =>
    if 16 ≤ segment.length then some h
    else
      (makeShortName segment).bind fun n => (findEntry v d h n).bind fun s =>
        if (d.entry s).isDirectory = false ∨ (d.entry s).firstCluster = 0 ∧ v.fatType = .fat32 then none
        else walk v d segments (d.entry s).firstCluster

def walkParent (v : Volume) (d : Disk) (path : Str) : Option (Nat × Str) :=
  match lastIndexOf slash path with
  | none => if 64 ≤ path.length then none else some (rootDirectory v, path)
  | some i =>
    if 128 ≤ i then none
    else
      (walk v d (fields slash (path.take i)) (rootDirectory v)).bind fun parent =>
        if 64 ≤ (path.drop (i + 1)).length then none else some (parent, path.drop (i + 1))

def walkLeaf (v : Volume) (d : Disk) (path : Str) : Option (Nat × Name) :=
  (walkParent v d path).bind fun (parent, leaf) => (prepareShortName leaf).map (parent, ·)

section Paths

variable {v : Volume} {m : Mem} {d : Disk} {h h' : Nat} {path : Str} {n : Name} {s : Slot}

theorem mem_of_findEntry (hf : findEntry v d h n = some s) : s ∈ kids v d h ∧ (d.entry s).name = n := by
  have hp : ((d.entry s).name == n) = true := find?_some (p := fun s => (d.entry s).name == n) hf
  exact ⟨mem_of_find?_eq_some hf, by simpa using hp⟩

theorem Resolved.of_kid (hr : Resolved v d h) (hs : s ∈ kids v d h) : Reach v d h := by
  rcases hr with hr | rfl
  · exact hr
  · have := mem_kids_slot hs
    rw [dirSlots_one] at this
    cases this

/-- A subdirectory that a path may go through: one with a chain, the alias 0 of the root directory, or the
empty directory 1. -/
theorem Resolved.child (hr : Resolved v d h) (hs : s ∈ kids v d h) (hdir : (d.entry s).isDirectory = true)
    (hne : ¬((d.entry s).firstCluster = 0 ∧ v.fatType = .fat32)) : Resolved v d (d.entry s).firstCluster := by
  by_cases hge : 2 ≤ (d.entry s).firstCluster
  · exact .inl (.child (hr.of_kid hs) hs hdir hge)
  · by_cases hone : (d.entry s).firstCluster = 1
    · exact .inr hone
    · have hzero : (d.entry s).firstCluster = 0 := by omega
      have hroot : rootDirectory v = 0 := by
        unfold rootDirectory
        cases ht : v.fatType with
        | fat16 => rfl
        | fat32 => exact absurd ⟨hzero, ht⟩ hne
      rw [hzero]
      exact .inl (hroot ▸ .root)

theorem walk_resolved {segments : List Str} (hr : Resolved v d h) (hw : walk v d segments h = some h') :
    Resolved v d h' := by
  induction segments generalizing h with
  | nil =>
    cases hw
    exact hr
  | cons segment segments ih =>
    unfold walk at hw
    split at hw
    · cases hw
      exact hr
    · obtain ⟨n, -, hw⟩ := bind_eq_some_iff.mp hw
      obtain ⟨s, hs, hw⟩ := bind_eq_some_iff.mp hw
      split at hw
      · cases hw
      · rename_i hcond
        have hdir : (d.entry s).isDirectory = true := by
          cases hd : (d.entry s).isDirectory with
          | true => rfl
          | false => exact absurd (.inl hd) hcond
        exact ih (hr.child (mem_of_findEntry hs).1 hdir (fun hz => hcond (.inr hz))) hw

theorem resolveSegments_spec (hv : v.Fits) (ho : Owned v (view v m)) (segments : List Str)
    (hr : Resolved v (view v m) h) :
    Returns (fun n => resolveSegments v n m segments h) (walk v (view v m) segments h) := by
  induction segments generalizing h with
  | nil => exact .of_some _
  | cons segment segments ih =>
    simp only [resolveSegments, walk]
    split
    · exact .of_some _
    cases hn : makeShortName segment with
    | none => exact .of_some _
    | some n =>
      obtain ⟨scan, hscan, hspec⟩ := dirScan_spec hv (ho.readable hr) (some n)
      have hfound := hspec.found_eq (shortName_of_make hn)
      refine hscan.onSuccess ?_
      rw [hfound]
      rw [bind_some]
      cases hf : findEntry v (view v m) h n with
      | none => exact .of_some _
      | some s =>
        obtain ⟨hs, -⟩ := mem_of_findEntry hf
        have hhas := dirSlots_has (ho.readable hr) (mem_kids_slot hs)
        simp only [map_some, bind_some, readEntry_view hhas]
        cases hdir : ((view v m).entry s).isDirectory with
        | false => exact .of_some _
        | true =>
          by_cases hz : ((view v m).entry s).firstCluster = 0 ∧ v.fatType = .fat32
          · rw [if_pos (.inr hz)]
            simp only [hz, and_self, if_true]
            exact .of_some _
          · rw [if_neg (by simpa using hz)]
            simp only [hz, if_false]
            exact ih (hr.child hs hdir hz)

theorem resolveDirectory_spec (hv : v.Fits) (ho : Owned v (view v m)) (path : Str) :
    Returns (fun n => resolveDirectory v n m path) (walk v (view v m) (fields slash path) (rootDirectory v)) :=
  resolveSegments_spec hv ho _ (.inl .root)

theorem resolveParent_spec (hv : v.Fits) (ho : Owned v (view v m)) (path : Str) :
    Returns (fun n => resolveParent v n m path) (walkParent v (view v m) path) := by
  unfold resolveParent walkParent
  cases hi : lastIndexOf slash path with
  | none =>
    dsimp only
    split
    · exact .of_some _
    · exact .of_some _
  | some i =>
    dsimp only
    split
    · exact .of_some _
    have hres := resolveDirectory_spec hv ho (path.take i)
    cases hw : walk v (view v m) (fields slash (path.take i)) (rootDirectory v) with
    | none =>
      rw [hw] at hres
      exact hres.onFailure
    | some parent =>
      rw [hw] at hres
      refine hres.onSuccess ?_
      rw [bind_some]
      split
      · exact .of_some _
      · exact .of_some _

theorem walkLeaf_spec {leaf : Nat × Name} (hw : walkLeaf v d path = some leaf) :
    Resolved v d leaf.1 ∧ ShortName leaf.2 := by
  obtain ⟨⟨parent, segment⟩, hp, hl⟩ := bind_eq_some_iff.mp hw
  obtain ⟨n, hn, rfl⟩ := map_eq_some_iff.mp hl
  refine ⟨?_, ?_⟩
  · unfold walkParent at hp
    split at hp
    · split at hp
      · cases hp
      · cases hp
        exact .inl .root
    · split at hp
      · cases hp
      · obtain ⟨q, hq, hp⟩ := bind_eq_some_iff.mp hp
        split at hp
        · cases hp
        · cases hp
          exact walk_resolved (.inl .root) hq
  · unfold prepareShortName at hn
    split at hn
    · exact shortName_of_make hn
    · cases hn

theorem locate_none (hv : v.Fits) (ho : Owned v (view v m)) (hw : walkLeaf v (view v m) path = none) :
    Returns (fun n => locate v n m path) none := by
  have hres := resolveParent_spec hv ho path
  cases hp : walkParent v (view v m) path with
  | none =>
    rw [hp] at hres
    exact hres.onFailure
  | some r =>
    obtain ⟨parent, leaf⟩ := r
    rw [hp] at hres
    refine hres.onSuccess ?_
    rw [walkLeaf, hp, bind_some, map_eq_none_iff] at hw
    dsimp only
    rw [hw]
    exact .of_some _

theorem locate_some (hv : v.Fits) (ho : Owned v (view v m)) (hw : walkLeaf v (view v m) path = some (h, n)) :
    ∃ scan, Returns (fun k => locate v k m path) (some ⟨h, n, scan⟩) ∧ ScanSpec v (view v m) h (some n) scan := by
  obtain ⟨hr, -⟩ := walkLeaf_spec hw
  have hres := resolveParent_spec hv ho path
  obtain ⟨⟨parent, leaf⟩, hp, hl⟩ := bind_eq_some_iff.mp hw
  obtain ⟨n', hn, he⟩ := map_eq_some_iff.mp hl
  obtain ⟨rfl, rfl⟩ := Prod.mk.inj he
  obtain ⟨scan, hscan, hspec⟩ := dirScan_spec hv (ho.readable hr) (some n')
  refine ⟨scan, ?_, hspec⟩
  rw [hp] at hres
  refine hres.onSuccess ?_
  dsimp only
  rw [hn]
  exact hscan.onSuccess (.of_some _)

end Paths

end ProOS.Fat
