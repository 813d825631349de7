import ProOS.Fat.MakeSpec

namespace ProOS.Fat

open ProOS.Framework Option List

section Remove

variable {v : Volume} {m : Mem} {d d' : Disk} {c h : Nat} {s : Slot} {ss : List Slot}

/-! ## Empty directories -/

theorem emptyEntries_append (m : Mem) (ps qs : List Nat) :
    emptyEntries m (ps ++ qs) = (emptyEntries m ps).or (emptyEntries m qs) := by
  induction ps with
  | nil => rfl
  | cons p ps ih =>
    rw [cons_append, emptyEntries, emptyEntries]
    split
    · rfl
    split
    · exact ih
    · rfl

theorem emptyEntries_slots (hh : ∀ s ∈ ss, v.Has s) :
    (emptyEntries m (ss.map v.slotAddr)).getD true =
      ((ss.takeWhile (fun s => !((view v m).entry s).isEnd)).filter (fun s => ((view v m).entry s).isKid)).isEmpty := by
  induction ss with
  | nil => rfl
  | cons t ss ih =>
    have ih := ih (fun s hs => hh s (mem_cons_of_mem t hs))
    rw [map_cons, emptyEntries, readEntry_view (hh t (by simp)), takeWhile_cons]
    cases hend : ((view v m).entry t).isEnd with
    | true => rfl
    | false =>
      have hkid := isKid_eq hend
      rw [Bool.not_false, if_pos rfl, if_neg Bool.false_ne_true, filter_cons, hkid]
      cases (((view v m).entry t).isFree || ((view v m).entry t).isVolume || nameIsDot ((view v m).entry t).name) with
      | true => exact ih
      | false => rfl

theorem overList_empty (hv : v.Fits) {xs : List Nat} (hr : ∀ x ∈ c :: xs, v.InRange x) :
    overList (emptyCluster v m) (fun _ _ => some true) c xs () =
      some ((emptyEntries m ((slotsIn v (c :: xs)).map v.slotAddr)).getD true) := by
  induction xs generalizing c with
  | nil =>
    have hc := hr c (by simp)
    rw [overList, emptyCluster, hv.clusterPtr_eq hc]
    dsimp only
    rw [clusterPtrs_eq hc]
    cases emptyEntries m ((slotsIn v [c]).map v.slotAddr) with
    | none => rfl
    | some r => rfl
  | cons y ys ih =>
    have hc := hr c (by simp)
    rw [overList, emptyCluster, hv.clusterPtr_eq hc]
    dsimp only
    rw [clusterPtrs_eq hc, slotAddrs_cons, emptyEntries_append]
    cases emptyEntries m ((slotsIn v [c]).map v.slotAddr) with
    | none => exact ih (fun x hx => hr x (mem_cons_of_mem c hx))
    | some r => rfl

theorem directoryIsEmpty_spec (hv : v.Fits) (hc : HasChain v (view v m) c) :
    Returns (fun n => directoryIsEmpty v n m c) (some (kids v (view v m) c).isEmpty) := by
  obtain ⟨l, hl, -⟩ := hc.split
  have hrange := hc.range
  have hareas : dirAreas v (view v m) c = c :: l := by rw [dirAreas_chain hc.two_le, hl]
  have hhas : ∀ s ∈ dirSlots v (view v m) c, v.Has s := fun s hs => dirSlots_has (.inr hc) hs
  rw [hl] at hrange
  have hover := overList_empty (m := m) hv hrange
  rw [← hareas] at hover
  have hslots := emptyEntries_slots (m := m) hhas
  rw [dirSlots] at hslots
  rw [hslots] at hover
  have hrun : Returns (fun n => directoryIsEmpty v n m c)
      (overList (emptyCluster v m) (fun _ _ => some true) c l ()) := followChain_chain hc hl ()
  rw [hover] at hrun
  exact hrun

/-! ## Giving up an entry -/

theorem SlotOnly.symm (hs : SlotOnly s d d') : SlotOnly s d' d :=
  ⟨hs.fat.symm, fun r i hi => (hs.cell r i hi).symm⟩

theorem isFree_marked {e : Entry} (hlen : e.name.length = 11) :
    ({ e with name := e.name.set 0 entryFree } : Entry).isFree = true := by
  have h0 : (e.name.set 0 entryFree)[0]? = some entryFree := getElem?_set_self (by omega)
  rw [Entry.isFree]
  dsimp only
  rw [h0]
  rfl

theorem markFree_spec (hv : v.Fits) (hs : v.Has s) (m : Mem) :
    SlotOnly s (view v m) (view v (writeBytes m (v.slotAddr s) [entryFree])) ∧
      ((view v (writeBytes m (v.slotAddr s) [entryFree])).entry s).isFree = true := by
  rw [view_markFree hv hs]
  refine ⟨.modify markFree_agreeOff, ?_⟩
  rw [Disk.entry_modify, readEntry_markFree]
  exact isFree_marked (length_readEntry_name _ _)

/-- The entry `s` gives up its clusters and is marked as free; in between stands the disk `d₁`. -/
structure Removed (v : Volume) (d d₁ d' : Disk) (h : Nat) (s : Slot) : Prop where
  released : Rechains v d d₁ h s (chainOf v d (d.entry s).firstCluster) []
  entry : d₁.entry s = { d.entry s with firstCluster := 0, fileSize := 0 }
  empty : (d.entry s).isDirectory = true → 2 ≤ (d.entry s).firstCluster → kids v d (d.entry s).firstCluster = []
  freed : Frees v d₁ d' h s

theorem emptyDir_bare {d₁ : Disk} (hbare : d₁.entry s = { d.entry s with firstCluster := 0, fileSize := 0 }) :
    (d.entry s).isDirectory = true → 2 ≤ (d₁.entry s).firstCluster → EmptyDir v d₁ (d₁.entry s).firstCluster := by
  intro _ hge
  rw [hbare] at hge
  exact absurd hge (Nat.not_succ_le_zero 1)

inductive RemoveRun (v : Volume) (m m' : Mem) (path : Str) (ok : Bool) : Prop
  | idle (hm : m' = m) (hok : ok = false)
  | removed {h : Nat} {s : Slot} {n : Name} {d₁ : Disk} (hleaf : walkLeaf v (view v m) path = some (h, n))
      (hfind : findEntry v (view v m) h n = some s) (hrem : Removed v (view v m) d₁ (view v m') h s) (hok : ok = true)

def dropEntry (v : Volume) (fuel : Nat) (m : Mem) (p : Nat) : Option (Mem × Bool) :=
  (freeChain v fuel m (readEntry m p).firstCluster).map fun m => (writeBytes m p [entryFree], true)

/-- What `fatfs_remove` does with the entry that it has found. -/
def removeEntry (v : Volume) (fuel : Nat) (m : Mem) (p : Nat) : Option (Mem × Bool) :=
  if (readEntry m p).isDirectory then
    if (readEntry m p).firstCluster < 2 ∧ v.fatType = .fat16 then some (m, false)
    else
      (directoryIsEmpty v fuel m (readEntry m p).firstCluster).bind fun empty =>
        if empty = some true then dropEntry v fuel m p else some (m, false)
  else dropEntry v fuel m p

section Entry

variable (hv : v.Fits) (ho : Owned v (view v m)) (hr : Reach v (view v m) h) (hs : s ∈ kids v (view v m) h)

include hv ho hr hs

theorem dropEntry_spec (hempty : ((view v m).entry s).isDirectory = true → 2 ≤ ((view v m).entry s).firstCluster →
      kids v (view v m) ((view v m).entry s).firstCluster = []) :
    ∃ m' d₁, Returns (fun n => dropEntry v n m (v.slotAddr s)) (m', true) ∧
      Removed v (view v m) d₁ (view v m') h s ∧ Stored v m m' := by
  have hhas := ho.has_of_mem hr (mem_kids_slot hs)
  obtain ⟨m₁, m₂, hfree, hm₂, g, hentry, hconf⟩ := release_spec hv ho hr hs
  obtain ⟨honly₂, -⟩ := setFields_spec hv hhas m₁ 0 0
  obtain ⟨honly, hfreed⟩ := markFree_spec hv hhas m₁
  rw [hm₂] at honly₂
  have hreach : Reach v (view v m₂) h :=
    (g.reach_iff ho hempty (fun hd hge => (emptyDir_bare hentry hd hge).kids)).mpr (.inl ⟨hr, g.other_parent ho⟩)
  unfold dropEntry
  rw [readEntry_view hhas]
  refine ⟨_, view v m₂, hfree.map, ⟨g, hentry, hempty, hreach, g.kid_kept ho, ?_, honly₂.symm.trans honly, hfreed⟩,
    hconf.trans (.of_slot markFree_agreeOff hv hhas)⟩
  rw [hentry]
  exact Nat.zero_lt_two

theorem removeEntry_spec : ∃ r, Returns (fun n => removeEntry v n m (v.slotAddr s)) r ∧
    (r = (m, false) ∨ ∃ d₁, r.2 = true ∧ Removed v (view v m) d₁ (view v r.1) h s) ∧ Stored v m r.1 := by
  have hdrop := dropEntry_spec hv ho hr hs
  have hread := readEntry_view (ho.has_of_mem hr (mem_kids_slot hs)) m
  unfold removeEntry
  rw [hread]
  by_cases hdir : ((view v m).entry s).isDirectory = true
  · simp only [if_pos hdir]
    by_cases halias : ((view v m).entry s).firstCluster < 2 ∧ v.fatType = .fat16
    · simp only [if_pos halias]
      exact ⟨(m, false), .of_some _, .inl rfl, .refl v m⟩
    · simp only [if_neg halias]
      rcases ho.entry_chain hr hs with hbare | hchain
      · -- FAT32 takes a directory without clusters for an empty one
        obtain ⟨m', d₁, hret, hrem, hconf⟩ := hdrop (fun _ hge => absurd hge (by omega))
        have hempty : Returns (fun n => directoryIsEmpty v n m ((view v m).entry s).firstCluster) (some true) := by
          refine ⟨0, fun n _ => ?_⟩
          dsimp only
          rw [directoryIsEmpty, followChain, follow_stop]
          exact decide_eq_true hbare
        refine ⟨(m', true), hempty.bind ?_, .inr ⟨d₁, rfl, hrem⟩, hconf⟩
        simpa using hret
      · have hempty := directoryIsEmpty_spec hv hchain
        cases hkids : (kids v (view v m) ((view v m).entry s).firstCluster).isEmpty with
        | true =>
          obtain ⟨m', d₁, hret, hrem, hconf⟩ := hdrop (fun _ _ => List.isEmpty_iff.mp hkids)
          rw [hkids] at hempty
          refine ⟨(m', true), hempty.bind ?_, .inr ⟨d₁, rfl, hrem⟩, hconf⟩
          simpa using hret
        | false =>
          rw [hkids] at hempty
          refine ⟨(m, false), hempty.bind ?_, .inl rfl, .refl v m⟩
          simpa using Returns.of_some (m, false)
  · obtain ⟨m', d₁, hret, hrem, hconf⟩ := hdrop (fun hd => absurd hd hdir)
    simp only [if_neg hdir]
    exact ⟨(m', true), hret, .inr ⟨d₁, rfl, hrem⟩, hconf⟩

end Entry

theorem fatfsRemove_spec (hv : v.Fits) (ho : Owned v (view v m)) (path : Str) :
    ∃ r, Returns (fun k => fatfsRemove v k m path) r ∧ RemoveRun v m r.1 path r.2 ∧ Stored v m r.1 := by
  cases hleaf : walkLeaf v (view v m) path with
  | none => exact ⟨(m, false), (locate_none hv ho hleaf).bind (.of_some _), .idle rfl rfl, .refl v m⟩
  | some leaf =>
    obtain ⟨h, n⟩ := leaf
    obtain ⟨hr, hn⟩ := walkLeaf_spec hleaf
    obtain ⟨scan, hlocate, hscan⟩ := locate_some hv ho hleaf
    have hfound := hscan.found_eq hn
    cases hfind : findEntry v (view v m) h n with
    | none =>
      rw [hfind, map_none] at hfound
      refine ⟨(m, false), hlocate.bind ?_, .idle rfl rfl, .refl v m⟩
      dsimp only
      rw [bind_some, hfound]
      exact .of_some _
    | some s =>
      rw [hfind, map_some] at hfound
      have hs := (mem_of_findEntry hfind).1
      obtain ⟨r, hret, hrun, hconf⟩ := removeEntry_spec hv ho (hr.of_kid hs) hs
      refine ⟨r, hlocate.bind ?_, ?_, hconf⟩
      · dsimp only
        rw [bind_some, hfound]
        exact hret
      · rcases hrun with rfl | ⟨d₁, hok, hrem⟩
        · exact .idle rfl rfl
        · exact .removed hleaf hfind hrem hok

section Removed

variable {d₁ : Disk} (hrem : Removed v d d₁ d' h s)

include hrem

theorem Removed.sound (hs : Sound v d) : Sound v d' :=
  hrem.freed.sound (hrem.released.sound hs hrem.empty (emptyDir_bare hrem.entry))

theorem Removed.owned₁ (ho : Owned v d) : Owned v d₁ := hrem.released.owned ho hrem.empty (emptyDir_bare hrem.entry)

end Removed

end Remove

end ProOS.Fat
