import ProOS.Fat.ChainEffects
import ProOS.Fat.Table

namespace ProOS.Fat

open ProOS.Framework Option List

/-! ## Clusters -/

namespace Disk

def clear (d : Disk) (c : Nat) : Disk := { d with cell := Function.update d.cell c (fun _ => 0) }

def release (d : Disk) (l : List Nat) : Disk := { d with fat := fun x => if x ∈ l then 0 else d.fat x }

@[simp] theorem clear_fat (d : Disk) (c : Nat) : (d.clear c).fat = d.fat := rfl
@[simp] theorem release_cell (d : Disk) (l : List Nat) : (d.release l).cell = d.cell := rfl

@[simp] theorem release_nil (d : Disk) : d.release [] = d := by
  simp [release]

theorem clear_cell (d : Disk) (c r : Nat) : (d.clear c).cell r = if r = c then fun _ => 0 else d.cell r := by
  simp [clear, Function.update_apply]

theorem release_fat (d : Disk) (l : List Nat) (x : Nat) : (d.release l).fat x = if x ∈ l then 0 else d.fat x := rfl

end Disk

section Clusters

variable {v : Volume} {m : Mem} {c : Nat}

theorem Volume.Fits.lt_fatLimit (hv : v.Fits) (hc : v.InRange c) : c < fatLimit v := by
  have hlt := hc.2
  unfold fatLimit
  cases ht : v.fatType with
  | fat16 =>
    have := hv.fat16 ht
    show c < 2 ^ 16
    omega
  | fat32 =>
    have := (hv.fat32 ht).1
    show c < 2 ^ 28
    omega

theorem view_zeroCluster (hv : v.Fits) (hc : v.InRange c) (m : Mem) :
    view v (zeroCluster v m c) = (view v m).clear c := by
  have hfat : (view v (zeroCluster v m c)).fat = (view v m).fat :=
    funext (readFat_congr hv (.inr hc) (fun _ ha => zeroCluster_off hv hc ha))
  refine Disk.ext hfat ?_
  funext r i
  rw [Disk.clear_cell]
  split
  · rename_i hrc
    rw [hrc]
    by_cases hi : i < v.len c
    · rw [view_cell (.inr hc) hi, zeroCluster_at hv hc hi]
    · exact if_neg (fun hin => hi hin.2)
  · rename_i hrc
    show (if _ then _ else _) = if _ then _ else _
    split
    · rename_i hr
      have := hv.areas_apart (.inr hc) hr.1 (Ne.symm hrc)
      exact zeroCluster_off hv hc (by omega)
    · rfl

theorem allocateCluster_spec (hv : v.Fits) (m : Mem) :
    (allocateCluster v m = (m, 0) ∧ ∀ c, v.InRange c → (view v m).fat c ≠ 0) ∨
      ∃ m' c, allocateCluster v m = (m', c) ∧ v.InRange c ∧ (view v m).fat c = 0 ∧
        view v m' = ((view v m).setFat c (eocMarker v)).clear c ∧ Stored v m m' := by
  rcases allocateCluster_cases hv m with ⟨ha, hnone⟩ | ⟨c, ha, hc, hfree, -⟩
  · exact .inl ⟨ha, hnone⟩
  · refine .inr ⟨_, c, ha, hc, hfree, ?_, (writeFat_stored hv m c _).trans (zeroCluster_stored hv hc _)⟩
    rw [view_zeroCluster hv hc, view_writeFat hv hc.2 (eocMarker_lt v)]

theorem followChain_chain {σ ρ : Type} {body : Nat → σ → ρ ⊕ σ} {leave : Nat → σ → ρ} {l : List Nat}
    (hc : HasChain v (view v m) c) (hl : chainOf v (view v m) c = c :: l) (s : σ) :
    Returns (fun n => followChain v m body leave n c s) (overList body leave c l s) := by
  have hlink := hc.linked
  rw [hl] at hlink
  refine ⟨l.length + 1, ?_⟩
  intro n hn
  refine follow_linked hlink.2 (fun z hz => ?_) hn
  exact decide_eq_false (not_lt.mpr (hc.range z (hl ▸ hz)).1)

theorem onPath_iff_mem {l : List Nat} (hl : Linked ((view v m).next v) (some c) l) (hr : ∀ x ∈ l, v.InRange x)
    {x : Nat} : OnPath v m c x ↔ x ∈ l := by
  have hlink : ∀ {a b}, (view v m).next v a = some b ↔ isEoc v (readFat v m a) = false ∧ readFat v m a = b := by
    intro a b
    cases he : isEoc v (readFat v m a) <;> simp [Disk.next, view, he]
  constructor
  · intro h
    induction h with
    | start _ => exact mem_of_mem_head? hl.head_eq.symm
    | @link a _ he _ ih =>
      rcases hl.next_mem ih with hnone | ⟨b, hb, hsome⟩
      · simp [Disk.next, view, he] at hnone
      · rwa [(hlink.mp hsome).2]
  · have hmeets : ∀ {l : List Nat} {o : Option Nat}, Linked ((view v m).next v) o l → (∀ y ∈ l, v.InRange y) →
        (∀ a, o = some a → v.InRange a → OnPath v m c a) → x ∈ l → OnPath v m c x := by
      intro l
      induction l with
      | nil => exact fun _ _ _ hx => by cases hx
      | cons a l ih =>
        intro o hl hr ho hx
        have ha : OnPath v m c a := ho a hl.1 (hr a mem_cons_self)
        rcases mem_cons.mp hx with rfl | hx
        · exact ha
        · refine ih hl.2 (fun y hy => hr y (mem_cons_of_mem a hy)) (fun b hb hrange => ?_) hx
          obtain ⟨he, rfl⟩ := hlink.mp hb
          exact .link ha he hrange
    exact hmeets hl hr (fun a ha hrange => Option.some.inj ha ▸ .start (Option.some.inj ha ▸ hrange))

theorem freeChain_spec (hv : v.Fits) (hc : c < 2 ∨ HasChain v (view v m) c) :
    ∃ m', Returns (fun n => freeChain v n m c) m' ∧ view v m' = (view v m).release (chainOf v (view v m) c) ∧
      Stored v m m' := by
  have hpath : ∀ x, OnPath v m c x ↔ x ∈ chainOf v (view v m) c := by
    intro x
    rcases hc with hlow | hc
    · rw [chainOf, if_pos hlow]
      exact iff_of_false (fun h => absurd h.start_range.1 (by omega)) not_mem_nil
    · exact onPath_iff_mem hc.linked hc.range
  obtain ⟨m', n₀, hret⟩ := freeChain_terminates hv.copies_pos m c
  obtain ⟨hfreed, hstored⟩ := freeChain_freed hv (hret n₀ le_rfl)
  refine ⟨m', ⟨n₀, hret⟩, Disk.ext ?_ ?_, hstored⟩
  · funext x
    rw [Disk.release_fat]
    split
    · rename_i hx
      exact hfreed.readFat_zero hv ((hpath x).mpr hx)
    · rename_i hx
      exact hfreed.readFat_other hv (fun h => hx ((hpath x).mp h))
  · funext r i
    show (if _ then _ else _) = if _ then _ else _
    split
    · rename_i hr
      exact hfreed.area hv hr.1 i
    · rfl

end Clusters

/-! ## Scanning -/

theorem isKid_eq {e : Entry} (hend : e.isEnd = false) : e.isKid = !(e.isFree || e.isVolume || nameIsDot e.name) := by
  rw [Entry.isKid, Entry.isLive, hend]
  cases e.isFree <;> cases e.isVolume <;> rfl

section Scan

variable {v : Volume} {m : Mem} {target : Option Name} {ss : List Slot} {c h : Nat} {s : Slot}

theorem scanEntries_lastCluster (m : Mem) (target : Option Name) (ps : List Nat) (scan : DirScan) :
    (scanEntries m target ps scan).2.lastCluster = scan.lastCluster := by
  induction ps generalizing scan with
  | nil => rfl
  | cons p ps ih =>
    unfold scanEntries
    dsimp only
    split
    · split <;> rfl
    split
    · rw [ih]
      split <;> rfl
    split
    · exact ih scan
    split
    · rfl
    · exact ih scan

theorem scanEntries_append (m : Mem) (target : Option Name) (ps qs : List Nat) (scan : DirScan) :
    scanEntries m target (ps ++ qs) scan = if (scanEntries m target ps scan).1 then scanEntries m target ps scan
      else scanEntries m target qs (scanEntries m target ps scan).2 := by
  induction ps generalizing scan with
  | nil => rfl
  | cons p ps ih =>
    rw [cons_append, scanEntries, scanEntries]
    split
    · rfl
    split
    · exact ih _
    split
    · exact ih _
    split
    · rfl
    · exact ih _

def Disk.hits (d : Disk) (target : Option Name) (s : Slot) : Bool :=
  (d.entry s).isLive && decide (target = some (d.entry s).name)

theorem scanEntries_cons {t : Slot} (ht : v.Has t) (hend : ((view v m).entry t).isEnd = false) (free : Option Nat)
    (last : Nat) :
    scanEntries m target ((t :: ss).map v.slotAddr) ⟨none, free, none, last⟩ =
      if (view v m).hits target t then (true, ⟨some (v.slotAddr t), free, none, last⟩)
      else scanEntries m target (ss.map v.slotAddr)
        ⟨none, if ((view v m).entry t).isFree then free.or (some (v.slotAddr t)) else free, none, last⟩ := by
  rw [map_cons, scanEntries, readEntry_view ht]
  dsimp only
  rw [hend, if_neg Bool.false_ne_true, Disk.hits, Entry.isLive, hend]
  cases hfree : ((view v m).entry t).isFree with
  | true => cases free <;> rfl
  | false =>
    cases hvol : ((view v m).entry t).isVolume with
    | true => rfl
    | false => simp

theorem scanEntries_found (hh : ∀ s ∈ ss, v.Has s)
    (hf : (ss.takeWhile (fun s => !((view v m).entry s).isEnd)).find? ((view v m).hits target) = some s)
    (free : Option Nat) (last : Nat) :
    ∃ free', scanEntries m target (ss.map v.slotAddr) ⟨none, free, none, last⟩ =
      (true, ⟨some (v.slotAddr s), free', none, last⟩) := by
  induction ss generalizing free with
  | nil => cases hf
  | cons t ss ih =>
    rw [takeWhile_cons] at hf
    cases hend : ((view v m).entry t).isEnd with
    | true =>
      rw [hend] at hf
      cases hf
    | false =>
      rw [hend, Bool.not_false, if_pos rfl, find?_cons] at hf
      rw [scanEntries_cons (hh t mem_cons_self) hend]
      cases hhit : (view v m).hits target t with
      | true =>
        rw [hhit] at hf
        cases hf
        exact ⟨free, rfl⟩
      | false =>
        rw [hhit] at hf
        exact ih (fun s hs => hh s (mem_cons_of_mem t hs)) hf _

theorem scanEntries_missing (hh : ∀ s ∈ ss, v.Has s)
    (hf : (ss.takeWhile (fun s => !((view v m).entry s).isEnd)).find? ((view v m).hits target) = none)
    (free : Option Nat) (last : Nat) :
    scanEntries m target (ss.map v.slotAddr) ⟨none, free, none, last⟩ =
      ((ss.dropWhile (fun s => !((view v m).entry s).isEnd)).head?.isSome,
        ⟨none, free.or (((ss.takeWhile (fun s => !((view v m).entry s).isEnd)).find?
            (fun s => ((view v m).entry s).isFree)).map v.slotAddr),
          (ss.dropWhile (fun s => !((view v m).entry s).isEnd)).head?.map v.slotAddr, last⟩) := by
  induction ss generalizing free with
  | nil => simp [scanEntries]
  | cons t ss ih =>
    have ht := hh t mem_cons_self
    rw [takeWhile_cons] at hf ⊢
    rw [dropWhile_cons]
    cases hend : ((view v m).entry t).isEnd with
    | true => simp [scanEntries, readEntry_view ht, hend]
    | false =>
      rw [hend, Bool.not_false, if_pos rfl, find?_cons] at hf
      rw [scanEntries_cons ht hend, Bool.not_false, if_pos rfl, if_pos rfl, find?_cons]
      cases hhit : (view v m).hits target t with
      | true =>
        rw [hhit] at hf
        cases hf
      | false =>
        rw [hhit] at hf
        rw [if_neg Bool.false_ne_true, ih (fun s hs => hh s (mem_cons_of_mem t hs)) hf]
        cases ((view v m).entry t).isFree with
        | true => cases free <;> rfl
        | false => rfl

/-- What `fatfs_dir_scan` finds in the directory `h`. -/
structure ScanSpec (v : Volume) (d : Disk) (h : Nat) (target : Option Name) (scan : DirScan) : Prop where
  found : scan.found = ((usedSlots v d h).find? (d.hits target)).map v.slotAddr
  free : scan.found = none →
    scan.freeEntry = ((usedSlots v d h).find? (fun s => (d.entry s).isFree)).map v.slotAddr
  zero : scan.found = none →
    scan.zeroEntry = ((dirSlots v d h).dropWhile (fun s => !(d.entry s).isEnd)).head?.map v.slotAddr
  last : scan.found = none → scan.zeroEntry = none → 2 ≤ h → ∃ init, chainOf v d h = init ++ [scan.lastCluster]

/-- The root directory and every directory with a chain can be scanned; those numbered 0 and 1 otherwise
are empty. -/
def Readable (v : Volume) (d : Disk) (h : Nat) : Prop := h < 2 ∨ HasChain v d h

theorem entryPtrs_eq (v : Volume) (r n : Nat) :
    entryPtrs (v.addr r) n = ((List.range n).map (Prod.mk r)).map v.slotAddr := by
  rw [entryPtrs, List.map_map]
  rfl

theorem slotCount_root (v : Volume) : v.slotCount 0 = v.rootEntries := by
  rw [Volume.slotCount, Volume.len, if_pos rfl]
  omega

theorem slotCount_cluster (hc : v.InRange c) : v.slotCount c = entriesPerCluster v := by
  rw [Volume.slotCount, Volume.Fits.len_cluster hc, entriesPerCluster]

theorem slotsIn_cons (r : Nat) (l : List Nat) :
    slotsIn v (r :: l) = (List.range (v.slotCount r)).map (Prod.mk r) ++ slotsIn v l := flatMap_cons

theorem clusterPtrs_eq (hc : v.InRange c) :
    entryPtrs (v.addr c) (entriesPerCluster v) = (slotsIn v [c]).map v.slotAddr := by
  rw [entryPtrs_eq, ← slotCount_cluster hc, slotsIn_cons]
  simp [slotsIn]

theorem slotAddrs_cons (y : Nat) (l : List Nat) : (slotsIn v (c :: y :: l)).map v.slotAddr =
    (slotsIn v [c]).map v.slotAddr ++ (slotsIn v (y :: l)).map v.slotAddr := by
  rw [← map_append, ← slotsIn_append]
  rfl

variable (target) in
theorem overList_scan (hv : v.Fits) {xs : List Nat} (hr : ∀ x ∈ c :: xs, v.InRange x) (scan : DirScan) (prev : Nat) :
    ∃ last, overList (scanCluster v m target) (scanEnd h) c xs (scan, prev) =
        some { (scanEntries m target ((slotsIn v (c :: xs)).map v.slotAddr) scan).2 with lastCluster := last } ∧
      ((scanEntries m target ((slotsIn v (c :: xs)).map v.slotAddr) scan).1 = false →
        ∃ init, c :: xs = init ++ [last]) := by
  induction xs generalizing c scan prev with
  | nil =>
    have hc := hr c (by simp)
    rw [overList, scanCluster, hv.clusterPtr_eq hc]
    dsimp only
    rw [clusterPtrs_eq hc]
    cases hend : (scanEntries m target ((slotsIn v [c]).map v.slotAddr) scan).1 with
    | true => exact ⟨c, rfl, fun hf => by cases hf⟩
    | false =>
      refine ⟨c, ?_, fun _ => ⟨[], rfl⟩⟩
      simp [scanEnd, hc.1]
  | cons y ys ih =>
    have hc := hr c (by simp)
    rw [overList, scanCluster, hv.clusterPtr_eq hc]
    dsimp only
    rw [clusterPtrs_eq hc, slotAddrs_cons, scanEntries_append]
    cases hend : (scanEntries m target ((slotsIn v [c]).map v.slotAddr) scan).1 with
    | true =>
      refine ⟨c, rfl, fun hf => ?_⟩
      rw [if_pos rfl, hend] at hf
      cases hf
    | false =>
      obtain ⟨last, h₁, h₂⟩ := ih (fun x hx => hr x (mem_cons_of_mem c hx))
        (scanEntries m target ((slotsIn v [c]).map v.slotAddr) scan).2 c
      refine ⟨last, ?_, fun hf => ?_⟩
      · simpa using h₁
      · obtain ⟨init, hinit⟩ := h₂ (by simpa using hf)
        exact ⟨c :: init, by rw [hinit]; rfl⟩

theorem dirSlots_has (hr : Readable v (view v m) h) (hs : s ∈ dirSlots v (view v m) h) : v.Has s := by
  obtain ⟨hm, hlt⟩ := mem_slotsIn.mp hs
  refine ⟨?_, hlt⟩
  unfold dirAreas at hm
  split at hm
  · rename_i h0
    rw [mem_singleton] at hm
    exact .inl ⟨hm, h0.2⟩
  · rcases hr with hlt | hc
    · rw [chainOf, if_pos hlt] at hm
      cases hm
    · exact .inr (hc.range _ hm)

theorem scan_slots (hr : Readable v (view v m) h) (target : Option Name) (last : Nat) {scan : DirScan}
    (hscan : ∃ k, scan = { (scanEntries m target ((dirSlots v (view v m) h).map v.slotAddr)
      ⟨none, none, none, last⟩).2 with lastCluster := k } ∧
      ((scanEntries m target ((dirSlots v (view v m) h).map v.slotAddr) ⟨none, none, none, last⟩).1 = false →
        2 ≤ h → ∃ init, chainOf v (view v m) h = init ++ [k])) : ScanSpec v (view v m) h target scan := by
  obtain ⟨k, rfl, hlast⟩ := hscan
  have hh : ∀ s ∈ dirSlots v (view v m) h, v.Has s := fun s hs => dirSlots_has hr hs
  cases hf : (usedSlots v (view v m) h).find? ((view v m).hits target) with
  | some s =>
    obtain ⟨f, he⟩ := scanEntries_found hh hf none last
    rw [he]
    have hsome : ∀ {p : Prop}, some (v.slotAddr s) = none → p := fun hn => by cases hn
    exact ⟨by rw [hf]; rfl, hsome, hsome, hsome⟩
  | none =>
    have he := scanEntries_missing hh hf none last
    rw [he] at hlast ⊢
    refine ⟨by rw [hf]; rfl, fun _ => rfl, fun _ => rfl, ?_⟩
    intro _ hz hge
    apply hlast _ hge
    dsimp only at hz ⊢
    rw [map_eq_none_iff] at hz
    rw [hz]
    rfl

theorem dirScan_spec (hv : v.Fits) (hr : Readable v (view v m) h) (target : Option Name) :
    ∃ scan, Returns (fun n => dirScan v n m h target) (some scan) ∧ ScanSpec v (view v m) h target scan := by
  by_cases hroot : h = 0 ∧ v.fatType = .fat16
  · obtain ⟨rfl, ht⟩ := hroot
    have hslots : entryPtrs (v.addr 0) v.rootEntries = (dirSlots v (view v m) 0).map v.slotAddr := by
      rw [entryPtrs_eq, dirSlots, dirAreas_zero ht, slotsIn_cons, slotCount_root]
      simp [slotsIn]
    refine ⟨(scanEntries m target ((dirSlots v (view v m) 0).map v.slotAddr) ⟨none, none, none, 0⟩).2, ⟨0, ?_⟩,
      scan_slots hr target 0 ⟨0, ?_, fun _ hge => by omega⟩⟩
    · intro n _
      dsimp only
      rw [dirScan, if_pos ⟨rfl, ht⟩, hv.rootPtr_eq ht]
      dsimp only
      rw [hslots]
      rfl
    · have hlast := scanEntries_lastCluster m target ((dirSlots v (view v m) 0).map v.slotAddr)
        ⟨none, none, none, 0⟩
      generalize scanEntries m target ((dirSlots v (view v m) 0).map v.slotAddr) ⟨none, none, none, 0⟩ = x at hlast
      obtain ⟨b, f, e, z, k⟩ := x
      obtain rfl : k = 0 := hlast
      rfl
  · have hareas : dirAreas v (view v m) h = chainOf v (view v m) h := if_neg hroot
    rcases hr with hlt | hc
    · -- the loop does not start
      have hslots : dirSlots v (view v m) h = [] := by
        rw [dirSlots, hareas, chainOf, if_pos hlt]
        rfl
      refine ⟨⟨none, none, none, h⟩, ⟨0, ?_⟩, scan_slots (.inl hlt) target 0 ⟨h, ?_, fun _ hge => by omega⟩⟩
      · intro n _
        dsimp only
        rw [dirScan, if_neg hroot, followChain]
        rw [if_neg (by omega), follow_stop (by simpa using hlt), scanEnd, if_neg (by omega), if_pos rfl]
        rfl
      · rw [hslots]
        rfl
    · obtain ⟨l, hl, -⟩ := hc.split
      have hrange : ∀ x ∈ h :: l, v.InRange x := hl ▸ hc.range
      have hslots : dirSlots v (view v m) h = slotsIn v (h :: l) := by rw [dirSlots, hareas, hl]
      obtain ⟨last, h₁, h₂⟩ := overList_scan (m := m) (h := h) target hv hrange ⟨none, none, none, h⟩ 0
      refine ⟨{ (scanEntries m target ((slotsIn v (h :: l)).map v.slotAddr) ⟨none, none, none, h⟩).2 with
        lastCluster := last }, ?_, scan_slots (.inr hc) target h ⟨last, ?_, ?_⟩⟩
      · simp only [dirScan, if_neg hroot, if_pos hc.two_le]
        exact h₁ ▸ followChain_chain hc hl _
      · rw [hslots]
      · intro hf _
        rw [hslots] at hf
        rw [hl]
        exact h₂ hf

theorem hits_findEntry {d : Disk} {n : Name} (hn : ShortName n) :
    (usedSlots v d h).find? (d.hits (some n)) = findEntry v d h n := by
  rw [findEntry_used]
  apply find?_congr
  intro t _
  rw [Disk.hits, Bool.eq_iff_iff, Bool.and_eq_true, Bool.and_eq_true, decide_eq_true_iff, beq_iff_eq, some_inj]
  constructor
  · rintro ⟨hl, rfl⟩
    exact ⟨by simp [Entry.isKid, hl, hn.not_dot], rfl⟩
  · rintro ⟨hk, rfl⟩
    exact ⟨isKid_isLive hk, rfl⟩

theorem ScanSpec.found_eq {d : Disk} {n : Name} {scan : DirScan} (hs : ScanSpec v d h (some n) scan)
    (hn : ShortName n) : scan.found = (findEntry v d h n).map v.slotAddr := by
  rw [hs.found, hits_findEntry hn]

end Scan

end ProOS.Fat
