import ProOS.Fat.Frame

namespace ProOS.Fat

open ProOS.Framework Function Option List

/-! ## A new entry -/

/-- The directory `h`, grown by a cluster if need be, has got the entry `s` with a name that it did not have. -/
structure Made (v : Volume) (d d' : Disk) (h : Nat) (s : Slot) (n : Name) (attr : UInt8) : Prop where
  filled : ∃ d₁, (d₁ = d ∨ ∃ c, GrowsDir v d d₁ h c) ∧ Fills v d₁ d' h s
  entry : d'.entry s = ⟨n, attr, 0, 0⟩
  missing : findEntry v d h n = none
  short : ShortName n

section Made

variable {v : Volume} {m : Mem} {d d' d₁ : Disk} {a c h : Nat} {s t : Slot} {n : Name} {attr : UInt8}

theorem isKid_new (hn : ShortName n) (ha : attr = attrArchive ∨ attr = attrDirectory) :
    (Entry.mk n attr 0 0).isKid = true := by
  obtain ⟨x, hx, h0, hE5, -⟩ := hn.head
  have hdot := hn.not_dot
  have hvol : (Entry.mk n attr 0 0).isVolume = false := by
    rcases ha with rfl | rfl
    · show (attrArchive == attrLfn || attrArchive &&& attrVolumeId != 0) = false
      decide
    · show (attrDirectory == attrLfn || attrDirectory &&& attrVolumeId != 0) = false
      decide
  have hend : (Entry.mk n attr 0 0).isEnd = false := by
    simp only [Entry.isEnd, hx]
    exact beq_false_of_ne (fun he => h0 (some.inj he))
  have hfree : (Entry.mk n attr 0 0).isFree = false := by
    simp only [Entry.isFree, hx]
    exact beq_false_of_ne (fun he => hE5 (some.inj he))
  simp [Entry.isKid, Entry.isLive, hend, hfree, hvol, hdot]

theorem not_live_of_missing (hnone : findEntry v d h n = none) (hn : ShortName n) (ht : t ∈ lives v d h) :
    (d.entry t).name ≠ n := by
  rintro rfl
  obtain ⟨hu, hlive⟩ := mem_filter.mp ht
  have hkid : (d.entry t).isKid = true := by
    rw [Entry.isKid, hlive, hn.not_dot]
    rfl
  have hno := find?_eq_none.mp hnone t (mem_filter.mpr ⟨hu, hkid⟩)
  simp at hno

namespace Made

theorem owned₁ (hv : v.Fits) (ho : Owned v d) (hg : d₁ = d ∨ ∃ c, GrowsDir v d d₁ h c) : Owned v d₁ := by
  rcases hg with rfl | ⟨c, g⟩
  · exact ho
  · exact g.owned hv ho

section

variable (hm : Made v d d' h s n attr)

include hm

theorem owned (hv : v.Fits) (ho : Owned v d) : Owned v d' := by
  obtain ⟨d₁, hg, f⟩ := hm.filled
  exact f.owned (owned₁ hv ho hg)

theorem sound (hv : v.Fits) (hs : Sound v d) : Sound v d' := by
  obtain ⟨d₁, hg, f⟩ := hm.filled
  have hs₁ : Sound v d₁ := by
    rcases hg with rfl | ⟨c, g⟩
    · exact hs
    · exact g.sound hv hs
  have hnone : findEntry v d₁ h n = none := by
    rcases hg with rfl | ⟨c, g⟩
    · exact hm.missing
    · rw [(g.sameDir hv hs.toOwned g.reach).findEntry]
      exact hm.missing
  refine f.sound hs₁ (fun t ht => ?_)
  rw [hm.entry]
  exact not_live_of_missing hnone hm.short ht

theorem reach_iff (hv : v.Fits) (ho : Owned v d) : Reach v d' a ↔ Reach v d a := by
  obtain ⟨d₁, hg, f⟩ := hm.filled
  rw [(f.unowned (owned₁ hv ho hg)).reach_iff (owned₁ hv ho hg)]
  rcases hg with rfl | ⟨c, g⟩
  · exact Iff.rfl
  · exact g.reach_iff hv ho

theorem reach (hv : v.Fits) (ho : Owned v d) : Reach v d' h := by
  obtain ⟨d₁, hg, f⟩ := hm.filled
  exact ((f.unowned (owned₁ hv ho hg)).reach_iff (owned₁ hv ho hg)).mpr f.reach

theorem kid (hv : v.Fits) (ho : Owned v d) : s ∈ kids v d' h := by
  obtain ⟨d₁, hg, f⟩ := hm.filled
  exact (f.mem_kids (owned₁ hv ho hg)).mpr (.inr rfl)

theorem not_kid (hv : v.Fits) (ho : Owned v d) (hr : Reach v d a) : s ∉ kids v d a := by
  intro hk
  obtain ⟨d₁, hg, f⟩ := hm.filled
  have hk₁ : s ∈ kids v d₁ a := by
    rcases hg with rfl | ⟨c, g⟩
    · exact hk
    · rwa [(g.sameDir hv ho hr).kids]
  have hnot := not_live_not_kid f.not_live
  rw [mem_kids_isKid hk₁] at hnot
  cases hnot

theorem frame (hv : v.Fits) (ho : Owned v d) : Frame v d d' s (fun _ => True) := by
  obtain ⟨d₁, hg, f⟩ := hm.filled
  have ho₁ := owned₁ hv ho hg
  have hfill := (f.unowned ho₁).frame ho₁ (fun _ => True)
  rcases hg with rfl | ⟨c, g⟩
  · exact hfill
  · exact (g.frame hv ho s (fun _ => True)).trans hfill (fun _ _ _ => trivial)

theorem freeCount_le : freeCount v d ≤ freeCount v d' + 1 := by
  obtain ⟨d₁, hg, f⟩ := hm.filled
  have hsame : freeCount v d' = freeCount v d₁ := by
    rw [freeCount, freeCount, f.only.fat]
  rw [hsame]
  rcases hg with rfl | ⟨c, g⟩
  · exact Nat.le_succ _
  · obtain ⟨init, last, hl, hfat⟩ := g.link
    refine (freeCount_take g.range g.free ?_ ?_).le
    · rw [hfat, update_self]
      exact eocMarker_ne_zero v
    · intro x hx
      rw [hfat, update_of_ne hx]
      by_cases hxl : x = last
      · rw [hxl, update_self]
        have hlast : d.fat last ≠ 0 := g.chain.fat_ne_zero (by simp [hl])
        have hc := g.range.1
        exact ⟨fun h0 => by omega, fun h0 => absurd h0 hlast⟩
      · rw [update_of_ne hxl]

end

end Made

theorem TakesSlot.made {d₂ : Disk} (ht : TakesSlot v d d₁ d₂ h s) (hv : v.Fits) (ho : Owned v d) (honly : SlotOnly s d₂ d')
    (hentry : d'.entry s = ⟨n, attr, 0, 0⟩) (hn : ShortName n) (ha : attr = attrArchive ∨ attr = attrDirectory)
    (hnone : findEntry v d h n = none) : Made v d d' h s n attr := by
  have hg : d₁ = d ∨ ∃ c, GrowsDir v d d₁ h c := by
    rcases ht.grown with heq | ⟨-, hg⟩
    · exact .inl heq
    · exact .inr hg
  have hreach : Reach v d₁ h := by
    rcases hg with rfl | ⟨c, g⟩
    · exact ht.reach
    · exact (g.reach_iff hv ho).mpr ht.reach
  refine ⟨⟨d₁, hg, hreach, ht.only.trans honly, ht.room, ?_, ?_⟩, hentry, hnone, hn⟩
  · rw [hentry]
    exact isKid_new hn ha
  · rw [hentry]
    exact Nat.zero_lt_two

/-- The entry `s` that a call goes on with: the one of the name, or a new one. -/
inductive Target (v : Volume) (m m₁ : Mem) (h : Nat) (s : Slot) (n : Name) : Prop
  | found (hm : m₁ = m) (hfind : findEntry v (view v m) h n = some s)
  | made (hmade : Made v (view v m) (view v m₁) h s n attrArchive)

theorem writeSlot_spec (hv : v.Fits) (hcs : 32 ≤ clusterSizeBytes v) (ho : Owned v (view v m))
    (hr : Resolved v (view v m) h) (hn : ShortName n) {scan : DirScan} (hs : ScanSpec v (view v m) h (some n) scan) :
    writeSlot v m ⟨h, n, scan⟩ = (m, none) ∨
      ∃ m₁ s, writeSlot v m ⟨h, n, scan⟩ = (m₁, some (v.slotAddr s)) ∧ Target v m m₁ h s n ∧ Stored v m m₁ := by
  have hfound := hs.found_eq hn
  unfold writeSlot
  cases hfind : findEntry v (view v m) h n with
  | some s =>
    rw [hfind, map_some] at hfound
    dsimp only
    rw [hfound]
    exact .inr ⟨m, s, rfl, .found rfl hfind, .refl v m⟩
  | none =>
    rw [hfind, map_none] at hfound
    dsimp only
    rw [hfound]
    dsimp only
    rcases dirTakeSlot_spec hv hcs ho hr hs hfound with htake | ⟨m₁, s, d₁, htake, hhas, ht, hconf⟩
    · rw [htake]
      exact .inl rfl
    · rw [htake]
      obtain ⟨honly, hentry⟩ := makeEntry_spec hv hhas m₁ hn.length attrArchive
      obtain ⟨honly', hentry'⟩ := setFields_spec hv hhas (makeEntry m₁ (v.slotAddr s) n attrArchive) 0 0
      rw [hentry] at hentry'
      exact .inr ⟨_, s, rfl, .made (ht.made hv ho (honly.trans honly') hentry' hn (.inl rfl) hfind),
        (hconf.trans (makeEntry_stored hv hhas hn.length attrArchive m₁)).trans (setFields_stored hv hhas _ 0 0)⟩

namespace Target

variable {m₁ : Mem}

section

variable (ht : Target v m m₁ h s n)

include ht

theorem owned (hv : v.Fits) (ho : Owned v (view v m)) : Owned v (view v m₁) := by
  rcases ht with ⟨rfl, -⟩ | hmade
  · exact ho
  · exact hmade.owned hv ho

theorem sound (hv : v.Fits) (hs : Sound v (view v m)) : Sound v (view v m₁) := by
  rcases ht with ⟨rfl, -⟩ | hmade
  · exact hs
  · exact hmade.sound hv hs

theorem reach_iff (hv : v.Fits) (ho : Owned v (view v m)) : Reach v (view v m₁) a ↔ Reach v (view v m) a := by
  rcases ht with ⟨rfl, -⟩ | hmade
  · exact Iff.rfl
  · exact hmade.reach_iff hv ho

theorem reach (hv : v.Fits) (ho : Owned v (view v m)) (hr : Resolved v (view v m) h) : Reach v (view v m₁) h := by
  rcases ht with ⟨rfl, hfind⟩ | hmade
  · exact hr.of_kid (mem_of_findEntry hfind).1
  · exact hmade.reach hv ho

theorem kid (hv : v.Fits) (ho : Owned v (view v m)) : s ∈ kids v (view v m₁) h := by
  rcases ht with ⟨rfl, hfind⟩ | hmade
  · exact (mem_of_findEntry hfind).1
  · exact hmade.kid hv ho

theorem frame (hv : v.Fits) (ho : Owned v (view v m)) : Frame v (view v m) (view v m₁) s (fun _ => True) := by
  rcases ht with ⟨rfl, -⟩ | hmade
  · exact .refl _ s _
  · exact hmade.frame hv ho

theorem freeCount_le : freeCount v (view v m) ≤ freeCount v (view v m₁) + 1 := by
  rcases ht with ⟨rfl, -⟩ | hmade
  · exact Nat.le_succ _
  · exact hmade.freeCount_le

end

end Target

/-! ## A new directory -/

/-- A cluster with the two dots of a directory and end markers behind them. -/
structure Dotted (d : Disk) (c : Nat) : Prop where
  dot : (d.entry (c, 0)).name = dotName
  dotDot : (d.entry (c, 1)).name = dotDotName
  ends : ∀ i, 2 ≤ i → (d.entry (c, i)).isEnd = true

theorem Dotted.congr (hd : Dotted d c) (hcell : d'.cell c = d.cell c) : Dotted d' c := by
  have hentry : ∀ i, d'.entry (c, i) = d.entry (c, i) := fun i => by rw [Disk.entry, Disk.entry, hcell]
  refine ⟨?_, ?_, ?_⟩
  · rw [hentry, hd.dot]
  · rw [hentry, hd.dotDot]
  · intro i hi
    rw [hentry, hd.ends i hi]

theorem SlotOnly.cell_ne (hs : SlotOnly s d d') {r : Nat} (hr : r ≠ s.1) : d'.cell r = d.cell r := by
  funext i
  exact hs.cell r i (fun h => absurd h hr)

theorem writeDotEntries_spec (hv : v.Fits) (hcs : 64 ≤ clusterSizeBytes v) (hc : v.InRange c)
    (hzero : (view v m).cell c = fun _ => 0) (parent : Nat) :
    (view v (writeDotEntries v m c parent)).fat = (view v m).fat ∧
      (∀ r, r ≠ c → (view v (writeDotEntries v m c parent)).cell r = (view v m).cell r) ∧
      Dotted (view v (writeDotEntries v m c parent)) c ∧ Stored v m (writeDotEntries v m c parent) := by
  have hcount : 2 ≤ v.slotCount c := by
    rw [slotCount_cluster hc, entriesPerCluster]
    omega
  have hhas : ∀ i < 2, v.Has (c, i) := fun i hi => ⟨.inr hc, lt_of_lt_of_le hi hcount⟩
  unfold writeDotEntries
  rw [hv.clusterPtr_eq hc]
  dsimp only
  generalize (if parent < 2 ∧ v.fatType = .fat16 then 0 else parent) = up
  have h₀ : v.addr c = v.slotAddr (c, 0) := rfl
  have h₁ : v.addr c + 32 = v.slotAddr (c, 1) := rfl
  rw [h₁, h₀]
  obtain ⟨only₁, entry₁⟩ := makeEntry_spec hv (hhas 0 (by omega)) m (show dotName.length = 11 from rfl) attrDirectory
  obtain ⟨only₂, entry₂⟩ := setFirst_spec hv (hhas 0 (by omega)) (makeEntry m (v.slotAddr (c, 0)) dotName attrDirectory) c
  have hentry : ∀ i < 2, ∀ name : Name, name.length = 11 → ∀ (m : Mem) (x : Nat), Stored v m
      (setFirstCluster (makeEntry m (v.slotAddr (c, i)) name attrDirectory) (v.slotAddr (c, i)) x) := fun i hi name hn m x =>
    .of_slot ((makeEntry_agreeOff hn attrDirectory).trans (setFirstCluster_agreeOff x)) hv (hhas i hi)
  have hconf := hentry 0 (by omega) dotName rfl m c
  generalize setFirstCluster (makeEntry m (v.slotAddr (c, 0)) dotName attrDirectory) (v.slotAddr (c, 0)) c = m₂
    at only₂ entry₂ hconf ⊢
  have hconf' := hentry 1 (by omega) dotDotName rfl m₂ up
  obtain ⟨only₃, entry₃⟩ := makeEntry_spec hv (hhas 1 (by omega)) m₂ (show dotDotName.length = 11 from rfl) attrDirectory
  obtain ⟨only₄, entry₄⟩ := setFirst_spec hv (hhas 1 (by omega)) (makeEntry m₂ (v.slotAddr (c, 1)) dotDotName attrDirectory) up
  have only := only₁.trans only₂
  have only' := only₃.trans only₄
  refine ⟨only'.fat.trans only.fat, ?_, ⟨?_, ?_, ?_⟩, hconf.trans hconf'⟩
  · intro r hr
    exact (only'.cell_ne hr).trans (only.cell_ne hr)
  · rw [only'.entry (by simp), entry₂, entry₁]
  · rw [entry₄, entry₃]
  · intro i hi
    have hi₀ : (c, i) ≠ (c, 0) := fun h => by
      have := (Prod.mk.inj h).2
      omega
    have hi₁ : (c, i) ≠ (c, 1) := fun h => by
      have := (Prod.mk.inj h).2
      omega
    rw [only'.entry hi₁, only.entry hi₀, Disk.entry, hzero]
    rfl

section Dotted

variable (hd : Dotted d c)

include hd

theorem Dotted.isEnd_iff (i : Nat) : (d.entry (c, i)).isEnd = true ↔ 2 ≤ i := by
  match i with
  | 0 =>
    rw [Entry.isEnd, hd.dot]
    decide
  | 1 =>
    rw [Entry.isEnd, hd.dotDot]
    decide
  | i + 2 => exact ⟨fun _ => by omega, hd.ends (i + 2)⟩

theorem Dotted.name_used (hchain : chainOf v d c = [c]) (hc : v.InRange c) (ht : t ∈ usedSlots v d c) :
    t = (c, 0) ∨ t = (c, 1) := by
  have hslot : t.1 ∈ dirAreas v d c := (mem_slotsIn.mp ((takeWhile_sublist _).subset ht)).1
  rw [dirAreas_chain hc.1, hchain, mem_singleton] at hslot
  obtain ⟨r, i⟩ := t
  obtain rfl : r = c := hslot
  have hi : ¬2 ≤ i := by
    rw [← hd.isEnd_iff, mem_used_not_end ht]
    exact Bool.false_ne_true
  rcases Nat.lt_or_ge 0 i with h | h
  · exact .inr (by rw [show i = 1 by omega])
  · exact .inl (by rw [show i = 0 by omega])

theorem Dotted.emptyDir (hchain : chainOf v d c = [c]) (hc : v.InRange c) : EmptyDir v d c where
  kids := by
    rw [kids, filter_eq_nil_iff]
    intro t ht
    rcases hd.name_used hchain hc ht with rfl | rfl
    · rw [Entry.isKid, hd.dot, show nameIsDot dotName = true from rfl, Bool.not_true, Bool.and_false]
      exact Bool.false_ne_true
    · rw [Entry.isKid, hd.dotDot, show nameIsDot dotDotName = true from rfl, Bool.not_true, Bool.and_false]
      exact Bool.false_ne_true
  names := by
    have hne : dotName ≠ dotDotName := by decide
    intro s hs t ht heq
    rcases hd.name_used hchain hc (mem_filter.mp hs).1 with rfl | rfl <;>
      rcases hd.name_used hchain hc (mem_filter.mp ht).1 with rfl | rfl
    · rfl
    · exact absurd (hd.dot.symm.trans (heq.trans hd.dotDot)) hne
    · exact absurd (hd.dot.symm.trans (heq.symm.trans hd.dotDot)) hne
    · rfl
  ends := by
    rw [dirSlots, dirAreas_chain hc.1, hchain, slotsIn, flatMap_singleton, pairwise_map]
    refine pairwise_lt_range.imp ?_
    intro i j hij hi
    rw [hd.isEnd_iff] at hi ⊢
    omega

end Dotted

/-- The entry `s` has got the cluster `c` for its directory, in which there are only the dots. -/
structure FirstCluster (v : Volume) (d d' : Disk) (h : Nat) (s : Slot) (n : Name) (c : Nat) : Prop where
  rechains : Rechains v d d' h s [] [c]
  entry : d'.entry s = ⟨n, attrDirectory, c, 0⟩
  empty : EmptyDir v d' c

/-- What `fatfs_mkdir` does. Its dots need 64 bytes. -/
inductive MkdirRun (v : Volume) (m m' : Mem) (path : Str) (ok : Bool) : Prop
  | idle (hm : m' = m) (hok : ok = false)
  | stuck {h : Nat} {s : Slot} {n : Name} (hleaf : walkLeaf v (view v m) path = some (h, n))
      (hmade : Made v (view v m) (view v m') h s n attrDirectory)
      (hfull : ∀ x, v.InRange x → (view v m').fat x ≠ 0) (hok : ok = false)
  | made {m₁ : Mem} {h : Nat} {s : Slot} {n : Name} (hleaf : walkLeaf v (view v m) path = some (h, n))
      (hmade : Made v (view v m) (view v m₁) h s n attrDirectory)
      (hfirst : 64 ≤ clusterSizeBytes v → ∃ c, FirstCluster v (view v m₁) (view v m') h s n c) (hok : ok = true)

theorem fillDirectory_spec (hv : v.Fits) (hcs : 64 ≤ clusterSizeBytes v) (ho : Owned v (view v m))
    (hr : Reach v (view v m) h) (hs : s ∈ kids v (view v m) h) (hentry : (view v m).entry s = ⟨n, attrDirectory, 0, 0⟩)
    (hc : v.InRange c) (hfree : (view v m).fat c = 0) {m₁ m₂ : Mem}
    (hm₁ : view v m₁ = ((view v m).setFat c (eocMarker v)).clear c) (parent : Nat)
    (hm₂ : m₂ = setFileSize (setFirstCluster (writeDotEntries v (zeroCluster v (writeFat v m₁ c (eocMarker v)) c) c parent)
      (v.slotAddr s) c) (v.slotAddr s) 0) : FirstCluster v (view v m) (view v m₂) h s n c ∧ Stored v m₁ m₂ := by
  have hhas := ho.has_of_mem hr (mem_kids_slot hs)
  have hsc : s.1 ≠ c := by
    rintro rfl
    rcases ho.area_taken hr (mem_slotsIn.mp (mem_kids_slot hs)).1 with h0 | hne
    · have := hc.1
      omega
    · exact hne hfree
  have hzero : (view v (zeroCluster v (writeFat v m₁ c (eocMarker v)) c)).cell c = fun _ => 0 := by
    rw [view_zeroCluster hv hc, Disk.clear_cell, if_pos rfl]
  obtain ⟨hfat, hcell, hdot, hdots⟩ := writeDotEntries_spec hv hcs hc hzero parent
  have hconf := (((writeFat_stored hv m₁ c _).trans (zeroCluster_stored hv hc _)).trans hdots).trans
    (setFields_stored hv hhas _ c 0)
  rw [view_zeroCluster hv hc, view_writeFat hv hc.2 (eocMarker_lt v), hm₁] at hfat hcell
  obtain ⟨honly, hentry₂⟩ := setFields_spec hv hhas
    (writeDotEntries v (zeroCluster v (writeFat v m₁ c (eocMarker v)) c) c parent) c 0
  rw [← hm₂] at honly hentry₂ hconf
  generalize writeDotEntries v (zeroCluster v (writeFat v m₁ c (eocMarker v)) c) c parent = m₃ at hfat hcell hdot honly hentry₂
  have hfat : ∀ x, (view v m₃).fat x = if x = c then eocMarker v else (view v m).fat x := by
    intro x
    rw [hfat, Disk.clear_fat, Disk.setFat_fat, Disk.clear_fat, Disk.setFat_fat]
    split <;> rfl
  have hcell : ∀ r, r ≠ c → (view v m₃).cell r = (view v m).cell r := by
    intro r hrc
    rw [hcell r hrc, Disk.clear_cell, if_neg hrc, Disk.setFat_cell, Disk.clear_cell, if_neg hrc, Disk.setFat_cell]
  have hsame : (view v m₃).entry s = ⟨n, attrDirectory, 0, 0⟩ := by
    rw [← hentry, Disk.entry, Disk.entry, hcell s.1 hsc]
  rw [hsame] at hentry₂
  have hfirst : ((view v m₂).entry s).firstCluster = c := by
    rw [hentry₂]
    exact hv.mod_cluster hc
  have b₀ : Builds v (view v m) (view v m) [] [] := .nil (by simp) rfl (fun _ _ => rfl) (fun _ _ => rfl)
  have b : Builds v (view v m) (view v m₃) [] [c] := b₀.step hv hc hfree (by simpa using hfat) hcell
  have hbare : [] = chainOf v (view v m) ((view v m).entry s).firstCluster := by
    rw [hentry, chainOf, if_pos Nat.zero_lt_two]
  have hhead : ([] ++ ([] ++ [c])).head? = some ((view v m₂).entry s).firstCluster := by
    rw [hfirst]
    rfl
  have g : Rechains v (view v m) (view v m₂) h s [] [c] :=
    b.rechains hr hs hbare honly (by rw [hentry₂, hentry]) (by rw [hentry₂, hentry]) (.inr hhead)
  have hchain : chainOf v (view v m₂) c = [c] := by
    rcases g.chain with ⟨h0, -⟩ | ⟨-, h1⟩
    · cases h0
    · rwa [hfirst] at h1
  refine ⟨⟨g, ?_, (hdot.congr (honly.cell_ne hsc.symm)).emptyDir hchain hc⟩, hconf⟩
  rw [hentry₂, hv.mod_cluster hc]
  rfl

theorem fatfsMkdir_spec (hv : v.Fits) (hcs : 32 ≤ clusterSizeBytes v) (ho : Owned v (view v m)) (path : Str) :
    ∃ r, Returns (fun k => fatfsMkdir v k m path) r ∧ MkdirRun v m r.1 path r.2 ∧
      (64 ≤ clusterSizeBytes v → Stored v m r.1) := by
  cases hleaf : walkLeaf v (view v m) path with
  | none => exact ⟨(m, false), (locate_none hv ho hleaf).map, .idle rfl rfl, fun _ => .refl v m⟩
  | some leaf =>
    obtain ⟨h, n⟩ := leaf
    obtain ⟨hr, hn⟩ := walkLeaf_spec hleaf
    obtain ⟨scan, hlocate, hscan⟩ := locate_some hv ho hleaf
    have hfound := hscan.found_eq hn
    refine ⟨_, hlocate.map, ?_⟩
    dsimp only
    cases hfind : findEntry v (view v m) h n with
    | some s =>
      rw [hfound, hfind, map_some, isSome_some, if_pos rfl]
      exact ⟨.idle rfl rfl, fun _ => .refl v m⟩
    | none =>
      rw [hfind, map_none] at hfound
      rw [hfound, if_neg (by simp)]
      rcases dirTakeSlot_spec hv hcs ho hr hscan hfound with htake | ⟨m₁, s, d₁, htake, hhas, ht, hconf⟩
      · rw [htake]
        exact ⟨.idle rfl rfl, fun _ => .refl v m⟩
      · rw [htake]
        dsimp only
        obtain ⟨honly, hentry⟩ := makeEntry_spec hv hhas m₁ hn.length attrDirectory
        have hmade := ht.made hv ho honly hentry hn (.inr rfl) hfind
        have hconf₂ := hconf.trans (makeEntry_stored hv hhas hn.length attrDirectory m₁)
        generalize makeEntry m₁ (v.slotAddr s) n attrDirectory = m₂ at hmade hconf₂
        rcases allocateCluster_spec hv m₂ with ⟨halloc, hfull⟩ | ⟨m₃, c, halloc, hc, hfree, hm₃, hconf₃⟩
        · rw [halloc]
          exact ⟨.stuck hleaf hmade hfull rfl, fun _ => hconf₂⟩
        · have hc0 : c ≠ 0 := by
            have := hc.1
            omega
          rw [halloc, if_neg hc0]
          generalize hm' : setFileSize _ _ 0 = m'
          have hfill := fun hcs' => fillDirectory_spec hv hcs' (hmade.owned hv ho) (hmade.reach hv ho) (hmade.kid hv ho)
            hmade.entry hc hfree hm₃ _ hm'.symm
          exact ⟨.made hleaf hmade (fun hcs' => ⟨c, (hfill hcs').1⟩) rfl,
            fun hcs' => (hconf₂.trans hconf₃).trans (hfill hcs').2⟩

theorem FirstCluster.sound (hf : FirstCluster v d d' h s n c) (hentry : d.entry s = ⟨n, attrDirectory, 0, 0⟩)
    (hs : Sound v d) : Sound v d' := by
  refine hf.rechains.sound hs ?_ ?_
  · intro _ hge
    rw [hentry] at hge
    exact absurd hge (Nat.not_succ_le_zero 1)
  · intro _ _
    rw [hf.entry]
    exact hf.empty

end Made

end ProOS.Fat
