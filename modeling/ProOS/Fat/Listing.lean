import ProOS.Fat.Soundness
import ProOS.Framework.Lines

namespace ProOS.Fat

open ProOS.Framework List

/-- The line of an entry, without its line break. -/
def Entry.text (e : Entry) : Str :=
  (formatEntryName e.name).takeWhile (· ≠ 0) ++ if e.isDirectory then [slash] else []

/-- The lines of the entries in use among some slots, up to the end marker. -/
def linesOf (d : Disk) (ss : List Slot) : List Str :=
  ((ss.takeWhile (fun s => !(d.entry s).isEnd)).filter (fun s => (d.entry s).isKid)).map (fun s => (d.entry s).text)

def dirLines (v : Volume) (d : Disk) (h : Nat) : List Str := (kids v d h).map (fun s => (d.entry s).text)

theorem Entry.line_eq (e : Entry) : e.line = e.text ++ [newline] := by
  rw [Entry.line, Entry.text]
  cases e.isDirectory with
  | true => simp
  | false => simp

theorem Entry.zero_notMem_text (e : Entry) : 0 ∉ e.text := by
  rw [Entry.text, mem_append, not_or]
  refine ⟨fun h => ?_, ?_⟩
  · simpa using mem_takeWhile_imp h
  · split_ifs
    · decide
    · decide

section Loops

variable {v : Volume} {m : Mem} {size c h : Nat} {ss : List Slot}

theorem listEntries_append (m : Mem) (size : Nat) (ps qs : List Nat) (written : Str) :
    listEntries m size (ps ++ qs) written =
      if (listEntries m size ps written).1 ≠ .more then listEntries m size ps written
      else listEntries m size qs (listEntries m size ps written).2 := by
  induction ps generalizing written with
  | nil => rfl
  | cons p ps ih =>
    rw [cons_append, listEntries, listEntries]
    split
    · rfl
    split
    · exact ih _
    split
    · rfl
    · exact ih _

theorem listEntries_fill (hh : ∀ s ∈ ss, v.Has s) (written : Str) :
    (listEntries m size (ss.map v.slotAddr) written).2 = (fillLines newline size (linesOf (view v m) ss) written).2 ∧
      ((listEntries m size (ss.map v.slotAddr) written).1 = .noRoom ↔
        (fillLines newline size (linesOf (view v m) ss) written).1 ≠ []) := by
  induction ss generalizing written with
  | nil => exact ⟨rfl, by simp [listEntries, linesOf, fillLines]⟩
  | cons s ss ih =>
    have ih := ih (fun t ht => hh t (mem_cons_of_mem s ht))
    rw [map_cons, listEntries, readEntry_view (hh s (by simp))]
    cases hend : ((view v m).entry s).isEnd with
    | true => simp [linesOf, hend, fillLines]
    | false =>
      have hkid := isKid_eq hend
      rw [if_neg (by decide)]
      cases hskip : (((view v m).entry s).isFree || ((view v m).entry s).isVolume ||
          nameIsDot ((view v m).entry s).name) with
      | true =>
        rw [hskip] at hkid
        have hlines : linesOf (view v m) (s :: ss) = linesOf (view v m) ss := by simp [linesOf, hend, hkid]
        rw [if_pos rfl, hlines]
        exact ih written
      | false =>
        rw [hskip] at hkid
        have hlines : linesOf (view v m) (s :: ss) = ((view v m).entry s).text :: linesOf (view v m) ss := by
          simp [linesOf, hend, hkid]
        have hroom : size - written.length ≤ ((view v m).entry s).line.length ↔
            size ≤ written.length + ((view v m).entry s).text.length + 1 := by
          rw [Entry.line_eq, length_append, length_singleton]
          omega
        rw [if_neg (by decide), hlines, fillLines]
        by_cases hfull : size ≤ written.length + ((view v m).entry s).text.length + 1
        · rw [if_pos (hroom.mpr hfull), if_pos hfull]
          exact ⟨rfl, by simp⟩
        · rw [if_neg (fun hc => hfull (hroom.mp hc)), if_neg hfull, Entry.line_eq, ← append_assoc]
          exact ih _

theorem overList_list (hv : v.Fits) {xs : List Nat} (hr : ∀ x ∈ c :: xs, v.InRange x) (written : Str) :
    overList (listCluster v m size) (fun _ w => w) c xs written =
      (listEntries m size ((slotsIn v (c :: xs)).map v.slotAddr) written).2 := by
  induction xs generalizing c written with
  | nil =>
    have hc := hr c (by simp)
    rw [overList, listCluster, hv.clusterPtr_eq hc]
    dsimp only
    rw [clusterPtrs_eq hc]
    split_ifs
    · rfl
    · rfl
  | cons y ys ih =>
    have hc := hr c (by simp)
    rw [overList, listCluster, hv.clusterPtr_eq hc]
    dsimp only
    rw [clusterPtrs_eq hc, slotAddrs_cons, listEntries_append]
    split_ifs
    · rfl
    · exact ih (fun x hx => hr x (mem_cons_of_mem c hx)) _

theorem finishList_eq {written : Str} (h : written = [] ∨ written.length < size) :
    finishList size written = ⟨written.dropLast ++ [0], written.dropLast.length⟩ := by
  rw [finishList]
  by_cases hempty : written = []
  · rw [if_pos hempty, hempty]
    rfl
  · have hlen := h.resolve_left hempty
    have htake : written.take (size - 1) = written := take_of_length_le (by omega)
    rw [if_neg hempty, htake, dropLast_eq_take, length_take, Nat.min_eq_left (Nat.sub_le _ _)]

/-- The lines of a directory go into the buffer, and only the fixed root directory of FAT16 says when they do not
fit. -/
def listed (v : Volume) (d : Disk) (size h : Nat) : Listing :=
  let r := fillLines newline size (dirLines v d h) []
  if (h = 0 ∧ v.fatType = .fat16) ∧ r.1 ≠ [] then ⟨r.2, r.2.length⟩ else ⟨r.2.dropLast ++ [0], r.2.dropLast.length⟩

theorem fillLines_short (lines : List Str) : (fillLines newline size lines []).2 = [] ∨
    (fillLines newline size lines []).2.length < size := by
  have hspec : ∃ p, lines = p ++ (fillLines newline size lines []).1 ∧ _ := fillLines_spec lines []
  obtain ⟨p, -, hout, hfits, -⟩ := hspec
  rcases hfits with rfl | hfits
  · exact .inl hout
  · exact .inr hfits

theorem listDirectory_spec (hv : v.Fits) (hr : Readable v (view v m) h) (hsize : 0 < size) :
    Returns (fun n => listDirectory v n m h size) (some (listed v (view v m) size h)) := by
  obtain ⟨scan, hscan, -⟩ := dirScan_spec hv hr none
  have hh : ∀ s ∈ dirSlots v (view v m) h, v.Has s := fun s hs => dirSlots_has hr hs
  have hfill : (listEntries m size ((dirSlots v (view v m) h).map v.slotAddr) []).2 =
      (fillLines newline size (dirLines v (view v m) h) []).2 ∧ _ := listEntries_fill hh []
  obtain ⟨hout, hfull⟩ := hfill
  have hshort : (fillLines newline size (dirLines v (view v m) h) []).2 = [] ∨ _ := fillLines_short _
  have hfinish := finishList_eq hshort
  simp only [listDirectory, if_neg hsize.ne']
  refine hscan.onSuccess ?_
  by_cases hroot : h = 0 ∧ v.fatType = .fat16
  · have hslots : entryPtrs (v.addr 0) v.rootEntries = (dirSlots v (view v m) h).map v.slotAddr := by
      rw [hroot.1, entryPtrs_eq, dirSlots, dirAreas_zero hroot.2, slotsIn_cons, slotCount_root]
      simp [slotsIn]
    simp only [if_pos hroot, hv.rootPtr_eq hroot.2, hslots, hout, listed, hfinish]
    by_cases hstop : (listEntries m size ((dirSlots v (view v m) h).map v.slotAddr) []).1 = .noRoom
    · rw [if_pos hstop, if_pos ⟨hroot, hfull.mp hstop⟩]
      exact .of_some _
    · rw [if_neg hstop, if_neg (fun hc => hstop (hfull.mpr hc.2))]
      exact .of_some _
  · have hloop : Returns (fun n => followChain v m (listCluster v m size) (fun _ w => w) n h [])
        (fillLines newline size (dirLines v (view v m) h) []).2 := by
      rw [← hout]
      rcases hr with hlt | hc
      · have hslots : dirSlots v (view v m) h = [] := by
          rw [dirSlots, dirAreas, if_neg hroot, chainOf, if_pos hlt]
          rfl
        rw [hslots]
        refine ⟨0, ?_⟩
        intro n _
        refine follow_stop ?_ n
        exact decide_eq_true hlt
      · obtain ⟨l, hl, -⟩ := hc.split
        have hslots : dirSlots v (view v m) h = slotsIn v (h :: l) := by rw [dirSlots, dirAreas, if_neg hroot, hl]
        rw [hslots, ← overList_list hv (hl ▸ hc.range)]
        exact followChain_chain hc hl []
    have hdone := hloop.map (g := fun w => some (finishList size w))
    rw [hfinish] at hdone
    simp only [if_neg hroot, listed, if_neg (fun hc => hroot (And.left hc))]
    exact hdone

theorem listDirectory_whole (hv : v.Fits) (hr : Readable v (view v m) h)
    (hroom : (joined newline (dirLines v (view v m) h)).length + 1 < size) :
    Returns (fun n => listDirectory v n m h size) (some ⟨joined newline (dirLines v (view v m) h) ++ [0],
      (joined newline (dirLines v (view v m) h)).length⟩) := by
  have hspec := listDirectory_spec hv hr (show 0 < size by omega)
  have hrest : (fillLines newline size (dirLines v (view v m) h) []).1 = [] := (fillLines_rest_iff _).mpr (.inr hroom)
  obtain ⟨p, hp, hout, -⟩ := @fillLines_spec _ newline size (dirLines v (view v m) h) []
  rw [hrest, append_nil] at hp
  rw [nil_append, ← hp] at hout
  rw [listed, if_neg (fun hlost => hlost.2 hrest), hout, dropLast_terminated] at hspec
  exact hspec

theorem zero_notMem_joined {p : List Str} (hp : p <+: dirLines v (view v m) h) : 0 ∉ joined newline p := by
  have hline : ∀ line ∈ p, 0 ∉ line := by
    intro line hline
    obtain ⟨s, -, rfl⟩ := List.mem_map.mp (hp.subset hline)
    exact ((view v m).entry s).zero_notMem_text
  intro hzero
  rw [← dropLast_terminated] at hzero
  obtain ⟨line, hmem, hin⟩ := mem_flatMap.mp (mem_of_mem_dropLast hzero)
  rcases mem_append.mp hin with hin | hin
  · exact hline line hmem hin
  · exact absurd (mem_singleton.mp hin) (by decide)

/-- No beginning of the lines takes the buffer up to its last byte, and the fixed root directory of FAT16 fits as a
whole, each line with its line break. -/
def Roomy (v : Volume) (d : Disk) (size h : Nat) : Prop :=
  if h = 0 ∧ v.fatType = .fat16 then dirLines v d h = [] ∨ (joined newline (dirLines v d h)).length + 1 < size
  else ∀ q, q <+: dirLines v d h → joined newline q ≠ [] → (joined newline q).length + 1 ≠ size

/-- A listing is terminated and is the longest beginning of the entries that fits if and only if there is room enough. -/
theorem fat_list_exact_iff (v : Volume) (m : Mem) (size h : Nat) (hv : v.Fits) (hr : Readable v (view v m) h)
    (hsize : 0 < size) :
    (∃ p, LongestFit newline size (dirLines v (view v m) h) p ∧ 0 ∉ joined newline p ∧
        Returns (fun n => listDirectory v n m h size) (some ⟨joined newline p ++ [0], (joined newline p).length⟩)) ↔
      Roomy v (view v m) size h := by
  have hreturns := listDirectory_spec hv hr hsize
  have hresult : ∀ p, Returns (fun n => listDirectory v n m h size)
      (some ⟨joined newline p ++ [0], (joined newline p).length⟩) ↔
        listed v (view v m) size h = ⟨joined newline p ++ [0], (joined newline p).length⟩ := by
    intro p
    constructor
    · intro hp
      exact Option.some.inj (hreturns.unique hp)
    · intro hp
      rw [← hp]
      exact hreturns
  have hfit : (∃ p, LongestFit newline size (dirLines v (view v m) h) p ∧
      (fillLines newline size (dirLines v (view v m) h) []).2.dropLast = joined newline p) ↔ _ :=
    fillLines_longestFit_iff hsize
  have hrest : (fillLines newline size (dirLines v (view v m) h) []).1 = [] ↔ _ := fillLines_rest_iff _
  simp only [hresult]
  by_cases hlost : (h = 0 ∧ v.fatType = .fat16) ∧ (fillLines newline size (dirLines v (view v m) h) []).1 ≠ []
  · -- the buffer is full and not terminated
    rw [Roomy, if_pos hlost.1, ← hrest]
    refine iff_of_false ?_ hlost.2
    rintro ⟨p, -, -, hp⟩
    rw [listed, if_pos hlost] at hp
    obtain ⟨hbuffer, hlen⟩ := Listing.mk.inj hp
    rw [hbuffer, length_append, length_singleton] at hlen
    omega
  · have hlisted : ∀ p, listed v (view v m) size h = ⟨joined newline p ++ [0], (joined newline p).length⟩ ↔
        (fillLines newline size (dirLines v (view v m) h) []).2.dropLast = joined newline p := by
      intro p
      rw [listed, if_neg hlost]
      constructor
      · intro hp
        exact append_cancel_right (Listing.mk.inj hp).1
      · intro hp
        rw [hp]
    have hexact : (∃ p, LongestFit newline size (dirLines v (view v m) h) p ∧ 0 ∉ joined newline p ∧
        listed v (view v m) size h = ⟨joined newline p ++ [0], (joined newline p).length⟩) ↔
          ∀ q, q <+: dirLines v (view v m) h → joined newline q ≠ [] → (joined newline q).length + 1 ≠ size := by
      rw [← hfit]
      constructor
      · rintro ⟨p, hp, -, heq⟩
        exact ⟨p, hp, (hlisted p).mp heq⟩
      · rintro ⟨p, hp, heq⟩
        exact ⟨p, hp, zero_notMem_joined hp.initial, (hlisted p).mpr heq⟩
    rw [hexact, Roomy]
    by_cases hroot : h = 0 ∧ v.fatType = .fat16
    · have hall := hrest.mp (not_not.mp (fun hne => hlost ⟨hroot, hne⟩))
      rw [if_pos hroot]
      refine iff_of_true ?_ hall
      intro q hq hne
      have hle : (joined newline q).length ≤ (joined newline (dirLines v (view v m) h)).length := length_joined_le hq
      rcases hall with hnil | hlt
      · rw [hnil, prefix_nil] at hq
        exact absurd (by rw [hq]; rfl) hne
      · omega
    · rw [if_neg hroot]

end Loops

end ProOS.Fat
