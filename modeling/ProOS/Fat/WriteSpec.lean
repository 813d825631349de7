import ProOS.Fat.Build

namespace ProOS.Fat

open ProOS.Framework List

/-! ## The fields of an entry -/

section Fields

variable {v : Volume} {m : Mem} {d d' : Disk} {s : Slot}

theorem setSize_spec (hv : v.Fits) (hs : v.Has s) (m : Mem) (n : Nat) :
    SlotOnly s (view v m) (view v (setFileSize m (v.slotAddr s) n)) ∧
      (view v (setFileSize m (v.slotAddr s) n)).entry s = { (view v m).entry s with fileSize := n % 2 ^ 32 } := by
  rw [view_setFileSize hv hs]
  refine ⟨.modify (setFileSize_agreeOff n), ?_⟩
  rw [Disk.entry_modify, readEntry_setFileSize]
  rfl

theorem setFirst_spec (hv : v.Fits) (hs : v.Has s) (m : Mem) (c : Nat) :
    SlotOnly s (view v m) (view v (setFirstCluster m (v.slotAddr s) c)) ∧
      (view v (setFirstCluster m (v.slotAddr s) c)).entry s =
        { (view v m).entry s with firstCluster := c % 2 ^ 32 } := by
  rw [view_setFirstCluster hv hs]
  refine ⟨.modify (setFirstCluster_agreeOff c), ?_⟩
  rw [Disk.entry_modify, readEntry_setFirstCluster]
  rfl

theorem setFields_spec (hv : v.Fits) (hs : v.Has s) (m : Mem) (c n : Nat) :
    SlotOnly s (view v m) (view v (setFileSize (setFirstCluster m (v.slotAddr s) c) (v.slotAddr s) n)) ∧
      (view v (setFileSize (setFirstCluster m (v.slotAddr s) c) (v.slotAddr s) n)).entry s =
        { (view v m).entry s with firstCluster := c % 2 ^ 32, fileSize := n % 2 ^ 32 } := by
  obtain ⟨h₁, e₁⟩ := setFirst_spec hv hs m c
  obtain ⟨h₂, e₂⟩ := setSize_spec hv hs (setFirstCluster m (v.slotAddr s) c) n
  exact ⟨h₁.trans h₂, by rw [e₂, e₁]⟩

theorem makeEntry_spec (hv : v.Fits) (hs : v.Has s) (m : Mem) {name : Name} (hn : name.length = 11) (attr : UInt8) :
    SlotOnly s (view v m) (view v (makeEntry m (v.slotAddr s) name attr)) ∧
      (view v (makeEntry m (v.slotAddr s) name attr)).entry s = ⟨name, attr, 0, 0⟩ := by
  rw [view_makeEntry hv hs m hn]
  refine ⟨.modify (makeEntry_agreeOff hn attr), ?_⟩
  rw [Disk.entry_modify, readEntry_makeEntry hn]

theorem SlotOnly.setFat (h : SlotOnly s d d') (c x : Nat) : SlotOnly s (d.setFat c x) (d'.setFat c x) := by
  refine ⟨?_, ?_⟩
  · funext y
    rw [Disk.setFat_fat, Disk.setFat_fat, h.fat]
  · intro r i hi
    rw [Disk.setFat_cell, Disk.setFat_cell]
    exact h.cell r i hi

theorem Volume.Fits.mod_cluster (hv : v.Fits) {c : Nat} (hc : v.InRange c) : c % 2 ^ 32 = c := by
  apply Nat.mod_eq_of_lt
  have hlt := hc.2
  have hmod := hv.mod_eq
  have := Nat.mod_lt (v.totalClusters + 2) (show 0 < 2 ^ 32 by norm_num)
  omega

end Fields

section Rechained

variable {v : Volume} {d d' : Disk} {a h : Nat} {s : Slot} {old new : List Nat}

section

variable (g : Rechains v d d' h s old new)

include g

theorem Rechains.file_reach (ho : Owned v d)
    (hfile : (d.entry s).isDirectory = false) : Reach v d' a ↔ Reach v d a := by
  have hno : ∀ {p : Prop}, (d.entry s).isDirectory = true → p := fun hd => by
    rw [hfile] at hd
    cases hd
  rw [g.reach_iff ho hno hno]
  constructor
  · rintro (⟨hr, -⟩ | ⟨hd, -⟩)
    · exact hr
    · exact hno hd
  · exact fun hr => .inl ⟨hr, hno⟩

theorem Rechains.kid_kept (ho : Owned v d) : s ∈ kids v d' h := by
  rw [(g.sameDir ho g.reach (g.other_parent ho)).kids]
  exact g.kid

theorem Rechains.file_owned (ho : Owned v d) (hfile : (d.entry s).isDirectory = false) : Owned v d' :=
  g.owned ho (fun hd => by rw [hfile] at hd; cases hd) (fun hd => by rw [hfile] at hd; cases hd)

theorem Rechains.file_sound (hs : Sound v d) (hfile : (d.entry s).isDirectory = false) : Sound v d' :=
  g.sound hs (fun hd => by rw [hfile] at hd; cases hd) (fun hd => by rw [hfile] at hd; cases hd)

end

theorem Owned.entry_chain (ho : Owned v d) (hr : Reach v d h) (hs : s ∈ kids v d h) :
    (d.entry s).firstCluster < 2 ∨ HasChain v d (d.entry s).firstCluster := by
  by_cases hlt : (d.entry s).firstCluster < 2
  · exact .inl hlt
  · exact .inr (ho.chains _ _ (.entry hr hs (by omega)))

theorem Builds.reseal {pre : List Nat} {last : Nat} (b : Builds v d d' pre new)
    (hlast : (pre ++ new).getLast? = some last) : Builds v d (d'.setFat last (eocMarker v)) pre new := by
  have hmem := mem_of_getLast? hlast
  refine ⟨?_, fun r hp hn => b.cell r hp hn, b.range, b.fresh, ?_⟩
  · intro x hp hn
    have hne : x ≠ last := by
      rintro rfl
      rcases mem_append.mp hmem with hm | hm
      · exact hp hm
      · exact hn hm
    rw [Disk.setFat_fat, if_neg hne]
    exact b.fat x hp hn
  · obtain ⟨init, hinit⟩ : ∃ init, pre ++ new = init ++ [last] := by
      obtain ⟨ys, hys⟩ := getLast?_eq_some_iff.mp hlast
      exact ⟨ys, hys⟩
    have hnext : d'.next v last = none := (hinit ▸ b.linked).next_last
    refine b.linked.congr (fun z _ => ?_)
    by_cases hz : z = last
    · rw [hz, hnext, Disk.next, Disk.setFat_fat, if_pos rfl, isEoc_eocMarker]
      rfl
    · rw [Disk.next, Disk.next, Disk.setFat_fat, if_neg hz]

end Rechained

variable {l : List Nat} {data : List UInt8}

/-! ## Replacing -/

section Replace

variable {v : Volume} {m : Mem} {h : Nat} {s : Slot}

theorem chain_bytes_lt (hv : v.Fits) (hnodup : l.Nodup) (hrange : ∀ x ∈ l, v.InRange x) :
    l.length * clusterSizeBytes v < 2 ^ 32 := by
  have hle := length_le_of_range hnodup hrange
  have hend := hv.dataEnd
  have hsize := hv.size_lt
  have hmul : l.length * clusterSizeBytes v ≤ v.totalClusters * clusterSizeBytes v := Nat.mul_le_mul_right _ hle
  have htotal : v.totalClusters * clusterSizeBytes v ≤
      (v.dataStartSector + v.totalClusters * v.sectorsPerCluster) * v.bytesPerSector := by
    rw [clusterSizeBytes, Nat.add_mul, Nat.mul_comm v.bytesPerSector, ← Nat.mul_assoc]
    omega
  omega

theorem length_lt_of_stored (hv : v.Fits) (hnodup : l.Nodup)
    (hrange : ∀ x ∈ l, v.InRange x) (hlen : l.length = (chunks (clusterSizeBytes v) data).length) :
    data.length < 2 ^ 32 := by
  have hceil := ceil_mul_ge data.length (clusterSizeBytes v) hv.clusterSize_pos
  rw [← length_chunks hv.clusterSize_pos, ← hlen] at hceil
  exact hceil.trans_lt (chain_bytes_lt hv hnodup hrange)

/-- The clusters hold the data and zeros behind it. -/
structure Stores (v : Volume) (d : Disk) (l : List Nat) (data : List UInt8) : Prop where
  length : l.length = (chunks (clusterSizeBytes v) data).length
  bytes : l.map (clusterBytes v d) = (chunks (clusterSizeBytes v) data).map (padTo (clusterSizeBytes v) 0)

theorem Stores.take {d : Disk} (hv : v.Fits) (h : Stores v d l data) :
    (l.flatMap (clusterBytes v d)).take data.length = data := by
  have hflat : l.flatMap (clusterBytes v d) = (chunks (clusterSizeBytes v) data).flatMap (padTo (clusterSizeBytes v) 0) := by
    rw [flatMap_def, flatMap_def, h.bytes]
  rw [hflat, flatMap_pad_chunks hv.clusterSize_pos]

theorem release_spec (hv : v.Fits) (ho : Owned v (view v m)) (hr : Reach v (view v m) h)
    (hs : s ∈ kids v (view v m) h) :
    ∃ m₁ m₂, Returns (fun n => freeChain v n m ((view v m).entry s).firstCluster) m₁ ∧
      setFileSize (setFirstCluster m₁ (v.slotAddr s) 0) (v.slotAddr s) 0 = m₂ ∧
      Rechains v (view v m) (view v m₂) h s (chainOf v (view v m) ((view v m).entry s).firstCluster) [] ∧
      (view v m₂).entry s = { (view v m).entry s with firstCluster := 0, fileSize := 0 } ∧ Stored v m m₁ := by
  have hhas := ho.has_of_mem hr (mem_kids_slot hs)
  obtain ⟨m₁, hfree, hm₁, hconf⟩ := freeChain_spec hv (ho.entry_chain hr hs)
  obtain ⟨honly, hentry⟩ := setFields_spec hv hhas m₁ 0 0
  have hcell : (view v m₁).entry s = (view v m).entry s := by
    rw [hm₁]
    rfl
  rw [hcell] at hentry
  rw [hm₁] at honly
  refine ⟨m₁, _, hfree, rfl, ?_, hentry, hconf⟩
  apply rechains_release hr hs rfl honly
  all_goals rw [hentry]
  exact Nat.zero_lt_two

theorem slot_not_new {d d' : Disk} {pre new : List Nat} (ho : Owned v d) (hr : Reach v d h) (hs : s ∈ kids v d h)
    (b : Builds v d d' pre new) : s.1 ∉ new :=
  b.not_new (ho.area_taken hr (mem_slotsIn.mp (mem_kids_slot hs)).1)

theorem store_spec (hv : v.Fits) (ho : Owned v (view v m)) (hr : Reach v (view v m) h)
    (hs : s ∈ kids v (view v m) h) (hbare : ((view v m).entry s).firstCluster < 2)
    (hdata : data ≠ []) {m₃ : Mem} {added : List Nat} (b : Builds v (view v m) (view v m₃) [] added)
    (hfed : Fed v (view v m) (view v m₃) (chunks (clusterSizeBytes v) data) added)
    (hlen : added.length = (chunks (clusterSizeBytes v) data).length) :
    ∃ m', setFileSize (setFirstCluster (writeFat v m₃ (added.getLast?.getD 0) (eocMarker v)) (v.slotAddr s)
        (added.head?.getD 0)) (v.slotAddr s) data.length = m' ∧ Rechains v (view v m) (view v m') h s [] added ∧
      (view v m').entry s = { (view v m).entry s with firstCluster := added.head?.getD 0, fileSize := data.length } ∧
      Stores v (view v m') added data ∧ Stored v m₃ m' := by
  have hhas := ho.has_of_mem hr (mem_kids_slot hs)
  have hcs := hv.clusterSize_pos
  have hne : added ≠ [] := by
    rintro rfl
    rw [chunks_of_ne_nil hcs hdata] at hlen
    cases hlen
  obtain ⟨first, hfirst⟩ : ∃ x, added.head? = some x := by
    cases added with
    | nil => exact absurd rfl hne
    | cons x _ => exact ⟨x, rfl⟩
  obtain ⟨last, hlast⟩ : ∃ x, added.getLast? = some x := ⟨_, getLast?_eq_some_getLast hne⟩
  have hrangeLast := b.range last (by simpa using mem_of_getLast? hlast)
  have hrangeFirst := b.range first (by simpa using mem_of_head? hfirst)
  have hlt := length_lt_of_stored hv (by simpa using b.linked.nodup) (by simpa using b.range) hlen
  have hnot := slot_not_new ho hr hs b
  have hentry₃ : (view v m₃).entry s = (view v m).entry s := by
    rw [Disk.entry, Disk.entry, hfed.cell _ hnot]
  obtain ⟨honly, hentry⟩ := setFields_spec hv hhas (writeFat v m₃ last (eocMarker v)) first data.length
  have hview := view_writeFat hv hrangeLast.2 (eocMarker_lt v) m₃
  have hkeep : ((view v m₃).setFat last (eocMarker v)).entry s = (view v m₃).entry s := rfl
  rw [hview, hkeep, hentry₃, hv.mod_cluster hrangeFirst, Nat.mod_eq_of_lt hlt] at hentry
  rw [hview] at honly
  have b' := b.reseal (by simpa using hlast)
  rw [hfirst, hlast, Option.getD_some, Option.getD_some]
  refine ⟨_, rfl, ?_, hentry, ⟨hlen, ?_⟩, (writeFat_stored hv _ _ _).trans (setFields_stored hv hhas _ _ _)⟩
  · refine b'.rechains hr hs ?_ honly (by rw [hentry]) (by rw [hentry]) (.inr ?_)
    · rw [chainOf, if_pos hbare]
    · rw [hentry]
      exact hfirst
  · have hkept : ∀ c ∈ added, clusterBytes v (view v (setFileSize (setFirstCluster
        (writeFat v m₃ last (eocMarker v)) (v.slotAddr s) first) (v.slotAddr s) data.length)) c =
        clusterBytes v (view v m₃) c := by
      intro c hc
      apply cells_congr
      intro i _
      rw [honly.cell c i (fun he => absurd (he ▸ hc) hnot), Disk.setFat_cell]
    rw [map_congr_left hkept, hfed.bytes, hlen, take_length]

theorem scrap_spec (hv : v.Fits) (ho : Owned v (view v m)) (hr : Reach v (view v m) h)
    (hs : s ∈ kids v (view v m) h) (hbare : ((view v m).entry s).firstCluster < 2) {pieces : List (List UInt8)}
    {m₃ : Mem} {added : List Nat} (b : Builds v (view v m) (view v m₃) [] added)
    (hfed : Fed v (view v m) (view v m₃) pieces added) :
    ∃ m₄ m', Returns (fun n => freeChain v n m₃ (added.head?.getD 0)) m₄ ∧
      setFileSize (setFirstCluster m₄ (v.slotAddr s) 0) (v.slotAddr s) 0 = m' ∧
      Rechains v (view v m) (view v m') h s [] [] ∧
      (view v m').entry s = { (view v m).entry s with firstCluster := 0, fileSize := 0 } ∧ Stored v m₃ m' := by
  have hhas := ho.has_of_mem hr (mem_kids_slot hs)
  have hchain : (added.head?.getD 0 < 2 ∨ HasChain v (view v m₃) (added.head?.getD 0)) ∧
      chainOf v (view v m₃) (added.head?.getD 0) = added := by
    cases hh : added.head? with
    | none =>
      rw [head?_eq_none_iff] at hh
      rw [hh]
      exact ⟨.inl Nat.zero_lt_two, rfl⟩
    | some c =>
      obtain ⟨hc, he⟩ := b.hasChain (by simpa using hh)
      exact ⟨.inr hc, he⟩
  obtain ⟨m₄, hfree, hm₄, hconf⟩ := freeChain_spec hv hchain.1
  rw [hchain.2] at hm₄
  obtain ⟨honly, hentry⟩ := setFields_spec hv hhas m₄ 0 0
  have hkeep : (view v m₄).entry s = (view v m).entry s := by
    rw [hm₄, Disk.entry, Disk.release_cell, hfed.cell _ (slot_not_new ho hr hs b)]
    rfl
  rw [hkeep] at hentry
  rw [hm₄] at honly
  refine ⟨m₄, _, hfree, rfl, ?_, hentry, hconf.trans (setFields_stored hv hhas m₄ 0 0)⟩
  exact b.scrapped hr hs hbare honly (by rw [hentry]) (by rw [hentry]) (by rw [hentry]; exact Nat.zero_lt_two)

/-- The entry gives up its clusters, which leaves the disk `d₁`, and then gets those of the data, or none. -/
structure Replaced (v : Volume) (d d₁ d' : Disk) (h : Nat) (s : Slot) (new : List Nat) (data : List UInt8) (ok : Bool) :
    Prop where
  released : Rechains v d d₁ h s (chainOf v d (d.entry s).firstCluster) []
  bare : d₁.entry s = { d.entry s with firstCluster := 0, fileSize := 0 }
  chained : Rechains v d₁ d' h s [] new
  entry : d'.entry s = { d.entry s with firstCluster := new.head?.getD 0, fileSize := if ok then data.length else 0 }
  stores : ok = true → Stores v d' new data
  failed : ok = false → new = [] ∧ freeCount v d₁ < (chunks (clusterSizeBytes v) data).length

theorem writeReplace_spec (hv : v.Fits) (ho : Owned v (view v m)) (hr : Reach v (view v m) h)
    (hs : s ∈ kids v (view v m) h) (hfile : ((view v m).entry s).isDirectory = false) (data : List UInt8) :
    ∃ m' ok d₁ new, Returns (fun n => writeReplace v n m (v.slotAddr s) data) (m', ok) ∧
      Replaced v (view v m) d₁ (view v m') h s new data ok ∧ Stored v m m' := by
  obtain ⟨m₁, m₂, hfree, hm₂, g, hentry, hconf⟩ := release_spec hv ho hr hs
  have hhas := ho.has_of_mem hr (mem_kids_slot hs)
  have hread := readEntry_view hhas m
  have hconf₂ : Stored v m m₂ := hm₂ ▸ hconf.trans (setFields_stored hv hhas m₁ 0 0)
  have ho₂ := g.file_owned ho hfile
  have hr₂ : Reach v (view v m₂) h := (g.file_reach ho hfile).mpr hr
  have hs₂ := g.kid_kept ho
  have hbare : ((view v m₂).entry s).firstCluster < 2 := by
    rw [hentry]
    exact Nat.zero_lt_two
  have b₀ : Builds v (view v m₂) (view v m₂) [] [] := .nil (by simp) rfl (fun _ _ => rfl) (fun _ _ => rfl)
  unfold writeReplace
  rw [hread]
  by_cases hdata : data = []
  · refine ⟨m₂, true, view v m₂, [], hfree.bind ?_, ⟨g, hentry, ?_, ?_, fun _ => ?_, fun hf => by cases hf⟩, hconf₂⟩
    · simp only [hm₂, if_pos hdata]
      exact .of_some _
    · exact b₀.rechains hr₂ hs₂ (by rw [chainOf, if_pos hbare]) (.refl s _) rfl rfl (.inl ⟨rfl, hbare⟩)
    · rw [hentry, hdata]
      rfl
    · rw [hdata]
      exact ⟨rfl, rfl⟩
  · have hpieces : ∀ piece ∈ chunks (clusterSizeBytes v) data, piece.length ≤ clusterSizeBytes v :=
      fun piece hp => (length_chunk hv.clusterSize_pos hp).2
    obtain ⟨m₃, added, ok, hloop, b, hfed, hend, hconf₃⟩ := replaceLoop_spec hv hpieces b₀
    simp only [nil_append, head?_nil, getLast?_nil, Option.getD_none] at b hloop
    cases ok with
    | true =>
      obtain ⟨m', hm', g', hentry', hstores, hconf'⟩ := store_spec hv ho₂ hr₂ hs₂ hbare hdata b hfed hend
      refine ⟨m', true, view v m₂, added, hfree.bind ?_, ⟨g, hentry, g', ?_, fun _ => hstores, fun hf => by cases hf⟩,
        (hconf₂.trans hconf₃).trans hconf'⟩
      · simp only [hm₂, if_neg hdata, hloop, if_true, hm']
        exact .of_some _
      · rw [hentry', hentry]
        rfl
    | false =>
      obtain ⟨m₄, m', hfree', hm', g', hentry', hconf'⟩ := scrap_spec hv ho₂ hr₂ hs₂ hbare b hfed
      refine ⟨m', false, view v m₂, [], hfree.bind ?_, ⟨g, hentry, g', ?_, (fun hf => by cases hf), fun _ => ⟨rfl, ?_⟩⟩,
        (hconf₂.trans hconf₃).trans hconf'⟩
      · simp only [hm₂, if_neg hdata, hloop]
        exact hm' ▸ hfree'.map
      · rw [hentry', hentry]
        rfl
      · exact lt_of_le_of_lt (b.freeCount_le (by simp) hend.2) hend.1

end Replace

end ProOS.Fat
