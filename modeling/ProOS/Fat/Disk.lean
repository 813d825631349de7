import ProOS.Fat.Layout

namespace ProOS.Fat

open ProOS.Framework Function List

/-! ## Entries in memory -/

section EntryFields

variable {m m' : Mem} {p q : Nat}

theorem readEntry_congr (h : ∀ i < 32, m' (q + i) = m (p + i)) : readEntry m' q = readEntry m p := by
  have h16 : ∀ k, k + 2 ≤ 32 → get16 m' (q + k) = get16 m (p + k) := by
    intro k hk
    rw [get16, get16, h k (by omega), Nat.add_assoc q, Nat.add_assoc p, h (k + 1) (by omega)]
  have hname : cells (fun i => m' (q + i)) 11 = cells (fun i => m (p + i)) 11 :=
    cells_congr (fun i hi => h i (by omega))
  simp only [readEntry, hname, get32, Nat.add_assoc, h 11 (by omega), h16 20 (by omega), h16 26 (by omega),
    h16 28 (by omega), h16 (28 + 2) (by omega)]

@[simp] theorem length_readEntry_name (m : Mem) (p : Nat) : (readEntry m p).name.length = 11 := length_cells _ _

theorem setFirstCluster_agreeOff (c : Nat) : AgreeOff p 32 m (setFirstCluster m p c) :=
  ((put16_agreeOff _).mono (by omega) (by omega)).trans ((put16_agreeOff _).mono (by omega) (by omega))

theorem setFileSize_agreeOff (s : Nat) : AgreeOff p 32 m (setFileSize m p s) :=
  (put32_agreeOff _).mono (by omega) (by omega)

theorem makeEntry_agreeOff {name : Name} (hn : name.length = 11) (attr : UInt8) :
    AgreeOff p 32 m (makeEntry m p name attr) := by
  have h₁ : AgreeOff p 32 m (clearEntry m p) := by
    have h : AgreeOff p (List.replicate 32 (0 : UInt8)).length m (writeBytes m p (List.replicate 32 0)) :=
      writeBytes_agreeOff
    rwa [length_replicate] at h
  have h₂ : AgreeOff p 32 (clearEntry m p) (setName (clearEntry m p) p name) :=
    writeBytes_agreeOff.mono le_rfl (by omega)
  exact (h₁.trans h₂).trans (writeBytes_agreeOff.mono (by omega) (by simp))

theorem markFree_agreeOff : AgreeOff p 32 m (writeBytes m p [entryFree]) :=
  writeBytes_agreeOff.mono le_rfl (by simp)

theorem readEntry_setFirstCluster (c : Nat) :
    readEntry (setFirstCluster m p c) p = { readEntry m p with firstCluster := c % 2 ^ 32 } := by
  have hlow : ∀ i, i < 20 → setFirstCluster m p c (p + i) = m (p + i) := by
    intro i hi
    rw [setFirstCluster, put16_agreeOff _ _ (by omega), put16_agreeOff _ _ (by omega)]
  have hhigh : get16 (setFirstCluster m p c) (p + 20) = c / 65536 % 65536 := by
    rw [setFirstCluster, get16_congr (fun i h₁ h₂ => put16_agreeOff _ i (by omega)), get16_put16]
  have hsize : get32 (setFirstCluster m p c) (p + 28) = get32 m (p + 28) := by
    apply get32_congr
    intro i h₁ h₂
    rw [setFirstCluster, put16_agreeOff _ _ (by omega), put16_agreeOff _ _ (by omega)]
  have hname : cells (fun i => setFirstCluster m p c (p + i)) 11 = cells (fun i => m (p + i)) 11 :=
    cells_congr (fun i hi => hlow i (by omega))
  have hcluster : c / 65536 % 65536 * 65536 + c % 65536 = c % 2 ^ 32 := by omega
  have hend : get16 (setFirstCluster m p c) (p + 26) = c % 65536 := by rw [setFirstCluster, get16_put16]
  simp only [readEntry, hname, hlow 11 (by omega), hhigh, hend, hsize, hcluster]

theorem readEntry_setFileSize (s : Nat) :
    readEntry (setFileSize m p s) p = { readEntry m p with fileSize := s % 2 ^ 32 } := by
  have hlow : ∀ i, i < 28 → setFileSize m p s (p + i) = m (p + i) :=
    fun i hi => put32_agreeOff _ _ (by omega)
  have h16 : ∀ k, k + 2 ≤ 28 → get16 (setFileSize m p s) (p + k) = get16 m (p + k) :=
    fun k hk => get16_congr (fun i h₁ h₂ => put32_agreeOff _ i (by omega))
  have hname : cells (fun i => setFileSize m p s (p + i)) 11 = cells (fun i => m (p + i)) 11 :=
    cells_congr (fun i hi => hlow i (by omega))
  have hsize : get32 (setFileSize m p s) (p + 28) = s % 2 ^ 32 := get32_put32 s
  simp only [readEntry, hname, hlow 11 (by omega), h16 20 (by omega), h16 26 (by omega), hsize]

theorem makeEntry_zero {name : Name} (hn : name.length = 11) (attr : UInt8) {i : Nat} (h₁ : 12 ≤ i) (h₂ : i < 32) :
    makeEntry m p name attr (p + i) = 0 := by
  have hlen : (List.replicate 32 (0 : UInt8)).length = 32 := length_replicate
  have hattr : makeEntry m p name attr (p + i) = setName (clearEntry m p) p name (p + i) :=
    writeBytes_agreeOff _ (by simp; omega)
  have hname : setName (clearEntry m p) p name (p + i) = clearEntry m p (p + i) :=
    writeBytes_agreeOff _ (by omega)
  have hclear : clearEntry m p (p + i) = (List.replicate 32 (0 : UInt8))[i] := writeBytes_at (by omega)
  rw [hattr, hname, hclear, getElem_replicate]

theorem readEntry_makeEntry {name : Name} (hn : name.length = 11) (attr : UInt8) :
    readEntry (makeEntry m p name attr) p = ⟨name, attr, 0, 0⟩ := by
  have hname : cells (fun i => makeEntry m p name attr (p + i)) 11 = name := by
    have hcells : cells (fun i => makeEntry m p name attr (p + i)) 11 =
        cells (fun i => writeBytes (clearEntry m p) p name (p + i)) 11 := by
      apply cells_congr
      intro i hi
      exact writeBytes_before (by omega)
    rw [hcells, ← hn]
    exact cells_writeBytes
  have hattr : makeEntry m p name attr (p + 11) = attr := writeBytes_at (k := 0) (by simp)
  have h16 : ∀ k, 12 ≤ k → k + 2 ≤ 32 → get16 (makeEntry m p name attr) (p + k) = 0 := by
    intro k h₁ h₂
    rw [get16, makeEntry_zero hn attr h₁ (by omega), Nat.add_assoc, makeEntry_zero hn attr (by omega) (by omega)]
    rfl
  simp only [readEntry, hname, hattr, get32, Nat.add_assoc, h16 20 (by omega) (by omega),
    h16 26 (by omega) (by omega), h16 28 (by omega) (by omega), h16 (28 + 2) (by omega) (by omega)]

theorem readEntry_markFree :
    readEntry (writeBytes m p [entryFree]) p = { readEntry m p with name := (readEntry m p).name.set 0 entryFree } := by
  have hrest : ∀ i, 0 < i → writeBytes m p [entryFree] (p + i) = m (p + i) := by
    intro i hi
    exact writeBytes_after (by simp; omega)
  have h16 : ∀ k, 0 < k → get16 (writeBytes m p [entryFree]) (p + k) = get16 m (p + k) :=
    fun k hk => get16_congr (fun i h₁ h₂ => writeBytes_after (by simp; omega))
  have hname : cells (fun i => writeBytes m p [entryFree] (p + i)) 11 =
      (cells (fun i => m (p + i)) 11).set 0 entryFree := by
    apply ext_getElem
    · simp
    · intro i h₁ h₂
      rw [getElem_cells, getElem_set, getElem_cells]
      split
      · rename_i hi
        subst hi
        exact writeBytes_at (k := 0) (by simp)
      · exact hrest i (by omega)
  simp only [readEntry, hname, hrest 11 (by omega), h16 20 (by omega), h16 26 (by omega), get32, Nat.add_assoc,
    h16 28 (by omega), h16 (28 + 2) (by omega)]

end EntryFields

/-! ## The disk that a memory shows -/

/-- What the calls see of an image: the FAT, and the bytes of each cluster and of the fixed root
directory, which is area 0. -/
@[ext]
structure Disk where
  fat : Nat → Nat
  cell : Nat → Mem

/-- An entry of a directory, by area and index. -/
abbrev Slot := Nat × Nat

def view (v : Volume) (m : Mem) : Disk where
  fat := readFat v m
  cell r i := if v.Area r ∧ i < v.len r then m (v.addr r + i) else 0

def Volume.slotCount (v : Volume) (r : Nat) : Nat := v.len r / 32

def Volume.slotAddr (v : Volume) (s : Slot) : Nat := v.addr s.1 + 32 * s.2

def Volume.Has (v : Volume) (s : Slot) : Prop := v.Area s.1 ∧ s.2 < v.slotCount s.1

namespace Disk

def entry (d : Disk) (s : Slot) : Entry := readEntry (d.cell s.1) (32 * s.2)

def setFat (d : Disk) (c x : Nat) : Disk := { d with fat := update d.fat c x }

def modify (d : Disk) (r : Nat) (f : Mem → Mem) : Disk :=
  { d with cell := update d.cell r (f (d.cell r)) }

@[simp] theorem setFat_cell (d : Disk) (c x : Nat) : (d.setFat c x).cell = d.cell := rfl
@[simp] theorem modify_fat (d : Disk) (r : Nat) (f : Mem → Mem) : (d.modify r f).fat = d.fat := rfl

theorem setFat_fat (d : Disk) (c x c' : Nat) : (d.setFat c x).fat c' = if c' = c then x else d.fat c' := by
  simp [setFat, update_apply]

theorem modify_cell (d : Disk) (r : Nat) (f : Mem → Mem) (r' : Nat) :
    (d.modify r f).cell r' = if r' = r then f (d.cell r) else d.cell r' := by
  simp [modify, update_apply]

theorem modify_modify (d : Disk) (r : Nat) (f g : Mem → Mem) :
    (d.modify r f).modify r g = d.modify r (fun cell => g (f cell)) := by
  simp [modify]

end Disk

/-- Only the 32 bytes of the slot `s` differ. -/
structure SlotOnly (s : Slot) (d d' : Disk) : Prop where
  fat : d'.fat = d.fat
  cell : ∀ r i, (r = s.1 → i < 32 * s.2 ∨ 32 * s.2 + 32 ≤ i) → d'.cell r i = d.cell r i

section View

variable {v : Volume} {m : Mem} {d d' : Disk} {s t : Slot} {r c i : Nat}

theorem view_cell (hr : v.Area r) (hi : i < v.len r) (m : Mem) : (view v m).cell r i = m (v.addr r + i) :=
  if_pos ⟨hr, hi⟩

theorem view_writeFat (h : v.Fits) (hc : c < v.totalClusters + 2) {x : Nat} (hx : x < fatLimit v) (m : Mem) :
    view v (writeFat v m c x) = (view v m).setFat c x := by
  have hfat : readFat v (writeFat v m c x) = ((view v m).setFat c x).fat := by
    funext c'
    rw [readFat_writeFat h hc, Disk.setFat_fat, Nat.mod_eq_of_lt hx]
    rfl
  have hcell : (view v (writeFat v m c x)).cell = (view v m).cell := by
    funext r i
    show (if _ then _ else _) = if _ then _ else _
    split
    · rename_i hr
      exact writeFat_area h hc hr.1 i
    · rfl
  exact Disk.ext hfat hcell

theorem view_writeBytes (h : v.Fits) (hr : v.Area r) {off : Nat} {bs : List UInt8} (hb : off + bs.length ≤ v.len r)
    (m : Mem) : view v (writeBytes m (v.addr r + off) bs) = (view v m).modify r (writeBytes · off bs) := by
  have hagree : AgreeOff (v.addr r) (v.len r) m (writeBytes m (v.addr r + off) bs) :=
    writeBytes_agreeOff.mono (by omega) (by omega)
  have hfat : (view v (writeBytes m (v.addr r + off) bs)).fat = (view v m).fat := by
    funext c
    exact readFat_congr h hr hagree c
  have hcell : (view v (writeBytes m (v.addr r + off) bs)).cell =
      ((view v m).modify r (writeBytes · off bs)).cell := by
    funext r' i
    rw [Disk.modify_cell]
    split
    · rename_i he
      rw [he]
      by_cases hi : i < v.len r
      · rw [view_cell hr hi]
        by_cases hin : off ≤ i ∧ i < off + bs.length
        · obtain ⟨k, rfl⟩ : ∃ k, i = off + k := ⟨i - off, by omega⟩
          rw [writeBytes_at (by omega), ← Nat.add_assoc, writeBytes_at (by omega)]
        · rw [writeBytes_agreeOff _ (by omega), writeBytes_agreeOff _ (by omega), view_cell hr hi]
      · have hout : ∀ m : Mem, (view v m).cell r i = 0 := fun m => if_neg (fun hf => hi hf.2)
        rw [hout, writeBytes_after (by omega), hout]
    · rename_i hne
      show (if _ then _ else _) = if _ then _ else _
      split
      · rename_i hr'
        have := h.areas_apart hr hr'.1 (Ne.symm hne)
        exact hagree _ (by omega)
      · rfl
  exact Disk.ext hfat hcell

theorem slot_end (hs : v.Has s) : 32 * s.2 + 32 ≤ v.len s.1 := by
  have h₁ : s.2 < v.len s.1 / 32 := hs.2
  omega

theorem readEntry_view (hs : v.Has s) (m : Mem) : readEntry m (v.slotAddr s) = (view v m).entry s := by
  have hend := slot_end hs
  symm
  apply readEntry_congr
  intro i hi
  rw [view_cell hs.1 (by omega), Volume.slotAddr, Nat.add_assoc]

theorem view_setFirstCluster (h : v.Fits) (hs : v.Has s) (m : Mem) (c : Nat) :
    view v (setFirstCluster m (v.slotAddr s) c) = (view v m).modify s.1 (setFirstCluster · (32 * s.2) c) := by
  have hend := slot_end hs
  have hput : ∀ (m : Mem) (k x : Nat), k + 2 ≤ 32 →
      view v (put16 m (v.slotAddr s + k) x) = (view v m).modify s.1 (put16 · (32 * s.2 + k) x) := by
    intro m k x hk
    rw [Volume.slotAddr, Nat.add_assoc]
    exact view_writeBytes h hs.1 (by rw [length_bytes16]; omega) m
  rw [setFirstCluster, hput _ _ _ (by omega), hput _ _ _ (by omega), Disk.modify_modify]
  rfl

theorem view_setFileSize (h : v.Fits) (hs : v.Has s) (m : Mem) (n : Nat) :
    view v (setFileSize m (v.slotAddr s) n) = (view v m).modify s.1 (setFileSize · (32 * s.2) n) := by
  have hend := slot_end hs
  rw [setFileSize, Volume.slotAddr, Nat.add_assoc]
  exact view_writeBytes h hs.1 (by rw [length_bytes32]; omega) m

theorem view_makeEntry (h : v.Fits) (hs : v.Has s) (m : Mem) {name : Name} (hn : name.length = 11) (attr : UInt8) :
    view v (makeEntry m (v.slotAddr s) name attr) = (view v m).modify s.1 (makeEntry · (32 * s.2) name attr) := by
  have hend := slot_end hs
  have hwrite : ∀ (m : Mem) (k : Nat) (bs : List UInt8), k + bs.length ≤ 32 →
      view v (writeBytes m (v.slotAddr s + k) bs) = (view v m).modify s.1 (writeBytes · (32 * s.2 + k) bs) := by
    intro m k bs hk
    rw [Volume.slotAddr, Nat.add_assoc]
    exact view_writeBytes h hs.1 (by omega) m
  have hclear := hwrite m 0 (List.replicate 32 0) (by simp)
  have hname := hwrite (clearEntry m (v.slotAddr s)) 0 name (by omega)
  rw [makeEntry, setAttr, hwrite _ _ _ (by simp), setName]
  rw [Nat.add_zero] at hname
  rw [hname, clearEntry]
  rw [Nat.add_zero] at hclear
  rw [hclear, Disk.modify_modify, Disk.modify_modify]
  rfl

theorem view_markFree (h : v.Fits) (hs : v.Has s) (m : Mem) :
    view v (writeBytes m (v.slotAddr s) [entryFree]) = (view v m).modify s.1 (writeBytes · (32 * s.2) [entryFree]) := by
  have hend := slot_end hs
  exact view_writeBytes h hs.1 (by simp; omega) m

theorem SlotOnly.modify {f : Mem → Mem} (hf : AgreeOff (32 * s.2) 32 (d.cell s.1) (f (d.cell s.1))) :
    SlotOnly s d (d.modify s.1 f) := by
  refine ⟨rfl, ?_⟩
  intro r i hi
  rw [Disk.modify_cell]
  split
  · rename_i hr
    rw [hr]
    exact hf i (hi hr)
  · rfl

theorem SlotOnly.refl (s : Slot) (d : Disk) : SlotOnly s d d := ⟨rfl, fun _ _ _ => rfl⟩

theorem SlotOnly.trans {d'' : Disk} (h : SlotOnly s d d') (h' : SlotOnly s d' d'') : SlotOnly s d d'' :=
  ⟨h'.fat.trans h.fat, fun r i hi => (h'.cell r i hi).trans (h.cell r i hi)⟩

theorem SlotOnly.entry (h : SlotOnly s d d') (ht : t ≠ s) : d'.entry t = d.entry t := by
  apply readEntry_congr
  intro i hi
  apply h.cell
  intro hr
  have hidx : t.2 ≠ s.2 := fun he => ht (Prod.ext hr he)
  omega

theorem Disk.entry_modify (d : Disk) (s : Slot) (f : Mem → Mem) :
    (d.modify s.1 f).entry s = readEntry (f (d.cell s.1)) (32 * s.2) := by
  rw [Disk.entry, Disk.modify_cell, if_pos rfl]

end View

end ProOS.Fat
