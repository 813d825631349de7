import ProOS.Fat.Calls
import ProOS.Fat.Geometry
import ProOS.Fat.Entries

namespace ProOS.Fat

open ProOS.Framework List

/-! ## Freeing a chain -/

section Freeing

variable {v : Volume} {m m' : Mem} {c c' p : Nat}

/-- Zero bytes and zero lower halves stay. -/
def Wiped (m m' : Mem) : Prop := ∀ i, (m i = 0 → m' i = 0) ∧ ((m i).toNat % 16 = 0 → (m' i).toNat % 16 = 0)

theorem Wiped.refl (m : Mem) : Wiped m m := fun _ => ⟨id, id⟩

theorem Wiped.trans {m'' : Mem} (h : Wiped m m') (h' : Wiped m' m'') : Wiped m m'' :=
  fun i => ⟨fun hi => (h' i).1 ((h i).1 hi), fun hi => (h' i).2 ((h i).2 hi)⟩

theorem get16_eq_zero : get16 m p = 0 ↔ m p = 0 ∧ m (p + 1) = 0 := by
  rw [get16, ← UInt8.toNat_inj, ← UInt8.toNat_inj]
  simp

theorem get32_mod_eq_zero : get32 m p % 2 ^ 28 = 0 ↔
    m p = 0 ∧ m (p + 1) = 0 ∧ m (p + 2) = 0 ∧ (m (p + 3)).toNat % 16 = 0 := by
  have h₀ := (m p).toNat_lt
  have h₁ := (m (p + 1)).toNat_lt
  have h₂ := (m (p + 2)).toNat_lt
  rw [get32, get16, get16, show p + 2 + 1 = p + 3 from rfl, ← UInt8.toNat_inj, ← UInt8.toNat_inj,
    ← UInt8.toNat_inj]
  simp only [UInt8.toNat_zero]
  omega

theorem Wiped.getFatEntry (h : Wiped m m') (hz : Fat.getFatEntry v m p = 0) : Fat.getFatEntry v m' p = 0 := by
  unfold Fat.getFatEntry at hz ⊢
  cases ht : v.fatType with
  | fat16 =>
    rw [ht] at hz
    obtain ⟨h₀, h₁⟩ := get16_eq_zero.mp hz
    exact get16_eq_zero.mpr ⟨(h _).1 h₀, (h _).1 h₁⟩
  | fat32 =>
    rw [ht] at hz
    obtain ⟨h₀, h₁, h₂, h₃⟩ := get32_mod_eq_zero.mp hz
    exact get32_mod_eq_zero.mpr ⟨(h _).1 h₀, (h _).1 h₁, (h _).1 h₂, (h _).2 h₃⟩

theorem putFatEntry_zero_wiped : Wiped m (putFatEntry v m p 0) := by
  have hsmall : ∀ bs : List UInt8, (∀ b ∈ bs, b.toNat % 16 = 0) →
      (∀ k (hk : k < bs.length), m (p + k) = 0 → bs[k] = 0) → Wiped m (writeBytes m p bs) := by
    intro bs hb hz i
    by_cases hi : p ≤ i ∧ i < p + bs.length
    · obtain ⟨k, rfl⟩ : ∃ k, i = p + k := ⟨i - p, by omega⟩
      have hk : k < bs.length := by omega
      rw [writeBytes_at hk]
      exact ⟨hz k hk, fun _ => hb _ (getElem_mem hk)⟩
    · rw [writeBytes_agreeOff i (by omega)]
      exact ⟨id, id⟩
  unfold putFatEntry
  cases v.fatType with
  | fat16 =>
    show Wiped m (writeBytes m p [0, 0])
    apply hsmall
    · simp
    · intro k hk _
      have hk' : k < 2 := hk
      interval_cases k <;> rfl
  | fat32 =>
    have hlt := get32_lt m p
    generalize hx : get32 m p / 2 ^ 28 * 2 ^ 28 + 0 % 2 ^ 28 = x
    have hbytes : bytes32 x = [0, 0, 0, UInt8.ofNat (x / 65536 / 256)] := by
      have h₀ : UInt8.ofNat x = 0 := UInt8.toNat_inj.mp (by rw [UInt8.toNat_ofNat', UInt8.toNat_zero]; omega)
      have h₁ : UInt8.ofNat (x / 256) = 0 :=
        UInt8.toNat_inj.mp (by rw [UInt8.toNat_ofNat', UInt8.toNat_zero]; omega)
      have h₂ : UInt8.ofNat (x / 65536) = 0 :=
        UInt8.toNat_inj.mp (by rw [UInt8.toNat_ofNat', UInt8.toNat_zero]; omega)
      simp only [bytes32, bytes16, h₀, h₁, h₂, cons_append, nil_append]
    show Wiped m (writeBytes m p (bytes32 x))
    rw [hbytes]
    apply hsmall
    · intro b hb
      simp only [mem_cons, not_mem_nil, or_false, or_self_left] at hb
      rcases hb with rfl | rfl
      · rfl
      · rw [UInt8.toNat_ofNat']
        omega
    · intro k hk hz
      have hk' : k < 4 := hk
      interval_cases k
      · rfl
      · rfl
      · rfl
      · -- the upper half of a zero byte is zero
        have hz' : (m (p + 3)).toNat = 0 := by rw [hz]; rfl
        have hx' : x / 65536 / 256 = 0 := by
          have h₀ := (m p).toNat_lt
          have h₁ := (m (p + 1)).toNat_lt
          have h₂ := (m (p + 2)).toNat_lt
          rw [← hx, get32, get16, get16, show p + 2 + 1 = p + 3 by rfl, hz']
          omega
        simp [hx']

theorem writeFat_zero_wiped (v : Volume) (m : Mem) (c : Nat) : Wiped m (writeFat v m c 0) := by
  have hcopies : ∀ (l : List Nat) (m : Mem), Wiped m (l.foldl (writeFatCopy v c 0) m) := by
    intro l
    induction l with
    | nil => exact fun m => .refl m
    | cons k l ih =>
      intro m
      refine Wiped.trans ?_ (ih _)
      unfold writeFatCopy
      cases fatEntryPtr v k c with
      | none => exact .refl m
      | some q => exact putFatEntry_zero_wiped
  unfold writeFat
  split
  · exact .refl m
  · exact hcopies _ m

theorem Wiped.readFat (h : Wiped m m') (hz : Fat.readFat v m c = 0) : Fat.readFat v m' c = 0 := by
  obtain ⟨hc, p, hp, he⟩ := entry_of_not_eoc (v := v) (m := m) (c := c) (by rw [hz]; exact not_eoc_zero)
  rw [readFat_eq hc hp]
  exact h.getFatEntry (by rw [← he, hz])

theorem readFat_writeFat_zero (hcopy : 0 < v.fatCount) (h : isEoc v (readFat v m c) = false) :
    readFat v (writeFat v m c 0) c = 0 := by
  obtain ⟨hc, p, hp, -⟩ := entry_of_not_eoc h
  rw [readFat_eq hc hp, writeFat_eq hc, range_fatCount hcopy, foldl_cons]
  have hfirst : getFatEntry v (writeFatCopy v c 0 m 0) p = 0 := by
    rw [writeFatCopy, hp]
    dsimp only
    rw [getFatEntry_put, Nat.zero_mod]
  have hcopies : ∀ (l : List Nat) (m : Mem), getFatEntry v m p = 0 →
      getFatEntry v (l.foldl (writeFatCopy v c 0) m) p = 0 := by
    intro l
    induction l with
    | nil => exact fun m hz => hz
    | cons k l ih =>
      intro m hz
      apply ih
      unfold writeFatCopy
      cases fatEntryPtr v k c with
      | none => exact hz
      | some q => exact putFatEntry_zero_wiped.getFatEntry hz
  exact hcopies _ _ hfirst

def takenCount (v : Volume) (m : Mem) : Nat :=
  ((List.range ((v.totalClusters + 2) % 2 ^ 32)).filter (fun c => readFat v m c ≠ 0)).length

theorem takenCount_lt (hcopy : 0 < v.fatCount) (h : isEoc v (readFat v m c) = false) (hne : readFat v m c ≠ 0) :
    takenCount v (writeFat v m c 0) < takenCount v m := by
  have hzero := readFat_writeFat_zero hcopy h
  obtain ⟨hc, -⟩ := entry_of_not_eoc h
  unfold takenCount
  rw [← countP_eq_length_filter, ← countP_eq_length_filter]
  obtain ⟨as, bs, hsplit⟩ := append_of_mem (mem_range.mpr hc)
  rw [hsplit, countP_append, countP_append, countP_cons, countP_cons]
  have hmono : ∀ l : List Nat, List.countP (fun c' => decide (readFat v (writeFat v m c 0) c' ≠ 0)) l ≤
      List.countP (fun c' => decide (readFat v m c' ≠ 0)) l := by
    intro l
    apply countP_mono_left
    intro c' _ hc'
    simp only [decide_eq_true_eq] at hc' ⊢
    exact fun hz => hc' ((writeFat_zero_wiped v m c).readFat hz)
  have ha := hmono as
  have hb := hmono bs
  rw [if_neg (by simp [hzero]), if_pos (by simp [hne])]
  omega

theorem freeChain_low (hlow : c < 2) (m : Mem) (n : Nat) : freeChain v n m c = some m := by
  cases n <;> rw [freeChain, if_pos hlow]

/-- `fatfs_free_chain` ends on every FAT: each round leaves one entry less in use. -/
theorem freeChain_terminates (hcopy : 0 < v.fatCount) (m : Mem) (c : Nat) :
    Terminates (fun n => freeChain v n m c) := by
  induction hn : takenCount v m using Nat.strong_induction_on generalizing m c with
  | _ n ih =>
    by_cases hc : c < 2
    · exact ⟨m, 0, fun k _ => freeChain_low hc m k⟩
    · refine .of_succ ?_
      cases he : isEoc v (readFat v m c) with
      | true => simpa [freeChain, hc, he] using Terminates.of_some (writeFat v m c 0)
      | false =>
        -- the next round is the last one, or the entry was in use
        have hnext : Terminates (fun k => freeChain v k (writeFat v m c 0) (readFat v m c)) := by
          by_cases hlow : readFat v m c < 2
          · exact ⟨_, 0, fun k _ => freeChain_low hlow _ k⟩
          · exact ih _ (hn ▸ takenCount_lt hcopy he (by omega)) _ _ rfl
        simpa [freeChain, hc, he] using hnext

end Freeing

/-! ## Following links -/

/-- No loop in the links of the FAT, wherever one starts. -/
def Acyclic (v : Volume) (m : Mem) : Prop := ∀ c, ∃ l, Linked (fatNext v m) (some c) l

def CopiesApart (v : Volume) : Prop :=
  ∀ k, 0 < k → k < v.fatCount → 4 ≤ k * v.sectorsPerFat * v.bytesPerSector ∧
    k * v.sectorsPerFat * v.bytesPerSector + 4 ≤ 2 ^ 32

section Links

variable {v : Volume} {m : Mem}

section

variable (ha : Acyclic v m)

include ha

theorem Acyclic.followChain {σ ρ : Type} (body : Nat → σ → ρ ⊕ σ) (leave : Nat → σ → ρ)
    (c : Nat) (s : σ) : Terminates (fun n => Fat.followChain v m body leave n c s) := by
  obtain ⟨l, hl⟩ := ha c
  exact follow_terminates hl

theorem Acyclic.lastOfChain (c : Nat) : Terminates (fun n => Fat.lastOfChain v m n c) := by
  obtain ⟨l, hl⟩ := ha c
  induction l generalizing c with
  | nil => cases hl
  | cons x l ih =>
    obtain ⟨hx, hrest⟩ := hl
    obtain rfl := Option.some.inj hx
    unfold fatNext at hrest
    refine .of_succ ?_
    cases he : isEoc v (readFat v m c) with
    | true => simpa [Fat.lastOfChain, he] using Terminates.of_some c
    | false =>
      rw [he] at hrest
      simpa [Fat.lastOfChain, he] using ih _ hrest

theorem Acyclic.dirScan (c : Nat) (target : Option Name) : Terminates (fun n => Fat.dirScan v n m c target) := by
  unfold Fat.dirScan
  dsimp only
  split
  · split
    · exact .of_some _
    · exact .of_some _
  · exact ha.followChain _ _ _ _

theorem Acyclic.resolveSegments (segments : List Str) (current : Nat) :
    Terminates (fun n => Fat.resolveSegments v n m segments current) := by
  induction segments generalizing current with
  | nil => exact .of_some _
  | cons segment segments ih =>
    simp only [Fat.resolveSegments]
    split
    · exact .of_some _
    split
    · exact .of_some _
    refine (ha.dirScan _ _).onSuccess ?_
    intro scan _
    split
    · exact .of_some _
    split
    · exact .of_some _
    split
    · exact .of_some _
    · exact ih _

theorem Acyclic.resolveParent (path : Str) : Terminates (fun n => Fat.resolveParent v n m path) := by
  unfold Fat.resolveParent
  split
  · split
    · exact .of_some _
    · exact .of_some _
  split
  · exact .of_some _
  refine (ha.resolveSegments _ _).onSuccess ?_
  intro parent _
  dsimp only
  split
  · exact .of_some _
  · exact .of_some _

theorem Acyclic.locate (path : Str) : Terminates (fun n => Fat.locate v n m path) := by
  unfold Fat.locate
  refine (ha.resolveParent path).onSuccess ?_
  rintro ⟨parent, leaf⟩ _
  dsimp only
  split
  · exact .of_some _
  · refine (ha.dirScan _ _).onSuccess ?_
    intro scan _
    exact .of_some _

end

theorem Terminates.map {α β : Type} {f : Nat → Option α} (g : α → β) (h : Terminates f) :
    Terminates (fun n => (f n).map g) := by
  obtain ⟨a, ha⟩ := h
  exact ⟨g a, ha.map⟩

theorem Acyclic.fatfsList (ha : Acyclic v m) (path : Str) (bufferSize : Nat) :
    Terminates (fun n => Fat.fatfsList v n m path bufferSize) := by
  unfold Fat.fatfsList
  refine (ha.resolveSegments _ _).onSuccess ?_
  intro dirCluster _
  unfold listDirectory
  split
  · exact .of_some _
  refine (ha.dirScan _ _).onSuccess ?_
  intro scan _
  dsimp only
  split
  · split
    · exact .of_some _
    · split
      · exact .of_some _
      · exact .of_some _
  · exact Terminates.map _ (ha.followChain _ _ _ _)

theorem Acyclic.fatfsRead (ha : Acyclic v m) (path : Str) (maxLen : Nat) :
    Terminates (fun n => Fat.fatfsRead v n m path maxLen) := by
  unfold Fat.fatfsRead
  split
  · exact .of_some _
  refine (ha.locate _).onSuccess ?_
  intro l _
  dsimp only
  split
  · exact .of_some _
  split
  · exact .of_some _
  split
  · exact .of_some _
  · exact Terminates.map _ (ha.followChain _ _ _ _)

theorem Acyclic.fatfsRemove (ha : Acyclic v m) (hcopy : 0 < v.fatCount) (path : Str) :
    Terminates (fun n => Fat.fatfsRemove v n m path) := by
  unfold Fat.fatfsRemove
  apply (ha.locate _).bind
  intro located _
  have hdrop : ∀ (p c : Nat), Terminates (fun n =>
      (freeChain v n m c).map fun m => (writeBytes m p [entryFree], true)) :=
    fun p c => Terminates.map _ (freeChain_terminates hcopy m c)
  dsimp only
  split
  · exact .of_some _
  split
  · split
    · exact .of_some _
    apply Terminates.bind (ha.followChain _ _ _ _)
    intro empty _
    split
    · exact hdrop _ _
    · exact .of_some _
  · exact hdrop _ _

theorem Acyclic.fatfsMkdir (ha : Acyclic v m) (path : Str) : Terminates (fun n => Fat.fatfsMkdir v n m path) :=
  Terminates.map _ (ha.locate path)

theorem writeReplace_terminates (hcopy : 0 < v.fatCount) (m : Mem) (p : Nat) (data : List UInt8) :
    Terminates (fun n => writeReplace v n m p data) := by
  unfold writeReplace
  apply (freeChain_terminates hcopy _ _).bind
  intro m' _
  dsimp only
  split
  · exact .of_some _
  split
  · exact Terminates.map _ (freeChain_terminates hcopy _ _)
  · exact .of_some _

end Links

/-! ## Appending -/

section Appending

variable {v : Volume} {m : Mem} {c p q : Nat}

theorem CopiesApart.entries (h : CopiesApart v) (hp : fatEntryPtr v 0 c = some p) {k : Nat} (hk : 0 < k)
    (hk' : k < v.fatCount) (hq : fatEntryPtr v k c = some q) : p + entrySize v ≤ q ∨ q + entrySize v ≤ p := by
  obtain ⟨hlow, hhigh⟩ := h k hk hk'
  have hsize : entrySize v ≤ 4 := by
    unfold entrySize
    cases v.fatType <;> decide
  rw [fatEntryPtr_eq hp, fatEntryPtr_eq hq]
  generalize (v.reservedSectors + c * entrySize v % 2 ^ 32 / v.bytesPerSector) * v.bytesPerSector = a
  generalize k * v.sectorsPerFat * v.bytesPerSector = d at hlow hhigh ⊢
  omega

theorem CopiesApart.isEoc_written (h : CopiesApart v) (hcopy : 0 < v.fatCount)
    (hc : c < (v.totalClusters + 2) % 2 ^ 32) (hp : fatEntryPtr v 0 c = some p) (m : Mem) :
    isEoc v (readFat v (writeFat v m c (eocMarker v)) c) = true := by
  rw [readFat_eq hc hp, writeFat_eq hc,
    getFatEntry_writeCopies hp (fun k q hk hk' hq => h.entries hp hk hk' hq) hcopy]
  exact isEoc_put_eocMarker

theorem allocateCluster_free (h : (allocateCluster v m).2 ≠ 0) : readFat v m (allocateCluster v m).2 = 0 := by
  unfold allocateCluster at h ⊢
  cases hf : (candidates v).find? (fun c => readFat v m c == 0) with
  | none =>
    rw [hf] at h
    exact absurd rfl h
  | some c => simpa using find?_some hf

/-- The chain that `fatfs_write_append` goes along ends: it is one of the chains from before, or a single
cluster that has just been marked. -/
theorem writeAppend_terminates (hcopy : 0 < v.fatCount) (hapart : CopiesApart v)
    (hchain : 2 ≤ (readEntry m p).firstCluster → Acyclic v m) (data : List UInt8) :
    Terminates (fun n => writeAppend v n m p data) := by
  unfold writeAppend
  split
  · exact .of_some _
  have hlast : ∀ (m' : Mem) (c offset : Nat), appendStart v m p = (m', some (c, offset)) →
      Terminates (fun n => lastOfChain v m' n c) := by
    intro m' c offset hstart
    unfold appendStart at hstart
    dsimp only at hstart
    split at hstart
    · split at hstart
      · cases hstart
      · rename_i hne
        obtain ⟨rfl, hc⟩ := Prod.mk.inj hstart
        cases hc
        have hfree := allocateCluster_free hne
        obtain ⟨hc, p', hp', -⟩ := entry_of_not_eoc (v := v) (m := m) (c := (allocateCluster v m).2)
          (by rw [hfree]; exact not_eoc_zero)
        refine ⟨(allocateCluster v m).2, 1, ?_⟩
        intro k hk
        obtain ⟨k, rfl⟩ : ∃ j, k = j + 1 := ⟨k - 1, by omega⟩
        simp [lastOfChain, hapart.isEoc_written hcopy hc hp']
    · rename_i hfirst
      obtain ⟨rfl, hc⟩ := Prod.mk.inj hstart
      exact (hchain (by omega)).lastOfChain c
  split
  · exact .of_some _
  · rename_i m' c offset hstart
    apply (hlast m' c offset hstart).bind
    intro last _
    dsimp only
    split
    · exact .of_some _
    split
    · exact .of_some _
    split
    · exact .of_some _
    · exact .of_some _

theorem firstCluster_zeroed (m : Mem) (p : Nat) :
    (readEntry (setFileSize (setFirstCluster m p 0) p 0) p).firstCluster = 0 := by
  have hhigh : get16 (setFileSize (setFirstCluster m p 0) p 0) (p + 20) = 0 := by
    rw [setFileSize, get16_congr (fun i h₁ h₂ => put32_agreeOff _ i (by omega)), setFirstCluster,
      get16_congr (fun i h₁ h₂ => put16_agreeOff _ i (by omega)), get16_put16]
  have hlow : get16 (setFileSize (setFirstCluster m p 0) p 0) (p + 26) = 0 := by
    rw [setFileSize, get16_congr (fun i h₁ h₂ => put32_agreeOff _ i (by omega)), setFirstCluster, get16_put16]
  simp only [readEntry, hhigh, hlow]

theorem Acyclic.fatfsWrite (ha : Acyclic v m) (hcopy : 0 < v.fatCount) (hapart : CopiesApart v) (path : Str)
    (isNull : Bool) (data : List UInt8) (mode : WriteMode) :
    Terminates (fun n => Fat.fatfsWrite v n m path isNull data mode) := by
  unfold Fat.fatfsWrite
  apply (ha.locate _).bind
  intro located _
  cases located with
  | none => exact .of_some _
  | some l =>
    dsimp only
    split
    · exact .of_some _
    rename_i m' p hslot
    -- an entry that has a chain is one that was found
    have hchain : 2 ≤ (readEntry m' p).firstCluster → Acyclic v m' := by
      unfold writeSlot at hslot
      split at hslot
      · cases hslot
        exact fun _ => ha
      · split at hslot
        · cases hslot
        · obtain ⟨rfl, hp⟩ := Prod.mk.inj hslot
          cases hp
          intro hge
          rw [firstCluster_zeroed] at hge
          omega
    unfold writeEntry
    split
    · exact .of_some _
    split
    · exact .of_some _
    cases mode with
    | replace => exact writeReplace_terminates hcopy m' p data
    | append => exact writeAppend_terminates hcopy hapart hchain data

end Appending

end ProOS.Fat
