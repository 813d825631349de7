import ProOS.Fat.Image
import ProOS.Fat.ReadSpec
import ProOS.Fat.Listing
import ProOS.Fat.Named

namespace ProOS.Fat.Image

open ProOS.Framework Option List

/-- What `fatfs_init` makes of the image. -/
def volume : Volume := ⟨65536, .fat16, 512, 1, 1, 1, 1, 6, 122, 2, 64, 0⟩

theorem volume_fits : volume.Fits where
  size_lt := by decide
  bytes_pos := by decide
  cluster_pos := by decide
  copies_pos := by decide
  some_cluster := by decide
  fatHolds := by decide
  root := by decide
  data := by decide
  dataEnd := by decide
  fat16 := by decide
  fat32 := by decide

/-! ## The empty image -/

section Stores

variable {m m' : Mem} {a n i : Nat}

theorem memset_inside (h : a ≤ i ∧ i < a + n) (b : UInt8) : memset m a b n i = b := if_pos h

theorem memset_outside (h : i < a ∨ a + n ≤ i) (b : UInt8) : memset m a b n i = m i := if_neg (by omega)

theorem readHeader_congr (h : ∀ i < 512, m' i = m i) : readHeader m' = readHeader m := by
  have h16 : ∀ a, a + 2 ≤ 512 → get16 m' a = get16 m a := fun a ha => get16_congr (fun i _ hi => h i (by omega))
  have h32 : ∀ a, a + 4 ≤ 512 → get32 m' a = get32 m a := fun a ha => get32_congr (fun i _ hi => h i (by omega))
  simp only [readHeader, h16 11 (by omega), h16 14 (by omega), h16 17 (by omega), h16 19 (by omega), h16 22 (by omega),
    h32 32 (by omega), h32 36 (by omega), h32 44 (by omega), h 13 (by omega), h 16 (by omega)]

theorem fatfsInit_congr (h : ∀ i < 512, m' i = m i) (size : Nat) : fatfsInit m' size = fatfsInit m size := by
  rw [fatfsInit, fatfsInit, readHeader_congr h]

theorem writeBytes_congr {bs : List UInt8} (h : m' i = m i) : writeBytes m' a bs i = writeBytes m a bs i := by
  rw [writeBytes, writeBytes, h]

theorem writeBootSector_congr (hi : i < 512) (m m' : Mem) : writeBootSector m' i = writeBootSector m i := by
  have hset : memset m' 0 0 sectorSize i = memset m 0 0 sectorSize i := by
    have hin : 0 ≤ i ∧ i < 0 + sectorSize := ⟨Nat.zero_le i, by rw [Nat.zero_add]; exact hi⟩
    rw [memset_inside hin, memset_inside hin]
  unfold writeBootSector put16
  iterate 15 refine writeBytes_congr ?_
  exact hset

theorem setFatEntry_before (hi : i < fatArea) (m : Mem) (c x : Nat) : setFatEntry m c x i = m i :=
  writeBytes_before (by omega)

theorem filesystemInit_boot (m : Mem) (hi : i < 512) : (filesystemInit m).image i = writeBootSector (fun _ => 0) i := by
  have hfat : i < fatArea := hi
  have hroot : i < rootArea := hi.trans (by decide)
  have hdata : i < dataArea := hi.trans (by decide)
  unfold filesystemInit
  dsimp only
  rw [setFatEntry_before hfat, setFatEntry_before hfat, memset_outside (.inl hdata), memset_outside (.inl hroot),
    memset_outside (.inl hfat)]
  exact writeBootSector_congr hi _ _

theorem filesystemInit_mounts (m : Mem) : fatfsInit (filesystemInit m).image imageSize = some volume := by
  rw [fatfsInit_congr (fun i hi => filesystemInit_boot m hi)]
  decide +kernel

theorem filesystemInit_blank (m : Mem) (h₁ : 516 ≤ i) (h₂ : i < imageSize) : (filesystemInit m).image i = 0 := by
  have hsize : imageSize = 65536 := by decide
  have hfat : fatArea = 512 := by decide
  have hroot : rootArea = 1024 := by decide
  have hdata : dataArea = 3072 := by decide
  have hfats : fatSectors * sectorSize = 512 := by decide
  have hroots : rootDirSectors * sectorSize = 2048 := by decide
  have hdatas : (totalSectors - dataStart) * sectorSize = 62464 := by decide
  unfold filesystemInit setFatEntry put16
  dsimp only
  rw [writeBytes_after (by simp; omega), writeBytes_after (by simp; omega)]
  by_cases h : 3072 ≤ i
  · rw [memset_inside (by omega)]
  rw [memset_outside (by omega)]
  by_cases h : 1024 ≤ i
  · rw [memset_inside (by omega)]
  rw [memset_outside (by omega), memset_inside (by omega)]

end Stores

/-! ## A blank disk -/

section Blank

variable {v : Volume} {d : Disk}

theorem used_blank (hslots : ∀ s ∈ dirSlots v d 0, (d.entry s).isEnd = true) : usedSlots v d 0 = [] := by
  rw [usedSlots, takeWhile_eq_nil_iff]
  intro hpos hnot
  have hend := hslots _ (List.get_mem _ ⟨0, hpos⟩)
  rw [hend] at hnot
  cases hnot

theorem kids_blank (hslots : ∀ s ∈ dirSlots v d 0, (d.entry s).isEnd = true) : kids v d 0 = [] ∧ lives v d 0 = [] := by
  rw [kids, lives, used_blank hslots]
  exact ⟨rfl, rfl⟩

theorem reach_blank (ht : v.fatType = .fat16) (hslots : ∀ s ∈ dirSlots v d 0, (d.entry s).isEnd = true) {h : Nat}
    (hr : Reach v d h) : h = 0 := by
  induction hr with
  | root => rw [rootDirectory, ht]
  | @child h s _ hs _ _ ih =>
    subst ih
    rw [(kids_blank hslots).1] at hs
    cases hs

theorem owns_blank (ht : v.fatType = .fat16) (hslots : ∀ s ∈ dirSlots v d 0, (d.entry s).isEnd = true) {o : Option Slot}
    {c : Nat} : ¬Owns v d o c := by
  intro hown
  cases hown with
  | root h32 =>
    rw [ht] at h32
    cases h32
  | entry hr hs _ =>
    rw [reach_blank ht hslots hr, (kids_blank hslots).1] at hs
    cases hs

theorem sound_blank (ht : v.fatType = .fat16) (hslots : ∀ s ∈ dirSlots v d 0, (d.entry s).isEnd = true)
    (hfree : ∀ x, v.InRange x → d.fat x = 0) : Sound v d where
  chains o c hown := absurd hown (owns_blank ht hslots)
  once o o' c c' x hown := absurd hown (owns_blank ht hslots)
  ends h hr := by
    obtain rfl := reach_blank ht hslots hr
    exact pairwise_of_forall_mem_list (fun s _ t ht _ => hslots t ht)
  cover x hx hne := absurd (hfree x hx) hne
  names h hr s hs := by
    rw [reach_blank ht hslots hr, (kids_blank hslots).2] at hs
    cases hs

end Blank

theorem view_blank (m : Mem) : (∀ i, (view volume (filesystemInit m).image).cell 0 i = 0) ∧
    ∀ x, volume.InRange x → (view volume (filesystemInit m).image).fat x = 0 := by
  constructor
  · intro i
    by_cases hi : volume.Area 0 ∧ i < volume.len 0
    · rw [view_cell hi.1 hi.2]
      have hlen : volume.len 0 = 2048 := by decide
      have haddr : volume.addr 0 = 1024 := by decide
      have hsize : imageSize = 65536 := by decide
      exact filesystemInit_blank m (by omega) (by omega)
    · exact if_neg hi
  · intro x hx
    have hlt := hx.2
    have hge := hx.1
    have htotal : volume.totalClusters = 122 := rfl
    have haddr : volume.fatAddr 0 x = 512 + x * 2 := rfl
    have hsize : imageSize = 65536 := by decide
    show readFat volume (filesystemInit m).image x = 0
    rw [readFat_fits volume_fits hlt]
    show get16 (filesystemInit m).image (volume.fatAddr 0 x) = 0
    rw [get16, filesystemInit_blank m (by omega) (by omega), filesystemInit_blank m (by omega) (by omega)]
    rfl

variable {d d' : Disk} {i : Nat}

theorem entry_blank (hcell : ∀ i, d.cell 0 i = 0) (i : Nat) : (d.entry (0, i)).isEnd = true := by
  have hzero : d.cell (0, i).1 = fun _ => 0 := funext hcell
  rw [Disk.entry, hzero]
  rfl

/-! ## One file -/

section Stores

variable {m : Mem} {c x : Nat}

theorem setFatEntry_eq (hc : c < volume.totalClusters + 2) (m : Mem) (x : Nat) :
    setFatEntry m c x = writeFat volume m c x := by
  rw [writeFat_eq hc]
  show _ = writeFatCopy volume c x m 0
  rw [writeFatCopy, volume_fits.fatEntryPtr_eq (by decide) hc]
  rfl

theorem fill_eq (m : Mem) (a : Nat) {piece : List UInt8} {n : Nat} (hp : piece.length ≤ n) :
    memset (writeBytes m a piece) (a + piece.length) 0 (n - piece.length) = writeBytes m a (padTo n 0 piece) := by
  funext i
  by_cases hin : a + piece.length ≤ i ∧ i < a + piece.length + (n - piece.length)
  · rw [memset_inside hin, writeBytes, if_pos (by omega), padTo, getElem?_append_right (by omega),
      getElem?_replicate, if_pos (by omega), getD_some]
  · rw [memset_outside (by omega)]
    by_cases hlt : i < a + piece.length
    · rw [writeBytes, writeBytes]
      split
      · rw [padTo, getElem?_append_left (by omega)]
      · rfl
    · rw [writeBytes_after (by omega), writeBytes_after (by rw [length_padTo hp]; omega)]

theorem split_min (data : List UInt8) (n : Nat) :
    data.take (min data.length n) = data.take n ∧ data.drop (min data.length n) = data.drop n := by
  rcases Nat.le_total data.length n with h | h
  · rw [Nat.min_eq_left h, take_length, drop_length, take_of_length_le h, drop_eq_nil_of_le h]
    exact ⟨rfl, rfl⟩
  · rw [Nat.min_eq_right h]
    exact ⟨rfl, rfl⟩

/-- One round of the loop: the cluster is filled, and linked to the next one or marked as the last. -/
theorem appendClusters_succ (hc : volume.InRange c) (k : Nat) (data : List UInt8) (m : Mem) :
    appendClusters (k + 1) c data m = appendClusters k (c + 1) (data.drop clusterBytes)
      (writeFat volume (fillCluster volume m (volume.addr c) (data.take clusterBytes)) c
        (if data.drop clusterBytes ≠ [] then c + 1 else 0xFFFF)) := by
  obtain ⟨htake, hdrop⟩ := split_min data clusterBytes
  have hlen : min data.length clusterBytes = (data.take clusterBytes).length := by rw [length_take, Nat.min_comm]
  have haddr : dataArea + (c - 2) * clusterBytes = volume.addr c := by
    rw [Volume.Fits.addr_cluster hc]
    show 3072 + (c - 2) * 512 = (6 + (c - 2) * 1) * 512
    omega
  have hlink : (if 0 < (data.drop clusterBytes).length then c + 1 else 0xFFFF) =
      if data.drop clusterBytes ≠ [] then c + 1 else 0xFFFF := if_congr length_pos_iff rfl rfl
  rw [appendClusters, htake, hdrop, hlen, haddr, fill_eq m _ (length_take_le _ _), hlink, setFatEntry_eq hc.2]
  rfl

/-- What the loop leaves behind: the clusters `l` are a chain that holds the data, and nothing else has changed. -/
structure Laid (d d' : Disk) (l : List Nat) (data : List UInt8) : Prop where
  fat : ∀ x, x ∉ l → d'.fat x = d.fat x
  cell : ∀ r, r ∉ l → d'.cell r = d.cell r
  linked : Linked (d'.next volume) l.head? l
  stores : Stores volume d' l data

theorem laid_nil (d : Disk) : Laid d d [] [] := ⟨fun _ _ => rfl, fun _ _ => rfl, rfl, rfl, rfl⟩

theorem Laid.cons {d₁ : Disk} {l : List Nat} {data : List UInt8} (hdata : data ≠ [])
    (hl : Laid d₁ d' l (data.drop clusterBytes)) (hnot : c ∉ l) (hnext : d₁.next volume c = l.head?)
    (hfat : ∀ x, x ≠ c → d₁.fat x = d.fat x) (hcell : ∀ r, r ≠ c → d₁.cell r = d.cell r)
    (hbytes : Fat.clusterBytes volume d₁ c = padTo clusterBytes 0 (data.take clusterBytes)) : Laid d d' (c :: l) data := by
  have hchunks := chunks_of_ne_nil (show 0 < clusterBytes by decide) hdata
  refine ⟨?_, ?_, ?_, ?_, ?_⟩
  · intro x hx
    obtain ⟨hxc, hxl⟩ := not_or.mp (fun h => hx (mem_cons.mpr h))
    rw [hl.fat x hxl, hfat x hxc]
  · intro r hr
    obtain ⟨hrc, hrl⟩ := not_or.mp (fun h => hr (mem_cons.mpr h))
    rw [hl.cell r hrl, hcell r hrc]
  · refine ⟨rfl, ?_⟩
    have hkeep : d'.next volume c = d₁.next volume c := by rw [Disk.next, Disk.next, hl.fat c hnot]
    rw [hkeep, hnext]
    exact hl.linked
  · show (c :: l).length = (chunks clusterBytes data).length
    rw [hchunks, length_cons, length_cons, hl.stores.length]
    rfl
  · have hkeep : Fat.clusterBytes volume d' c = Fat.clusterBytes volume d₁ c := by
      rw [Fat.clusterBytes, Fat.clusterBytes, hl.cell c hnot]
    show (c :: l).map (Fat.clusterBytes volume d') = (chunks clusterBytes data).map (padTo clusterBytes 0)
    rw [hchunks, map_cons, map_cons, hkeep, hbytes, hl.stores.bytes]
    rfl

theorem head_range' (c k : Nat) : (List.range' c k).head? = if k = 0 then none else some c := by
  cases k with
  | zero => rfl
  | succ k => rfl

theorem appendClusters_laid (hc : 2 ≤ c) (data : List UInt8) (m : Mem)
    (hend : c + (chunks clusterBytes data).length ≤ volume.totalClusters + 2) :
    Laid (view volume m) (view volume (appendClusters (chunks clusterBytes data).length c data m))
      (List.range' c (chunks clusterBytes data).length) data := by
  have hpos : 0 < clusterBytes := by decide
  induction data using chunks_induction hpos generalizing c m with
  | hnil => exact laid_nil _
  | hcons data hdata ih =>
    have hchunks := chunks_of_ne_nil hpos hdata
    rw [hchunks, length_cons] at hend ⊢
    have hrange : volume.InRange c := ⟨hc, by omega⟩
    have hpiece : (data.take clusterBytes).length ≤ clusterSizeBytes volume := length_take_le _ _
    obtain ⟨hfat, hcell, hbytes⟩ := view_fillCluster volume_fits hrange hpiece m
    have hlink : (if data.drop clusterBytes ≠ [] then c + 1 else 0xFFFF) < fatLimit volume := by
      have htotal : volume.totalClusters = 122 := rfl
      have hlimit : fatLimit volume = 65536 := rfl
      split
      · omega
      · omega
    rw [appendClusters_succ hrange, range'_succ]
    refine (ih (Nat.le_succ_of_le hc) _ (by omega)).cons hdata ?_ ?_ ?_ ?_ ?_
    · intro hmem
      have hge := (mem_range'_1.mp hmem).1
      omega
    · rw [view_writeFat volume_fits hrange.2 hlink, Disk.next, Disk.setFat_fat, if_pos rfl, head_range']
      by_cases hrest : data.drop clusterBytes = []
      · rw [if_neg (not_not.mpr hrest), if_pos (by decide), hrest, if_pos (by rfl)]
      · have hlen : 0 < (chunks clusterBytes (data.drop clusterBytes)).length := by
          rw [chunks_of_ne_nil hpos hrest]
          exact Nat.succ_pos _
        have hnext : volume.InRange (c + 1) := ⟨Nat.le_succ_of_le hc, by omega⟩
        rw [if_pos hrest, volume_fits.not_eoc hnext, if_neg (by decide), if_neg hlen.ne']
    · intro x hx
      rw [view_writeFat volume_fits hrange.2 hlink, Disk.setFat_fat, if_neg hx, hfat]
    · intro r hr
      rw [view_writeFat volume_fits hrange.2 hlink, Disk.setFat_cell]
      exact hcell r hr
    · rw [view_writeFat volume_fits hrange.2 hlink]
      exact hbytes

theorem memset_eq_clearEntry (m : Mem) (p : Nat) : memset m p 0 32 = clearEntry m p := by
  have h : memset (writeBytes m p []) (p + ([] : List UInt8).length) 0 (32 - ([] : List UInt8).length) =
      writeBytes m p (padTo 32 0 []) := fill_eq m p (Nat.zero_le 32)
  rw [writeBytes_nil] at h
  exact h

theorem put16_zero {p : Nat} (h₀ : m p = 0) (h₁ : m (p + 1) = 0) : put16 m p 0 = m := by
  funext i
  by_cases hi : i = p
  · rw [hi, h₀]
    exact writeBytes_at (k := 0) (by simp)
  · by_cases hi' : i = p + 1
    · rw [hi', h₁]
      exact writeBytes_at (k := 1) (by simp)
    · exact put16_agreeOff 0 i (by omega)

theorem rootEntry_eq {name : Name} (hn : name.length = 11) (hc : c < 65536) (m : Mem) (p size : Nat) :
    rootEntry m p name c size = setFileSize (setFirstCluster (makeEntry m p name attrArchive) p c) p size := by
  have hhigh : put16 (makeEntry m p name attrArchive) (p + 20) 0 = makeEntry m p name attrArchive :=
    put16_zero (makeEntry_zero hn _ (by decide) (by decide)) (makeEntry_zero hn _ (i := 21) (by decide) (by decide))
  rw [setFirstCluster, Nat.div_eq_of_lt hc, hhigh, rootEntry, memset_eq_clearEntry]
  rfl

end Stores

/-! ## What the image holds -/

def clustersOf (data : List UInt8) : Nat := (data.length + clusterBytes - 1) / clusterBytes

/-- The files are in the first slots of the root directory, in order. -/
structure Stocked (d : Disk) (files : List (Name × List UInt8)) : Prop where
  short : ∀ f ∈ files, ShortName f.1
  sound : Sound volume d
  used : usedSlots volume d 0 = (List.range files.length).map (Prod.mk 0)
  behind : ∀ i, files.length ≤ i → (d.entry (0, i)).isEnd = true
  entry : ∀ i f, files[i]? = some f → (d.entry (0, i)).name = f.1 ∧ (d.entry (0, i)).attr = attrArchive ∧
    (d.entry (0, i)).fileSize = f.2.length ∧ content volume d (0, i) = f.2

/-- The image holds the files, and the clusters from `next_cluster` on are free. -/
structure Holds (b : Builder) (files : List (Name × List UInt8)) : Prop extends
    Stocked (view volume b.image) files where
  boot : fatfsInit b.image imageSize = some volume
  count : b.rootEntriesUsed = files.length
  next : b.nextCluster = 2 + (files.map (fun f => clustersOf f.2)).sum
  free : ∀ x, b.nextCluster ≤ x → volume.InRange x → (view volume b.image).fat x = 0

theorem holds_init (m : Mem) : Holds (filesystemInit m) [] := by
  obtain ⟨hcell, hfree⟩ := view_blank m
  have hend : ∀ s ∈ dirSlots volume (view volume (filesystemInit m).image) 0,
      ((view volume (filesystemInit m).image).entry s).isEnd = true := by
    rintro ⟨r, i⟩ hs
    obtain rfl : r = 0 := by
      have hr := (mem_slotsIn.mp hs).1
      rw [dirAreas_zero rfl] at hr
      exact mem_singleton.mp hr
    exact entry_blank hcell i
  exact {
    short := fun f hf => by cases hf
    boot := filesystemInit_mounts m
    sound := sound_blank rfl hend hfree
    count := rfl
    next := rfl
    free := fun x _ hx => hfree x hx
    used := used_blank hend
    behind := fun i _ => entry_blank hcell i
    entry := fun i f hf => by cases hf }

theorem appendClusters_boot (k c : Nat) (data : List UInt8) (m : Mem) (hi : i < 512) :
    appendClusters k c data m i = m i := by
  induction k generalizing c data m with
  | zero => rfl
  | succ k ih =>
    have hdata : i < dataArea := hi.trans (by decide)
    rw [appendClusters, ih, setFatEntry_before hi, memset_outside (by omega), writeBytes_before (by omega)]

section Append

variable {b : Builder} {files : List (Name × List UInt8)} {name : Name} {data : List UInt8}

/-- The first cluster of a file, 0 if it has none. -/
def firstOf (l : List Nat) : Nat := l.head?.getD 0

theorem clustersOf_eq (data : List UInt8) : clustersOf data = (chunks clusterBytes data).length :=
  (length_chunks (by decide) data).symm

theorem appendFile_eq (hcount : b.rootEntriesUsed < rootEntries) (hnext : 2 ≤ b.nextCluster)
    (hfit : b.nextCluster - 2 + clustersOf data ≤ maxClusters) :
    appendFile b name (some data) = addRootEntry
      { b with
        image := appendClusters (clustersOf data) b.nextCluster data b.image
        nextCluster := b.nextCluster + clustersOf data }
      name (firstOf (List.range' b.nextCluster (clustersOf data))) data.length := by
  have hmax : maxClusters = 122 := by decide
  have hcluster : clusterBytes = 512 := by decide
  have hwrap : (data.length + clusterBytes - 1) % 2 ^ 32 / clusterBytes = clustersOf data := by
    rw [clustersOf] at hfit ⊢
    rw [Nat.mod_eq_of_lt]
    have hdiv := Nat.div_add_mod (data.length + clusterBytes - 1) clusterBytes
    have hmod := Nat.mod_lt (data.length + clusterBytes - 1) (show clusterBytes > 0 by decide)
    rw [hcluster] at hdiv hmod hfit ⊢
    omega
  rw [appendFile]
  dsimp only
  rw [if_neg (by omega), hwrap]
  cases hk : clustersOf data with
  | zero =>
    rw [if_neg (by decide)]
    rfl
  | succ k =>
    rw [if_pos (Nat.succ_pos k), if_neg (by omega), Nat.mod_eq_of_lt (by omega)]
    rfl

/-- A file with its clusters has come into the slot `s` of the root directory. -/
structure Added (d d' : Disk) (s : Slot) (l : List Nat) (name : Name) (data : List UInt8) : Prop where
  sound : Sound volume d'
  fat : ∀ x, x ∉ l → d'.fat x = d.fat x
  used : usedSlots volume d' 0 = usedSlots volume d 0 ++ [s]
  others : ∀ i, (0, i) ≠ s → d'.entry (0, i) = d.entry (0, i)
  bytes : ∀ t ∈ kids volume d 0, t ≠ s → (d.entry t).isDirectory = false → fileBytes volume d' t = fileBytes volume d t
  entry : d'.entry s = ⟨name, attrArchive, firstOf l, data.length⟩
  content : content volume d' s = data

section Entry

variable {m m₂ : Mem} {s : Slot} {l : List Nat}

/-- The clusters were laid out before the entry was made; the other way round they come to the same. -/
theorem Laid.builds (hl : Laid (view volume m) (view volume m₂) l data) (hhas : volume.Has s) (hs : s.1 ∉ l)
    (hrange : ∀ x ∈ l, volume.InRange x) (hfresh : ∀ x ∈ l, (view volume m).fat x = 0) (hn : name.length = 11) :
    Builds volume (view volume (makeEntry m (volume.slotAddr s) name attrArchive))
      (view volume (makeEntry m₂ (volume.slotAddr s) name attrArchive)) [] l := by
  rw [view_makeEntry volume_fits hhas m hn, view_makeEntry volume_fits hhas m₂ hn]
  refine ⟨fun x _ hx => hl.fat x hx, ?_, ?_, hfresh, ?_⟩
  · intro r _ hr
    rw [Disk.modify_cell, Disk.modify_cell, hl.cell s.1 hs, hl.cell r hr]
  · rw [nil_append]
    exact hrange
  · rw [nil_append]
    exact hl.linked

theorem stores_congr (hst : Stores volume d l data) (hcell : ∀ x ∈ l, d'.cell x = d.cell x) :
    Stores volume d' l data := by
  refine ⟨hst.length, ?_⟩
  rw [← hst.bytes]
  apply map_congr_left
  intro x hx
  rw [Fat.clusterBytes, Fat.clusterBytes, hcell x hx]

theorem firstOf_cases (l : List Nat) : l = [] ∧ firstOf l = 0 ∨ l.head? = some (firstOf l) := by
  cases l with
  | nil => exact .inl ⟨rfl, rfl⟩
  | cons x l => exact .inr rfl

theorem firstOf_lt (hrange : ∀ x ∈ l, volume.InRange x) : firstOf l < 65536 := by
  cases l with
  | nil => decide
  | cons x l =>
    have hlt := (hrange x (by simp)).2
    have htotal : volume.totalClusters = 122 := rfl
    show x < 65536
    omega

theorem Laid.added (hl : Laid (view volume m) (view volume m₂) l data) (hsound : Sound volume (view volume m))
    (hhas : volume.Has s) (hs0 : s.1 = 0) (hroom : Room volume (view volume m) 0 s)
    (hend : ((view volume m).entry s).isEnd = true) (hrange : ∀ x ∈ l, volume.InRange x)
    (hfresh : ∀ x ∈ l, (view volume m).fat x = 0) (hn : ShortName name)
    (hmissing : findEntry volume (view volume m) 0 name = none) :
    Added (view volume m) (view volume (setFileSize (setFirstCluster (makeEntry m₂ (volume.slotAddr s) name attrArchive)
      (volume.slotAddr s) (firstOf l)) (volume.slotAddr s) data.length)) s l name data := by
  have hs : s.1 ∉ l := by
    intro hmem
    have hge := (hrange _ hmem).1
    omega
  obtain ⟨honly₁, hentry₁⟩ := makeEntry_spec volume_fits hhas m hn.length attrArchive
  obtain ⟨honly₂, hentry₂⟩ := makeEntry_spec volume_fits hhas m₂ hn.length attrArchive
  obtain ⟨honly, hentry⟩ := setFields_spec volume_fits hhas (makeEntry m₂ (volume.slotAddr s) name attrArchive)
    (firstOf l) data.length
  have hfirst := firstOf_lt hrange
  have hlen := length_lt_of_stored volume_fits hl.linked.nodup hrange hl.stores.length
  rw [hentry₂, Nat.mod_eq_of_lt (hfirst.trans (by decide)), Nat.mod_eq_of_lt hlen] at hentry
  -- first the entry, as it would be without its clusters
  have hfills : Fills volume (view volume m) (view volume (makeEntry m (volume.slotAddr s) name attrArchive)) 0 s :=
    ⟨.root, honly₁, hroom, by rw [hentry₁]; exact isKid_new hn (.inl rfl), by rw [hentry₁]; exact Nat.zero_lt_two⟩
  have hmade : Made volume (view volume m) (view volume (makeEntry m (volume.slotAddr s) name attrArchive)) 0 s name
      attrArchive := ⟨⟨_, .inl rfl, hfills⟩, hentry₁, hmissing, hn⟩
  have hsound₁ := hmade.sound volume_fits hsound
  have hreach₁ := hmade.reach volume_fits hsound.toOwned
  have hfile : ((view volume (makeEntry m (volume.slotAddr s) name attrArchive)).entry s).isDirectory = false := by
    rw [hentry₁]
    exact isDirectory_archive name
  -- and then its clusters
  have hre := (hl.builds hhas hs hrange hfresh hn.length).rechains hreach₁ (hmade.kid volume_fits hsound.toOwned)
    (by rw [hentry₁]; rfl) honly (by rw [hentry, hentry₁]) (by rw [hentry, hentry₁])
    (by
      rw [hentry, nil_append]
      rcases firstOf_cases l with ⟨hnil, hzero⟩ | hsome
      · exact .inl ⟨hnil, by rw [hzero]; exact Nat.zero_lt_two⟩
      · exact .inr hsome)
  rw [nil_append] at hre
  have hst : Stores volume (view volume (setFileSize (setFirstCluster (makeEntry m₂ (volume.slotAddr s) name attrArchive)
      (volume.slotAddr s) (firstOf l)) (volume.slotAddr s) data.length)) l data := by
    refine stores_congr hl.stores (fun x hx => ?_)
    have hx0 : x ≠ s.1 := fun he => hs (he ▸ hx)
    rw [honly.cell_ne hx0, honly₂.cell_ne hx0]
  refine ⟨hre.file_sound hsound₁ hfile, ?_, ?_, ?_, ?_, hentry, ?_⟩
  · intro x hx
    rw [honly.fat, honly₂.fat]
    exact hl.fat x hx
  · rw [(hre.sameDir hsound₁.toOwned hreach₁ (hre.other_parent hsound₁.toOwned)).used]
    exact ((hfills.used hsound.toOwned).resolve_left (fun h => not_mem_used hend h.1)).2
  · intro i hi
    rw [honly.entry hi, honly₂.entry hi, Disk.entry, Disk.entry]
    show readEntry ((view volume m₂).cell 0) _ = readEntry ((view volume m).cell 0) _
    rw [hl.cell 0 (hs0 ▸ hs)]
  · intro t ht hts hdir
    have hframe := (hmade.frame volume_fits hsound.toOwned).trans (hre.file_frame hsound₁.toOwned hfile)
      (fun _ _ _ => trivial)
    exact hframe.bytes 0 t .root trivial ht hts hdir
  · rcases hre.chain with ⟨hnil, hbare⟩ | ⟨-, hchain⟩
    · exact content_of_stores volume_fits hst ((if_pos hbare).trans hnil.symm) (by rw [hentry])
    · exact content_of_stores volume_fits hst hchain (by rw [hentry])

end Entry

namespace Stocked

theorem slots_root (d : Disk) : dirSlots volume d 0 = (List.range 64).map (Prod.mk 0) := by
  rw [dirSlots, dirAreas_zero rfl, slotsIn, flatMap_singleton]
  rfl

theorem has_slot (hi : i < 64) : volume.Has (0, i) :=
  ⟨.inl ⟨rfl, rfl⟩, by rw [slotCount_root]; exact hi⟩

theorem range_split {n k : Nat} (hn : n < k) : List.range k = List.range n ++ n :: List.range' (n + 1) (k - (n + 1)) := by
  have happ : List.range' 0 n ++ List.range' (0 + n) (k - n) = List.range' 0 (n + (k - n)) := range'_append_1
  rw [Nat.add_sub_cancel' hn.le, Nat.zero_add, ← range_eq_range', ← range_eq_range'] at happ
  rw [← happ, ← range'_succ]
  congr 2
  omega

theorem room (h : Stocked d files) (hcount : files.length < 64) : Room volume d 0 (0, files.length) := by
  refine .inr ⟨(List.range' (files.length + 1) (64 - (files.length + 1))).map (Prod.mk 0), ?_, h.behind _ le_rfl⟩
  rw [slots_root, h.used, range_split hcount, map_append, map_cons]

theorem mem_used (h : Stocked d files) {t : Slot} (ht : t ∈ usedSlots volume d 0) :
    ∃ i f, t = (0, i) ∧ files[i]? = some f := by
  rw [h.used] at ht
  obtain ⟨i, hi, rfl⟩ := List.mem_map.mp ht
  exact ⟨i, _, rfl, getElem?_eq_getElem (mem_range.mp hi)⟩

theorem missing (h : Stocked d files) (hnew : name ∉ files.map Prod.fst) : findEntry volume d 0 name = none := by
  rw [findEntry, find?_eq_none]
  intro t ht heq
  obtain ⟨i, f, rfl, hf⟩ := h.mem_used (mem_kids_used ht)
  apply hnew
  rw [← beq_iff_eq.mp heq, (h.entry i f hf).1]
  exact List.mem_map_of_mem (mem_of_getElem? hf)

theorem isDirectory_archive_attr {e : Entry} (ha : e.attr = attrArchive) : e.isDirectory = false := by
  rw [Entry.isDirectory, ha]
  decide

theorem entry_mem_kids (h : Stocked d files) {f : Name × List UInt8}
    (hf : files[i]? = some f) : (0, i) ∈ kids volume d 0 := by
  obtain ⟨hname, hattr, -, -⟩ := h.entry i f hf
  obtain ⟨hi, -⟩ := List.getElem?_eq_some_iff.mp hf
  refine mem_filter.mpr ⟨?_, ?_⟩
  · rw [h.used]
    exact List.mem_map_of_mem (mem_range.mpr hi)
  · rw [Entry.isKid_congr (e := ⟨f.1, attrArchive, 0, 0⟩) hname hattr]
    exact isKid_new (h.short f (mem_of_getElem? hf)) (.inl rfl)

theorem added (h : Stocked d files) (hn : ShortName name) {l : List Nat}
    (ha : Added d d' (0, files.length) l name data) : Stocked d' (files ++ [(name, data)]) := by
  have hlen : (files ++ [(name, data)]).length = files.length + 1 := by simp
  refine ⟨?_, ha.sound, ?_, ?_, ?_⟩
  · intro f hf
    rcases mem_append.mp hf with hf | hf
    · exact h.short f hf
    · rw [mem_singleton.mp hf]
      exact hn
  · rw [ha.used, h.used, hlen, range_succ, map_append, map_singleton]
  · intro i hi
    rw [hlen] at hi
    have hne : ((0, i) : Slot) ≠ (0, files.length) := fun he => Nat.ne_of_gt hi (Prod.mk.inj he).2
    rw [ha.others i hne]
    exact h.behind i (by omega)
  · intro i f hf
    rcases Nat.lt_or_ge i files.length with hi | hi
    · rw [getElem?_append_left hi] at hf
      have hne : ((0, i) : Slot) ≠ (0, files.length) := fun he => hi.ne (Prod.mk.inj he).2
      obtain ⟨hname, hattr, hsize, hcontent⟩ := h.entry i f hf
      have hbytes := ha.bytes (0, i) (h.entry_mem_kids hf) hne (isDirectory_archive_attr hattr)
      rw [content] at hcontent
      rw [content, hbytes, ha.others i hne]
      exact ⟨hname, hattr, hsize, hcontent⟩
    · rw [getElem?_append_right hi] at hf
      obtain ⟨hlt, rfl⟩ := List.getElem?_eq_some_iff.mp hf
      obtain rfl : i = files.length := by
        rw [length_singleton] at hlt
        omega
      rw [ha.content, ha.entry]
      simp

end Stocked

namespace Holds

theorem append (h : Holds b files) (hn : ShortName name)
    (hnew : name ∉ files.map Prod.fst) (hcount : files.length < rootEntries)
    (hfit : (files.map (fun f => clustersOf f.2)).sum + clustersOf data ≤ maxClusters) :
    Holds (appendFile b name (some data)) (files ++ [(name, data)]) := by
  have hmax : maxClusters = volume.totalClusters := by decide
  have hnext := h.next
  have hend : b.nextCluster + clustersOf data ≤ volume.totalClusters + 2 := by omega
  have hlaid := appendClusters_laid (c := b.nextCluster) (by omega) data b.image (by rw [← clustersOf_eq]; exact hend)
  rw [← clustersOf_eq] at hlaid
  have hrange : ∀ x ∈ List.range' b.nextCluster (clustersOf data), volume.InRange x := by
    intro x hx
    have hx' := mem_range'_1.mp hx
    exact ⟨by omega, by omega⟩
  have hfresh : ∀ x ∈ List.range' b.nextCluster (clustersOf data), (view volume b.image).fat x = 0 :=
    fun x hx => h.free x (mem_range'_1.mp hx).1 (hrange x hx)
  have hadded := hlaid.added h.sound (Stocked.has_slot hcount) rfl (h.room hcount) (h.behind _ le_rfl) hrange hfresh hn
    (h.missing hnew)
  have haddr : rootArea + b.rootEntriesUsed * 32 = volume.slotAddr (0, files.length) := by
    rw [h.count]
    show 1024 + files.length * 32 = 1024 + 32 * files.length
    omega
  rw [appendFile_eq (by rw [h.count]; exact hcount) (by omega) (by omega), addRootEntry]
  dsimp only
  rw [haddr, rootEntry_eq hn.length (firstOf_lt hrange)]
  refine ⟨h.added hn hadded, ?_, ?_, ?_, ?_⟩
  · rw [← h.boot]
    refine fatfsInit_congr (fun i hi => ?_) imageSize
    have hoff := ((makeEntry_agreeOff (m := appendClusters (clustersOf data) b.nextCluster data b.image)
      (p := volume.slotAddr (0, files.length)) hn.length attrArchive).trans (setFirstCluster_agreeOff
        (firstOf (List.range' b.nextCluster (clustersOf data))))).trans (setFileSize_agreeOff data.length)
    have hbefore : i < volume.slotAddr (0, files.length) := by
      rw [← haddr]
      exact Nat.lt_add_right _ (hi.trans (by decide))
    exact (hoff i (.inl hbefore)).trans (appendClusters_boot _ _ _ _ hi)
  · rw [length_append, h.count]
    rfl
  · rw [map_append, sum_append, map_singleton, sum_singleton, hnext, Nat.add_assoc]
  · intro x hx hrange'
    have hge : b.nextCluster + clustersOf data ≤ x := hx
    have hnot : x ∉ List.range' b.nextCluster (clustersOf data) := by
      intro hmem
      have hlt := (mem_range'_1.mp hmem).2
      omega
    exact (hadded.fat x hnot).trans (h.free x (by omega) hrange')

theorem appendFiles {more : List (Name × List UInt8)} (h : Holds b files) (hshort : ∀ f ∈ more, ShortName f.1)
    (hnames : ((files ++ more).map Prod.fst).Nodup) (hcount : (files ++ more).length ≤ rootEntries)
    (hfit : ((files ++ more).map (fun f => clustersOf f.2)).sum ≤ maxClusters) :
    Holds (Image.appendFiles b more) (files ++ more) := by
  induction more generalizing b files with
  | nil =>
    rw [append_nil]
    exact h
  | cons f more ih =>
    have hassoc : files ++ f :: more = files ++ [f] ++ more := by rw [append_assoc, singleton_append]
    have hstep : Holds (appendFile b f.1 (some f.2)) (files ++ [f]) := by
      refine h.append (hshort f (by simp)) ?_ ?_ ?_
      · rw [map_append, map_cons] at hnames
        have hdisj := (nodup_append.mp hnames).2.2
        intro hmem
        exact hdisj f.1 hmem f.1 (by simp) rfl
      · rw [length_append, length_cons] at hcount
        omega
      · rw [hassoc, map_append, sum_append, map_append, sum_append, map_singleton,
          sum_singleton] at hfit
        omega
    rw [hassoc] at hnames hcount hfit ⊢
    exact ih hstep (fun g hg => hshort g (by simp [hg])) hnames hcount hfit

theorem append_or_full (h : Holds b files) (hn : ShortName name)
    (hnew : name ∉ files.map Prod.fst) (hlen : data.length + imageSize ≤ 2 ^ 32)
    (hsum : (files.map (fun f => clustersOf f.2)).sum ≤ maxClusters) :
    ∃ files', (files' = files ∨ files' = files ++ [(name, data)]) ∧ Holds (appendFile b name (some data)) files' ∧
      (files'.map (fun f => clustersOf f.2)).sum ≤ maxClusters := by
  by_cases hcount : rootEntries ≤ files.length
  · refine ⟨files, .inl rfl, ?_, hsum⟩
    rw [appendFile, if_pos (h.count ▸ hcount)]
    exact h
  by_cases hfit : (files.map (fun f => clustersOf f.2)).sum + clustersOf data ≤ maxClusters
  · refine ⟨files ++ [(name, data)], .inr rfl, h.append hn hnew (Nat.not_le.mp hcount) hfit, ?_⟩
    rw [map_append, sum_append, map_singleton, sum_singleton]
    exact hfit
  · refine ⟨files, .inl rfl, ?_, hsum⟩
    have hclusters : (data.length + clusterBytes - 1) % 2 ^ 32 / clusterBytes = clustersOf data := by
      have himage : imageSize = 65536 := rfl
      have hbytes : clusterBytes = 512 := rfl
      rw [Nat.mod_eq_of_lt (by omega), clustersOf]
    have hused : b.nextCluster - 2 = (files.map (fun f => clustersOf f.2)).sum := by
      rw [h.next]
      omega
    have hb : appendFile b name (some data) = b := by
      unfold appendFile
      dsimp only
      rw [if_neg (by rw [h.count]; exact hcount), hclusters, if_pos (by omega), hused, if_pos (by omega)]
    rw [hb]
    exact h

theorem appendAny {more : List (Name × List UInt8)} (h : Holds b files) (hshort : ∀ f ∈ more, ShortName f.1)
    (hnames : ((files ++ more).map Prod.fst).Nodup) (hlen : ∀ f ∈ more, f.2.length + imageSize ≤ 2 ^ 32)
    (hsum : (files.map (fun f => clustersOf f.2)).sum ≤ maxClusters) : ∃ stored, Holds (Image.appendFiles b more) stored := by
  induction more generalizing b files with
  | nil => exact ⟨files, h⟩
  | cons f more ih =>
    have hnew : f.1 ∉ files.map Prod.fst := by
      intro hf
      rw [map_append, map_cons] at hnames
      exact (nodup_append'.mp hnames).2.2 hf mem_cons_self
    obtain ⟨files', hfiles, hholds, hsum'⟩ :=
      h.append_or_full (hshort f mem_cons_self) hnew (hlen f mem_cons_self) hsum
    refine ih hholds (fun g hg => hshort g (by simp [hg])) ?_ (fun g hg => hlen g (by simp [hg])) hsum'
    rcases hfiles with rfl | rfl
    · exact hnames.sublist (((sublist_cons_self f more).append_left _).map _)
    · rw [append_assoc, singleton_append]
      exact hnames

end Holds

end Append

/-! ## Reading the image -/

section Paths

variable {name : Name} {leaf : Str} {k : Nat}

theorem walkLeaf_root (hk : k ≤ 128) (hleaf : makeShortName leaf = some name) :
    walkLeaf volume d (List.replicate k slash ++ leaf) = some (0, name) := by
  have hslash := slash_notMem_of_make hleaf
  have hshort := makeShortName_short hleaf
  have hparent : walkParent volume d (List.replicate k slash ++ leaf) = some (0, leaf) := by
    cases k with
    | zero =>
      rw [replicate_zero, nil_append, walkParent_plain hslash (by omega)]
      rfl
    | succ k =>
      rw [replicate_succ', append_assoc, singleton_append,
        walkParent_split hslash (by rw [length_replicate]; omega) (by omega), fields_replicate]
      rfl
  rw [walkLeaf, hparent, bind_some]
  dsimp only
  rw [prepareShortName_eq, hleaf, map_some]

end Paths

section Files

variable {b : Builder} {files : List (Name × List UInt8)} {f : Name × List UInt8} {path : Str} {size maxLen : Nat}

def nameLines (files : List (Name × List UInt8)) : List Str := files.map (fun f => formatEntryName f.1)

theorem text_archive {e : Entry} (hn : ShortName e.name) (ha : e.attr = attrArchive) : e.text = formatEntryName e.name := by
  rw [Entry.text, Stocked.isDirectory_archive_attr ha, if_neg (by decide), append_nil, hn.takeWhile_format]

theorem Stocked.kids_eq (h : Stocked d files) : kids volume d 0 = (List.range files.length).map (Prod.mk 0) := by
  rw [kids, h.used, filter_eq_self]
  intro t ht
  obtain ⟨i, hi, rfl⟩ := List.mem_map.mp ht
  exact mem_kids_isKid (h.entry_mem_kids (getElem?_eq_getElem (mem_range.mp hi)))

theorem Stocked.dirLines_eq (h : Stocked d files) : dirLines volume d 0 = nameLines files := by
  rw [dirLines, h.kids_eq, List.map_map, nameLines]
  apply ext_getElem
  · simp
  · intro i h₁ h₂
    have hi : i < files.length := by simpa using h₁
    obtain ⟨hname, hattr, -, -⟩ := h.entry i files[i] (getElem?_eq_getElem hi)
    rw [getElem_map, getElem_map, getElem_range, Function.comp_apply]
    rw [text_archive (by rw [hname]; exact h.short _ (getElem_mem hi)) hattr, hname]

theorem Stocked.entryAt_file (h : Stocked d files) (hf : files[i]? = some f)
    (hpath : walkLeaf volume d path = some (0, f.1)) : entryAt volume d path = some (0, i) := by
  rw [entryAt, hpath, bind_some]
  obtain ⟨hused, hkid⟩ := mem_filter.mp (h.entry_mem_kids hf)
  exact (h.sound.findEntry_iff (.inl .root) (h.short f (mem_of_getElem? hf))).mpr
    ⟨mem_filter.mpr ⟨hused, isKid_isLive hkid⟩, (h.entry i f hf).1⟩

theorem Holds.file_size (h : Holds b files) (hf : f ∈ files)
    (hpath : walkLeaf volume (view volume b.image) path = some (0, f.1)) :
    Returns (fun n => fatfsFileSize volume n b.image path) (some f.2.length) := by
  obtain ⟨i, hi⟩ := getElem?_of_mem hf
  have hspec := fatfsFileSize_spec volume_fits h.sound.toOwned path
  rw [h.entryAt_file hi hpath, map_some, (h.entry i f hi).2.2.1] at hspec
  exact hspec

theorem Holds.file_read (h : Holds b files) (hf : f ∈ files)
    (hpath : walkLeaf volume (view volume b.image) path = some (0, f.1)) (hpos : 0 < maxLen) (hmax : f.2.length ≤ maxLen) :
    Returns (fun n => fatfsRead volume n b.image path maxLen) (some f.2) := by
  obtain ⟨i, hi⟩ := getElem?_of_mem hf
  obtain ⟨-, hattr, -, hcontent⟩ := h.entry i f hi
  have hspec := fatfsRead_spec volume_fits h.sound.toOwned path hpos
  have hfile : (!((view volume b.image).entry (0, i)).isDirectory) = true := by rw [Stocked.isDirectory_archive_attr hattr]; rfl
  rw [contentAt, h.entryAt_file hi hpath, filter_some, if_pos hfile, map_some, map_some, hcontent,
    take_of_length_le hmax] at hspec
  exact hspec

theorem Holds.listing (h : Holds b files) (hpath : fields slash path = [])
    (hsize : (joined newline (nameLines files)).length + 1 < size) :
    Returns (fun n => fatfsList volume n b.image path size)
      (some ⟨joined newline (nameLines files) ++ [0], (joined newline (nameLines files)).length⟩) := by
  have hdir := resolveDirectory_spec volume_fits h.sound.toOwned path
  rw [hpath, walk] at hdir
  rw [← h.dirLines_eq] at hsize ⊢
  exact hdir.onSuccess (listDirectory_whole volume_fits (.inl (by decide)) hsize)

end Files

/-- Whatever files are put into the image, the file system finds them there. -/
theorem generated_image_readable (m : Mem) (files : List (Name × List UInt8)) (hshort : ∀ f ∈ files, ShortName f.1)
    (hnames : (files.map Prod.fst).Nodup) (hcount : files.length ≤ rootEntries)
    (hfit : (files.map (fun f => clustersOf f.2)).sum ≤ maxClusters) :
    ∃ v, fatfsInit (appendFiles (filesystemInit m) files).image imageSize = some v ∧ v.fatType = .fat16 ∧
      (∀ path size, fields slash path = [] → (joined newline (nameLines files)).length + 1 < size →
        Returns (fun n => fatfsList v n (appendFiles (filesystemInit m) files).image path size)
          (some ⟨joined newline (nameLines files) ++ [0], (joined newline (nameLines files)).length⟩)) ∧
      ∀ f ∈ files, prepareShortName (formatEntryName f.1) = some f.1 ∧
        ∀ k leaf, k ≤ 128 → prepareShortName leaf = some f.1 →
          Returns (fun n => fatfsFileSize v n (appendFiles (filesystemInit m) files).image (List.replicate k slash ++ leaf))
            (some f.2.length) ∧
          ∀ maxLen, 0 < maxLen → f.2.length ≤ maxLen →
            Returns (fun n => fatfsRead v n (appendFiles (filesystemInit m) files).image (List.replicate k slash ++ leaf)
              maxLen) (some f.2) := by
  have hholds : Holds (appendFiles (filesystemInit m) files) files :=
    (holds_init m).appendFiles hshort hnames hcount hfit
  refine ⟨volume, hholds.boot, rfl, fun path size hpath hsize => hholds.listing hpath hsize, ?_⟩
  intro f hf
  refine ⟨by rw [prepareShortName_eq]; exact (hshort f hf).make_format, ?_⟩
  intro k leaf hk hleaf
  rw [prepareShortName_eq] at hleaf
  have hpath : walkLeaf volume (view volume (appendFiles (filesystemInit m) files).image)
      (List.replicate k slash ++ leaf) = some (0, f.1) := walkLeaf_root hk hleaf
  exact ⟨hholds.file_size hf hpath, fun maxLen hpos hmax => hholds.file_read hf hpath hpos hmax⟩

def twoFiles : List (Name × List UInt8) :=
  [(65 :: List.replicate 10 space, []), (66 :: List.replicate 10 space, List.replicate 1024 7)]

theorem twoFiles_short : ∀ f ∈ twoFiles, ShortName f.1 := by
  have hname : ∀ c, isValidChar c = true → ShortName (c :: List.replicate 10 space) := by
    intro c hc
    refine ⟨[c], [], by simp, by simp, by simp, ?_, rfl⟩
    intro x hx
    obtain rfl := mem_singleton.mp hx
    exact hc
  intro f hf
  rcases mem_pair.mp hf with rfl | rfl
  · exact hname 65 (by decide)
  · exact hname 66 (by decide)

theorem generated_image_readable_two :
    ∃ v, fatfsInit (appendFiles (filesystemInit (fun _ => 0)) twoFiles).image imageSize = some v ∧
      Returns (fun n => fatfsRead v n (appendFiles (filesystemInit (fun _ => 0)) twoFiles).image [slash, 66] 2048)
        (some (List.replicate 1024 7)) := by
  obtain ⟨v, hinit, -, -, hfiles⟩ := generated_image_readable (fun _ => 0) twoFiles twoFiles_short (by decide) (by decide)
    (by decide +kernel)
  have hfile := (hfiles _ (mem_cons_of_mem _ (mem_singleton_self _))).2 1 [66] (by decide) (by decide)
  exact ⟨v, hinit, hfile.2 2048 (by decide) (by rw [length_replicate]; decide)⟩

end ProOS.Fat.Image
