import ProOS.Fat.Confined
import ProOS.Fat.Termination

/-! The FAT as a table: how a cluster is taken and how the clusters of a path are given back. -/

namespace ProOS.Fat

open ProOS.Framework List

/-- The address lies in no copy of the entry of `c`. -/
def Volume.OffEntry (v : Volume) (c a : Nat) : Prop :=
  ∀ k < v.fatCount, a < v.fatAddr k c ∨ v.fatAddr k c + entrySize v ≤ a

section Allocation

variable {v : Volume} {m m' : Mem} {c : Nat}

theorem eocMarker_lt (v : Volume) : eocMarker v < fatLimit v := by
  unfold eocMarker fatLimit
  cases v.fatType <;> decide

/-- The memory `m'` is `m` with the first free cluster taken. -/
structure Allocated (v : Volume) (m m' : Mem) (c : Nat) : Prop where
  range : v.InRange c
  free : readFat v m c = 0
  first : ∀ c', v.InRange c' → c' < c → readFat v m c' ≠ 0
  ends : ∀ k < v.fatCount, getFatEntry v m' (v.fatAddr k c) = eocMarker v
  zero : ∀ i < v.len c, m' (v.addr c + i) = 0
  rest : ∀ a, v.OffEntry c a → a < v.addr c ∨ v.addr c + v.len c ≤ a → m' a = m a

/-- The search goes one cluster too far, where the FAT reads as taken. -/
theorem allocateCluster_cases (hv : v.Fits) (m : Mem) :
    (allocateCluster v m = (m, 0) ∧ ∀ c, v.InRange c → readFat v m c ≠ 0) ∨
      ∃ c, allocateCluster v m = (zeroCluster v (writeFat v m c (eocMarker v)) c, c) ∧ v.InRange c ∧
        readFat v m c = 0 ∧ ∀ c', v.InRange c' → c' < c → readFat v m c' ≠ 0 := by
  unfold allocateCluster candidates
  cases hf : (List.range' 2 (v.totalClusters + 1)).find? (fun c => readFat v m c == 0) with
  | none =>
    refine .inl ⟨rfl, fun c hc hz => ?_⟩
    have hmem : c ∈ List.range' 2 (v.totalClusters + 1) := mem_range'_1.mpr ⟨hc.1, by have := hc.2; omega⟩
    exact find?_eq_none.mp hf c hmem (beq_iff_eq.mpr hz)
  | some c =>
    obtain ⟨hfree, hmem, hfirst⟩ := find?_range'_eq_some.mp hf
    have hzero : readFat v m c = 0 := beq_iff_eq.mp hfree
    rw [mem_range'_1] at hmem
    refine .inr ⟨c, rfl, ⟨hmem.1, ?_⟩, hzero, fun c' hc' hlt => by simpa using hfirst c' hc'.1 hlt⟩
    by_contra hge
    rw [readFat_outside hv (by omega)] at hzero
    exact eocMarker_ne_zero v hzero

theorem zeroCluster_at (hv : v.Fits) (hc : v.InRange c) {i : Nat} (hi : i < v.len c) :
    zeroCluster v m c (v.addr c + i) = 0 := by
  rw [Volume.Fits.len_cluster hc] at hi
  rw [zeroCluster, hv.clusterPtr_eq hc]
  dsimp only
  rw [writeBytes_at (by simpa using hi), getElem_replicate]

theorem zeroCluster_off (hv : v.Fits) (hc : v.InRange c) {a : Nat} (ha : a < v.addr c ∨ v.addr c + v.len c ≤ a) :
    zeroCluster v m c a = m a := by
  rw [Volume.Fits.len_cluster hc] at ha
  rw [zeroCluster, hv.clusterPtr_eq hc]
  exact writeBytes_agreeOff a (by simpa using ha)

theorem allocated (hv : v.Fits) (hc : v.InRange c) (hfree : readFat v m c = 0)
    (hfirst : ∀ c', v.InRange c' → c' < c → readFat v m c' ≠ 0) :
    Allocated v m (zeroCluster v (writeFat v m c (eocMarker v)) c) c := by
  refine ⟨hc, hfree, hfirst, fun k hk => ?_, fun i hi => zeroCluster_at hv hc hi, fun a ha hoff => ?_⟩
  · have hwritten := getFatEntry_writeFat (m := m) (x := eocMarker v) hv hc.2 hk
    rw [Nat.mod_eq_of_lt (eocMarker_lt v)] at hwritten
    refine (getFatEntry_congr (fun i h₁ h₂ => zeroCluster_off hv hc ?_)).trans hwritten
    have := hv.fatAddr_lt hk hc.2
    have := hv.fat_before (.inr hc)
    omega
  · rw [zeroCluster_off hv hc hoff, writeFat_other hv hc.2 ha]

theorem allocate_first_free (hv : v.Fits) (m : Mem) :
    ((allocateCluster v m).2 = 0 ↔ ∀ c, v.InRange c → readFat v m c ≠ 0) ∧
      ((allocateCluster v m).2 = 0 → (allocateCluster v m).1 = m) ∧
      ((allocateCluster v m).2 ≠ 0 → Allocated v m (allocateCluster v m).1 (allocateCluster v m).2) := by
  rcases allocateCluster_cases hv m with ⟨ha, hnone⟩ | ⟨c, ha, hc, hfree, hfirst⟩
  · rw [ha]
    exact ⟨iff_of_true rfl hnone, fun _ => rfl, fun hne => absurd rfl hne⟩
  · have hne : c ≠ 0 := by
      have := hc.1
      omega
    rw [ha]
    exact ⟨iff_of_false hne (fun hall => hall c hc hfree), fun hz => absurd hz hne,
      fun _ => allocated hv hc hfree hfirst⟩

end Allocation

/-- Sectors of 64 bytes, of which one is a cluster, with two copies of the FAT. -/
def twoCopies : Volume := ⟨768, .fat16, 64, 1, 8, 2, 1, 11, 1, 10, 2, 0⟩

theorem twoCopies_fits : twoCopies.Fits := by
  refine ⟨?_, ?_, ?_, ?_, ?_, ?_, fun _ => ?_, ?_, ?_, fun _ => ?_, fun h => by cases h⟩ <;> decide

theorem allocate_first_free_empty : (allocateCluster twoCopies (fun _ => 0)).2 = 2 ∧
    Allocated twoCopies (fun _ => 0) (allocateCluster twoCopies (fun _ => 0)).1 2 := by
  have htaken : (allocateCluster twoCopies (fun _ => 0)).2 = 2 := by decide +kernel
  have h := (allocate_first_free twoCopies_fits (fun _ => 0)).2.2
  rw [htaken] at h
  exact ⟨htaken, h (by decide)⟩

/-! ## Giving back a path -/

/-- The clusters on the path from `start` along the links, up to the first end mark or the first link that is not
in range. A path that comes back to one of its clusters meets no more of them. -/
inductive OnPath (v : Volume) (m : Mem) (start : Nat) : Nat → Prop
  | start (h : v.InRange start) : OnPath v m start start
  | link {c : Nat} (hc : OnPath v m start c) (hlink : isEoc v (readFat v m c) = false)
      (hr : v.InRange (readFat v m c)) : OnPath v m start (readFat v m c)

/-- The memory `m'` is `m` with the entries of the path set to 0. -/
structure Freed (v : Volume) (m : Mem) (start : Nat) (m' : Mem) : Prop where
  zero : ∀ c, OnPath v m start c → ∀ k < v.fatCount, getFatEntry v m' (v.fatAddr k c) = 0
  rest : ∀ a, (∀ c, OnPath v m start c → v.OffEntry c a) → m' a = m a

section Freeing

variable {v : Volume} {m m' : Mem} {c start : Nat}

theorem OnPath.range (h : OnPath v m start c) : v.InRange c := by
  cases h with
  | start h => exact h
  | link _ _ hr => exact hr

theorem OnPath.start_range (h : OnPath v m start c) : v.InRange start := by
  induction h with
  | start h => exact h
  | link _ _ _ ih => exact ih

theorem OnPath.eq_of_eoc (h : OnPath v m start c) (he : isEoc v (readFat v m start) = true) : c = start := by
  induction h with
  | start h => rfl
  | link _ hlink _ ih =>
    rw [ih, he] at hlink
    cases hlink

theorem onPath_iff (hv : v.Fits) (hr : v.InRange start) (he : isEoc v (readFat v m start) = false) :
    OnPath v m start c ↔ c = start ∨ OnPath v (writeFat v m start 0) (readFat v m start) c := by
  have hcut : ∀ c, readFat v (writeFat v m start 0) c = if c = start then 0 else readFat v m c := by
    intro c
    rw [readFat_writeFat hv hr.2, Nat.zero_mod]
  constructor
  · intro h
    induction h with
    | start _ => exact .inl rfl
    | @link c hc hlink hrange ih =>
      by_cases hcs : c = start
      · rw [hcs] at hrange ⊢
        exact .inr (.start hrange)
      · have hsame : readFat v (writeFat v m start 0) c = readFat v m c := by rw [hcut, if_neg hcs]
        rw [← hsame] at hlink hrange ⊢
        exact .inr (.link (ih.resolve_left hcs) hlink hrange)
  · rintro (rfl | h)
    · exact .start hr
    · induction h with
      | start hrange => exact .link (.start hr) he hrange
      | @link c hc hlink hrange ih =>
        rw [hcut] at hlink hrange ⊢
        split_ifs at hlink hrange ⊢ with hcs
        · exact absurd hrange.1 (by decide)
        · exact .link ih hlink hrange

theorem Freed.of_eoc (hv : v.Fits) (hlow : 2 ≤ start) (he : isEoc v (readFat v m start) = true) :
    Freed v m start (writeFat v m start 0) := by
  refine ⟨fun c hc k hk => ?_, fun a ha => ?_⟩
  · rw [hc.eq_of_eoc he, getFatEntry_writeFat hv hc.start_range.2 hk, Nat.zero_mod]
  · by_cases hout : v.totalClusters + 2 ≤ start
    · rw [writeFat, hv.mod_eq, if_pos hout]
    · exact writeFat_other hv (by omega) (ha start (.start ⟨hlow, by omega⟩))

theorem Freed.of_link (hv : v.Fits) (hr : v.InRange start) (he : isEoc v (readFat v m start) = false)
    (h : Freed v (writeFat v m start 0) (readFat v m start) m') : Freed v m start m' := by
  have hpath := fun c => onPath_iff (c := c) hv hr he
  refine ⟨fun c hc k hk => ?_, fun a ha => ?_⟩
  · by_cases hagain : OnPath v (writeFat v m start 0) (readFat v m start) c
    · exact h.zero c hagain k hk
    · -- only the first cluster is not on the rest of the path
      obtain rfl := ((hpath c).mp hc).resolve_right hagain
      have hzero := getFatEntry_writeFat (m := m) (x := 0) hv hr.2 hk
      rw [Nat.zero_mod] at hzero
      rw [← hzero]
      refine getFatEntry_congr (fun i h₁ h₂ => h.rest i (fun c' hc' k' _ => ?_))
      have hne : c ≠ c' := fun heq => hagain (heq ▸ hc')
      have : v.fatAddr k c + entrySize v ≤ v.fatAddr k' c' ∨ v.fatAddr k' c' + entrySize v ≤ v.fatAddr k c :=
        hv.fatAddr_apart hr.2 hc'.range.2 (.inr hne)
      omega
  · rw [h.rest a (fun c hc => ha c ((hpath c).mpr (.inr hc))), writeFat_other hv hr.2 (ha start (.start hr))]

/-- `fatfs_free_chain`, whatever the FAT holds. -/
theorem freeChain_freed (hv : v.Fits) {n : Nat} (h : freeChain v n m start = some m') :
    Freed v m start m' ∧ Stored v m m' := by
  have hempty : ∀ {m : Mem} {start : Nat}, start < 2 → Freed v m start m ∧ Stored v m m := by
    intro m start hlow
    exact ⟨⟨fun c hc => absurd hc.start_range.1 (by omega), fun _ _ => rfl⟩, .refl v m⟩
  induction n generalizing m start with
  | zero =>
    by_cases hlow : start < 2
    · rw [freeChain_low hlow] at h
      exact Option.some.inj h ▸ hempty hlow
    · rw [freeChain, if_neg hlow] at h
      cases h
  | succ n ih =>
    by_cases hlow : start < 2
    · rw [freeChain_low hlow] at h
      exact Option.some.inj h ▸ hempty hlow
    · rw [freeChain, if_neg hlow] at h
      dsimp only at h
      cases he : isEoc v (readFat v m start) with
      | true =>
        rw [he, if_pos rfl] at h
        obtain rfl := Option.some.inj h
        exact ⟨.of_eoc hv (by omega) he, writeFat_stored hv m start 0⟩
      | false =>
        have hlt := (entry_of_not_eoc he).1
        rw [hv.mod_eq] at hlt
        rw [he, if_neg Bool.false_ne_true] at h
        obtain ⟨hfreed, hstored⟩ := ih h
        exact ⟨.of_link hv ⟨by omega, hlt⟩ he hfreed, (writeFat_stored hv m start 0).trans hstored⟩

theorem Freed.readFat_zero (h : Freed v m start m') (hv : v.Fits) (hc : OnPath v m start c) : readFat v m' c = 0 := by
  rw [readFat_fits hv hc.range.2]
  exact h.zero c hc 0 hv.copies_pos

theorem Freed.readFat_other (h : Freed v m start m') (hv : v.Fits) (hc : ¬OnPath v m start c) :
    readFat v m' c = readFat v m c := by
  refine readFat_local hv (fun hlt i h₁ h₂ => h.rest i (fun c' hc' k _ => ?_))
  have : v.fatAddr 0 c + entrySize v ≤ v.fatAddr k c' ∨ v.fatAddr k c' + entrySize v ≤ v.fatAddr 0 c :=
    hv.fatAddr_apart hlt hc'.range.2 (.inr (fun heq => hc (heq ▸ hc')))
  omega

theorem Freed.outside (h : Freed v m start m') (hv : v.Fits) {a : Nat}
    (ha : ∀ k < v.fatCount, a < v.fatBase k ∨ v.fatBase (k + 1) ≤ a) : m' a = m a := by
  refine h.rest a (fun c hc k hk => ?_)
  obtain ⟨hfirst, hlast⟩ := hv.entry_within hc.range.2 k
  have := ha k hk
  omega

theorem Freed.area (h : Freed v m start m') (hv : v.Fits) {r : Nat} (hr : v.Area r) (i : Nat) :
    m' (v.addr r + i) = m (v.addr r + i) := by
  refine h.outside hv (fun k hk => .inr ?_)
  have hbefore : v.fatBase v.fatCount ≤ v.addr r := hv.fat_before hr
  have := v.fatBase_le hk
  omega

theorem free_chain_exact (hv : v.Fits) (m : Mem) (start : Nat) :
    ∃ m', Returns (fun n => freeChain v n m start) m' ∧ Freed v m start m' ∧
      (∀ c, ¬OnPath v m start c → readFat v m' c = readFat v m c) ∧
      ∀ a, (∀ k < v.fatCount, a < v.fatBase k ∨ v.fatBase (k + 1) ≤ a) → m' a = m a := by
  obtain ⟨m', n₀, hret⟩ := freeChain_terminates hv.copies_pos m start
  have hfreed := (freeChain_freed hv (hret n₀ le_rfl)).1
  exact ⟨m', ⟨n₀, hret⟩, hfreed, fun c hc => hfreed.readFat_other hv hc, fun a ha => hfreed.outside hv ha⟩

end Freeing

/-- The only cluster is linked to itself. -/
theorem free_chain_exact_loop : readFat twoCopies (put16 (fun _ => 0) 516 2) 2 = 2 ∧
    ∃ m', Returns (fun n => freeChain twoCopies n (put16 (fun _ => 0) 516 2) 2) m' ∧
      Freed twoCopies (put16 (fun _ => 0) 516 2) 2 m' := by
  obtain ⟨m', hret, hfreed, -⟩ := free_chain_exact twoCopies_fits (put16 (fun _ => 0) 516 2) 2
  exact ⟨by decide +kernel, m', hret, hfreed⟩

end ProOS.Fat
