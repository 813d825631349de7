import ProOS.Fat.AppendLaw
import ProOS.Fat.Generated
import ProOS.Framework.Exec

/-! The copies of the FAT along the calls. -/

namespace ProOS.Fat

open ProOS.Framework

/-- A call returns and leaves the image `m'`. -/
def ImageStep (v : Volume) (m : Mem) (call : Call) (m' : Mem) : Prop :=
  ∃ r, Returns (fun n => call.run v n m) r ∧ m' = r.1

/-- What `fatfs_write_fat` does to the FAT and to nothing else. -/
structure StoresEntry (v : Volume) (m m' : Mem) (c x : Nat) : Prop where
  entries : ∀ c', readFat v m' c' = if c' = c then x % fatLimit v else readFat v m c'
  upper : v.fatType = .fat32 → ∀ k < v.fatCount,
    get32 m' (v.fatAddr k c) / 2 ^ 28 = get32 m (v.fatAddr k c) / 2 ^ 28
  outside : ∀ a, (∀ k < v.fatCount, a < v.fatBase k ∨ v.fatBase (k + 1) ≤ a) → m' a = m a
  mirrored : Mirrored v m → Mirrored v m'

section Laws

variable {v : Volume} {m m' : Mem} {c x : Nat}

theorem writeFat_upper (hv : v.Fits) (hc : c < v.totalClusters + 2) (ht : v.fatType = .fat32) {k : Nat}
    (hk : k < v.fatCount) : get32 (writeFat v m c x) (v.fatAddr k c) / 2 ^ 28 = get32 m (v.fatAddr k c) / 2 ^ 28 := by
  have hsize : entrySize v = 4 := by rw [entrySize, ht]
  have hput : putFatEntry v m (v.fatAddr k c) x =
      put32 m (v.fatAddr k c) (get32 m (v.fatAddr k c) / 2 ^ 28 * 2 ^ 28 + x % 2 ^ 28) := by
    rw [putFatEntry, ht]
  have hword : get32 (writeFat v m c x) (v.fatAddr k c) =
      (get32 m (v.fatAddr k c) / 2 ^ 28 * 2 ^ 28 + x % 2 ^ 28) % 2 ^ 32 := by
    rw [← get32_put32, ← hput]
    refine get32_congr (fun i h₁ h₂ => ?_)
    obtain ⟨j, rfl⟩ := Nat.exists_eq_add_of_le h₁
    exact writeFat_copy hv hc hk (by omega)
  have hlt := get32_lt m (v.fatAddr k c)
  omega

theorem storesEntry (hv : v.Fits) (hc : c < v.totalClusters + 2) (m : Mem) (x : Nat) :
    StoresEntry v m (writeFat v m c x) c x :=
  ⟨readFat_writeFat hv hc, fun ht _ hk => writeFat_upper hv hc ht hk, fun _ ha => writeFat_outside hv hc ha,
    writeFat_mirrored hv hc x⟩

/-- Soundness keeps the calls away from cluster numbers whose addresses wrap around. -/
theorem fat_copies_agree (hv : v.Fits) :
    (∀ m c x, c < v.totalClusters + 2 → StoresEntry v m (writeFat v m c x) c x) ∧
      ∀ m tr m', Sound v (view v m) → (∀ call ∈ tr, call.FitsCluster v) → Exec (ImageStep v) m tr m' →
        Mirrored v m → Mirrored v m' := by
  refine ⟨fun m c x hc => storesEntry hv hc m x, fun m tr m' hs hcalls hrun hm => ?_⟩
  have hkept := hrun.historyInvariant
    (P := fun tr m' => (∀ call ∈ tr, call.FitsCluster v) → Sound v (view v m') ∧ Mirrored v m') ?_ ?_
  · exact (hkept hcalls).2
  · exact fun _ => ⟨hs, hm⟩
  · rintro tr m₁ call _ - ih ⟨r, hret, rfl⟩ hall
    rw [List.forall_mem_append] at hall
    obtain ⟨hs₁, hm₁⟩ := ih hall.1
    obtain ⟨r', hret', hs', hstored⟩ := Call.run_sound hv hs₁ (hall.2 call (List.mem_singleton_self call))
    obtain rfl := hret.unique hret'
    exact ⟨hs', hstored.mirrored hm₁⟩

end Laws

theorem fat_copies_agree_mkdir : Sound twoCopies (view twoCopies (fun _ => 0)) ∧
    ∃ m', Exec (ImageStep twoCopies) (fun _ => 0) [.mkdir [68]] m' ∧ Mirrored twoCopies m' := by
  have hclosed : Closed twoCopies (view twoCopies (fun _ => 0)) 0 := by decide +kernel
  have hsound := hclosed.sound_iff.mpr (by decide +kernel)
  have hret : Returns (fun n => Call.run twoCopies n (fun _ => 0) (.mkdir [68]))
      ((fatfsMkdir twoCopies 0 (fun _ => 0) [68]).getD (fun _ => 0, false)) :=
    mkdir_fixedRoot rfl (by decide) (by decide +kernel) _
  have hrun : Exec (ImageStep twoCopies) (fun _ => 0) [.mkdir [68]] _ := .single ⟨_, hret, rfl⟩
  exact ⟨hsound, _, hrun, (fat_copies_agree twoCopies_fits).2 _ _ _ hsound (by decide) hrun (fun _ _ _ _ => rfl)⟩

/-- An image with the file `F` of one byte, whose first cluster is far behind the last one. -/
def wildImage : Mem :=
  let m := writeBytes (smallBoot 64 8 12) 16 [2]
  setFileSize (setFirstCluster (makeEntry m 640 (70 :: List.replicate 10 space) attrArchive) 640 (2 ^ 26 - 1)) 640 1

/-- What is left when the byte 65 is appended to `F`. -/
def wildAppended : Mem := (appendData twoCopies wildImage 640 (2 ^ 26 - 1) 512 1 [65]).1

/-- The address of the cluster wraps around to the first copy of the FAT. -/
theorem append_writes_first_copy : ∃ boot size v call m', fatfsInit boot size = some v ∧ v.Fits ∧ Mirrored v boot ∧
    Exec (ImageStep v) boot [call] m' ∧ ¬Mirrored v m' := by
  have hret : Returns (fun n => fatfsWrite twoCopies n wildImage [70] false [65] .append) (wildAppended, true) :=
    @append_fixedRoot twoCopies wildImage [70] [65] rfl (by decide) 640 (2 ^ 26 - 1) 512 (by decide +kernel)
      (by decide +kernel) (by decide) (by decide +kernel) (by decide +kernel) (by decide +kernel)
  refine ⟨wildImage, 768, twoCopies, .write [70] false [65] .append, wildAppended, by decide +kernel, twoCopies_fits,
    ?_, .single ⟨_, hret, rfl⟩, ?_⟩
  · unfold Mirrored
    decide +kernel
  · exact fun h => absurd (h 1 (by decide) 1 (by decide)) (by decide +kernel)

/-- From a formatted image every call returns, whatever ran before; the boot sector and what lies behind stay. -/
theorem Image.formatted_image_safe (m : Mem) (calls : List Call) (m' : Mem) :
    Always (ImageStep volume) (filesystemInit m).image calls m' (fun _ m' =>
      (∀ call : Call, ∃ r, Returns (fun n => call.run volume n m') r) ∧ fatfsInit m' imageSize = some volume ∧
        ∀ i, imageSize ≤ i → m' i = (filesystemInit m).image i) := by
  have hfit (call : Call) : call.FitsCluster volume := by
    cases call <;> exact Nat.le_of_ble_eq_true rfl
  have hholds := holds_init m
  intro pre post m' _ hrun _
  obtain ⟨hs, hstored⟩ := hrun.invariant
    (P := fun m' => Sound volume (view volume m') ∧ Stored volume (filesystemInit m).image m')
    ⟨hholds.sound, .refl _ _⟩ (by
      rintro m₁ call _ ⟨hs, hstored⟩ ⟨r, hret, rfl⟩
      obtain ⟨r', hret', hs', hstored'⟩ := Call.run_sound volume_fits hs (hfit call)
      obtain rfl := hret.unique hret'
      exact ⟨hs', hstored.trans hstored'⟩)
  refine ⟨fun call => (Call.run_sound volume_fits hs (hfit call)).imp fun _ h => h.1, ?_, fun i hi =>
    hstored.confined.behind volume_fits (le_trans (by decide) hi)⟩
  rw [fatfsInit_congr (fun i hi => hstored.confined i (.inl (hi.trans_le (by decide)))), hholds.boot]

end ProOS.Fat
