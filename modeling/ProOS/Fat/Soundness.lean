import ProOS.Fat.CallSpec
import ProOS.Fat.Decide

namespace ProOS.Fat

open ProOS.Framework Option

/-- A cluster has room for the entries that the call puts at its start: the two dots of a new directory, or
the first entry of a directory that grows. -/
def Call.FitsCluster (v : Volume) : Call → Prop
  | .write _ _ _ _ => 32 ≤ clusterSizeBytes v
  | .remove _ => 32 ≤ clusterSizeBytes v
  | .mkdir _ => 64 ≤ clusterSizeBytes v

instance (v : Volume) (call : Call) : Decidable (call.FitsCluster v) := by
  cases call <;> exact inferInstanceAs (Decidable (_ ≤ _))

theorem Call.FitsCluster.le {v : Volume} {call : Call} (h : call.FitsCluster v) : 32 ≤ clusterSizeBytes v := by
  cases call with
  | write _ _ _ _ => exact h
  | remove _ => exact h
  | mkdir _ => exact le_trans (by decide) h

/-- Every call returns, and what it returns with is sound and differs from the image before only inside the volume. -/
theorem Call.run_sound {v : Volume} (hv : v.Fits) {m : Mem} (hs : Sound v (view v m)) {call : Call}
    (hcall : call.FitsCluster v) :
    ∃ r, Returns (fun n => call.run v n m) r ∧ Sound v (view v r.1) ∧ Stored v m r.1 := by
  cases call with
  | write path isNull data mode =>
    obtain ⟨r, hret, hrun, hconf⟩ := fatfsWrite_spec hv hcall hs.toOwned path isNull data mode
    exact ⟨r, hret, hrun.sound hv hs, hconf⟩
  | remove path =>
    obtain ⟨r, hret, hrun, hconf⟩ := fatfsRemove_spec hv hs.toOwned path
    exact ⟨r, hret, hrun.sound hs, hconf⟩
  | mkdir path =>
    obtain ⟨r, hret, hrun, hconf⟩ := fatfsMkdir_spec hv (le_trans (by decide) hcall) hs.toOwned path
    exact ⟨r, hret, hrun.sound hv hcall hs, hconf hcall⟩

/-- The boot sector of a volume of `totalSectors` sectors with one FAT of one sector, a sector for each cluster and a root
directory of two entries; `reservedSectors` go before the FAT. -/
def smallBoot (bytesPerSector reservedSectors totalSectors : UInt8) : Mem := fun i =>
  if i = 11 then bytesPerSector else if i = 13 then 1 else if i = 14 then reservedSectors else if i = 16 then 1
  else if i = 17 then 2 else if i = 19 then totalSectors else if i = 22 then 1 else 0

theorem locate_fixedRoot {v : Volume} (ht : v.fatType = .fat16) {path : Str} (hp : lastIndexOf slash path = none)
    (m : Mem) (n : Nat) : locate v n m path = locate v 0 m path := by
  have hroot : rootDirectory v = 0 := by rw [rootDirectory, ht]
  have hscan : ∀ target, dirScan v n m 0 target = dirScan v 0 m 0 target := by
    intro target
    simp only [dirScan, ht, and_self, if_true]
  have hparent : resolveParent v n m path = resolveParent v 0 m path := by
    rw [resolveParent, resolveParent, hp]
  rw [locate, locate, hparent, resolveParent, hp]
  dsimp only
  split
  · rfl
  · simp only [onSuccess, bind_some, elim_some, hroot, hscan]

theorem mkdir_fixedRoot {v : Volume} (ht : v.fatType = .fat16) {path : Str} (hp : lastIndexOf slash path = none)
    {m : Mem} (hsome : (fatfsMkdir v 0 m path).isSome = true) (r : Mem × Bool) :
    Returns (fun n => Call.run v n m (.mkdir path)) ((fatfsMkdir v 0 m path).getD r) := by
  obtain ⟨r', hr⟩ := isSome_iff_exists.mp hsome
  refine ⟨0, fun n _ => ?_⟩
  have hzero : fatfsMkdir v n m path = fatfsMkdir v 0 m path := by
    rw [fatfsMkdir, fatfsMkdir, locate_fixedRoot ht hp]
  show fatfsMkdir v n m path = _
  rw [hzero, hr, getD_some]

end ProOS.Fat
