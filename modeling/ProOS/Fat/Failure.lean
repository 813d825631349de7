import ProOS.Fat.Soundness

namespace ProOS.Fat

open ProOS.Framework

/-- The call has what it may need: data behind its pointer, a free cluster for each piece of the data or for the new
directory, and one more for a parent directory that has no room. -/
def Call.Affordable (v : Volume) (d : Disk) : Call → Prop
  | .write _ isNull data _ =>
    data = [] ∨ isNull = false ∧ (chunks (clusterSizeBytes v) data).length < freeCount v d
  | .remove _ => True
  | .mkdir _ => 2 ≤ freeCount v d

section Failing

variable {v : Volume} {m m' : Mem} {d d' : Disk} {h : Nat} {s : Slot} {path : Str} {isNull ok : Bool}
  {data : List UInt8} {mode : WriteMode} {old : List Nat}

theorem freeCount_mono (hfat : ∀ x, v.InRange x → d.fat x = 0 → d'.fat x = 0) : freeCount v d ≤ freeCount v d' := by
  refine le_freeCount (List.Nodup.filter _ List.nodup_range') ?_
  intro x hx
  obtain ⟨hr, hfree⟩ := mem_free.mp hx
  exact ⟨hr, hfat x hr hfree⟩

theorem Rechains.freeCount_le (g : Rechains v d d' h s old []) : freeCount v d ≤ freeCount v d' := by
  refine freeCount_mono ?_
  intro x hx hfree
  by_contra hne
  rcases g.taken x hx hne with hnew | ⟨-, htaken⟩
  · cases hnew
  · exact htaken hfree

theorem freeCount_full (hfull : ∀ x, v.InRange x → d.fat x ≠ 0) : freeCount v d = 0 :=
  Nat.le_zero.mp (freeCount_le (l := []) (fun x hx hfree => absurd hfree (hfull x hx)))

/-- A call that has what it needs fails before it changes anything. -/
theorem WriteRun.unchanged (hrun : WriteRun v m m' path isNull data mode ok)
    (hafford : (Call.write path isNull data mode).Affordable v (view v m)) (hok : ok = false) : m' = m := by
  have hcount : ∀ {m₁ : Mem} {h : Nat} {s : Slot} {n : Name}, Target v m m₁ h s n →
      (chunks (clusterSizeBytes v) data).length ≤ freeCount v (view v m₁) := by
    intro m₁ h s n ht
    rcases hafford with rfl | ⟨-, hlt⟩
    · exact Nat.zero_le _
    · have := ht.freeCount_le
      omega
  cases hrun with
  | idle hm _ => exact hm
  | nulled _ _ hnull _ =>
    rcases hafford with hnil | ⟨hnn, -⟩
    · exact absurd hnil hnull.2
    · rw [hnn] at hnull
      cases hnull.1
  | replaced _ ht _ _ hrep =>
    have hlt := (hrep.failed hok).2
    have hle := hrep.released.freeCount_le
    have := hcount ht
    omega
  | appended _ ht _ _ _ hfail =>
    have hlt := hfail hok
    have := hcount ht
    omega

theorem MkdirRun.unchanged (hrun : MkdirRun v m m' path ok) (hafford : 2 ≤ freeCount v (view v m)) (hok : ok = false) :
    m' = m := by
  cases hrun with
  | idle hm _ => exact hm
  | stuck _ hmade hfull _ =>
    have hzero := freeCount_full hfull
    have := hmade.freeCount_le
    omega
  | made _ _ _ htrue =>
    rw [hok] at htrue
    cases htrue

theorem RemoveRun.unchanged (hrun : RemoveRun v m m' path ok) (hok : ok = false) : m' = m := by
  cases hrun with
  | idle hm _ => exact hm
  | removed _ _ _ htrue =>
    rw [hok] at htrue
    cases htrue

theorem Call.run_unchanged (hv : v.Fits) (hcs : 32 ≤ clusterSizeBytes v) (ho : Owned v (view v m)) {call : Call}
    (hcall : call.Affordable v (view v m)) : ∃ r, Returns (fun n => call.run v n m) r ∧ (r.2 = false → r.1 = m) := by
  cases call with
  | write path isNull data mode =>
    obtain ⟨r, hret, hrun, -⟩ := fatfsWrite_spec hv hcs ho path isNull data mode
    exact ⟨r, hret, hrun.unchanged hcall⟩
  | remove path =>
    obtain ⟨r, hret, hrun, -⟩ := fatfsRemove_spec hv ho path
    exact ⟨r, hret, hrun.unchanged⟩
  | mkdir path =>
    obtain ⟨r, hret, hrun, -⟩ := fatfsMkdir_spec hv hcs ho path
    exact ⟨r, hret, hrun.unchanged hcall⟩

end Failing

/-- What `fatfs_list`, `fatfs_read` and `fatfs_file_size` tell of two images is the same. -/
structure LooksLike (v : Volume) (m m' : Mem) : Prop where
  list : ∀ n path bufferSize, fatfsList v n m' path bufferSize = fatfsList v n m path bufferSize
  read : ∀ n path maxLen, fatfsRead v n m' path maxLen = fatfsRead v n m path maxLen
  size : ∀ n path, fatfsFileSize v n m' path = fatfsFileSize v n m path

theorem LooksLike.refl (v : Volume) (m : Mem) : LooksLike v m m :=
  ⟨fun _ _ _ => rfl, fun _ _ _ => rfl, fun _ _ => rfl⟩

end ProOS.Fat
