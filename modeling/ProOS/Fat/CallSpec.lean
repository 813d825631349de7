import ProOS.Fat.RemoveSpec

namespace ProOS.Fat

open ProOS.Framework

section Write

variable {v : Volume} {m m' : Mem} {d d₁ d' : Disk} {h : Nat} {s : Slot} {n : Name} {new : List Nat} {data : List UInt8}
  {ok isNull : Bool} {mode : WriteMode} {path : Str}

/-! ## Writing -/

inductive WriteRun (v : Volume) (m m' : Mem) (path : Str) (isNull : Bool) (data : List UInt8) (mode : WriteMode)
    (ok : Bool) : Prop
  | idle (hm : m' = m) (hok : ok = false)
  | nulled {h : Nat} {s : Slot} {n : Name} (hleaf : walkLeaf v (view v m) path = some (h, n))
      (htarget : Target v m m' h s n) (hnull : isNull = true ∧ data ≠ []) (hok : ok = false)
  | replaced {m₁ : Mem} {h : Nat} {s : Slot} {n : Name} {d₁ : Disk} {new : List Nat}
      (hleaf : walkLeaf v (view v m) path = some (h, n)) (htarget : Target v m m₁ h s n)
      (hfile : ((view v m₁).entry s).isDirectory = false) (hmode : mode = .replace)
      (hrep : Replaced v (view v m₁) d₁ (view v m') h s new data ok)
  | appended {m₁ : Mem} {h : Nat} {s : Slot} {n : Name} (hleaf : walkLeaf v (view v m) path = some (h, n))
      (htarget : Target v m m₁ h s n) (hfile : ((view v m₁).entry s).isDirectory = false) (hmode : mode = .append)
      (hrun : AppendRun v m₁ m' h s data ok)
      (hfail : ok = false → freeCount v (view v m₁) < (chunks (clusterSizeBytes v) data).length)

theorem isDirectory_archive (n : Name) : (Entry.mk n attrArchive 0 0).isDirectory = false := by
  show (attrArchive &&& attrDirectory != 0) = false
  decide

theorem Target.found_of_directory {m₁ : Mem} (ht : Target v m m₁ h s n)
    (hdir : ((view v m₁).entry s).isDirectory = true) : m₁ = m := by
  rcases ht with ⟨hm, -⟩ | hmade
  · exact hm
  · rw [hmade.entry, isDirectory_archive] at hdir
    cases hdir

theorem writeEntry_spec (hv : v.Fits) {m₁ : Mem} (ho : Owned v (view v m₁)) (hr : Reach v (view v m₁) h)
    (hs : s ∈ kids v (view v m₁) h) (hleaf : walkLeaf v (view v m) path = some (h, n)) (ht : Target v m m₁ h s n) :
    ∃ r, Returns (fun k => writeEntry v k m₁ (v.slotAddr s) isNull data mode) r ∧
      WriteRun v m r.1 path isNull data mode r.2 ∧ Stored v m₁ r.1 := by
  unfold writeEntry
  rw [readEntry_view (ho.has_of_mem hr (mem_kids_slot hs))]
  cases hdir : ((view v m₁).entry s).isDirectory with
  | true => exact ⟨(m₁, false), .of_some _, .idle (ht.found_of_directory hdir) rfl, .refl v m₁⟩
  | false =>
    simp only [if_neg Bool.false_ne_true]
    by_cases hnull : isNull = true ∧ data ≠ []
    · simp only [if_pos hnull]
      exact ⟨(m₁, false), .of_some _, .nulled hleaf ht hnull rfl, .refl v m₁⟩
    · simp only [if_neg hnull]
      cases mode with
      | replace =>
        obtain ⟨m', ok, d₁, new, hret, hrep, hconf⟩ := writeReplace_spec hv ho hr hs hdir data
        exact ⟨(m', ok), hret, .replaced hleaf ht hdir rfl hrep, hconf⟩
      | append =>
        obtain ⟨m', ok, hret, hrun, hfail, hconf⟩ := writeAppend_spec hv ho hr hs hdir data
        exact ⟨(m', ok), hret, .appended hleaf ht hdir rfl hrun hfail, hconf⟩

theorem fatfsWrite_spec (hv : v.Fits) (hcs : 32 ≤ clusterSizeBytes v) (ho : Owned v (view v m)) (path : Str)
    (isNull : Bool) (data : List UInt8) (mode : WriteMode) :
    ∃ r, Returns (fun k => fatfsWrite v k m path isNull data mode) r ∧ WriteRun v m r.1 path isNull data mode r.2 ∧
      Stored v m r.1 := by
  cases hleaf : walkLeaf v (view v m) path with
  | none => exact ⟨(m, false), (locate_none hv ho hleaf).bind (.of_some _), .idle rfl rfl, .refl v m⟩
  | some leaf =>
    obtain ⟨h, n⟩ := leaf
    obtain ⟨hr, hn⟩ := walkLeaf_spec hleaf
    obtain ⟨scan, hlocate, hscan⟩ := locate_some hv ho hleaf
    rcases writeSlot_spec hv hcs ho hr hn hscan with hslot | ⟨m₁, s, hslot, ht, hconf⟩
    · refine ⟨(m, false), hlocate.bind ?_, .idle rfl rfl, .refl v m⟩
      dsimp only
      rw [hslot]
      exact .of_some _
    · obtain ⟨r, hret, hrun, hmore⟩ := writeEntry_spec hv (ht.owned hv ho) (ht.reach hv ho hr) (ht.kid hv ho) hleaf ht
      refine ⟨r, hlocate.bind ?_, hrun, hconf.trans hmore⟩
      dsimp only
      rw [hslot]
      exact hret

/-! ## Soundness -/

theorem Replaced.sound (hrep : Replaced v d d₁ d' h s new data ok) (hs : Sound v d)
    (hfile : (d.entry s).isDirectory = false) : Sound v d' := by
  have hfile₁ : (d₁.entry s).isDirectory = false := by
    rw [hrep.bare]
    exact hfile
  exact hrep.chained.file_sound (hrep.released.file_sound hs hfile) hfile₁

theorem AppendRun.owned (hrun : AppendRun v m m' h s data ok) (ho : Owned v (view v m))
    (hfile : ((view v m).entry s).isDirectory = false) : Owned v (view v m') := by
  cases hrun with
  | idle hm _ =>
    rw [hm]
    exact ho
  | ran hstart _ _ g _ _ => exact g.file_owned (hstart.owned ho hfile) (hstart.file hfile)

theorem AppendRun.sound (hrun : AppendRun v m m' h s data ok) (hs : Sound v (view v m))
    (hfile : ((view v m).entry s).isDirectory = false) : Sound v (view v m') := by
  cases hrun with
  | idle hm _ =>
    rw [hm]
    exact hs
  | ran hst _ _ hrechains _ _ => exact hrechains.file_sound (hst.sound hs hfile) (hst.file hfile)

theorem WriteRun.sound (hrun : WriteRun v m m' path isNull data mode ok) (hv : v.Fits) (hs : Sound v (view v m)) :
    Sound v (view v m') := by
  cases hrun with
  | idle hm _ =>
    rw [hm]
    exact hs
  | nulled _ ht _ _ => exact ht.sound hv hs
  | replaced _ ht hfile _ hrep => exact hrep.sound (ht.sound hv hs) hfile
  | appended _ ht hfile _ hrun _ => exact hrun.sound (ht.sound hv hs) hfile

theorem RemoveRun.sound (hrun : RemoveRun v m m' path ok) (hs : Sound v (view v m)) : Sound v (view v m') := by
  cases hrun with
  | idle hm _ =>
    rw [hm]
    exact hs
  | removed _ _ hrem _ => exact hrem.sound hs

theorem MkdirRun.sound (hrun : MkdirRun v m m' path ok) (hv : v.Fits) (hcs : 64 ≤ clusterSizeBytes v)
    (hs : Sound v (view v m)) : Sound v (view v m') := by
  cases hrun with
  | idle hm _ =>
    rw [hm]
    exact hs
  | stuck _ hmade _ _ => exact hmade.sound hv hs
  | made _ hmade hfirst _ =>
    obtain ⟨c, hf⟩ := hfirst hcs
    exact hf.sound hmade.entry (hmade.sound hv hs)

end Write

end ProOS.Fat
