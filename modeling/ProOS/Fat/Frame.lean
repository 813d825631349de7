import ProOS.Fat.AppendSpec

namespace ProOS.Fat

open ProOS.Framework
open Rechains (Other)

/-! ## What a change leaves alone -/

def fileBytes (v : Volume) (d : Disk) (t : Slot) : List UInt8 :=
  (chainOf v d (d.entry t).firstCluster).flatMap (clusterBytes v d)

/-- The directories in `keep` stay, and every entry of theirs other than `s` keeps its fields and a file its bytes. -/
structure Frame (v : Volume) (d d' : Disk) (s : Slot) (keep : Nat → Prop) : Prop where
  reach : ∀ a, Reach v d a → keep a → Reach v d' a
  kid : ∀ a t, Reach v d a → keep a → t ≠ s → (t ∈ kids v d' a ↔ t ∈ kids v d a)
  entry : ∀ a t, Reach v d a → keep a → t ∈ kids v d a → t ≠ s → d'.entry t = d.entry t
  bytes : ∀ a t, Reach v d a → keep a → t ∈ kids v d a → t ≠ s → (d.entry t).isDirectory = false →
    fileBytes v d' t = fileBytes v d t

section Frame

variable {v : Volume} {d d' d'' : Disk} {a c h : Nat} {s t : Slot} {old new : List Nat} {keep keep' : Nat → Prop}

theorem Frame.refl (d : Disk) (s : Slot) (keep : Nat → Prop) : Frame v d d s keep :=
  ⟨fun _ hr _ => hr, fun _ _ _ _ _ => Iff.rfl, fun _ _ _ _ _ _ => rfl, fun _ _ _ _ _ _ _ => rfl⟩

theorem Frame.trans (hf : Frame v d d' s keep) (hf' : Frame v d' d'' s keep')
    (hoth : ∀ a, Reach v d a → keep a → keep' a) : Frame v d d'' s keep := by
  refine ⟨?_, ?_, ?_, ?_⟩
  · intro a hr ho
    exact hf'.reach a (hf.reach a hr ho) (hoth a hr ho)
  · intro a t hr ho hts
    rw [hf'.kid a t (hf.reach a hr ho) (hoth a hr ho) hts, hf.kid a t hr ho hts]
  · intro a t hr ho ht hts
    rw [hf'.entry a t (hf.reach a hr ho) (hoth a hr ho) ((hf.kid a t hr ho hts).mpr ht) hts, hf.entry a t hr ho ht hts]
  · intro a t hr ho ht hts hfile
    have hentry := hf.entry a t hr ho ht hts
    rw [hf'.bytes a t (hf.reach a hr ho) (hoth a hr ho) ((hf.kid a t hr ho hts).mpr ht) hts (hentry ▸ hfile),
      hf.bytes a t hr ho ht hts hfile]

theorem fileBytes_congr (hentry : d'.entry t = d.entry t)
    (hchain : chainOf v d' (d.entry t).firstCluster = chainOf v d (d.entry t).firstCluster)
    (hcell : ∀ x ∈ chainOf v d (d.entry t).firstCluster, d'.cell x = d.cell x) : fileBytes v d' t = fileBytes v d t := by
  rw [fileBytes, fileBytes, hentry, hchain]
  apply List.flatMap_congr
  intro x hx
  rw [clusterBytes, clusterBytes, hcell x hx]

theorem fileBytes_bare (hbare : (d.entry t).firstCluster < 2) : fileBytes v d t = [] := by
  rw [fileBytes, chainOf, if_pos hbare]
  rfl

theorem Owned.area_not_file (ho : Owned v d) (hr : Reach v d h) (ha : Reach v d a) (ht : t ∈ kids v d a)
    (hfile : (d.entry t).isDirectory = false) {r : Nat} (hm : r ∈ dirAreas v d h) :
    r ∉ chainOf v d (d.entry t).firstCluster := by
  intro hx
  have hge : 2 ≤ (d.entry t).firstCluster := by
    by_contra hlt
    rw [chainOf, if_pos (not_le.mp hlt)] at hx
    cases hx
  have hdir := (ho.area_own hr (.entry ha ht hge) hm hx).2
  rw [hfile] at hdir
  cases hdir

theorem GrowsDir.frame (hv : v.Fits) (g : GrowsDir v d d' h c) (ho : Owned v d) (s : Slot) (keep : Nat → Prop) :
    Frame v d d' s keep := by
  have hentry : ∀ a t, Reach v d a → t ∈ kids v d a → d'.entry t = d.entry t := by
    intro a t hr ht
    refine g.entry (fun he => ?_)
    exact g.not_area ho hr (he ▸ (mem_slotsIn.mp (mem_kids_slot ht)).1)
  refine ⟨?_, ?_, ?_, ?_⟩
  · intro a hr _
    exact (g.reach_iff hv ho).mpr hr
  · intro a t hr _ _
    rw [(g.sameDir hv ho hr).kids]
  · intro a t hr _ ht _
    exact hentry a t hr ht
  · intro a t hr _ ht _ hfile
    by_cases hlt : (d.entry t).firstCluster < 2
    · rw [fileBytes_bare hlt, fileBytes_bare (by rwa [hentry a t hr ht])]
    · have hown := Owns.entry hr ht (not_lt.mp hlt)
      have hc := ho.chains _ _ hown
      have hapart : ∀ x ∈ chainOf v d (d.entry t).firstCluster, x ∉ chainOf v d h := by
        intro x hx hx'
        exact ho.area_not_file g.reach hr ht hfile (by rwa [dirAreas_chain g.chain.two_le]) hx
      refine fileBytes_congr (hentry a t hr ht) (g.apart hc hapart).2 (fun x hx => g.cell x ?_)
      rintro rfl
      exact hc.fat_ne_zero hx g.free

theorem Unowned.frame (u : Unowned v d d' h s) (ho : Owned v d) (keep : Nat → Prop) : Frame v d d' s keep := by
  refine ⟨?_, ?_, ?_, ?_⟩
  · intro a hr _
    exact (u.reach_iff ho).mpr hr
  · intro a t hr _ hts
    by_cases hh : a = h
    · rw [hh]
      exact u.others t hts
    · rw [(u.sameDir ho hr hh).kids]
  · intro a t _ _ _ hts
    exact u.only.entry hts
  · intro a t hr _ ht hts hfile
    refine fileBytes_congr (u.only.entry hts) u.only.chainOf (fun x hx => ?_)
    funext i
    refine u.only.cell x i (fun he => ?_)
    exact absurd hx (ho.area_not_file u.reach hr ht hfile (he ▸ (mem_slotsIn.mp u.slot).1))

theorem Rechains.frame (g : Rechains v d d' h s old new) (ho : Owned v d)
    (hold : (d.entry s).isDirectory = true → 2 ≤ (d.entry s).firstCluster → kids v d (d.entry s).firstCluster = [])
    (hnew : (d.entry s).isDirectory = true → 2 ≤ (d'.entry s).firstCluster → EmptyDir v d' (d'.entry s).firstCluster) :
    Frame v d d' s (Other d s) := by
  refine ⟨?_, ?_, ?_, ?_⟩
  · intro a hr hoth
    exact (g.reach_iff ho hold (fun hdir hge => (hnew hdir hge).kids)).mpr (.inl ⟨hr, hoth⟩)
  · intro a t hr hoth _
    rw [(g.sameDir ho hr hoth).kids]
  · intro a t hr hoth ht hts
    exact g.entry_eq ho hr hoth (mem_kids_slot ht) hts
  · intro a t hr hoth ht hts hfile
    have hentry := g.entry_eq ho hr hoth (mem_kids_slot ht) hts
    by_cases hlt : (d.entry t).firstCluster < 2
    · rw [fileBytes_bare hlt, fileBytes_bare (by rwa [hentry])]
    · have hown := Owns.entry hr ht (not_lt.mp hlt)
      have hc := ho.chains _ _ hown
      have hnotold : ∀ x ∈ chainOf v d (d.entry t).firstCluster, x ∉ old := by
        intro x hx hx'
        obtain ⟨-, hown'⟩ := g.old_chain hx'
        exact hts (Option.some.inj (ho.once _ _ _ _ x hown hown' hx (g.had ▸ hx')))
      refine fileBytes_congr hentry (g.chain_kept ho (fun he => hts (Option.some.inj he)) hown).2 (fun x hx => ?_)
      funext i
      refine g.cell x i (hnotold x hx) (.inr (hc.fat_ne_zero hx)) (fun he => ?_)
      exact absurd hx (ho.area_not_file g.reach hr ht hfile (he ▸ (mem_slotsIn.mp (mem_kids_slot g.kid)).1))

theorem Frame.mono (hf : Frame v d d' s keep) (hk : ∀ a, Reach v d a → keep' a → keep a) : Frame v d d' s keep' :=
  ⟨fun a hr h => hf.reach a hr (hk a hr h), fun a t hr h => hf.kid a t hr (hk a hr h),
    fun a t hr h => hf.entry a t hr (hk a hr h), fun a t hr h => hf.bytes a t hr (hk a hr h)⟩

theorem Rechains.file_frame (g : Rechains v d d' h s old new) (ho : Owned v d)
    (hfile : (d.entry s).isDirectory = false) : Frame v d d' s (fun _ => True) := by
  have hnot : ∀ {P : Prop}, (d.entry s).isDirectory = true → P := by
    intro P hdir
    rw [hfile] at hdir
    cases hdir
  exact (g.frame ho (fun hdir => hnot hdir) (fun hdir => hnot hdir)).mono (fun _ _ _ hdir => hnot hdir)

end Frame

end ProOS.Fat
