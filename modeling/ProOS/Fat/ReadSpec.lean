import ProOS.Fat.Frame

namespace ProOS.Fat

open ProOS.Framework Option List

def entryAt (v : Volume) (d : Disk) (path : Str) : Option Slot :=
  (walkLeaf v d path).bind fun leaf => findEntry v d leaf.1 leaf.2

/-- The bytes of a file: as many of those in its clusters as its size tells. -/
def content (v : Volume) (d : Disk) (s : Slot) : List UInt8 := (fileBytes v d s).take (d.entry s).fileSize

def contentAt (v : Volume) (d : Disk) (path : Str) : Option (List UInt8) :=
  ((entryAt v d path).filter (fun s => !(d.entry s).isDirectory)).map (content v d)

section Split

variable {v : Volume} {d : Disk} {dir leaf : Str}

theorem walkParent_plain (hleaf : slash ∉ leaf) (hshort : leaf.length < 64) :
    walkParent v d leaf = some (rootDirectory v, leaf) := by
  rw [walkParent, lastIndexOf_of_notMem hleaf]
  exact if_neg (Nat.not_le.mpr hshort)

theorem walkParent_split (hleaf : slash ∉ leaf) (hdir : dir.length < 128) (hshort : leaf.length < 64) :
    walkParent v d (dir ++ slash :: leaf) = (walk v d (fields slash dir) (rootDirectory v)).map (·, leaf) := by
  have htake : (dir ++ slash :: leaf).take dir.length = dir := take_left
  have hdrop : (dir ++ slash :: leaf).drop (dir.length + 1) = leaf := by
    rw [← singleton_append, ← append_assoc]
    exact drop_left' (by simp)
  have hcut := @lastIndexOf_split _ _ slash dir leaf hleaf
  unfold walkParent
  rw [hcut]
  dsimp only
  rw [if_neg (by omega), htake, hdrop]
  cases walk v d (fields slash dir) (rootDirectory v) with
  | none => rfl
  | some h => exact if_neg (Nat.not_le.mpr hshort)

end Split

section Read

variable {v : Volume} {m : Mem} {c h maxLen : Nat} {s : Slot} {path : Str}

theorem clusterBytes_view (hc : v.InRange c) : cells (fun i => m (v.addr c + i)) (clusterSizeBytes v) =
    clusterBytes v (view v m) c := by
  apply cells_congr
  intro i hi
  rw [view_cell (.inr hc) (by rwa [Volume.Fits.len_cluster hc])]

theorem take_cells (a : Mem) (n k : Nat) : (cells a n).take k = cells a (min k n) := by
  rw [cells, ← map_take, take_range, cells]

theorem loadCluster_eq (hv : v.Fits) (hc : v.InRange c) {out : Str} (hlt : out.length < maxLen) :
    loadCluster v m maxLen c out = .inr ((out ++ clusterBytes v (view v m) c).take maxLen) := by
  rw [loadCluster, if_neg (by omega), hv.clusterPtr_eq hc]
  dsimp only
  rw [take_append, take_of_length_le hlt.le, ← clusterBytes_view hc, take_cells, Nat.min_comm]

theorem take_take_append (l r : Str) (n : Nat) : (l.take n ++ r).take n = (l ++ r).take n := by
  rw [take_append, take_append, take_take, Nat.min_self, length_take]
  congr 2
  omega

theorem overList_load (hv : v.Fits) {xs : List Nat} (hr : ∀ x ∈ c :: xs, v.InRange x) {out : Str}
    (hout : out.length ≤ maxLen) : overList (loadCluster v m maxLen) (fun _ out => out) c xs out =
      (out ++ (c :: xs).flatMap (clusterBytes v (view v m))).take maxLen := by
  induction xs generalizing c out with
  | nil =>
    by_cases hfull : maxLen ≤ out.length
    · rw [overList, loadCluster, if_pos hfull, take_append_of_le_length hfull, take_of_length_le hout]
      rfl
    · rw [overList, loadCluster_eq hv (hr c (by simp)) (Nat.not_le.mp hfull), flatMap_singleton]
      rfl
  | cons y ys ih =>
    by_cases hfull : maxLen ≤ out.length
    · rw [overList, loadCluster, if_pos hfull, take_append_of_le_length hfull, take_of_length_le hout]
      rfl
    · have hr' : ∀ x ∈ y :: ys, v.InRange x := fun x hx => hr x (mem_cons_of_mem c hx)
      rw [overList, loadCluster_eq hv (hr c (by simp)) (Nat.not_le.mp hfull), Sum.elim_inr,
        ih hr' (length_take_le _ _), take_take_append, append_assoc]
      rfl

theorem content_of_stores {d : Disk} {l : List Nat} {data : List UInt8} (hv : v.Fits) (hst : Stores v d l data)
    (hchain : chainOf v d (d.entry s).firstCluster = l) (hsize : (d.entry s).fileSize = data.length) :
    content v d s = data := by
  rw [content, fileBytes, hchain, hsize]
  exact hst.take hv

theorem loadClusterChain_spec (hv : v.Fits) (hc : HasChain v (view v m) c) (maxLen : Nat) :
    Returns (fun n => loadClusterChain v n m c maxLen)
      (((chainOf v (view v m) c).flatMap (clusterBytes v (view v m))).take maxLen) := by
  obtain ⟨l, hl, -⟩ := hc.split
  have hrange : ∀ x ∈ c :: l, v.InRange x := by
    rw [← hl]
    exact hc.range
  have hload : overList (loadCluster v m maxLen) (fun _ out => out) c l [] =
      ([] ++ (c :: l).flatMap (clusterBytes v (view v m))).take maxLen := overList_load hv hrange (Nat.zero_le maxLen)
  rw [nil_append, ← hl] at hload
  rw [← hload]
  exact followChain_chain hc hl []

theorem readFile_spec (hv : v.Fits) (ho : Owned v (view v m)) (hr : Reach v (view v m) h) (hs : s ∈ kids v (view v m) h)
    (maxLen : Nat) :
    Returns (fun n =>
      if min ((view v m).entry s).fileSize maxLen = 0 ∨ ((view v m).entry s).firstCluster < 2 then some (some [])
      else (loadClusterChain v n m ((view v m).entry s).firstCluster (min ((view v m).entry s).fileSize maxLen)).map some)
      (some ((content v (view v m) s).take maxLen)) := by
  have hcut : (content v (view v m) s).take maxLen =
      (fileBytes v (view v m) s).take (min ((view v m).entry s).fileSize maxLen) := by
    rw [content, take_take, Nat.min_comm]
  rw [hcut]
  by_cases hnone : min ((view v m).entry s).fileSize maxLen = 0 ∨ ((view v m).entry s).firstCluster < 2
  · simp only [if_pos hnone]
    rcases hnone with hzero | hbare
    · rw [hzero, take_zero]
      exact .of_some _
    · rw [fileBytes_bare hbare, take_nil]
      exact .of_some _
  · simp only [if_neg hnone]
    have hchain := (ho.entry_chain hr hs).resolve_left (fun hb => hnone (.inr hb))
    exact (loadClusterChain_spec hv hchain _).map (g := some)

theorem entryAt_kid (he : entryAt v (view v m) path = some s) :
    ∃ h, Reach v (view v m) h ∧ s ∈ kids v (view v m) h := by
  obtain ⟨leaf, hw, hf⟩ := bind_eq_some_iff.mp he
  obtain ⟨hkid, -⟩ := mem_of_findEntry hf
  exact ⟨leaf.1, (walkLeaf_spec hw).1.of_kid hkid, hkid⟩

theorem locate_entryAt (hv : v.Fits) (ho : Owned v (view v m)) (path : Str) :
    (Returns (fun n => locate v n m path) none ∧ entryAt v (view v m) path = none) ∨
      ∃ l, Returns (fun n => locate v n m path) (some l) ∧
        l.scan.found = (entryAt v (view v m) path).map v.slotAddr := by
  cases hw : walkLeaf v (view v m) path with
  | none => exact .inl ⟨locate_none hv ho hw, by rw [entryAt, hw, bind_none]⟩
  | some leaf =>
    obtain ⟨-, hn⟩ := walkLeaf_spec hw
    obtain ⟨scan, hloc, hscan⟩ := locate_some hv ho hw
    exact .inr ⟨_, hloc, by rw [hscan.found_eq hn, entryAt, hw, bind_some]⟩

theorem fatfsRead_spec (hv : v.Fits) (ho : Owned v (view v m)) (path : Str) {maxLen : Nat} (hmax : 0 < maxLen) :
    Returns (fun n => fatfsRead v n m path maxLen) ((contentAt v (view v m) path).map (List.take maxLen)) := by
  simp only [fatfsRead, if_neg (Nat.ne_of_gt hmax), contentAt]
  rcases locate_entryAt hv ho path with ⟨hloc, he⟩ | ⟨l, hloc, hfound⟩
  · rw [he]
    exact .onFailure hloc
  · refine hloc.onSuccess ?_
    rw [hfound]
    cases he : entryAt v (view v m) path with
    | none => exact .of_some none
    | some s =>
      obtain ⟨h, hr, hkid⟩ := entryAt_kid he
      simp only [map_some, readEntry_view (ho.has_of_mem hr (mem_kids_slot hkid))]
      cases hdir : ((view v m).entry s).isDirectory with
      | true =>
        simp only [if_pos, filter_some, hdir]
        exact .of_some none
      | false =>
        simp only [Bool.false_eq_true, if_false, filter_some, hdir]
        exact readFile_spec hv ho hr hkid maxLen

theorem fatfsFileSize_spec (hv : v.Fits) (ho : Owned v (view v m)) (path : Str) :
    Returns (fun n => fatfsFileSize v n m path)
      ((entryAt v (view v m) path).map (fun s => ((view v m).entry s).fileSize)) := by
  rcases locate_entryAt hv ho path with ⟨hloc, he⟩ | ⟨l, hloc, hfound⟩
  · rw [he]
    exact .onFailure hloc
  · refine hloc.onSuccess ?_
    rw [hfound]
    cases he : entryAt v (view v m) path with
    | none => exact .of_some none
    | some s =>
      obtain ⟨h, hr, hkid⟩ := entryAt_kid he
      simp only [map_some, readEntry_view (ho.has_of_mem hr (mem_kids_slot hkid))]
      exact .of_some _

end Read

end ProOS.Fat
