import ProOS.Fat.Resolve

namespace ProOS.Fat

open ProOS.Framework Option List

/-! ## Free clusters -/

def freeCount (v : Volume) (d : Disk) : Nat :=
  ((List.range' 2 v.totalClusters).filter (fun x => d.fat x = 0)).length

section FreeCount

variable {v : Volume} {d d' : Disk} {c : Nat} {l : List Nat}

theorem mem_free {x : Nat} : x ∈ (List.range' 2 v.totalClusters).filter (fun x => d.fat x = 0) ↔
    v.InRange x ∧ d.fat x = 0 := by
  rw [mem_filter, mem_range'_1, decide_eq_true_iff, Volume.InRange, Nat.add_comm v.totalClusters]

theorem freeCount_le (h : ∀ x, v.InRange x → d.fat x = 0 → x ∈ l) : freeCount v d ≤ l.length := by
  have hnodup : ((List.range' 2 v.totalClusters).filter (fun x => d.fat x = 0)).Nodup :=
    List.Nodup.filter _ nodup_range'
  have hsub : (List.range' 2 v.totalClusters).filter (fun x => d.fat x = 0) ⊆ l := by
    intro x hx
    obtain ⟨hr, hf⟩ := mem_free.mp hx
    exact h x hr hf
  exact (subperm_of_subset hnodup hsub).length_le

theorem le_freeCount (hl : l.Nodup) (h : ∀ x ∈ l, v.InRange x ∧ d.fat x = 0) : l.length ≤ freeCount v d :=
  (subperm_of_subset hl (fun x hx => mem_free.mpr (h x hx))).length_le

theorem freeCount_take (hr : v.InRange c) (hfree : d.fat c = 0) (hc : d'.fat c ≠ 0)
    (hother : ∀ x, x ≠ c → (d'.fat x = 0 ↔ d.fat x = 0)) : freeCount v d = freeCount v d' + 1 := by
  have hperm : List.Perm ((List.range' 2 v.totalClusters).filter (fun x => d.fat x = 0))
      (c :: (List.range' 2 v.totalClusters).filter (fun x => d'.fat x = 0)) := by
    rw [perm_ext_iff_of_nodup (List.Nodup.filter _ nodup_range')]
    · intro x
      rw [mem_cons, mem_free, mem_free]
      by_cases hx : x = c
      · subst hx
        exact ⟨fun _ => .inl rfl, fun _ => ⟨hr, hfree⟩⟩
      · rw [hother x hx, or_iff_right hx]
    · refine nodup_cons.mpr ⟨?_, List.Nodup.filter _ nodup_range'⟩
      intro hm
      exact hc (mem_free.mp hm).2
  rw [freeCount, freeCount, hperm.length_eq, length_cons]

end FreeCount

/-! ## A chain under construction -/

def clusterBytes (v : Volume) (d : Disk) (c : Nat) : List UInt8 := cells (d.cell c) (clusterSizeBytes v)

/-- Behind the clusters `pre` the chain has been given the clusters `new`, which were free. -/
structure Builds (v : Volume) (d d' : Disk) (pre new : List Nat) : Prop where
  fat : ∀ x, x ∉ pre → x ∉ new → d'.fat x = d.fat x
  cell : ∀ r, r ∉ pre → r ∉ new → d'.cell r = d.cell r
  range : ∀ x ∈ pre ++ new, v.InRange x
  fresh : ∀ x ∈ new, d.fat x = 0
  linked : Linked (d'.next v) (pre ++ new).head? (pre ++ new)

variable {piece : List UInt8} {pieces : List (List UInt8)}

section Builds

variable {v : Volume} {d d' d₁ d₂ : Disk} {m m' : Mem} {c h : Nat} {s : Slot} {pre new : List Nat}

namespace Builds

theorem hasChain (b : Builds v d d' pre new) (hh : (pre ++ new).head? = some c) :
    HasChain v d' c ∧ chainOf v d' c = pre ++ new := by
  have hl := hh ▸ b.linked
  exact ⟨.of_linked hl b.range, chainOf_linked hl b.range⟩

theorem fat_ne_zero (b : Builds v d d' pre new) {x : Nat} (hx : x ∈ pre ++ new) : d'.fat x ≠ 0 := by
  cases hh : (pre ++ new).head? with
  | none =>
    rw [head?_eq_none_iff] at hh
    rw [hh] at hx
    cases hx
  | some c =>
    obtain ⟨hc, he⟩ := b.hasChain hh
    exact hc.fat_ne_zero (he ▸ hx)

theorem not_new (b : Builds v d d' pre new) {r : Nat} (huse : r = 0 ∨ d.fat r ≠ 0) : r ∉ new := by
  intro hn
  rcases huse with rfl | hne
  · have := (b.range 0 (mem_append_right _ hn)).1
    omega
  · exact hne (b.fresh r hn)

theorem step (hv : v.Fits) (b : Builds v d d₁ pre new) (hc : v.InRange c) (hfree : d₁.fat c = 0)
    (hfat : ∀ x, d₂.fat x = if x = c then eocMarker v else if (pre ++ new).getLast? = some x then c else d₁.fat x)
    (hcell : ∀ r, r ≠ c → d₂.cell r = d₁.cell r) : Builds v d d₂ pre (new ++ [c]) := by
  have hnot : c ∉ pre ++ new := fun hm => b.fat_ne_zero hm hfree
  have hnotpre : c ∉ pre := fun hm => hnot (mem_append_left _ hm)
  have hnotnew : c ∉ new := fun hm => hnot (mem_append_right _ hm)
  refine ⟨?_, ?_, ?_, ?_, ?_⟩
  · intro x hp hn
    rw [mem_append, mem_singleton, not_or] at hn
    have hlast : (pre ++ new).getLast? ≠ some x := by
      intro he
      rcases mem_append.mp (mem_of_getLast? he) with hm | hm
      · exact hp hm
      · exact hn.1 hm
    rw [hfat, if_neg hn.2, if_neg hlast]
    exact b.fat x hp hn.1
  · intro r hp hn
    rw [mem_append, mem_singleton, not_or] at hn
    rw [hcell r hn.2]
    exact b.cell r hp hn.1
  · intro x hx
    rw [← append_assoc, mem_append, mem_singleton] at hx
    rcases hx with hx | rfl
    · exact b.range x hx
    · exact hc
  · intro x hx
    rw [mem_append, mem_singleton] at hx
    rcases hx with hx | rfl
    · exact b.fresh x hx
    · rw [← b.fat x hnotpre hnotnew]
      exact hfree
  · have hnext : d₂.next v c = none := by
      rw [Disk.next, hfat, if_pos rfl, isEoc_eocMarker]
      rfl
    rw [← append_assoc]
    have hlinked := b.linked
    have hfat' := hfat
    generalize pre ++ new = l at hlinked hnot hfat'
    cases l using List.reverseRecOn with
    | nil => exact ⟨rfl, hnext⟩
    | append_singleton init last =>
      have hhead : (init ++ [last] ++ [c]).head? = (init ++ [last]).head? := by
        cases init <;> rfl
      have hlast : last ∉ init := hlinked.not_mem_left
      have hlc : last ≠ c := fun he => hnot (by simp [he])
      rw [hhead]
      refine hlinked.snoc ?_ hnext ?_
      · have hnew : d₂.fat last = c := by rw [hfat', if_neg hlc, if_pos (by simp)]
        rw [Disk.next, hnew, hv.not_eoc hc]
        rfl
      · intro z hz
        have hzc : z ≠ c := fun he => hnot (by simp [← he, hz])
        have hzl : last ≠ z := fun he => hlast (he ▸ hz)
        have hkept : d₂.fat z = d₁.fat z := by rw [hfat', if_neg hzc, if_neg (by simpa using hzl)]
        rw [Disk.next, Disk.next, hkept]

theorem rechains (b : Builds v d d₁ pre new) (hr : Reach v d h) (hs : s ∈ kids v d h)
    (hpre : pre = chainOf v d (d.entry s).firstCluster) (honly : SlotOnly s d₁ d')
    (hname : (d'.entry s).name = (d.entry s).name) (hattr : (d'.entry s).attr = (d.entry s).attr)
    (hfirst : pre ++ new = [] ∧ (d'.entry s).firstCluster < 2 ∨
      (pre ++ new).head? = some (d'.entry s).firstCluster) : Rechains v d d' h s pre (pre ++ new) where
  reach := hr
  kid := hs
  had := hpre
  name := hname
  attr := hattr
  kept x hp hne := by
    rw [honly.fat]
    exact b.fat x hp (fun hn => hne (b.fresh x hn))
  taken x _ hne := by
    by_cases hx : x ∈ pre ++ new
    · exact .inl hx
    · rw [mem_append, not_or] at hx
      rw [honly.fat, b.fat x hx.1 hx.2] at hne
      exact .inr ⟨hx.1, hne⟩
  source x hx := by
    rcases mem_append.mp hx with hx | hx
    · exact .inl hx
    · exact .inr (b.fresh x hx)
  chain := by
    rcases hfirst with hnil | hh
    · exact .inl hnil
    · obtain ⟨hc, he⟩ := b.hasChain hh
      exact .inr ⟨honly.hasChain.mpr hc, honly.chainOf.trans he⟩
  cell r i hp huse hi := by
    rw [honly.cell r i hi, b.cell r hp (b.not_new huse)]

theorem scrapped (b : Builds v d d₁ [] new) (hr : Reach v d h) (hs : s ∈ kids v d h)
    (hbare : (d.entry s).firstCluster < 2) (honly : SlotOnly s (d₁.release new) d')
    (hname : (d'.entry s).name = (d.entry s).name) (hattr : (d'.entry s).attr = (d.entry s).attr)
    (hfirst : (d'.entry s).firstCluster < 2) : Rechains v d d' h s [] [] := by
  have hfat : d'.fat = d.fat := by
    funext x
    rw [honly.fat, Disk.release_fat]
    split
    · rename_i hx
      exact (b.fresh x hx).symm
    · rename_i hx
      exact b.fat x (by simp) hx
  refine ⟨hr, hs, ?_, hname, hattr, ?_, ?_, ?_, .inl ⟨rfl, hfirst⟩, ?_⟩
  · rw [chainOf, if_pos hbare]
  · intro x _ _
    rw [hfat]
  · intro x _ hne
    rw [hfat] at hne
    exact .inr ⟨by simp, hne⟩
  · intro x hx
    cases hx
  · intro r i _ huse hi
    rw [honly.cell r i hi, Disk.release_cell, b.cell r (by simp) (b.not_new huse)]

theorem nil (hpre : ∀ x ∈ pre, v.InRange x) (hl : Linked (d'.next v) pre.head? pre)
    (hfat : ∀ x, x ∉ pre → d'.fat x = d.fat x) (hcell : ∀ r, r ∉ pre → d'.cell r = d.cell r) :
    Builds v d d' pre [] where
  fat x hx _ := hfat x hx
  cell r hr _ := hcell r hr
  range := by simpa using hpre
  fresh x hx := by cases hx
  linked := by simpa using hl

theorem freeCount_le (b : Builds v d d' pre new) (hpre : ∀ x ∈ pre, d.fat x ≠ 0)
    (hfull : ∀ x, v.InRange x → d'.fat x ≠ 0) : freeCount v d ≤ new.length := by
  apply Fat.freeCount_le
  intro x hx hz
  by_contra hn
  refine hfull x hx ?_
  rw [b.fat x (fun hp => hpre x hp hz) hn]
  exact hz

end Builds

theorem rechains_release {old : List Nat} (hr : Reach v d h) (hs : s ∈ kids v d h)
    (hold : old = chainOf v d (d.entry s).firstCluster) (honly : SlotOnly s (d.release old) d')
    (hname : (d'.entry s).name = (d.entry s).name) (hattr : (d'.entry s).attr = (d.entry s).attr)
    (hfirst : (d'.entry s).firstCluster < 2) : Rechains v d d' h s old [] where
  reach := hr
  kid := hs
  had := hold
  name := hname
  attr := hattr
  kept x hx _ := by rw [honly.fat, Disk.release_fat, if_neg hx]
  taken x _ hne := by
    rw [honly.fat, Disk.release_fat] at hne
    split_ifs at hne with hx
    · exact absurd rfl hne
    · exact .inr ⟨hx, hne⟩
  source x hx := by cases hx
  chain := .inl ⟨rfl, hfirst⟩
  cell r i _ _ hi := by rw [honly.cell r i hi, Disk.release_cell]

/-! ## The loops over the data -/

theorem view_fillCluster (hv : v.Fits) (hc : v.InRange c) (hp : piece.length ≤ clusterSizeBytes v) (m : Mem) :
    (view v (fillCluster v m (v.addr c) piece)).fat = (view v m).fat ∧
      (∀ r, r ≠ c → (view v (fillCluster v m (v.addr c) piece)).cell r = (view v m).cell r) ∧
      clusterBytes v (view v (fillCluster v m (v.addr c) piece)) c = padTo (clusterSizeBytes v) 0 piece := by
  have hlen : (padTo (clusterSizeBytes v) 0 piece).length = clusterSizeBytes v := length_padTo hp
  have hwrite : view v (writeBytes m (v.addr c + 0) (padTo (clusterSizeBytes v) 0 piece)) =
      (view v m).modify c (writeBytes · 0 (padTo (clusterSizeBytes v) 0 piece)) :=
    view_writeBytes hv (.inr hc) (by rw [hlen, Volume.Fits.len_cluster hc]; omega) m
  rw [Nat.add_zero] at hwrite
  rw [fillCluster, hwrite]
  refine ⟨rfl, ?_, ?_⟩
  · intro r hr
    rw [Disk.modify_cell, if_neg hr]
  · rw [clusterBytes, Disk.modify_cell, if_pos rfl]
    have hcells : cells (fun i => writeBytes ((view v m).cell c) 0 (padTo (clusterSizeBytes v) 0 piece) (0 + i))
        (padTo (clusterSizeBytes v) 0 piece).length = padTo (clusterSizeBytes v) 0 piece := cells_writeBytes
    rw [hlen] at hcells
    simpa using hcells

/-- What a loop over the pieces of the data has done: `added` are the clusters that it filled. -/
structure Fed (v : Volume) (d d' : Disk) (pieces : List (List UInt8)) (added : List Nat) : Prop where
  cell : ∀ r, r ∉ added → d'.cell r = d.cell r
  bytes : added.map (clusterBytes v d') = (pieces.take added.length).map (padTo (clusterSizeBytes v) 0)

theorem Fed.nil (d : Disk) (pieces : List (List UInt8)) : Fed v d d pieces [] := ⟨fun _ _ => rfl, rfl⟩

theorem Fed.cons {added : List Nat}
    (hc : ∀ r, r ≠ c → d₁.cell r = d.cell r) (hb : clusterBytes v d₁ c = padTo (clusterSizeBytes v) 0 piece)
    (hnot : c ∉ added) (hf : Fed v d₁ d' pieces added) : Fed v d d' (piece :: pieces) (c :: added) := by
  refine ⟨?_, ?_⟩
  · intro r hr
    rw [mem_cons, not_or] at hr
    rw [hf.cell r hr.2, hc r hr.1]
  · have hkept : clusterBytes v d' c = clusterBytes v d₁ c := by rw [clusterBytes, hf.cell c hnot, clusterBytes]
    rw [map_cons, hkept, hb, hf.bytes]
    rfl

/-- The loop has stored all the pieces, or has run out of clusters. -/
def LoopEnd (v : Volume) (d' : Disk) (pieces : List (List UInt8)) (added : List Nat) (ok : Bool) : Prop :=
  if ok then added.length = pieces.length
  else added.length < pieces.length ∧ ∀ x, v.InRange x → d'.fat x ≠ 0

theorem LoopEnd.cons {added : List Nat} {ok : Bool}
    (h : LoopEnd v d' pieces added ok) (c : Nat) : LoopEnd v d' (piece :: pieces) (c :: added) ok := by
  unfold LoopEnd at h ⊢
  cases ok with
  | true => simpa using h
  | false => simpa using h

theorem replaceLoop_spec (hv : v.Fits)
    (hp : ∀ piece ∈ pieces, piece.length ≤ clusterSizeBytes v) (b : Builds v d (view v m) [] new) :
    ∃ m' added ok, replaceLoop v pieces m (new.head?.getD 0) (new.getLast?.getD 0) =
        (m', (new ++ added).head?.getD 0, if ok then some ((new ++ added).getLast?.getD 0) else none) ∧
      Builds v d (view v m') [] (new ++ added) ∧ Fed v (view v m) (view v m') pieces added ∧
      LoopEnd v (view v m') pieces added ok ∧ Stored v m m' := by
  induction pieces generalizing m new with
  | nil => exact ⟨m, [], true, by simp [replaceLoop], by simpa using b, .nil _ _, rfl, .refl v m⟩
  | cons piece pieces ih =>
    rw [replaceLoop]
    rcases allocateCluster_spec hv m with ⟨ha, hfull⟩ | ⟨m₁, c, ha, hc, hfree, hm₁, hconf⟩
    · refine ⟨m, [], false, ?_, by simpa using b, .nil _ _, ⟨by simp, hfull⟩, .refl v m⟩
      simp [ha]
    · have hcpos : c ≠ 0 := by
        have := hc.1
        omega
      have hnot : c ∉ new := fun hm => b.fat_ne_zero (by simpa using hm) hfree
      -- the link of the last cluster so far
      obtain ⟨m₂, hm₂⟩ : ∃ m₂, m₂ = if new.getLast?.getD 0 ≠ 0 then writeFat v m₁ (new.getLast?.getD 0) c else m₁ :=
        ⟨_, rfl⟩
      have hview : (∀ x, (view v m₂).fat x = if x = c then eocMarker v
          else if ([] ++ new).getLast? = some x then c else (view v m).fat x) ∧
          ∀ r, r ≠ c → (view v m₂).cell r = (view v m).cell r := by
        rw [hm₂, nil_append]
        cases hlast : new.getLast? with
        | none =>
          rw [getD_none, if_neg (by simp), hm₁]
          refine ⟨fun x => ?_, fun r hr => ?_⟩
          · rw [Disk.clear_fat, Disk.setFat_fat]
            simp
          · rw [Disk.clear_cell, if_neg hr, Disk.setFat_cell]
        | some last =>
          have hmem := mem_of_getLast? hlast
          have hrange := b.range last (by simpa using hmem)
          have hlc : last ≠ c := fun he => hnot (he ▸ hmem)
          have hne : last ≠ 0 := by
            have := hrange.1
            omega
          rw [getD_some, if_pos hne, view_writeFat hv hrange.2 (hv.lt_fatLimit hc), hm₁]
          refine ⟨fun x => ?_, fun r hr => ?_⟩
          · rw [Disk.setFat_fat, Disk.clear_fat, Disk.setFat_fat]
            by_cases hx : x = c
            · have hxl : x ≠ last := fun he => hlc (he.symm.trans hx)
              rw [if_neg hxl, if_pos hx, if_pos hx]
            · by_cases hxl : x = last
              · rw [if_pos hxl, if_neg hx, if_pos (congrArg some hxl.symm)]
              · rw [if_neg hxl, if_neg hx, if_neg hx, if_neg (fun he => hxl (some.inj he).symm)]
          · rw [Disk.setFat_cell, Disk.clear_cell, if_neg hr, Disk.setFat_cell]
      obtain ⟨hfillFat, hfillCell, hfillBytes⟩ := view_fillCluster hv hc (hp piece (by simp)) m₂
      have hcells : ∀ r, r ≠ c → (view v (fillCluster v m₂ (v.addr c) piece)).cell r = (view v m).cell r :=
        fun r hr => (hfillCell r hr).trans (hview.2 r hr)
      have b' : Builds v d (view v (fillCluster v m₂ (v.addr c) piece)) [] (new ++ [c]) :=
        b.step hv hc hfree (fun x => by rw [hfillFat]; exact hview.1 x) hcells
      obtain ⟨m', added, ok, hloop, hb, hfed, hend, hrest⟩ := ih (fun p hm => hp p (mem_cons_of_mem piece hm)) b'
      have hstep : Stored v m m₂ := by
        rw [hm₂]
        split
        · exact hconf.trans (writeFat_stored hv _ _ _)
        · exact hconf
      have hfirst : (if new.head?.getD 0 = 0 then c else new.head?.getD 0) = (new ++ [c]).head?.getD 0 := by
        cases new with
        | nil => rfl
        | cons x new =>
          have := (b.range x (by simp)).1
          exact if_neg (by simp; omega)
      have hlast' : (new ++ [c]).getLast?.getD 0 = c := by simp
      have happ : new ++ c :: added = new ++ [c] ++ added := by simp
      have hnotadded : c ∉ added := by
        intro hm
        have hnodup := hb.linked.nodup
        rw [nil_append, append_assoc] at hnodup
        exact (nodup_cons.mp (nodup_append'.mp hnodup).2.1).1 hm
      refine ⟨m', c :: added, ok, ?_, ?_, hfed.cons hcells hfillBytes hnotadded, hend.cons c,
        (hstep.trans (fillCluster_stored hv hc (hp piece (by simp)) m₂)).trans hrest⟩
      · rw [ha]
        dsimp only
        rw [if_neg hcpos, hv.clusterPtr_eq hc, hfirst, ← hm₂]
        dsimp only
        rw [hlast'] at hloop
        rw [hloop, happ]
      · rw [happ]
        exact hb

theorem appendLoop_spec (hv : v.Fits) {last : Nat}
    (hp : ∀ piece ∈ pieces, piece.length ≤ clusterSizeBytes v) (b : Builds v d (view v m) pre new)
    (hlast : (pre ++ new).getLast? = some last) :
    ∃ m' added ok, appendLoop v pieces m last = (m', ok) ∧ Builds v d (view v m') pre (new ++ added) ∧
      Fed v (view v m) (view v m') pieces added ∧ LoopEnd v (view v m') pieces added ok ∧ Stored v m m' := by
  induction pieces generalizing m new last with
  | nil => exact ⟨m, [], true, rfl, by simpa using b, .nil _ _, rfl, .refl v m⟩
  | cons piece pieces ih =>
    rw [appendLoop]
    rcases allocateCluster_spec hv m with ⟨ha, hfull⟩ | ⟨m₁, c, ha, hc, hfree, hm₁, hconf⟩
    · refine ⟨m, [], false, ?_, by simpa using b, .nil _ _, ⟨by simp, hfull⟩, .refl v m⟩
      simp [ha]
    · have hcpos : c ≠ 0 := by
        have := hc.1
        omega
      have hmem := mem_of_getLast? hlast
      have hrange := b.range last hmem
      have hlc : last ≠ c := fun he => b.fat_ne_zero hmem (he ▸ hfree)
      have hview : view v (writeFat v (writeFat v m₁ last c) c (eocMarker v)) =
          (((view v m).setFat c (eocMarker v)).clear c |>.setFat last c).setFat c (eocMarker v) := by
        rw [view_writeFat hv hc.2 (eocMarker_lt v), view_writeFat hv hrange.2 (hv.lt_fatLimit hc), hm₁]
      obtain ⟨m₂, hm₂⟩ : ∃ m₂, m₂ = writeFat v (writeFat v m₁ last c) c (eocMarker v) := ⟨_, rfl⟩
      rw [← hm₂] at hview
      obtain ⟨hfillFat, hfillCell, hfillBytes⟩ := view_fillCluster hv hc (hp piece (by simp)) m₂
      have hcells : ∀ r, r ≠ c → (view v (fillCluster v m₂ (v.addr c) piece)).cell r = (view v m).cell r := by
        intro r hr
        rw [hfillCell r hr, hview, Disk.setFat_cell, Disk.setFat_cell, Disk.clear_cell, if_neg hr, Disk.setFat_cell]
      have b' : Builds v d (view v (fillCluster v m₂ (v.addr c) piece)) pre (new ++ [c]) := by
        refine b.step hv hc hfree (fun x => ?_) hcells
        rw [hfillFat, hview, Disk.setFat_fat, Disk.setFat_fat, Disk.clear_fat, Disk.setFat_fat, hlast]
        by_cases hx : x = c
        · rw [if_pos hx, if_pos hx]
        · by_cases hxl : x = last
          · rw [if_neg hx, if_pos hxl, if_neg hx, if_pos (congrArg some hxl.symm)]
          · rw [if_neg hx, if_neg hxl, if_neg hx, if_neg hx, if_neg (fun he => hxl (some.inj he).symm)]
      have hlast' : (pre ++ (new ++ [c])).getLast? = some c := by simp
      obtain ⟨m', added, ok, hloop, hb, hfed, hend, hrest⟩ :=
        ih (fun p hm => hp p (mem_cons_of_mem piece hm)) b' hlast'
      have hstep : Stored v m m₂ := by
        rw [hm₂]
        exact (hconf.trans (writeFat_stored hv _ _ _)).trans (writeFat_stored hv _ _ _)
      have happ : new ++ c :: added = new ++ [c] ++ added := by simp
      have hnotadded : c ∉ added := by
        intro hm
        have hnodup := (nodup_append'.mp hb.linked.nodup).2.1
        rw [append_assoc] at hnodup
        exact (nodup_cons.mp (nodup_append'.mp hnodup).2.1).1 hm
      refine ⟨m', c :: added, ok, ?_, ?_, hfed.cons hcells hfillBytes hnotadded, hend.cons c,
        (hstep.trans (fillCluster_stored hv hc (hp piece (by simp)) m₂)).trans hrest⟩
      · rw [ha]
        dsimp only
        rw [if_neg hcpos, hv.clusterPtr_eq hc, ← hm₂]
        exact hloop
      · rw [happ]
        exact hb

end Builds

end ProOS.Fat
