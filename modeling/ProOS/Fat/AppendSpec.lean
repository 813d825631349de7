import ProOS.Fat.WriteSpec

namespace ProOS.Fat

open ProOS.Framework List

variable {off last : Nat} {bs : List UInt8} {m₁ : Mem} {init : List Nat}

section Append

variable {v : Volume} {m : Mem} {d d' : Disk} {c h : Nat} {s : Slot}

theorem lastOfChain_linked {l : List Nat}
    (hl : Linked ((view v m).next v) (some c) (l ++ [last])) : Returns (fun n => lastOfChain v m n c) last := by
  induction l generalizing c with
  | nil =>
    obtain ⟨hc, hnone⟩ := hl
    obtain rfl := Option.some.inj hc
    refine ⟨1, fun n hn => ?_⟩
    obtain ⟨k, rfl⟩ := Nat.exists_eq_succ_of_ne_zero (Nat.one_le_iff_ne_zero.mp hn)
    have heoc : isEoc v (readFat v m c) = true := by
      by_contra hnot
      have hsome : (view v m).next v c = some (readFat v m c) := if_neg hnot
      rw [hsome] at hnone
      cases hnone
    show lastOfChain v m (k + 1) c = some c
    rw [lastOfChain, if_pos heoc]
  | cons x l ih =>
    obtain ⟨hc, hrest⟩ := hl
    obtain rfl := Option.some.inj hc
    have hnot : isEoc v (readFat v m c) = false := by
      by_contra heoc
      have hnone : (view v m).next v c = none := if_pos (Bool.eq_true_of_not_eq_false heoc)
      rw [hnone] at hrest
      cases l with
      | nil => cases hrest.1
      | cons y l => cases hrest.1
    have hsome : (view v m).next v c = some (readFat v m c) := if_neg (ne_true_of_eq_false hnot)
    rw [hsome] at hrest
    obtain ⟨n₀, hn₀⟩ := ih hrest
    refine ⟨n₀ + 1, fun n hn => ?_⟩
    obtain ⟨k, rfl⟩ := Nat.exists_eq_succ_of_ne_zero (by omega : n ≠ 0)
    show lastOfChain v m (k + 1) c = some last
    rw [lastOfChain, if_neg (ne_true_of_eq_false hnot)]
    exact hn₀ k (by omega)

theorem Owned.slot_not_chain (ho : Owned v d) (hr : Reach v d h) (hs : s ∈ kids v d h)
    (hfile : (d.entry s).isDirectory = false) : s.1 ∉ chainOf v d (d.entry s).firstCluster := by
  intro hmem
  have hge : 2 ≤ (d.entry s).firstCluster := by
    by_contra hlt
    rw [chainOf, if_pos (not_le.mp hlt)] at hmem
    cases hmem
  have hdir := (ho.area_own hr (.entry hr hs hge) (mem_slotsIn.mp (mem_kids_slot hs)).1 hmem).2
  rw [hfile] at hdir
  cases hdir

/-- `bs` written over a list of bytes. -/
def patch (l : List UInt8) (off : Nat) (bs : List UInt8) : List UInt8 := l.take off ++ bs ++ l.drop (off + bs.length)

theorem cells_patch {f : Mem} {n : Nat} (hb : off + bs.length ≤ n) :
    cells (writeBytes f off bs) n = patch (cells f n) off bs := by
  apply ext_getElem?
  intro i
  have htake : ((cells f n).take off).length = off := by
    rw [length_take, length_cells]
    omega
  rw [getElem?_cells, patch]
  by_cases hlow : i < off
  · rw [append_assoc, getElem?_append_left (by omega), getElem?_take_of_lt hlow, getElem?_cells,
      writeBytes_before hlow]
  by_cases hmid : i < off + bs.length
  · obtain ⟨k, rfl⟩ := Nat.exists_eq_add_of_le (not_lt.mp hlow)
    have hk : k < bs.length := by omega
    rw [append_assoc, getElem?_append_right (by omega), getElem?_append_left (by omega), htake,
      Nat.add_sub_cancel_left, getElem?_eq_getElem hk, writeBytes_at hk, if_pos (by omega)]
  · have hlen : ((cells f n).take off ++ bs).length = off + bs.length := by rw [length_append, htake]
    have hback : off + bs.length + (i - (off + bs.length)) = i := by omega
    rw [getElem?_append_right (by omega), hlen, getElem?_drop, hback, getElem?_cells, writeBytes_after (by omega)]

/-- What `fatfs_write_append` leaves in the clusters of a file whose chain was `init ++ [last]`. -/
structure Appended (v : Volume) (d d' : Disk) (init : List Nat) (last : Nat) (added : List Nat) (off : Nat)
    (data : List UInt8) : Prop where
  init : ∀ x ∈ init, clusterBytes v d' x = clusterBytes v d x
  last : clusterBytes v d' last = patch (clusterBytes v d last) off (data.take (clusterSizeBytes v - off))
  added : Stores v d' added (data.drop (clusterSizeBytes v - off))

/-- What `fatfs_write_append` does when it has come to the last cluster, which is at `dest`. -/
def appendData (v : Volume) (m : Mem) (p lastCluster dest offset : Nat) (data : List UInt8) : Mem × Bool :=
  let space := clusterSizeBytes v - offset
  let m := writeBytes m (dest + offset) (data.take space)
  if data.length < space then (setFileSize m p ((readEntry m p).fileSize + data.length), true)
  else
    let r := appendLoop v (chunks (clusterSizeBytes v) (data.drop space)) m lastCluster
    if r.2 then (setFileSize r.1 p ((readEntry r.1 p).fileSize + data.length), true) else (r.1, false)

theorem writeAppend_of_start {p first offset : Nat} {data : List UInt8} (hdata : data ≠ [])
    (hstart : appendStart v m p = (m₁, some (first, offset))) {dest : Nat}
    (hlast : Returns (fun n => lastOfChain v m₁ n first) last) (hdest : clusterPtr v last = some dest) :
    Returns (fun n => writeAppend v n m p data) (appendData v m₁ p last dest offset data) := by
  obtain ⟨n₀, hn₀⟩ := hlast
  refine ⟨n₀, fun n hn => ?_⟩
  have hgo : lastOfChain v m₁ n first = some last := hn₀ n hn
  show writeAppend v n m p data = _
  unfold writeAppend appendData
  rw [if_neg hdata, hstart]
  dsimp only
  rw [hgo, Option.bind_some, hdest]
  dsimp only
  split
  · rfl
  · split
    · rfl
    · rfl

/-- `bs` is written over the bytes of the last cluster from `off` on. -/
structure Patched (v : Volume) (d d' : Disk) (last off : Nat) (bs : List UInt8) : Prop where
  fat : d'.fat = d.fat
  cell : ∀ r, r ≠ last → d'.cell r = d.cell r
  bytes : clusterBytes v d' last = patch (clusterBytes v d last) off bs

theorem patched_writeBytes (hv : v.Fits) (hlast : v.InRange last)
    (hfit : off + bs.length ≤ clusterSizeBytes v) (m : Mem) :
    Patched v (view v m) (view v (writeBytes m (v.addr last + off) bs)) last off bs := by
  rw [view_writeBytes hv (.inr hlast) (by rwa [Volume.Fits.len_cluster hlast]) m]
  refine ⟨rfl, fun r hr => ?_, ?_⟩
  · rw [Disk.modify_cell, if_neg hr]
  · rw [clusterBytes, Disk.modify_cell, if_pos rfl]
    exact cells_patch hfit

theorem HasChain.linked_append (hc : HasChain v d c)
    (hchain : chainOf v d c = init ++ [last]) : (init ++ [last]).head? = some c ∧
      Linked (d.next v) (init ++ [last]).head? (init ++ [last]) := by
  have hl := hc.linked
  rw [hchain] at hl
  exact ⟨hl.head_eq.symm, hl.head_eq ▸ hl⟩

theorem Patched.builds (hp : Patched v d d' last off bs)
    (hc : HasChain v d c) (hchain : chainOf v d c = init ++ [last]) : Builds v d d' (init ++ [last]) [] := by
  refine .nil (hchain ▸ hc.range) ?_ (fun x _ => by rw [hp.fat]) (fun r hr => hp.cell r (fun he => hr (by simp [he])))
  refine (hc.linked_append hchain).2.congr (fun z _ => ?_)
  rw [Disk.next, Disk.next, hp.fat]

section Data

variable {added : List Nat} {data : List UInt8} {m₂ m₃ : Mem} (hv : v.Fits) (ho : Owned v (view v m))
  (hr : Reach v (view v m) h) (hs : s ∈ kids v (view v m) h) (hfile : ((view v m).entry s).isDirectory = false)
  (hchain : chainOf v (view v m) ((view v m).entry s).firstCluster = init ++ [last])
  (hp : Patched v (view v m) (view v m₂) last off (data.take (clusterSizeBytes v - off)))
  (b : Builds v (view v m) (view v m₃) (init ++ [last]) added)
  (hfed : Fed v (view v m₂) (view v m₃) (chunks (clusterSizeBytes v) (data.drop (clusterSizeBytes v - off))) added)

include ho hr hs hfile hchain hp b hfed

theorem append_entry : (view v m₃).entry s = (view v m).entry s := by
  have hnot := ho.slot_not_chain hr hs hfile
  rw [hchain] at hnot
  rw [Disk.entry, Disk.entry, hfed.cell _ (slot_not_new ho hr hs b), hp.cell _ (fun he => hnot (by simp [he]))]

omit ho hr hs hfile in
theorem append_bytes (hlen : added.length = (chunks (clusterSizeBytes v) (data.drop (clusterSizeBytes v - off))).length) :
    Appended v (view v m) (view v m₃) init last added off data := by
  have hnodup := b.linked.nodup
  have hdisjoint : ∀ x ∈ init ++ [last], x ∉ added := fun x hx hx' => (nodup_append'.mp hnodup).2.2 hx hx'
  refine ⟨?_, ?_, hlen, ?_⟩
  · intro x hx
    have hne : x ≠ last := by
      rintro rfl
      exact (nodup_append'.mp (nodup_append'.mp hnodup).1).2.2 hx (by simp)
    rw [clusterBytes, hfed.cell x (hdisjoint x (by simp [hx])), hp.cell x hne, clusterBytes]
  · rw [clusterBytes, hfed.cell last (hdisjoint last (by simp)), ← clusterBytes, hp.bytes]
  · rw [hfed.bytes, hlen, take_length]

include hv

theorem appendSize_spec
    (hlen : added.length = (chunks (clusterSizeBytes v) (data.drop (clusterSizeBytes v - off))).length) :
    ∃ m', setFileSize m₃ (v.slotAddr s) ((readEntry m₃ (v.slotAddr s)).fileSize + data.length) = m' ∧
      Rechains v (view v m) (view v m') h s (init ++ [last]) (init ++ [last] ++ added) ∧
      (view v m').entry s = { (view v m).entry s with
        fileSize := (((view v m).entry s).fileSize + data.length) % 2 ^ 32 } ∧
      Appended v (view v m) (view v m') init last added off data ∧ Stored v m₃ m' := by
  have hhas := ho.has_of_mem hr (mem_kids_slot hs)
  have hentry₃ := append_entry ho hr hs hfile hchain hp b hfed
  have happ := append_bytes hchain hp b hfed hlen
  obtain ⟨honly, hentry⟩ := setSize_spec hv hhas m₃ ((readEntry m₃ (v.slotAddr s)).fileSize + data.length)
  rw [readEntry_view hhas, hentry₃] at hentry honly
  rw [readEntry_view hhas, hentry₃]
  have hc : HasChain v (view v m) ((view v m).entry s).firstCluster := by
    refine (ho.entry_chain hr hs).resolve_left (fun hlt => ?_)
    rw [chainOf, if_pos hlt] at hchain
    simp at hchain
  refine ⟨_, rfl, ?_, hentry, ?_, .of_slot (setFileSize_agreeOff _) hv hhas⟩
  · refine b.rechains hr hs hchain.symm honly (by rw [hentry]) (by rw [hentry]) (.inr ?_)
    rw [hentry, head?_append, (hc.linked_append hchain).1]
    rfl
  · have hbytes : ∀ x ∈ init ++ [last] ++ added, clusterBytes v (view v (setFileSize m₃ (v.slotAddr s)
        (((view v m).entry s).fileSize + data.length))) x = clusterBytes v (view v m₃) x := by
      intro x hx
      apply cells_congr
      intro i _
      refine honly.cell x i (fun he => ?_)
      have hnot := ho.slot_not_chain hr hs hfile
      rw [hchain] at hnot
      rcases mem_append.mp (he ▸ hx) with hx | hx
      · exact absurd hx hnot
      · exact absurd hx (slot_not_new ho hr hs b)
    refine ⟨fun x hx => ?_, ?_, hlen, ?_⟩
    · rw [hbytes x (by simp [hx]), happ.init x hx]
    · rw [hbytes last (by simp), happ.last]
    · rw [map_congr_left (fun x hx => hbytes x (mem_append_right _ hx)), happ.added.bytes]

end Data

theorem appendData_spec (hv : v.Fits) (ho : Owned v (view v m)) (hr : Reach v (view v m) h)
    (hs : s ∈ kids v (view v m) h) (hfile : ((view v m).entry s).isDirectory = false)
    (hchain : chainOf v (view v m) ((view v m).entry s).firstCluster = init ++ [last]) (hoff : off < clusterSizeBytes v)
    (data : List UInt8) :
    ∃ m' ok added, appendData v m (v.slotAddr s) last (v.addr last) off data = (m', ok) ∧
      Rechains v (view v m) (view v m') h s (init ++ [last]) (init ++ [last] ++ added) ∧
      (view v m').entry s = { (view v m).entry s with
        fileSize := if ok then (((view v m).entry s).fileSize + data.length) % 2 ^ 32
          else ((view v m).entry s).fileSize } ∧
      (ok = true → Appended v (view v m) (view v m') init last added off data) ∧
      (ok = false → freeCount v (view v m) <
        (chunks (clusterSizeBytes v) (data.drop (clusterSizeBytes v - off))).length) ∧ Stored v m m' := by
  have hc : HasChain v (view v m) ((view v m).entry s).firstCluster := by
    refine (ho.entry_chain hr hs).resolve_left (fun hlt => ?_)
    rw [chainOf, if_pos hlt] at hchain
    simp at hchain
  have hlast : v.InRange last := hc.range last (by simp [hchain])
  have hfit : off + (data.take (clusterSizeBytes v - off)).length ≤ clusterSizeBytes v := by
    rw [length_take]
    omega
  have hp := patched_writeBytes hv hlast hfit m
  have hpatch : Stored v m (writeBytes m (v.addr last + off) (data.take (clusterSizeBytes v - off))) :=
    .of_area writeBytes_agreeOff hv (.inr hlast) (by rwa [Volume.Fits.len_cluster hlast])
  unfold appendData
  dsimp only
  generalize writeBytes m (v.addr last + off) (data.take (clusterSizeBytes v - off)) = m₂ at hp hpatch
  have b₀ := hp.builds hc hchain
  split
  · rename_i hshort
    have hnone : data.drop (clusterSizeBytes v - off) = [] := drop_eq_nil_of_le hshort.le
    obtain ⟨m', hm', g, hentry, happ, hconf⟩ :=
      appendSize_spec hv ho hr hs hfile hchain hp b₀ (.nil _ _) (by rw [hnone]; rfl)
    exact ⟨m', true, [], by rw [hm'], g, hentry, fun _ => happ, (fun hf => by cases hf), hpatch.trans hconf⟩
  · have hpieces : ∀ piece ∈ chunks (clusterSizeBytes v) (data.drop (clusterSizeBytes v - off)),
        piece.length ≤ clusterSizeBytes v := fun piece hp => (length_chunk hv.clusterSize_pos hp).2
    have hend₀ : (init ++ [last] ++ []).getLast? = some last := by simp
    obtain ⟨m₃, added, ok, hloop, b, hfed, hend, hmore⟩ := appendLoop_spec hv hpieces b₀ hend₀
    rw [nil_append] at b
    rw [hloop]
    dsimp only
    cases ok with
    | true =>
      obtain ⟨m', hm', g, hentry, happ, hconf⟩ := appendSize_spec hv ho hr hs hfile hchain hp b hfed hend
      exact ⟨m', true, added, by rw [if_pos rfl, hm'], g, hentry, fun _ => happ, (fun hf => by cases hf),
        (hpatch.trans hmore).trans hconf⟩
    | false =>
      have hentry₃ := append_entry ho hr hs hfile hchain hp b hfed
      refine ⟨m₃, false, added, rfl, ?_, by rw [hentry₃]; rfl, (fun hf => by cases hf), fun _ => ?_, hpatch.trans hmore⟩
      · refine b.rechains hr hs hchain.symm (.refl s _) (by rw [hentry₃]) (by rw [hentry₃]) (.inr ?_)
        rw [hentry₃, head?_append, (hc.linked_append hchain).1]
        rfl
      · refine lt_of_le_of_lt (b.freeCount_le ?_ hend.2) hend.1
        intro x hx
        exact hc.fat_ne_zero (hchain ▸ hx)

/-- The file has a chain that the data can go to, from `off` on in its last cluster: the one it had, or a new one of a single
cluster. -/
inductive Started (v : Volume) (m m₁ : Mem) (h : Nat) (s : Slot) (off : Nat) : Prop
  | kept (hm : m₁ = m) (hchain : HasChain v (view v m) ((view v m).entry s).firstCluster)
      (hoff : off = ((view v m).entry s).fileSize % clusterSizeBytes v)
  | fresh (hbare : ((view v m).entry s).firstCluster < 2) (c : Nat) (hoff : off = 0)
      (hrechains : Rechains v (view v m) (view v m₁) h s [] [c])
      (hentry : (view v m₁).entry s = { (view v m).entry s with firstCluster := c, fileSize := 0 })
      (hchain : HasChain v (view v m₁) c ∧ chainOf v (view v m₁) c = [c])
      (hcount : freeCount v (view v m) = freeCount v (view v m₁) + 1)

theorem startFresh_spec (hv : v.Fits) (ho : Owned v (view v m)) (hr : Reach v (view v m) h)
    (hs : s ∈ kids v (view v m) h) (hbare : ((view v m).entry s).firstCluster < 2) (hrange : v.InRange c)
    (hfree : (view v m).fat c = 0) {m₂ : Mem} (hm₁ : view v m₁ = ((view v m).setFat c (eocMarker v)).clear c)
    (hm₂ : m₂ = writeFat v (setFileSize (setFirstCluster m₁ (v.slotAddr s) c) (v.slotAddr s) 0) c (eocMarker v)) :
    Started v m m₂ h s 0 ∧ ((view v m₂).entry s).firstCluster = c ∧
      freeCount v (view v m) = freeCount v (view v m₂) + 1 ∧ Stored v m₁ m₂ := by
  have hhas := ho.has_of_mem hr (mem_kids_slot hs)
  have b : Builds v (view v m) (view v m₁) [] [c] := by
    have b₀ : Builds v (view v m) (view v m) [] [] := .nil (by simp) rfl (fun _ _ => rfl) (fun _ _ => rfl)
    refine b₀.step hv hrange hfree (fun x => ?_) (fun r hr => ?_)
    · rw [hm₁, Disk.clear_fat, Disk.setFat_fat]
      rfl
    · rw [hm₁, Disk.clear_cell, if_neg hr, Disk.setFat_cell]
  have hnot := slot_not_new ho hr hs b
  obtain ⟨honly, hentry⟩ := setFields_spec hv hhas m₁ c 0
  have hkeep : (view v m₁).entry s = (view v m).entry s := by
    rw [Disk.entry, Disk.entry, hm₁, Disk.clear_cell, if_neg (fun he => hnot (by simp [he])), Disk.setFat_cell]
  have hview := view_writeFat hv hrange.2 (eocMarker_lt v)
    (setFileSize (setFirstCluster m₁ (v.slotAddr s) c) (v.slotAddr s) 0)
  rw [← hm₂] at hview
  have hentry₂ : (view v m₂).entry s = { (view v m).entry s with firstCluster := c, fileSize := 0 } := by
    rw [hview, Disk.entry, Disk.setFat_cell, ← Disk.entry, hentry, hkeep, hv.mod_cluster hrange]
    rfl
  have b' : Builds v (view v m) ((view v m₁).setFat c (eocMarker v)) [] [c] := b.reseal rfl
  have honly₂ : SlotOnly s ((view v m₁).setFat c (eocMarker v)) (view v m₂) := by
    rw [hview]
    exact honly.setFat c (eocMarker v)
  have g : Rechains v (view v m) (view v m₂) h s [] [c] := by
    refine b'.rechains hr hs (by rw [chainOf, if_pos hbare]) honly₂ (by rw [hentry₂]) (by rw [hentry₂]) (.inr ?_)
    rw [hentry₂]
    rfl
  have hchain := g.chain_new (by rw [hentry₂]; exact hrange.1)
  rw [hentry₂] at hchain
  have hcount : freeCount v (view v m) = freeCount v (view v m₂) + 1 := by
    have hfat : (view v m₂).fat = ((view v m).setFat c (eocMarker v)).fat := by
      funext x
      rw [honly₂.fat, Disk.setFat_fat, hm₁, Disk.clear_fat, Disk.setFat_fat]
      split <;> rfl
    refine freeCount_take hrange hfree ?_ (fun x hx => ?_)
    · rw [hfat, Disk.setFat_fat, if_pos rfl]
      exact eocMarker_ne_zero v
    · rw [hfat, Disk.setFat_fat, if_neg hx]
  refine ⟨.fresh hbare c rfl g hentry₂ hchain hcount, by rw [hentry₂], hcount, ?_⟩
  rw [hm₂]
  exact (setFields_stored hv hhas m₁ c 0).trans (writeFat_stored hv _ _ _)

/-- What `fatfs_write_append` does to the entry `s`: nothing, or the file has a chain and the data goes behind its bytes. -/
inductive AppendRun (v : Volume) (m m' : Mem) (h : Nat) (s : Slot) (data : List UInt8) (ok : Bool) : Prop
  | idle (hm : m' = m) (hok : ok = true → data = [])
  | ran {m₁ : Mem} {init added : List Nat} {last off : Nat} (hstart : Started v m m₁ h s off)
      (hoff : off < clusterSizeBytes v)
      (hchain : chainOf v (view v m₁) ((view v m₁).entry s).firstCluster = init ++ [last])
      (hrechains : Rechains v (view v m₁) (view v m') h s (init ++ [last]) (init ++ [last] ++ added))
      (hentry : (view v m').entry s = { (view v m₁).entry s with
        fileSize := if ok then (((view v m₁).entry s).fileSize + data.length) % 2 ^ 32
          else ((view v m₁).entry s).fileSize })
      (happ : ok = true → Appended v (view v m₁) (view v m') init last added off data)

section Started

section

variable (hst : Started v m m₁ h s off)

include hst

theorem Started.owned (ho : Owned v (view v m))
    (hfile : ((view v m).entry s).isDirectory = false) : Owned v (view v m₁) := by
  cases hst with
  | kept hm => rwa [hm]
  | fresh hbare c hoff g hentry => exact g.file_owned ho hfile

theorem Started.sound (hs : Sound v (view v m))
    (hfile : ((view v m).entry s).isDirectory = false) : Sound v (view v m₁) := by
  cases hst with
  | kept hm => rwa [hm]
  | fresh hbare c hoff g hentry => exact g.file_sound hs hfile

theorem Started.reach (ho : Owned v (view v m))
    (hfile : ((view v m).entry s).isDirectory = false) {a : Nat} : Reach v (view v m₁) a ↔ Reach v (view v m) a := by
  cases hst with
  | kept hm => rw [hm]
  | fresh hbare c hoff g hentry => exact g.file_reach ho hfile

theorem Started.kid (ho : Owned v (view v m)) (hs : s ∈ kids v (view v m) h) : s ∈ kids v (view v m₁) h := by
  cases hst with
  | kept hm => rwa [hm]
  | fresh hbare c hoff g hentry => exact g.kid_kept ho

theorem Started.file (hfile : ((view v m).entry s).isDirectory = false) :
    ((view v m₁).entry s).isDirectory = false := by
  cases hst with
  | kept hm => rwa [hm]
  | fresh hbare c hoff g hentry =>
    rw [Entry.isDirectory_congr g.attr]
    exact hfile

theorem Started.hasChain : HasChain v (view v m₁) ((view v m₁).entry s).firstCluster := by
  cases hst with
  | kept hm hchain => rwa [hm]
  | fresh hbare c hoff g hentry hchain =>
    rw [hentry]
    exact hchain.1

end

end Started

theorem writeAppend_started (hv : v.Fits) (ho : Owned v (view v m)) (hr : Reach v (view v m) h)
    (hs : s ∈ kids v (view v m) h) (hfile : ((view v m).entry s).isDirectory = false) {data : List UInt8} (hdata : data ≠ [])
    (hst : Started v m m₁ h s off) (hconf : Stored v m m₁) (hoff : off < clusterSizeBytes v)
    (hstart : appendStart v m (v.slotAddr s) = (m₁, some (((view v m₁).entry s).firstCluster, off))) :
    ∃ m' ok, Returns (fun n => writeAppend v n m (v.slotAddr s) data) (m', ok) ∧ AppendRun v m m' h s data ok ∧
      (ok = false → freeCount v (view v m₁) <
        (chunks (clusterSizeBytes v) (data.drop (clusterSizeBytes v - off))).length) ∧ Stored v m m' := by
  have hc := hst.hasChain
  obtain ⟨init, last, hchain⟩ : ∃ init last, chainOf v (view v m₁) ((view v m₁).entry s).firstCluster = init ++ [last] :=
    ⟨_, _, (dropLast_append_getLast hc.ne_nil).symm⟩
  have hlinked := hc.linked
  rw [hchain] at hlinked
  have hret := writeAppend_of_start hdata hstart (lastOfChain_linked hlinked)
    (hv.clusterPtr_eq (hc.range last (by simp [hchain])))
  obtain ⟨m', ok, added, happend, g, hentry, happ, hfull, hmore⟩ := appendData_spec hv (hst.owned ho hfile)
    ((hst.reach ho hfile).mpr hr) (hst.kid ho hs) (hst.file hfile) hchain hoff data
  rw [happend] at hret
  exact ⟨m', ok, hret, .ran hst hoff hchain g hentry happ, hfull, hconf.trans hmore⟩

theorem length_chunks_drop {n k : Nat} (hn : 0 < n) (data : List UInt8) :
    (chunks n (data.drop k)).length ≤ (chunks n data).length := by
  rw [length_chunks hn, length_chunks hn, length_drop]
  exact Nat.div_le_div_right (by omega)

theorem writeAppend_spec (hv : v.Fits) (ho : Owned v (view v m)) (hr : Reach v (view v m) h)
    (hs : s ∈ kids v (view v m) h) (hfile : ((view v m).entry s).isDirectory = false) (data : List UInt8) :
    ∃ m' ok, Returns (fun n => writeAppend v n m (v.slotAddr s) data) (m', ok) ∧ AppendRun v m m' h s data ok ∧
      (ok = false → freeCount v (view v m) < (chunks (clusterSizeBytes v) data).length) ∧ Stored v m m' := by
  have hcs := hv.clusterSize_pos
  have hread := readEntry_view (ho.has_of_mem hr (mem_kids_slot hs)) m
  by_cases hdata : data = []
  · refine ⟨m, true, ⟨0, fun n _ => ?_⟩, .idle rfl (fun _ => hdata), (fun hf => by cases hf), .refl v m⟩
    show writeAppend v n m (v.slotAddr s) data = _
    rw [writeAppend, if_pos hdata]
  have hsplit := congrArg List.length (chunks_of_ne_nil hcs hdata)
  rw [length_cons] at hsplit
  by_cases hbare : ((view v m).entry s).firstCluster < 2
  · rcases allocateCluster_spec hv m with ⟨ha, hfull⟩ | ⟨m₁, c, ha, hc, hfree, hm₁, hconf⟩
    · have hstart : appendStart v m (v.slotAddr s) = (m, none) := by
        rw [appendStart, hread, if_pos hbare, ha]
        rfl
      refine ⟨m, false, ⟨0, fun n _ => ?_⟩, .idle rfl (fun hf => by cases hf), fun _ => ?_, .refl v m⟩
      · show writeAppend v n m (v.slotAddr s) data = _
        rw [writeAppend, if_neg hdata, hstart]
      · have hnone : freeCount v (view v m) ≤ ([] : List Nat).length :=
          freeCount_le (fun x hx hx0 => absurd hx0 (hfull x hx))
        rw [length_nil] at hnone
        omega
    · have hcne : ¬c = 0 := by
        have := hc.1
        omega
      have hstart : appendStart v m (v.slotAddr s) =
          (writeFat v (setFileSize (setFirstCluster m₁ (v.slotAddr s) c) (v.slotAddr s) 0) c (eocMarker v), some (c, 0)) := by
        rw [appendStart, hread, if_pos hbare, ha]
        dsimp only
        rw [if_neg hcne]
      generalize hm₂ : writeFat v (setFileSize (setFirstCluster m₁ (v.slotAddr s) c) (v.slotAddr s) 0) c (eocMarker v) = m₂
        at hstart
      obtain ⟨hst, hfirst, hcount, hseal⟩ := startFresh_spec hv ho hr hs hbare hc hfree hm₁ hm₂.symm
      rw [← hfirst] at hstart
      obtain ⟨m', ok, hret, hrun, hfull, hmore⟩ :=
        writeAppend_started hv ho hr hs hfile hdata hst (hconf.trans hseal) hcs hstart
      refine ⟨m', ok, hret, hrun, fun hf => ?_, hmore⟩
      have hlt := hfull hf
      rw [Nat.sub_zero] at hlt
      omega
  · have hc := (ho.entry_chain hr hs).resolve_left hbare
    have hstart : appendStart v m (v.slotAddr s) =
        (m, some (((view v m).entry s).firstCluster, ((view v m).entry s).fileSize % clusterSizeBytes v)) := by
      rw [appendStart, hread, if_neg hbare]
    obtain ⟨m', ok, hret, hrun, hfull, hmore⟩ := writeAppend_started hv ho hr hs hfile hdata (.kept rfl hc rfl) (.refl v m)
      (Nat.mod_lt _ hcs) hstart
    exact ⟨m', ok, hret, hrun, fun hf => lt_of_lt_of_le (hfull hf) (length_chunks_drop hcs data), hmore⟩

end Append

end ProOS.Fat
