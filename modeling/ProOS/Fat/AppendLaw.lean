import ProOS.Fat.FileEdit
import ProOS.Fat.Failure

namespace ProOS.Fat

open ProOS.Framework Option List

/-- A volume inside its image, with an acyclic chain for each file that has as many clusters as the size tells. A cluster has
room for an entry, and nothing but end markers stands behind an end marker, as the format demands. -/
structure WellFormed (v : Volume) (d : Disk) : Prop extends Owned v d where
  fits : v.Fits
  holdsEntry : 32 ≤ clusterSizeBytes v
  lengths : ∀ h s, Reach v d h → s ∈ kids v d h → (d.entry s).isDirectory = false →
    (chainOf v d (d.entry s).firstCluster).length = ((d.entry s).fileSize + clusterSizeBytes v - 1) / clusterSizeBytes v

/-- What is in the file of a path, nothing if there is none. -/
def oldContent (v : Volume) (m : Mem) (path : Str) : List UInt8 := (contentAt v (view v m) path).getD []

/-- The file holds the data behind what it held, and no other file has changed. -/
structure AppendLaw (v : Volume) (m m' : Mem) (path : Str) (data : List UInt8) : Prop where
  read : ∀ maxLen, (oldContent v m path ++ data).length ≤ maxLen →
    Returns (fun n => fatfsRead v n m' path maxLen) (some (oldContent v m path ++ data))
  size : Returns (fun n => fatfsFileSize v n m' path) (some ((oldContent v m path).length + data.length))
  others : ∀ path', walkLeaf v (view v m) path' ≠ walkLeaf v (view v m) path → ∀ maxLen r,
    Returns (fun n => fatfsRead v n m' path' maxLen) r ↔ Returns (fun n => fatfsRead v n m path' maxLen) r

/-! ## The bytes -/

section Bytes

variable {off : Nat} {data : List UInt8}

theorem length_clusterBytes (v : Volume) (d : Disk) (c : Nat) : (clusterBytes v d c).length = clusterSizeBytes v :=
  length_cells _ _

theorem length_flatMap_clusterBytes (v : Volume) (d : Disk) (l : List Nat) :
    (l.flatMap (clusterBytes v d)).length = l.length * clusterSizeBytes v := by
  induction l with
  | nil => rw [flatMap_nil, length_nil, length_nil, Nat.zero_mul]
  | cons c l ih =>
    rw [flatMap_cons, length_append, ih, length_clusterBytes, length_cons, Nat.succ_mul, Nat.add_comm]

theorem take_patched {front back rest : List UInt8} {size : Nat} (hback : back.length = size) (hoff : off ≤ size)
    (hrest : rest.take (data.drop (size - off)).length = data.drop (size - off)) :
    (front ++ patch back off (data.take (size - off)) ++ rest).take (front.length + off + data.length) =
      front ++ back.take off ++ data := by
  have hfront : (front ++ back.take off).length = front.length + off := by
    rw [length_append, length_take, hback, Nat.min_eq_left hoff]
  rw [patch]
  rcases Nat.le_total data.length (size - off) with hle | hge
  · -- the data ends in the last cluster
    have hsplit : front ++ (back.take off ++ data ++ back.drop (off + data.length)) ++ rest =
        (front ++ back.take off ++ data) ++ (back.drop (off + data.length) ++ rest) := by simp only [append_assoc]
    rw [take_of_length_le hle, hsplit]
    exact take_left' (by rw [length_append, hfront])
  · have hpiece : (data.take (size - off)).length = size - off := by rw [length_take, Nat.min_eq_left hge]
    have hnil : back.drop (off + (data.take (size - off)).length) = [] := drop_eq_nil_of_le (by rw [hpiece]; omega)
    have hlen : (front ++ (back.take off ++ data.take (size - off))).length = front.length + off + (size - off) := by
      rw [← append_assoc, length_append, hfront, hpiece]
    have hdrop : (data.drop (size - off)).length = data.length - (size - off) := length_drop
    rw [hnil, append_nil, take_append, take_of_length_le (by omega), hlen]
    have hsub : front.length + off + data.length - (front.length + off + (size - off)) = (data.drop (size - off)).length := by
      omega
    rw [hsub, hrest, ← append_assoc, append_assoc _ (data.take (size - off)), take_append_drop]

end Bytes

/-! ## What the call leaves -/

/-- The file with the bytes `old`, of which the last cluster starts behind `front` and holds `back`, has got `data` from the
end of `old` on as `fatfs_write_append` sees it, which is in the last cluster. -/
structure Extended (v : Volume) (d : Disk) (s : Slot) (old front back data rest : List UInt8) : Prop where
  size : (d.entry s).fileSize = (old.length + data.length) % 2 ^ 32
  bytes : fileBytes v d s = front ++ patch back (old.length % clusterSizeBytes v)
    (data.take (clusterSizeBytes v - old.length % clusterSizeBytes v)) ++ rest
  was : old = (front ++ back).take old.length
  frontLength : front.length = (old.length - 1) / clusterSizeBytes v * clusterSizeBytes v
  backLength : back.length = clusterSizeBytes v
  restTake : rest.take (data.drop (clusterSizeBytes v - old.length % clusterSizeBytes v)).length =
    data.drop (clusterSizeBytes v - old.length % clusterSizeBytes v)
  restLength : rest.length = (chunks (clusterSizeBytes v)
    (data.drop (clusterSizeBytes v - old.length % clusterSizeBytes v))).length * clusterSizeBytes v
  lt : (fileBytes v d s).length < 2 ^ 32

section Extended

variable {v : Volume} {m m₁ m' : Mem} {d : Disk} {h : Nat} {s : Slot} {n : Name} {path : Str}
  {data old front back rest : List UInt8}

theorem length_patch {l bs : List UInt8} {off : Nat} (hb : off + bs.length ≤ l.length) : (patch l off bs).length = l.length := by
  rw [patch, length_append, length_append, length_take, length_drop]
  omega

theorem front_add_offset {size len : Nat} (hgood : len = 0 ∨ ¬ size ∣ len) : (len - 1) / size * size + len % size = len := by
  rcases hgood with rfl | hnot
  · simp
  · have hmod : len % size ≠ 0 := fun h0 => hnot (Nat.dvd_of_mod_eq_zero h0)
    have hsplit := Nat.div_add_mod' len size
    rcases Nat.eq_zero_or_pos size with rfl | hpos
    · rw [Nat.mul_zero, Nat.zero_add, Nat.mod_zero]
    · have hdiv : (len - 1) / size = len / size := by
        refine Nat.div_eq_of_lt_le ?_ ?_
        · omega
        · have := Nat.mod_lt len hpos
          rw [Nat.succ_mul]
          omega
      rw [hdiv]
      exact hsplit

theorem front_of_dvd {size len : Nat} (hpos : 0 < len) (hdvd : size ∣ len) : (len - 1) / size * size + size = len := by
  obtain ⟨k, rfl⟩ := hdvd
  obtain ⟨k, rfl⟩ := Nat.exists_eq_succ_of_ne_zero (by rintro rfl; omega : k ≠ 0)
  have hsize : 0 < size := Nat.pos_of_mul_pos_right hpos
  have hdiv : (size * (k + 1) - 1) / size = k := by
    refine Nat.div_eq_of_lt_le ?_ ?_
    · rw [Nat.mul_succ, Nat.mul_comm]
      omega
    · rw [Nat.mul_comm size] at hpos ⊢
      exact Nat.sub_lt hpos Nat.one_pos
  rw [hdiv, Nat.mul_succ, Nat.mul_comm]

theorem Extended.content_eq (e : Extended v d s old front back data rest) (hv : v.Fits)
    (hgood : old = [] ∨ ¬ clusterSizeBytes v ∣ old.length) :
    content v d s = old ++ data ∧ (d.entry s).fileSize = old.length + data.length := by
  have hlt := Nat.mod_lt old.length hv.clusterSize_pos
  have hend : front.length + old.length % clusterSizeBytes v = old.length := by
    rw [e.frontLength]
    exact front_add_offset (hgood.imp_left (fun h => by rw [h]; rfl))
  have hold : front ++ back.take (old.length % clusterSizeBytes v) = old := by
    calc front ++ back.take (old.length % clusterSizeBytes v)
        = (front ++ back).take (front.length + old.length % clusterSizeBytes v) := (take_length_add_append _).symm
      _ = old := by rw [hend, ← e.was]
  have htake := @take_patched _ _ front _ _ _ e.backLength hlt.le e.restTake
  rw [← e.bytes, hend, hold] at htake
  have hlen := congrArg List.length htake
  rw [length_take, length_append] at hlen
  have hsize : (d.entry s).fileSize = old.length + data.length := by
    rw [e.size]
    have hle := e.lt
    exact Nat.mod_eq_of_lt (by omega)
  exact ⟨by rw [content, hsize, htake], hsize⟩

theorem Extended.content_short (e : Extended v d s old front back data rest) (hv : v.Fits) (hdata : data ≠ [])
    (hold : old ≠ []) (hdvd : clusterSizeBytes v ∣ old.length) : (content v d s).length < old.length + data.length := by
  have hzero : old.length % clusterSizeBytes v = 0 := Nat.mod_eq_zero_of_dvd hdvd
  have hend := front_of_dvd (length_pos_iff.mpr hold) hdvd
  have hbytes := congrArg List.length e.bytes
  have hpatch : (patch back 0 (data.take (clusterSizeBytes v - 0))).length = clusterSizeBytes v := by
    rw [length_patch, e.backLength]
    rw [e.backLength, length_take]
    omega
  have hrest := e.restLength
  rw [hzero, Nat.sub_zero, length_chunks hv.clusterSize_pos, length_drop] at hrest
  rw [hzero, length_append, length_append, hpatch, e.frontLength, hend] at hbytes
  have hpos := length_pos_iff.mpr hdata
  have hcs := hv.clusterSize_pos
  have hle : (content v d s).length ≤ (fileBytes v d s).length := by
    rw [content, length_take]
    exact Nat.min_le_right _ _
  have hlt : rest.length < data.length := by
    rw [hrest]
    rcases Nat.eq_zero_or_pos (data.length - clusterSizeBytes v) with hz | hmore
    · rw [hz, Nat.zero_add, Nat.div_eq_of_lt (by omega), Nat.zero_mul]
      exact hpos
    · have := Nat.div_mul_le_self (data.length - clusterSizeBytes v + clusterSizeBytes v - 1) (clusterSizeBytes v)
      omega
  omega

theorem length_content (hv : v.Fits) (hlen : (chainOf v d (d.entry s).firstCluster).length =
    ((d.entry s).fileSize + clusterSizeBytes v - 1) / clusterSizeBytes v) :
    (content v d s).length = (d.entry s).fileSize := by
  have hceil := ceil_mul_ge (d.entry s).fileSize (clusterSizeBytes v) hv.clusterSize_pos
  rw [content, length_take, fileBytes, length_flatMap_clusterBytes, hlen]
  exact Nat.min_eq_left hceil

theorem Started.content {off last : Nat} {init : List Nat} (hst : Started v m m₁ h s off) (hv : v.Fits)
    (hlen : (chainOf v (view v m) ((view v m).entry s).firstCluster).length =
      (((view v m).entry s).fileSize + clusterSizeBytes v - 1) / clusterSizeBytes v)
    (hchain : chainOf v (view v m₁) ((view v m₁).entry s).firstCluster = init ++ [last])
    (hold : old = content v (view v m) s) :
    ((view v m₁).entry s).fileSize = old.length ∧ off = old.length % clusterSizeBytes v ∧
      old = ((init ++ [last]).flatMap (clusterBytes v (view v m₁))).take old.length ∧
      init.length = (old.length - 1) / clusterSizeBytes v := by
  have hcs := hv.clusterSize_pos
  have hsize : old.length = ((view v m).entry s).fileSize := hold ▸ length_content hv hlen
  cases hst with
  | kept hm _ hoff =>
    subst hm
    refine ⟨hsize.symm, hsize ▸ hoff, ?_, ?_⟩
    · rw [hsize, hold, Fat.content, fileBytes, hchain]
    · rw [hchain, length_append, length_singleton, ← hsize] at hlen
      have hpos : 0 < old.length := by
        by_contra h0
        rw [Nat.eq_zero_of_not_pos h0, Nat.zero_add, Nat.div_eq_of_lt (by omega)] at hlen
        omega
      have hshift : old.length + clusterSizeBytes v - 1 = old.length - 1 + clusterSizeBytes v := by omega
      rw [hshift, Nat.add_div_right _ hcs] at hlen
      omega
  | fresh hbare c hoff _ hentry hnew _ =>
    have hzero : old.length = 0 := by
      rw [chainOf, if_pos hbare, length_nil, ← hsize] at hlen
      have hlt := (Nat.div_eq_zero_iff.mp hlen.symm).resolve_left hcs.ne'
      omega
    rw [hentry, hnew.2] at hchain
    have hinit : init = [] := by
      have hlen₁ := congrArg List.length hchain
      rw [length_append, length_singleton, length_singleton] at hlen₁
      exact eq_nil_of_length_eq_zero (by omega)
    refine ⟨by rw [hentry, hzero], by rw [hoff, hzero, Nat.zero_mod], ?_, ?_⟩
    · rw [hzero, take_zero]
      exact eq_nil_of_length_eq_zero hzero
    · rw [hinit, hzero, Nat.zero_sub, Nat.zero_div, length_nil]

theorem AppendRun.extended (hrun : AppendRun v m m' h s data true) (hv : v.Fits) (hdata : data ≠ [])
    (hlen : (chainOf v (view v m) ((view v m).entry s).firstCluster).length =
      (((view v m).entry s).fileSize + clusterSizeBytes v - 1) / clusterSizeBytes v) :
    ∃ front back rest, Extended v (view v m') s (content v (view v m) s) front back data rest := by
  cases hrun with
  | idle _ hok => exact absurd (hok rfl) hdata
  | @ran m₁ init added last off hstart hoff hchain hrechains hentry happ =>
    obtain ⟨hsize, hend, hold, hinit⟩ := hstart.content hv hlen hchain rfl
    generalize content v (view v m) s = old at hsize hend hold hinit ⊢
    subst hend
    have happ := happ rfl
    have hnew := hrechains.chain.resolve_left (by simp)
    have hfile : fileBytes v (view v m') s = init.flatMap (clusterBytes v (view v m₁)) ++
        patch (clusterBytes v (view v m₁) last) (old.length % clusterSizeBytes v)
          (data.take (clusterSizeBytes v - old.length % clusterSizeBytes v)) ++
        added.flatMap (clusterBytes v (view v m')) := by
      rw [fileBytes, hnew.2, flatMap_append, flatMap_append, flatMap_singleton, ← happ.last]
      congr 2
      exact flatMap_congr happ.init
    refine ⟨_, _, _, ?_, hfile, ?_, ?_, length_clusterBytes _ _ _, happ.added.take hv, ?_, ?_⟩
    · rw [hentry, if_pos rfl, hsize]
    · rw [flatMap_append, flatMap_singleton] at hold
      exact hold
    · rw [length_flatMap_clusterBytes, hinit]
    · rw [length_flatMap_clusterBytes, happ.added.length]
    · rw [fileBytes, length_flatMap_clusterBytes]
      exact chain_bytes_lt hv hnew.1.linked.nodup hnew.1.range

theorem Target.before (ht : Target v m m₁ h s n) (hw : WellFormed v (view v m))
    (hfile : ((view v m₁).entry s).isDirectory = false) (hpath : walkLeaf v (view v m) path = some (h, n)) :
    content v (view v m₁) s = oldContent v m path ∧
      (chainOf v (view v m₁) ((view v m₁).entry s).firstCluster).length =
        (((view v m₁).entry s).fileSize + clusterSizeBytes v - 1) / clusterSizeBytes v := by
  have hentry : entryAt v (view v m) path = findEntry v (view v m) h n := by rw [entryAt, hpath, bind_some]
  cases ht with
  | found hm hfind =>
    subst hm
    obtain ⟨hk, -⟩ := mem_of_findEntry hfind
    refine ⟨?_, hw.lengths h s ((walkLeaf_spec hpath).1.of_kid hk) hk hfile⟩
    rw [oldContent, contentAt, hentry, hfind, filter_some, hfile]
    rfl
  | made hmade =>
    have hchain : chainOf v (view v m₁) ((view v m₁).entry s).firstCluster = [] := by
      rw [hmade.entry, chainOf, if_pos Nat.two_pos]
    refine ⟨?_, ?_⟩
    · rw [content, fileBytes, hchain, flatMap_nil, take_nil, oldContent, contentAt, hentry, hmade.missing]
      rfl
    · have hpos := hw.fits.clusterSize_pos
      rw [hchain, hmade.entry, length_nil, Nat.zero_add, Nat.div_eq_of_lt (by omega)]

theorem append_run (hw : WellFormed v (view v m)) (hdata : data ≠ [])
    (hret : Returns (fun k => fatfsWrite v k m path false data .append) (m', true)) :
    Owned v (view v m') ∧ ∃ h n s front back rest, walkLeaf v (view v m) path = some (h, n) ∧
      FileEdit v (view v m) (view v m') h n s ∧
      Extended v (view v m') s (oldContent v m path) front back data rest := by
  have hv := hw.fits
  have ho := hw.toOwned
  obtain ⟨r, hret', hrun, -⟩ := fatfsWrite_spec hv hw.holdsEntry ho path false data .append
  obtain rfl := hret.unique hret'
  cases hrun with
  | idle _ hok => cases hok
  | nulled _ _ hnull _ => cases hnull.1
  | replaced _ _ _ hmode _ => cases hmode
  | @appended m₁ h s n hleaf htarget hfile _ hrun _ =>
    obtain ⟨hold, hlen⟩ := htarget.before hw hfile hleaf
    obtain ⟨front, back, rest, hext⟩ := hrun.extended hv hdata hlen
    have ho₁ := htarget.owned hv ho
    rw [hold] at hext
    exact ⟨hrun.owned ho₁ hfile, h, n, s, front, back, rest, hleaf,
      (FileEdit.of_target htarget hv ho hfile).appended ho₁ hrun, hext⟩

theorem fatfsRead_congr {path' : Str} (hv : v.Fits) (ho : Owned v (view v m)) (ho' : Owned v (view v m'))
    (hsame : contentAt v (view v m') path' = contentAt v (view v m) path') (maxLen : Nat) (r : Option Str) :
    Returns (fun k => fatfsRead v k m' path' maxLen) r ↔ Returns (fun k => fatfsRead v k m path' maxLen) r := by
  rcases Nat.eq_zero_or_pos maxLen with rfl | hpos
  · exact Iff.rfl
  · have hnew := fatfsRead_spec hv ho' path' hpos
    have hold := fatfsRead_spec hv ho path' hpos
    rw [hsame] at hnew
    exact ⟨fun h => h.unique hnew ▸ hold, fun h => h.unique hold ▸ hnew⟩

end Extended

/-! ## The law -/

section Law

variable {v : Volume} {m m' : Mem} {path : Str} {data : List UInt8}

theorem append_read (hw : WellFormed v (view v m)) (hdata : data ≠ [])
    (hret : Returns (fun k => fatfsWrite v k m path false data .append) (m', true)) :
    Owned v (view v m') ∧ ∃ h n s front back rest, walkLeaf v (view v m) path = some (h, n) ∧
      FileEdit v (view v m) (view v m') h n s ∧ Extended v (view v m') s (oldContent v m path) front back data rest ∧
      ∀ maxLen, 0 < maxLen → Returns (fun k => fatfsRead v k m' path maxLen) (some ((content v (view v m') s).take maxLen)) := by
  obtain ⟨ho', h, n, s, front, back, rest, hpath, e, hext⟩ := append_run hw hdata hret
  refine ⟨ho', h, n, s, front, back, rest, hpath, e, hext, fun maxLen hmax => ?_⟩
  have hspec := fatfsRead_spec hw.fits ho' path hmax
  rw [contentAt, e.entryAt_self hpath, filter_some, e.file] at hspec
  exact hspec

theorem not_appendLaw (hw : WellFormed v (view v m)) (hdata : data ≠ [])
    (hret : Returns (fun k => fatfsWrite v k m path false data .append) (m', true)) (hold : oldContent v m path ≠ [])
    (hdvd : clusterSizeBytes v ∣ (oldContent v m path).length) : ¬AppendLaw v m m' path data := by
  intro hlaw
  obtain ⟨-, h, n, s, front, back, rest, -, -, hext, hread⟩ := append_read hw hdata hret
  have hshort := hext.content_short hw.fits hdata hold hdvd
  have hlong : 0 < (oldContent v m path ++ data).length := by
    rw [length_append]
    omega
  have hsame := some.inj ((hread _ hlong).unique (hlaw.read _ le_rfl))
  have hlen := congrArg List.length hsame
  rw [length_take, length_append] at hlen
  omega

/-- An append that succeeds puts the data behind the bytes of the file exactly when these do not end with a cluster. -/
theorem append_law_iff (hw : WellFormed v (view v m)) (hdata : data ≠ [])
    (hret : Returns (fun k => fatfsWrite v k m path false data .append) (m', true)) :
    AppendLaw v m m' path data ↔
      oldContent v m path = [] ∨ ¬ clusterSizeBytes v ∣ (oldContent v m path).length := by
  have hv := hw.fits
  constructor
  · intro hlaw
    by_contra hbad
    obtain ⟨hold, hdvd⟩ := not_or.mp hbad
    exact not_appendLaw hw hdata hret hold (not_not.mp hdvd) hlaw
  · intro hgood
    obtain ⟨ho', h, n, s, front, back, rest, hpath, e, hext, hread⟩ := append_read hw hdata hret
    obtain ⟨hbytes, hsize⟩ := hext.content_eq hv hgood
    refine ⟨?_, ?_, ?_⟩
    · intro maxLen hmax
      have hpos := length_pos_iff.mpr hdata
      have hspec := hread maxLen (by rw [length_append] at hmax; omega)
      rwa [hbytes, take_of_length_le hmax] at hspec
    · have hspec := fatfsFileSize_spec hv ho' path
      rw [e.entryAt_self hpath, map_some, hsize] at hspec
      exact hspec
    · intro path' hother maxLen r
      rw [hpath] at hother
      exact fatfsRead_congr hv hw.toOwned ho' (e.contentAt_other hother) maxLen r

theorem append_fixedRoot (ht : v.fatType = .fat16) (hp : lastIndexOf slash path = none) {p last dest : Nat}
    (hl : (locate v 0 m path).map (Option.map (fun l => l.scan.found)) = some (some (some p)))
    (hfile : (readEntry m p).isDirectory = false) (hdata : data ≠ []) (hfirst : ¬(readEntry m p).firstCluster < 2)
    (hdest : clusterPtr v last = some dest) (hlast : Linked ((view v m).next v) (some (readEntry m p).firstCluster) ([] ++ [last])) :
    Returns (fun n => fatfsWrite v n m path false data .append)
      (appendData v m p last dest ((readEntry m p).fileSize % clusterSizeBytes v) data) := by
  have hstart : appendStart v m p = (m, some ((readEntry m p).firstCluster, (readEntry m p).fileSize % clusterSizeBytes v)) := by
    rw [appendStart, if_neg hfirst]
  obtain ⟨n₀, hn₀⟩ := writeAppend_of_start hdata hstart (lastOfChain_linked hlast) hdest
  refine ⟨n₀, fun n hn => ?_⟩
  obtain ⟨located, hlocated, hmap⟩ := map_eq_some_iff.mp hl
  obtain ⟨l, rfl, hfound⟩ := map_eq_some_iff.mp hmap
  have hslot : writeSlot v m l = (m, some p) := by rw [writeSlot, hfound]
  have hentry : writeEntry v n m p false data .append = writeAppend v n m p data := by
    rw [writeEntry, hfile, if_neg Bool.false_ne_true, if_neg (fun h => Bool.false_ne_true h.1)]
  show fatfsWrite v n m path false data .append = _
  rw [fatfsWrite, locate_fixedRoot ht hp, hlocated, bind_some]
  dsimp only
  rw [hslot]
  exact hentry.trans (hn₀ n hn)

end Law

end ProOS.Fat
