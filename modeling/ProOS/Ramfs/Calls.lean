import ProOS.Ramfs.Tree

namespace ProOS.Ramfs

open ProOS.Framework Option List

variable {v v' v₁ : Volume} {i : Fin ramfsMaxFiles} {name : Str} {c : Call} {rc : Int}

def dataBytes (d : Option Buffer) : List UInt8 := d.elim [] (·.1)

inductive Effect (v : Volume) : Call → Int → Volume → Prop
  | refused (c : Call) : Effect v c (-1) v
  | full {name : Str} {d : Buffer} {v₁ : Volume} {i : Fin ramfsMaxFiles} :
      createEntry v name false = some (v₁, i) →
      ramfsMaxFileSize ≤ (v₁.files i).size + d.1.length →
      Effect v (.append (some name) (some d)) (-1) v₁
  | written {name : Str} {d : Option Buffer} {v₁ : Volume} {i : Fin ramfsMaxFiles} {data : Nat → UInt8}
      (content : List UInt8) : createEntry v name false = some (v₁, i) →
      content = (dataBytes d).take (ramfsMaxFileSize - 1) → cells data content.length = content →
      Effect v (.write (some name) d) content.length
        (v₁.set i ((v₁.files i).store data content.length))
  | appended {name : Str} {d : Buffer} {v₁ : Volume} {i : Fin ramfsMaxFiles} {data : Nat → UInt8} :
      createEntry v name false = some (v₁, i) →
      (v₁.files i).size + d.1.length < ramfsMaxFileSize →
      cells data ((v₁.files i).size + d.1.length) =
        cells (v₁.files i).data (v₁.files i).size ++ d.1 →
      Effect v (.append (some name) (some d)) d.1.length
        (v₁.set i ((v₁.files i).store data ((v₁.files i).size + d.1.length)))
  | made {name : Str} {v₁ : Volume} {i : Fin ramfsMaxFiles} : createEntry v name true = some (v₁, i) →
      Effect v (.mkdir (some name)) 0 (v₁.set i ((v₁.files i).store (v₁.files i).data 0))
  | removed {name : Str} {i : Fin ramfsMaxFiles} : pathIsValid name = true → v.Holds i name →
      Effect v (.remove (some name)) 0 (v.drop (Doomed v i name))

theorem memCopy_of_le (data : Nat → UInt8) (offset : Nat) (src : List UInt8)
    (h : offset + src.length ≤ ramfsMaxFileSize) :
    ∃ bytes, memCopy data offset src = some bytes ∧ cells bytes (offset + src.length) = cells data offset ++ src := by
  refine ⟨_, by rw [memCopy, if_neg (not_lt.mpr h)], ?_⟩
  apply ext_getElem?
  intro k
  rw [getElem?_cells]
  by_cases hk : k < offset
  · rw [getElem?_append_left (by simpa using hk), getElem?_cells, if_pos hk, if_pos (by omega),
      if_neg (by omega)]
  · rw [getElem?_append_right (by simpa using hk), length_cells]
    by_cases hk' : k < offset + src.length
    · have hlt : k - offset < src.length := by omega
      rw [if_pos hk', if_pos ⟨by omega, hk'⟩, getElem?_eq_getElem hlt,
        getD_eq_getElem src 0 hlt]
    · rw [if_neg hk', getElem?_eq_none (by omega)]

theorem ramfsVolumeWrite_effect (h : Tree v) (n : Option Str) (d : Option Buffer) :
    ∃ rc v', ramfsVolumeWrite v n d = some (rc, v') ∧ Effect v (.write n d) rc v' := by
  cases n with
  | none => exact ⟨-1, v, rfl, .refused _⟩
  | some name =>
    cases hvalid : pathIsValid name with
    | false => exact ⟨-1, v, by simp [ramfsVolumeWrite, hvalid], .refused _⟩
    | true =>
      cases hc : createEntry v name false with
      | none => exact ⟨-1, v, by simp [ramfsVolumeWrite, hvalid, hc], .refused _⟩
      | some r =>
        obtain ⟨v₁, i⟩ := r
        have hkind := (h.create hc).2.2
        cases d with
        | none =>
          refine ⟨0, _, by simp only [ramfsVolumeWrite, hvalid, hc, hkind]; rfl, ?_⟩
          exact .written [] hc rfl rfl
        | some d =>
          have hlen : (if ramfsMaxFileSize ≤ d.1.length then ramfsMaxFileSize - 1 else d.1.length) =
              (d.1.take (ramfsMaxFileSize - 1)).length := by
            rw [length_take]
            split_ifs with hl
            · omega
            · omega
          obtain ⟨bytes, hcopy, hcells⟩ := memCopy_of_le (v₁.files i).data 0
            (d.1.take (ramfsMaxFileSize - 1)) (by
              rw [length_take]
              simp only [ramfsMaxFileSize]
              omega)
          have htake : d.1.take (d.1.take (ramfsMaxFileSize - 1)).length =
              d.1.take (ramfsMaxFileSize - 1) := by
            rw [length_take, take_eq_take_iff]
            omega
          rw [Nat.zero_add, cells_zero, nil_append] at hcells
          refine ⟨_, _, ?_, .written _ hc rfl hcells⟩
          simp only [ramfsVolumeWrite, hvalid, hc, hkind, hlen, htake, hcopy, map_some,
            Bool.not_true, Bool.false_eq_true, if_false, dataBytes, elim_some]

/-- Appending to the entry that `create_entry` returns: the data goes behind its content if there is room for all of it. -/
theorem ramfsVolumeAppend_created (h : Tree v) (hvalid : pathIsValid name = true) (hc : createEntry v name false = some (v₁, i))
    {d : Buffer} (hzero : d.1.length ≠ 0) (hshort : d.1.length < 2 ^ 31) :
    (ramfsMaxFileSize ≤ (v₁.files i).size + d.1.length ∧ ramfsVolumeAppend v (some name) (some d) = some (-1, v₁)) ∨
      ∃ bytes, (v₁.files i).size + d.1.length < ramfsMaxFileSize ∧
        cells bytes ((v₁.files i).size + d.1.length) = cells (v₁.files i).data (v₁.files i).size ++ d.1 ∧
        ramfsVolumeAppend v (some name) (some d) =
          some ((d.1.length : Int), v₁.set i ((v₁.files i).store bytes ((v₁.files i).size + d.1.length))) := by
  obtain ⟨h₁, hi, hkind⟩ := h.create hc
  have hsize := ((h₁.ok i name hi).file hkind).1
  have hmod : ((v₁.files i).size + d.1.length) % 2 ^ 32 = (v₁.files i).size + d.1.length := by
    apply Nat.mod_eq_of_lt
    simp only [ramfsMaxFileSize] at hsize
    omega
  by_cases hfull : ramfsMaxFileSize ≤ (v₁.files i).size + d.1.length
  · refine .inl ⟨hfull, ?_⟩
    simp only [ramfsVolumeAppend, hzero, hvalid, hc, hkind, hmod, hfull, Bool.not_true,
      Bool.false_eq_true, if_false, if_true]
  · obtain ⟨bytes, hcopy, hcells⟩ := memCopy_of_le (v₁.files i).data (v₁.files i).size d.1 (by omega)
    refine .inr ⟨bytes, not_le.mp hfull, hcells, ?_⟩
    simp only [ramfsVolumeAppend, hzero, hvalid, hc, hkind, hmod, hfull, hcopy, map_some,
      Bool.not_true, Bool.false_eq_true, if_false]

theorem ramfsVolumeAppend_effect (h : Tree v) (n : Option Str) {d : Option Buffer} (hs : (Call.append n d).Short) :
    ∃ rc v', ramfsVolumeAppend v n d = some (rc, v') ∧ Effect v (.append n d) rc v' := by
  cases n with
  | none => exact ⟨-1, v, rfl, .refused _⟩
  | some name =>
    cases d with
    | none => exact ⟨-1, v, rfl, .refused _⟩
    | some d =>
      by_cases hzero : d.1.length = 0
      · exact ⟨-1, v, by simp [ramfsVolumeAppend, hzero], .refused _⟩
      cases hvalid : pathIsValid name with
      | false => exact ⟨-1, v, by simp [ramfsVolumeAppend, hzero, hvalid], .refused _⟩
      | true =>
        cases hc : createEntry v name false with
        | none => exact ⟨-1, v, by simp [ramfsVolumeAppend, hzero, hvalid, hc], .refused _⟩
        | some r =>
          obtain ⟨v₁, i⟩ := r
          rcases ramfsVolumeAppend_created h hvalid hc hzero hs with ⟨hfull, hrun⟩ | ⟨bytes, hroom, hcells, hrun⟩
          · exact ⟨-1, v₁, hrun, .full hc hfull⟩
          · exact ⟨_, _, hrun, .appended hc hroom hcells⟩

theorem ramfsVolumeMkdir_effect (v : Volume) (n : Option Str) :
    Effect v (.mkdir n) (ramfsVolumeMkdir v n).1 (ramfsVolumeMkdir v n).2 := by
  cases n with
  | none => exact .refused _
  | some name =>
    cases hvalid : pathIsValid name with
    | false =>
      simp only [ramfsVolumeMkdir, hvalid]
      exact .refused _
    | true =>
      cases hc : createEntry v name true with
      | none =>
        simp only [ramfsVolumeMkdir, hvalid, hc]
        exact .refused _
      | some r =>
        simp only [ramfsVolumeMkdir, hvalid, hc]
        exact .made hc

theorem ramfsVolumeRemove_effect (v : Volume) (n : Option Str) :
    Effect v (.remove n) (ramfsVolumeRemove v n).1 (ramfsVolumeRemove v n).2 := by
  cases n with
  | none => exact .refused _
  | some name =>
    cases hvalid : pathIsValid name with
    | false =>
      simp only [ramfsVolumeRemove, hvalid]
      exact .refused _
    | true =>
      cases hs : findEntry v name with
      | none =>
        simp only [ramfsVolumeRemove, hvalid, hs]
        exact .refused _
      | some i =>
        rw [ramfsVolumeRemove_found hvalid hs]
        exact .removed hvalid (key_of_slotOf hs)

/-- Every call with short data returns, and does one of the things listed. -/
theorem Tree.run (h : Tree v) (hs : c.Short) : ∃ rc v', c.run v = some (rc, v') ∧ Effect v c rc v' := by
  cases c with
  | write n d => exact ramfsVolumeWrite_effect h n d
  | append n d => exact ramfsVolumeAppend_effect h n hs
  | mkdir n => exact ⟨_, _, rfl, ramfsVolumeMkdir_effect v n⟩
  | remove n => exact ⟨_, _, rfl, ramfsVolumeRemove_effect v n⟩

theorem Effect.tree (h : Tree v) (he : Effect v c rc v') : Tree v' := by
  cases he with
  | refused c => exact h
  | full hc _ => exact (h.create hc).1
  | @written name d v₁ i data content hc hcontent _ =>
    obtain ⟨h₁, hi, hkind⟩ := h.create hc
    refine h₁.rewrite hi (store_file_ok hkind ?_)
    rw [hcontent, length_take]
    simp only [ramfsMaxFileSize]
    omega
  | appended hc hroom _ =>
    obtain ⟨h₁, hi, hkind⟩ := h.create hc
    exact h₁.rewrite hi (store_file_ok hkind hroom)
  | made hc =>
    obtain ⟨h₁, hi, hkind⟩ := h.create hc
    exact h₁.rewrite hi (store_dir_ok hkind)
  | removed _ hi => exact h.remove hi

theorem ramfsVolumeInit_tree (memory : Volume) : Tree (ramfsVolumeInit memory) := by
  have hnone : ∀ i name, ¬(ramfsVolumeInit memory).Holds i name := by
    intro i name hi
    cases hi
  constructor
  · intro i j k hi
    exact absurd hi (hnone i k)
  · intro i k hi
    exact absurd hi (hnone i k)
  · intro i dir leaf hi
    exact absurd hi (hnone i _)
  · intro i k hi
    exact absurd hi (hnone i k)

theorem Tree.step {e : Event} (h : Tree v) (hs : e.1.Short) (hstep : Step v e v') : Effect v e.1 e.2 v' := by
  obtain ⟨rc, v₁, hrun, heff⟩ := h.run hs
  obtain ⟨rfl, rfl⟩ := Prod.mk.inj (some.inj (hrun.symm.trans (step_iff.mp hstep)))
  exact heff

theorem exec_tree {memory : Volume} {tr : List Event}
    (hx : Exec Step (ramfsVolumeInit memory) tr v) (hs : ∀ e ∈ tr, e.1.Short) : Tree v := by
  induction hx with
  | nil => exact ramfsVolumeInit_tree memory
  | snoc hx hstep ih =>
    have h := ih (fun e he => hs e (mem_append_left _ he))
    exact (h.step (hs _ (by simp)) hstep).tree h

theorem ramfsVolumeAppend_huge (h : Tree v) {d : Buffer} (hd : 2 ^ 31 ≤ d.1.length)
    (hrun : ramfsVolumeAppend v (some name) (some d) = some (rc, v')) : Effect v (.append (some name) (some d)) rc v' := by
  have hzero : d.1.length ≠ 0 := by omega
  cases hvalid : pathIsValid name with
  | false =>
    simp only [ramfsVolumeAppend, hzero, hvalid, if_false, Bool.not_false, if_true] at hrun
    cases hrun
    exact .refused _
  | true =>
    cases hc : createEntry v name false with
    | none =>
      simp only [ramfsVolumeAppend, hzero, hvalid, hc, if_false, Bool.not_true, Bool.false_eq_true] at hrun
      cases hrun
      exact .refused _
    | some r =>
      obtain ⟨v₁, i⟩ := r
      have hcopy : memCopy (v₁.files i).data (v₁.files i).size d.1 = none := by
        rw [memCopy, if_pos]
        simp only [ramfsMaxFileSize]
        omega
      simp only [ramfsVolumeAppend, hzero, hvalid, hc, (h.create hc).2.2, hcopy, if_false, Bool.not_true,
        Bool.false_eq_true, map_none] at hrun
      split_ifs at hrun
      cases hrun
      refine .full hc ?_
      simp only [ramfsMaxFileSize]
      omega

theorem Tree.returns (h : Tree v) (hrun : c.run v = some (rc, v')) : Effect v c rc v' := by
  cases c with
  | write n d =>
    obtain ⟨rc₁, v₁, hrun₁, heff⟩ := ramfsVolumeWrite_effect h n d
    obtain ⟨rfl, rfl⟩ := Prod.mk.inj (some.inj (hrun₁.symm.trans hrun))
    exact heff
  | append n d =>
    by_cases hs : (Call.append n d).Short
    · obtain ⟨rc₁, v₁, hrun₁, heff⟩ := ramfsVolumeAppend_effect h n hs
      obtain ⟨rfl, rfl⟩ := Prod.mk.inj (some.inj (hrun₁.symm.trans hrun))
      exact heff
    · cases d with
      | none => exact absurd trivial hs
      | some d =>
        cases n with
        | none =>
          cases hrun
          exact .refused _
        | some name => exact ramfsVolumeAppend_huge h (not_lt.mp hs) hrun
  | mkdir n =>
    obtain ⟨rfl, rfl⟩ := Prod.mk.inj (some.inj hrun)
    exact ramfsVolumeMkdir_effect v n
  | remove n =>
    obtain ⟨rfl, rfl⟩ := Prod.mk.inj (some.inj hrun)
    exact ramfsVolumeRemove_effect v n

theorem reachable_tree {memory : Volume} {tr : List Event} (hx : Exec Step (ramfsVolumeInit memory) tr v) : Tree v := by
  refine hx.invariant (ramfsVolumeInit_tree memory) ?_
  intro v e v' h hstep
  exact (h.returns (step_iff.mp hstep)).tree h

theorem Tree.ancestor (h : Tree v) (n : Nat) {dir rest : Str} (hn : rest.length ≤ n)
    (hi : v.Holds i (dir ++ slash :: rest)) : v.IsDir dir := by
  induction n generalizing i rest with
  | zero =>
    obtain rfl : rest = [] := eq_nil_of_length_eq_zero (Nat.le_zero.mp hn)
    exact h.parent i dir [] hi not_mem_nil
  | succ n ih =>
    by_cases hslash : slash ∈ rest
    · obtain ⟨upper, leaf, rfl, hleaf⟩ := exists_last_split hslash
      have hsplit : dir ++ slash :: (upper ++ slash :: leaf) =
          (dir ++ slash :: upper) ++ slash :: leaf := by simp
      rw [hsplit] at hi
      obtain ⟨j, hj, -⟩ := h.parent i _ leaf hi hleaf
      have hlen : upper.length ≤ n := by
        simp only [length_append, length_cons] at hn
        omega
      exact ih hlen hj
    · exact h.parent i dir rest hi hslash

/-- In every volume reached the used entries form a tree, and nothing lies below a file. -/
theorem ramfs_entries_form_tree (memory : Volume) (tr : List Event) (v : Volume)
    (hx : Exec Step (ramfsVolumeInit memory) tr v) (hs : ∀ e ∈ tr, e.1.Short) :
    Tree v ∧ ∀ i j name rest, v.Holds i name → v.Holds j (name ++ slash :: rest) →
      (v.files i).isDirectory = true := by
  have htree := exec_tree hx hs
  refine ⟨htree, ?_⟩
  intro i j name rest hi hj
  obtain ⟨k, hk, hdir⟩ := htree.ancestor rest.length le_rfl hj
  rw [htree.distinct i k name hi hk]
  exact hdir

def emptyMemory : Volume := ⟨fun _ => ⟨false, [], false, 0, fun _ => 0⟩⟩

/-- Makes the directory "a", writes "a/b", removes "a" and writes "b" in the slot freed. -/
def reuseCalls : List Call :=
  [.mkdir (some [97]), .write (some [97, slash, 98]) (some ⟨[1, 2], by decide⟩), .remove (some [97]),
    .write (some [98]) (some ⟨[3], by decide⟩), .append (some [98]) (some ⟨[4, 5], by decide⟩)]

theorem reuseCalls_isSome : (performAll perform (ramfsVolumeInit emptyMemory) reuseCalls).isSome = true := by
  decide +kernel

def reusedVolume : Volume :=
  ((performAll perform (ramfsVolumeInit emptyMemory) reuseCalls).get reuseCalls_isSome).2

def reuseTrace : List Event :=
  ((performAll perform (ramfsVolumeInit emptyMemory) reuseCalls).get reuseCalls_isSome).1

theorem reuseTrace_short : ∀ e ∈ reuseTrace, e.1.Short := by
  decide +kernel

theorem reuseTrace_exec : Exec Step (ramfsVolumeInit emptyMemory) reuseTrace reusedVolume :=
  performAll_get_exec perform reuseCalls (ramfsVolumeInit emptyMemory) reuseCalls_isSome

theorem ramfs_entries_form_tree_reused : reusedVolume.Holds ⟨0, by decide⟩ [98] ∧ Tree reusedVolume :=
  ⟨by decide +kernel,
    (ramfs_entries_form_tree emptyMemory reuseTrace reusedVolume reuseTrace_exec reuseTrace_short).1⟩

end ProOS.Ramfs
