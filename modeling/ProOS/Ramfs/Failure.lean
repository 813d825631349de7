import ProOS.Ramfs.Calls

namespace ProOS.Ramfs

open ProOS.Framework Function Option

variable {v v' v₁ : Volume} {i : Fin ramfsMaxFiles} {name : Str} {c : Call} {n : Option Str}

/-- What is visible of a slot: nothing when it is free, else its name, kind and content. -/
def Entry.record (e : Entry) : Option (Str × Bool × List UInt8) :=
  if e.used then some (e.name, e.isDirectory, cells e.data e.size) else none

/-- An append that finds no entry under its name, creates one and then finds it too small. -/
def Call.CreatesAndOverflows (v : Volume) : Call → Prop
  | .append (some name) (some data) =>
    ramfsMaxFileSize ≤ data.1.length ∧ pathIsValid name = true ∧ findEntry v name = none ∧
      ensureParentDirectory v name = true ∧ (freeSlot Entry.key v.files).isSome = true
  | _ => False

instance (v : Volume) (c : Call) : Decidable (c.CreatesAndOverflows v) :=
  match c with
  | .append (some name) (some data) =>
    inferInstanceAs (Decidable (ramfsMaxFileSize ≤ data.1.length ∧ pathIsValid name = true ∧
      findEntry v name = none ∧ ensureParentDirectory v name = true ∧
      (freeSlot Entry.key v.files).isSome = true))
  | .append none _ | .append (some _) none | .write _ _ | .mkdir _ | .remove _ => isFalse id

theorem createEntry_new (hvalid : pathIsValid name = true)
    (hnone : findEntry v name = none) (hp : ensureParentDirectory v name = true)
    (hf : freeSlot Entry.key v.files = some i) (kind : Bool) :
    createEntry v name kind = some (v.set i (newEntry (v.files i) name kind), i) := by
  simp [createEntry, hvalid, hnone, hp, hf]

theorem createEntry_kind {kind : Bool} (hc : createEntry v name kind = some (v₁, i)) :
    (v₁.files i).isDirectory = kind := by
  obtain ⟨-, ⟨-, hkind, rfl⟩ | ⟨-, -, -, rfl⟩⟩ := createEntry_some hc
  · exact hkind
  · rw [set_files, update_self]
    rfl

theorem write_failed {d : Option Buffer} (h : ramfsVolumeWrite v n d = some (-1, v')) : v' = v := by
  cases n with
  | none => exact (Prod.mk.inj (some.inj h)).2.symm
  | some name =>
    cases hvalid : pathIsValid name with
    | false =>
      simp only [ramfsVolumeWrite, hvalid] at h
      exact (Prod.mk.inj (some.inj h)).2.symm
    | true =>
      cases hc : createEntry v name false with
      | none =>
        simp only [ramfsVolumeWrite, hvalid, hc] at h
        exact (Prod.mk.inj (some.inj h)).2.symm
      | some r =>
        obtain ⟨v₁, i⟩ := r
        cases d with
        | none => simp [ramfsVolumeWrite, hvalid, hc, createEntry_kind hc] at h
        | some d =>
          simp only [ramfsVolumeWrite, hvalid, hc, createEntry_kind hc, Bool.not_true,
            Bool.false_eq_true, if_false] at h
          obtain ⟨bytes, -, hr⟩ := map_eq_some_iff.mp h
          have hneg := (Prod.mk.inj hr).1
          omega

theorem append_failed {d : Option Buffer} (h : ramfsVolumeAppend v n d = some (-1, v')) :
    v' = v ∨ ∃ name d' i, n = some name ∧ d = some d' ∧ createEntry v name false = some (v', i) ∧
      ramfsMaxFileSize ≤ ((v'.files i).size + d'.1.length) % 2 ^ 32 := by
  cases n with
  | none => exact .inl (Prod.mk.inj (some.inj h)).2.symm
  | some name =>
    cases d with
    | none => exact .inl (Prod.mk.inj (some.inj h)).2.symm
    | some d =>
      simp only [ramfsVolumeAppend] at h
      split_ifs at h
      · exact .inl (Prod.mk.inj (some.inj h)).2.symm
      · exact .inl (Prod.mk.inj (some.inj h)).2.symm
      · cases hc : createEntry v name false with
        | none =>
          simp only [hc] at h
          exact .inl (Prod.mk.inj (some.inj h)).2.symm
        | some r =>
          obtain ⟨v₁, i⟩ := r
          simp only [hc, createEntry_kind hc, Bool.false_eq_true, if_false] at h
          split_ifs at h with hfull
          · obtain rfl := (Prod.mk.inj (some.inj h)).2
            exact .inr ⟨name, d, i, rfl, rfl, hc, hfull⟩
          · obtain ⟨bytes, -, hr⟩ := map_eq_some_iff.mp h
            have hneg := (Prod.mk.inj hr).1
            omega

theorem mkdir_failed (h : ramfsVolumeMkdir v n = (-1, v')) : v' = v := by
  cases n with
  | none => exact (Prod.mk.inj h).2.symm
  | some name =>
    cases hvalid : pathIsValid name with
    | false =>
      simp only [ramfsVolumeMkdir, hvalid] at h
      exact (Prod.mk.inj h).2.symm
    | true =>
      cases hc : createEntry v name true with
      | none =>
        simp only [ramfsVolumeMkdir, hvalid, hc] at h
        exact (Prod.mk.inj h).2.symm
      | some r => simp [ramfsVolumeMkdir, hvalid, hc] at h

theorem remove_failed (h : ramfsVolumeRemove v n = (-1, v')) : v' = v := by
  cases n with
  | none => exact (Prod.mk.inj h).2.symm
  | some name =>
    cases hvalid : pathIsValid name with
    | false =>
      simp only [ramfsVolumeRemove, hvalid] at h
      exact (Prod.mk.inj h).2.symm
    | true =>
      cases hs : findEntry v name with
      | none =>
        simp only [ramfsVolumeRemove, hvalid, hs] at h
        exact (Prod.mk.inj h).2.symm
      | some i =>
        rw [ramfsVolumeRemove_found hvalid hs] at h
        simp at h

theorem run_failed (h : c.run v = some (-1, v')) :
    v' = v ∨ ∃ name d i, c = .append (some name) (some d) ∧ createEntry v name false = some (v', i) ∧
      ramfsMaxFileSize ≤ ((v'.files i).size + d.1.length) % 2 ^ 32 := by
  cases c with
  | write n d => exact .inl (write_failed h)
  | append n d =>
    rcases append_failed h with hsame | ⟨name, d', i, rfl, rfl, hc, hfull⟩
    · exact .inl hsame
    · exact .inr ⟨name, d', i, rfl, hc, hfull⟩
  | mkdir n => exact .inl (mkdir_failed (some.inj h))
  | remove n => exact .inl (remove_failed (some.inj h))

theorem overflow_leaves (h : c.CreatesAndOverflows v) :
    ∃ name i, (v.files i).used = false ∧ c.run v = some (-1, v.set i (newEntry (v.files i) name false)) := by
  cases c with
  | append n d =>
    cases n with
    | none => exact absurd h id
    | some name =>
      cases d with
      | none => exact absurd h id
      | some d =>
        obtain ⟨hlen, hvalid, hnone, hp, hf⟩ := h
        obtain ⟨i, hi⟩ := isSome_iff_exists.mp hf
        have hfree : (v.files i).used = false := by
          have hkey := key_of_freeSlot hi
          by_contra hused
          simp [Entry.key, hused] at hkey
        have hzero : d.1.length ≠ 0 := by
          simp only [ramfsMaxFileSize] at hlen
          omega
        have hfull : ramfsMaxFileSize ≤
            (((v.set i (newEntry (v.files i) name false)).files i).size + d.1.length) % 2 ^ 32 := by
          have hsize : ((v.set i (newEntry (v.files i) name false)).files i).size = 0 := by
            rw [set_files, update_self]
            rfl
          rw [hsize, Nat.zero_add, Nat.mod_eq_of_lt d.2]
          exact hlen
        have hc := createEntry_new hvalid hnone hp hi false
        refine ⟨name, i, hfree, ?_⟩
        simp only [Call.run, ramfsVolumeAppend, hzero, hvalid, hc, createEntry_kind hc, hfull,
          Bool.not_true, Bool.false_eq_true, if_false, if_true]
  | write n d => exact absurd h id
  | mkdir n => exact absurd h id
  | remove n => exact absurd h id

/-- A failing call leaves every slot as it was exactly when it is not an append that creates
an entry too small for its data. -/
theorem ramfs_failure_atomic_iff (v v' : Volume) (c : Call) (hfail : perform v c = some ((c, -1), v')) :
    (∀ i, (v'.files i).record = (v.files i).record) ↔ ¬c.CreatesAndOverflows v := by
  have hrun : c.run v = some (-1, v') := step_iff.mp ⟨c, hfail⟩
  constructor
  · intro hsame hover
    obtain ⟨name, i, hfree, hleft⟩ := overflow_leaves hover
    obtain rfl := (Prod.mk.inj (some.inj (hrun.symm.trans hleft))).2
    have hi := hsame i
    rw [set_files, update_self] at hi
    simp [Entry.record, hfree, newEntry] at hi
  · intro hnot
    rcases run_failed hrun with rfl | ⟨name, d, i, rfl, hc, hfull⟩
    · intro i
      rfl
    · obtain ⟨hvalid, ⟨-, -, rfl⟩ | ⟨hnone, hp, hfree, rfl⟩⟩ := createEntry_some hc
      · intro i
        rfl
      · refine absurd ?_ hnot
        refine ⟨?_, hvalid, slotOf_eq_none.mpr hnone, hp, ?_⟩
        · have hsize : ((v.set i (newEntry (v.files i) name false)).files i).size = 0 := by
            rw [set_files, update_self]
            rfl
          rwa [hsize, Nat.zero_add, Nat.mod_eq_of_lt d.2] at hfull
        · rw [freeSlot, List.find?_isSome]
          exact ⟨i, List.mem_finRange i, by rw [hfree]; rfl⟩

def kilobyte : Buffer := ⟨List.replicate 1024 0, by rw [List.length_replicate]; decide⟩

/-- Appends 1024 bytes under a new name. -/
def overlongAppend : Call := .append (some [97]) (some kilobyte)

theorem overlongAppend_overflows : overlongAppend.CreatesAndOverflows (ramfsVolumeInit emptyMemory) := by
  decide +kernel

theorem ramfs_failure_leaves_entry :
    ¬∀ (memory : Volume) (tr : List Event) (v v' : Volume) (c : Call),
      Exec Step (ramfsVolumeInit memory) tr v → perform v c = some ((c, -1), v') →
      ∀ i, (v'.files i).record = (v.files i).record := by
  intro hall
  obtain ⟨name, i, hfree, hrun⟩ := overflow_leaves overlongAppend_overflows
  have hsame := hall emptyMemory [] _ _ overlongAppend .nil (by rw [perform, hrun, map_some]) i
  rw [set_files, update_self] at hsame
  simp [Entry.record, hfree, newEntry] at hsame

/-- An append of 1024 bytes to a file that exists fails and leaves everything as it was. -/
theorem ramfs_failure_atomic_existing :
    ∃ v', perform reusedVolume (.append (some [98]) (some kilobyte)) =
        some ((.append (some [98]) (some kilobyte), -1), v') ∧
      ∀ i, (v'.files i).record = (reusedVolume.files i).record := by
  have hshort : (Call.append (some [98]) (some kilobyte)).Short := by decide +kernel
  obtain ⟨rc, v', hrun, -⟩ := (exec_tree reuseTrace_exec reuseTrace_short).run hshort
  have hrc : ((Call.append (some [98]) (some kilobyte)).run reusedVolume).map Prod.fst = some (-1) := by
    decide +kernel
  rw [hrun] at hrc
  obtain rfl : rc = -1 := some.inj hrc
  have hfail : perform reusedVolume (.append (some [98]) (some kilobyte)) =
      some ((.append (some [98]) (some kilobyte), -1), v') := by
    rw [perform, hrun]
    rfl
  have hnot : ¬(Call.append (some [98]) (some kilobyte)).CreatesAndOverflows reusedVolume := by
    decide +kernel
  exact ⟨v', hfail, (ramfs_failure_atomic_iff reusedVolume v' _ hfail).mpr hnot⟩

end ProOS.Ramfs
