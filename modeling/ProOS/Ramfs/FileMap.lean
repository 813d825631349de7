import ProOS.Ramfs.Calls

namespace ProOS.Ramfs

open ProOS.Framework Function Option

variable {v v' v₁ : Volume} {i : Fin ramfsMaxFiles} {name : Str} {c : Call} {rc : Int} {e : Entry} {kind : Bool}
  {data : Nat → UInt8} {size : Nat}

inductive Node
  | dir
  | file (content : List UInt8)
  deriving DecidableEq

abbrev FileMap := Str → Option Node

def FileMap.content (f : FileMap) (name : Str) : List UInt8 :=
  match f name with
  | some (.file content) => content
  | _ => []

/-- A file goes alone, a directory with everything below it. -/
def FileMap.without (f : FileMap) (name : Str) : FileMap :=
  fun x => if x = name ∨ (f name = some .dir ∧ isBelow name x = true) then none else f x

/-- What a successful call returns, and what it makes of the map. -/
def Succeeds (f : FileMap) : Call → Int → FileMap → Prop
  | .write (some name) d, rc, f' =>
    rc = min (dataBytes d).length (ramfsMaxFileSize - 1) ∧ f name ≠ some .dir ∧
      f' = update f name (some (.file ((dataBytes d).take (ramfsMaxFileSize - 1))))
  | .append (some name) (some d), rc, f' =>
    rc = d.1.length ∧ f name ≠ some .dir ∧
      f' = update f name (some (.file (f.content name ++ d.1)))
  | .mkdir (some name), rc, f' =>
    rc = 0 ∧ (f name = none ∨ f name = some .dir) ∧ f' = update f name (some .dir)
  | .remove (some name), rc, f' => rc = 0 ∧ f name ≠ none ∧ f' = f.without name
  | _, _, _ => False

def Call.target : Call → Option Str
  | .write name _ | .append name _ | .mkdir name | .remove name => name

def Entry.node (e : Entry) : Node := if e.isDirectory then .dir else .file (cells e.data e.size)

def Volume.map (v : Volume) : FileMap := fun name => (lookup Entry.key v.files name).map Entry.node

theorem Tree.map_of_holds (h : Tree v) (hi : v.Holds i name) : v.map name = some (v.files i).node := by
  have hlookup := h.distinct.lookup_eq_some.mpr ⟨i, rfl, hi⟩
  rw [Volume.map, hlookup, map_some]

theorem map_of_absent (h : ∀ j, ¬v.Holds j name) : v.map name = none := by
  rw [Volume.map, lookup_eq_none.mpr h, map_none]

theorem Tree.map_set (h : Tree v) (h' : Tree (v.set i e)) (hk : e.key = some name)
    (hold : ∀ k, v.Holds i k → k = name) : (v.set i e).map = update v.map name (some e.node) := by
  funext x
  by_cases hx : x = name
  · subst hx
    rw [update_self, Volume.map, set_files, h'.distinct.lookup_update_self hk,
      map_some]
  · have hnew : e.key ≠ some x := by
      rw [hk]
      exact fun heq => hx (some.inj heq).symm
    rw [update_of_ne hx, Volume.map, set_files,
      h.distinct.lookup_update_other h'.distinct (fun hxi => hx (hold x hxi)) hnew]
    rfl

theorem Tree.map_store (h : Tree v) (hi : v.Holds i name) (hok : ((v.files i).store data size).Ok) :
    (v.set i ((v.files i).store data size)).map = update v.map name (some ((v.files i).store data size).node) := by
  refine h.map_set (h.rewrite hi hok) hi ?_
  intro k hk
  exact some.inj (hk.symm.trans hi)

theorem Tree.create_map (h : Tree v) (hc : createEntry v name kind = some (v₁, i)) :
    (∀ x, x ≠ name → v₁.map x = v.map x) ∧ (v₁ = v ∨ (v.map name = none ∧ (v₁.files i).size = 0)) := by
  have h₁ := (h.create hc).1
  obtain ⟨hvalid, ⟨-, -, rfl⟩ | ⟨hnone, -, hfree, rfl⟩⟩ := createEntry_some hc
  · exact ⟨fun _ _ => rfl, .inl rfl⟩
  · have hmap := h.map_set h₁ (newEntry_key _ hvalid) (by
      intro k hk
      rw [Volume.Holds, hfree] at hk
      cases hk)
    refine ⟨?_, .inr ⟨map_of_absent hnone, ?_⟩⟩
    · intro x hx
      rw [hmap, update_of_ne hx]
    · rw [set_files, update_self]
      rfl

theorem Tree.map_created (h : Tree v) (hc : createEntry v name kind = some (v₁, i))
    (hok : ((v₁.files i).store data size).Ok) :
    (v₁.set i ((v₁.files i).store data size)).map = update v.map name (some ((v₁.files i).store data size).node) := by
  obtain ⟨h₁, hi, -⟩ := h.create hc
  rw [h₁.map_store hi hok]
  funext x
  by_cases hx : x = name
  · rw [hx, update_self, update_self]
  · rw [update_of_ne hx, update_of_ne hx, (h.create_map hc).1 x hx]

theorem Tree.map_kind (h : Tree v) (hc : createEntry v name kind = some (v₁, i)) :
    v.map name = none ∨ ∃ e : Entry, v.map name = some e.node ∧ e.isDirectory = kind := by
  obtain ⟨h₁, hi, hkind⟩ := h.create hc
  rcases (h.create_map hc).2 with rfl | ⟨hnone, -⟩
  · exact .inr ⟨_, h₁.map_of_holds hi, hkind⟩
  · exact .inl hnone

theorem node_dir (h : e.isDirectory = true) : e.node = .dir := by
  rw [Entry.node, if_pos h]

theorem node_file (h : e.isDirectory = false) : e.node = .file (cells e.data e.size) := by
  simp [Entry.node, h]

theorem Tree.map_not_dir (h : Tree v) (hc : createEntry v name false = some (v₁, i)) : v.map name ≠ some .dir := by
  rcases h.map_kind hc with hnone | ⟨e, he, hkind⟩
  · rw [hnone]
    simp
  · rw [he, node_file hkind]
    simp

theorem Tree.content_created (h : Tree v) (hc : createEntry v name false = some (v₁, i)) :
    cells (v₁.files i).data (v₁.files i).size = v.map.content name := by
  obtain ⟨h₁, hi, hkind⟩ := h.create hc
  rcases (h.create_map hc).2 with rfl | ⟨hnone, hsize⟩
  · rw [FileMap.content, h₁.map_of_holds hi, node_file hkind]
  · rw [FileMap.content, hnone, hsize, cells_zero]

theorem node_store (h : e.isDirectory = false) : (e.store data size).node = .file (cells data size) := by
  have hcells : cells (update data size 0) size = cells data size :=
    cells_update_ge data le_rfl 0
  rw [node_file (show (e.store data size).isDirectory = false from h)]
  exact congrArg Node.file hcells

theorem Tree.map_remove (h : Tree v) (hi : v.Holds i name) : (v.drop (Doomed v i name)).map = v.map.without name := by
  have h' := h.remove hi
  have hdir : v.map name = some .dir ↔ (v.files i).isDirectory = true := by
    rw [h.map_of_holds hi]
    unfold Entry.node
    split_ifs with hd
    · simp [hd]
    · simp [hd]
  funext x
  unfold FileMap.without
  -- what is kept or cleared under `x` is decided by the slot that holds `x`
  by_cases hx : ∃ j, v.Holds j x
  · obtain ⟨j, hj⟩ := hx
    obtain ⟨hused, hname⟩ := key_eq_some.mp hj
    have hdoom : Doomed v i name j ↔ x = name ∨ (v.map name = some .dir ∧ isBelow name x = true) := by
      rw [Doomed, hdir, hname]
      constructor
      · rintro (rfl | ⟨hd, -, hb⟩)
        · exact .inl (some.inj (hj.symm.trans hi))
        · exact .inr ⟨hd, hb⟩
      · rintro (rfl | ⟨hd, hb⟩)
        · exact .inl (h.distinct j i x hj hi)
        · exact .inr ⟨hd, hused, hb⟩
    by_cases hd : Doomed v i name j
    · rw [if_pos (hdoom.mp hd)]
      apply map_of_absent
      intro k hk
      obtain ⟨hnot, hk'⟩ := drop_holds.mp hk
      exact hnot (by rw [h.distinct k j x hk' hj]; exact hd)
    · rw [if_neg (fun hn => hd (hdoom.mpr hn)), h.map_of_holds hj,
        h'.map_of_holds (drop_holds.mpr ⟨hd, hj⟩), drop_files_kept hd]
  · rw [not_exists] at hx
    rw [map_of_absent hx, ite_self]
    apply map_of_absent
    intro k hk
    exact hx k (drop_holds.mp hk).2

theorem Effect.map (h : Tree v) (he : Effect v c rc v') :
    (rc = -1 ∧ ∀ x, c.target ≠ some x → v'.map x = v.map x) ∨ (0 ≤ rc ∧ Succeeds v.map c rc v'.map) := by
  cases he with
  | refused c => exact .inl ⟨rfl, fun _ _ => rfl⟩
  | full hc _ =>
    refine Or.inl ⟨rfl, ?_⟩
    intro x hx
    exact (h.create_map hc).1 x (fun he => hx (by rw [he]; rfl))
  | @written name d v₁ i data content hc hcontent hcells =>
    obtain ⟨h₁, hi, hkind⟩ := h.create hc
    have hsize : content.length < ramfsMaxFileSize := by
      rw [hcontent, List.length_take]
      simp only [ramfsMaxFileSize]
      omega
    refine Or.inr ⟨by omega, ?_, h.map_not_dir hc, ?_⟩
    · rw [hcontent, List.length_take, Nat.min_comm]
    · rw [h.map_created hc (store_file_ok hkind hsize), node_store hkind, hcells, ← hcontent]
  | @appended name d v₁ i data hc hroom hcells =>
    obtain ⟨h₁, hi, hkind⟩ := h.create hc
    refine Or.inr ⟨by omega, rfl, h.map_not_dir hc, ?_⟩
    rw [h.map_created hc (store_file_ok hkind hroom), node_store hkind, hcells,
      h.content_created hc]
  | @made name v₁ i hc =>
    obtain ⟨h₁, hi, hkind⟩ := h.create hc
    refine Or.inr ⟨le_rfl, rfl, ?_, ?_⟩
    · rcases h.map_kind hc with hnone | ⟨e, he, hk⟩
      · exact .inl hnone
      · exact .inr (by rw [he, node_dir hk])
    · rw [h.map_created hc (store_dir_ok hkind), node_dir (show (Entry.store _ _ _).isDirectory = true from hkind)]
  | @removed name i hvalid hi =>
    refine Or.inr ⟨le_rfl, rfl, ?_, h.map_remove hi⟩
    rw [h.map_of_holds hi]
    simp

theorem cells_take (data : Nat → UInt8) {n : Nat} (h : n ≤ size) : (cells data size).take n = cells data n := by
  rw [cells, cells, ← List.map_take, List.take_range, Nat.min_eq_left h]

theorem Tree.find_file (h : Tree v) {content : List UInt8} (hname : v.map name = some (.file content)) :
    ∃ i, pathIsValid name = true ∧ findEntry v name = some i ∧ (v.files i).isDirectory = false ∧
      cells (v.files i).data (v.files i).size = content := by
  obtain ⟨e, hlookup, hnode⟩ := map_eq_some_iff.mp hname
  obtain ⟨i, rfl, hi⟩ := h.distinct.lookup_eq_some.mp hlookup
  refine ⟨i, h.valid i name hi, h.distinct.slotOf_eq hi, ?_⟩
  cases hkind : (v.files i).isDirectory with
  | true =>
    rw [node_dir hkind] at hnode
    cases hnode
  | false =>
    rw [node_file hkind] at hnode
    exact ⟨rfl, Node.file.inj hnode⟩

theorem Tree.read_file (h : Tree v) {content : List UInt8}
    (hname : v.map name = some (.file content)) (hsize : 0 < size) :
    ramfsVolumeRead v (some name) true size =
      (((min content.length (size - 1) : Nat) : Int), content.take (min content.length (size - 1))) := by
  obtain ⟨i, hvalid, hslot, hkind, rfl⟩ := h.find_file hname
  have hcopy : (if size ≤ (v.files i).size then size - 1 else (v.files i).size) =
      min (v.files i).size (size - 1) := by
    split_ifs with hle
    · omega
    · omega
  have hzero : (size == 0) = false := by
    rw [beq_eq_false_iff_ne]
    omega
  rw [length_cells, cells_take _ (Nat.min_le_left _ _), ← hcopy]
  simp only [ramfsVolumeRead, Bool.not_true, hzero, Bool.or_self, hvalid, hslot, hkind,
    Bool.false_eq_true, if_false]

/-- In every volume reached, each call returns and does to the map what it says, at its own
name and below a removed directory only, and reading gives back what the map holds. -/
theorem ramfs_refines_map (memory : Volume) (tr : List Event) (v : Volume)
    (hx : Exec Step (ramfsVolumeInit memory) tr v) (hs : ∀ e ∈ tr, e.1.Short) :
    (ramfsVolumeInit memory).map = (fun _ => none) ∧
      (∀ c : Call, c.Short → ∃ rc v', perform v c = some ((c, rc), v') ∧
        ((rc = -1 ∧ ∀ x, c.target ≠ some x → v'.map x = v.map x) ∨
          (0 ≤ rc ∧ Succeeds v.map c rc v'.map))) ∧
      ∀ name content size, v.map name = some (.file content) → 0 < size →
        ramfsVolumeRead v (some name) true size =
          (((min content.length (size - 1) : Nat) : Int),
            content.take (min content.length (size - 1))) := by
  have htree := exec_tree hx hs
  refine ⟨?_, ?_, ?_⟩
  · funext name
    apply map_of_absent
    intro j hj
    cases hj
  · intro c hc
    obtain ⟨rc, v', hrun, heff⟩ := htree.run hc
    exact ⟨rc, v', by rw [perform, hrun]; rfl, heff.map htree⟩
  · intro name content size hname hsize
    exact htree.read_file hname hsize

theorem ramfs_refines_map_reused :
    reusedVolume.map [98] = some (.file [3, 4, 5]) ∧
      ramfsVolumeRead reusedVolume (some [98]) true 3 = (2, [3, 4]) := by
  have hmap : reusedVolume.map [98] = some (.file [3, 4, 5]) := by decide +kernel
  have hread := (ramfs_refines_map emptyMemory reuseTrace reusedVolume reuseTrace_exec
    reuseTrace_short).2.2 [98] [3, 4, 5] 3 hmap (by decide)
  exact ⟨hmap, hread⟩

end ProOS.Ramfs
