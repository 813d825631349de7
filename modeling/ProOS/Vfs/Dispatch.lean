import ProOS.Vfs.Resolve
import ProOS.Framework.SlotTable

namespace ProOS.Vfs

open ProOS.Framework Option List

variable {t : Tables} {m : Mount} {ms ms' ps rs : List Str} {p : Str} {i j : Fin vfsMaxMounts}

/-! ## The mount table -/

/-- A used slot of the table, mounted at the path with the segments `ms`. -/
structure Mount.Ok (m : Mount) (ms : List Str) : Prop where
  canonical : Canonical ms
  mountPoint : m.mountPoint = render ms
  prefixLen : m.prefixLen = (render ms).length
  ops : m.ops.isSome = true

def Mount.point (m : Mount) : Option Str := if m.used then some m.mountPoint else none

structure Tables.Mounted (t : Tables) : Prop where
  ok : ∀ i, (t.mounts i).used = true → ∃ ms, (t.mounts i).Ok ms
  distinct : Keyed Mount.point t.mounts

theorem vfsRegisterAlias_mounts (t : Tables) (source target : Option Str) :
    (vfsRegisterAlias t source target).1.mounts = t.mounts := by
  unfold vfsRegisterAlias
  split
  · split
    · split_ifs
      · rfl
      · rfl
      · rfl
      · split <;> rfl
    · rfl
  · rfl

/-- `vfs_mount` changes nothing, or it fills one free slot with a mount point that no used slot has. -/
theorem vfsMount_cases (t : Tables) (mountPoint : Option Str) (ops : Option (Handler → Bool)) :
    (vfsMount t mountPoint ops).1 = t ∨ ∃ i ms handlers, Canonical ms ∧ (t.mounts i).point = none ∧
      (∀ j, (t.mounts j).point ≠ some (render ms)) ∧
      (vfsMount t mountPoint ops).1.mounts =
        Function.update t.mounts i ⟨true, render ms, (render ms).length, some handlers⟩ := by
  cases mountPoint with
  | none => exact .inl rfl
  | some mountPoint =>
    cases ops with
    | none => exact .inl rfl
    | some handlers =>
      cases hnorm : normalizePath mountPoint vfsMaxPath with
      | none => exact .inl (by simp only [vfsMount, hnorm])
      | some normalized =>
        simp only [vfsMount, hnorm]
        split_ifs with hdup
        · exact .inl rfl
        · cases hslot : acquireMountSlot t.mounts with
          | none => exact .inl rfl
          | some i =>
            obtain ⟨ms, hms, rfl, -⟩ := normalizePath_canonical hnorm
            have hfree : (t.mounts i).used = false := by simpa using find?_some hslot
            refine Or.inr ⟨i, ms, handlers, hms, by simp [Mount.point, hfree], ?_, rfl⟩
            intro j hj
            refine hdup (List.any_eq_true.mpr ⟨j, mem_finRange j, ?_⟩)
            simpa [Mount.point] using hj

theorem Tables.Mounted.mount (h : t.Mounted) (mountPoint : Option Str) (ops : Option (Handler → Bool)) :
    (vfsMount t mountPoint ops).1.Mounted := by
  rcases vfsMount_cases t mountPoint ops with heq | ⟨i, ms, handlers, hms, hfree, hnew, heq⟩
  · rw [heq]
    exact h
  · constructor
    · intro j hj
      rw [heq] at hj ⊢
      by_cases hji : j = i
      · subst hji
        rw [Function.update_self]
        exact ⟨ms, hms, rfl, rfl, rfl⟩
      · rw [Function.update_of_ne hji] at hj ⊢
        exact h.ok j hj
    · rw [heq]
      exact h.distinct.update (fun k hk => (some.inj hk).symm) (fun j _ => hnew j)

theorem exec_mounted {acts : List Action} (hx : Exec Step Tables.empty acts t) : t.Mounted := by
  refine hx.invariant ?_ ?_
  · constructor
    · intro i hi
      cases hi
    · intro i j k hi
      cases hi
  · intro t a t' h hstep
    have hact := performs_labelled.mp hstep
    cases a with
    | mount mountPoint ops =>
      cases hact
      exact h.mount mountPoint ops
    | registerAlias source target =>
      cases hact
      have hm := vfsRegisterAlias_mounts t source target
      constructor
      · rw [hm]
        exact h.ok
      · rw [hm]
        exact h.distinct

/-- Whatever strings are mounted and aliased, the tables hold canonical paths only. -/
theorem tables_canonical (acts : List Action) (t : Tables) :
    Always Step Tables.empty acts t (fun _ t => t.Mounted ∧ t.Ok) :=
  fun _ _ _ _ hx _ => ⟨exec_mounted hx, exec_ok hx⟩

/-! ## The mounts of a path -/

theorem length_render_lt (h : ms <+: ms') (hne : ms ≠ ms') (hplain : ∀ seg ∈ ms', Plain seg) :
    (render ms).length < (render ms').length := by
  obtain ⟨rs, rfl⟩ := h
  cases rs with
  | nil => exact absurd (append_nil ms).symm hne
  | cons seg rs =>
    by_cases hms : ms = []
    · have hseg := length_pos_iff.mpr (hplain seg (by simp)).nonempty
      subst hms
      simp only [render, nil_append, if_true, cons_ne_nil, if_false, flatMap_cons,
        length_append, length_cons, length_nil]
      omega
    · rw [render_append hms]
      simp

/-- The comparison of `resolve_mount` is the one of the segments. -/
theorem Mount.Ok.covers_iff (h : m.Ok ms) (hu : m.used = true) (hps : ∀ seg ∈ ps, Plain seg) :
    m.covers (render ps) = true ↔ ms <+: ps := by
  have hlen : (render ms).length ≠ 0 := by simpa using render_ne_nil ms
  by_cases hroot : ms = []
  · subst hroot
    have hone : m.prefixLen = 1 := h.prefixLen
    simp [Mount.covers, hu, h.ops, hone, render_head]
  · have hone : (render ms).length ≠ 1 := fun he => hroot (length_render_le_one h.canonical he.le)
    have hcovers : m.covers (render ps) = true ↔
        strncmpEq (render ps) (render ms) (render ms).length = true ∧
          endsSegment (render ps) (render ms).length = true := by
      simp [Mount.covers, hu, h.ops, h.prefixLen, h.mountPoint, hone, hlen]
    rw [hcovers]
    constructor
    · rintro ⟨htake, hend⟩
      have hfields := fields_render hps
      rcases split_of_strncmpEq htake hend with ⟨hp, -⟩ | hp
      · rw [hp, fields_render h.canonical.plain] at hfields
        rw [hfields]
      · rw [hp, fields_append_sep, fields_render h.canonical.plain] at hfields
        exact ⟨_, hfields⟩
    · rintro ⟨rs, rfl⟩
      rw [render_append hroot, strncmpEq, endsSegment, take_left, take_length]
      cases rs with
      | nil => simp
      | cons seg rs => simp

/-- The segments of the mount point are the first ones of the path. -/
def Mount.Above (m : Mount) (path : Str) : Prop :=
  m.used = true ∧ fields slash m.mountPoint <+: fields slash path

theorem Tables.Mounted.covers_iff (h : t.Mounted) (hps : ∀ seg ∈ ps, Plain seg) (i : Fin vfsMaxMounts) :
    (t.mounts i).covers (render ps) = true ↔ (t.mounts i).Above (render ps) := by
  rw [Mount.Above, fields_render hps]
  by_cases hu : (t.mounts i).used = true
  · obtain ⟨ms, hms⟩ := h.ok i hu
    rw [hms.covers_iff hu hps, hms.mountPoint, fields_render hms.canonical.plain]
    simp [hu]
  · simp [Mount.covers, hu]

/-! ## The best mount -/

theorem bestMount_eq (mounts : Fin vfsMaxMounts → Mount) (path : Str) : bestMount mounts path =
    (List.finRange vfsMaxMounts).foldl
      (keepBest (fun i => (mounts i).covers path) (fun i => (mounts i).prefixLen)) none := rfl

theorem bestMount_covers (h : bestMount t.mounts p = some i) : (t.mounts i).covers p = true := by
  rw [bestMount_eq] at h
  rcases keepBest_mem (mem_def.mpr h) with ⟨-, hok⟩ | hb
  · exact hok
  · cases hb

theorem bestMount_longest (h : (t.mounts j).covers p = true) :
    ∃ i, bestMount t.mounts p = some i ∧ (t.mounts j).prefixLen ≤ (t.mounts i).prefixLen :=
  keepBest_le (mem_finRange j) h

/-- Of two mount points above a path the one with the longer string has more segments. -/
theorem Tables.Mounted.segments_lt (h : t.Mounted) (hps : ∀ seg ∈ ps, Plain seg)
    (hi : (t.mounts i).Above (render ps)) (hj : (t.mounts j).Above (render ps)) (hne : j ≠ i)
    (hle : (t.mounts j).prefixLen ≤ (t.mounts i).prefixLen) :
    (fields slash (t.mounts j).mountPoint).length < (fields slash (t.mounts i).mountPoint).length := by
  obtain ⟨ms, hms⟩ := h.ok i hi.1
  obtain ⟨ms', hms'⟩ := h.ok j hj.1
  have hpi := hi.2
  have hpj := hj.2
  rw [hms.mountPoint, fields_render hms.canonical.plain, fields_render hps] at hpi
  rw [hms'.mountPoint, fields_render hms'.canonical.plain, fields_render hps] at hpj
  have hdiff : ms' ≠ ms := by
    rintro rfl
    refine hne (h.distinct j i (render ms') ?_ ?_)
    · rw [Mount.point, if_pos hj.1, hms'.mountPoint]
    · rw [Mount.point, if_pos hi.1, hms.mountPoint]
  rw [hms.mountPoint, hms'.mountPoint, fields_render hms.canonical.plain, fields_render hms'.canonical.plain]
  by_contra hge
  -- otherwise it is a beginning of the other one, and its string is shorter
  have hpre := prefix_of_prefix_length_le hpi hpj (not_lt.mp hge)
  have hlt := length_render_lt hpre hdiff.symm hms'.canonical.plain
  rw [hms.prefixLen, hms'.prefixLen] at hle
  omega

def joinPath (mountPoint relative : Str) : Str :=
  if relative = [] then mountPoint
  else if mountPoint.getLast? = some slash then mountPoint ++ relative
  else mountPoint ++ slash :: relative

theorem Mount.Ok.join_afterLen (h : m.Ok ms) (hps : ∀ seg ∈ ps, Plain seg) (hpre : ms <+: ps) :
    joinPath m.mountPoint (afterLen (render ps) m.prefixLen) = render ps := by
  obtain ⟨rs, rfl⟩ := hpre
  rw [h.mountPoint, h.prefixLen]
  cases rs with
  | nil => rw [append_nil, afterLen_end, joinPath, if_pos rfl]
  | cons seg rs =>
    have hseg := hps seg (by simp)
    have hrel : seg ++ rs.flatMap (slash :: ·) ≠ [] := by simp [hseg.nonempty]
    by_cases hroot : ms = []
    · subst hroot
      have hafter : afterLen (render ([] ++ seg :: rs)) (render []).length = seg ++ rs.flatMap (slash :: ·) := by
        cases hs : seg with
        | nil => exact absurd hs hseg.nonempty
        | cons ch rest =>
          have hch : ch ≠ slash := fun he => hseg.unslashed (by simp [hs, he])
          simp [render, afterLen, hch]
      rw [hafter, joinPath, if_neg hrel]
      simp [render]
    · rw [render_append hroot, flatMap_cons, cons_append, afterLen_slash, joinPath, if_neg hrel,
        if_neg (getLast_render h.canonical hroot)]

/-- A canonical path goes to the one mount point that is its longest beginning, segment by segment. -/
theorem resolveMount_longest (acts : List Action) (t : Tables) (ps : List Str)
    (hx : Exec Step Tables.empty acts t) (hps : ∀ seg ∈ ps, Plain seg) :
    (resolveMount t.mounts (render ps) = none ↔ ∀ i, ¬(t.mounts i).Above (render ps)) ∧
      ∀ i relative, resolveMount t.mounts (render ps) = some (i, relative) →
        (t.mounts i).Above (render ps) ∧
        (∀ j, j ≠ i → (t.mounts j).Above (render ps) →
          (fields slash (t.mounts j).mountPoint).length < (fields slash (t.mounts i).mountPoint).length) ∧
        joinPath (t.mounts i).mountPoint relative = render ps := by
  have hm := exec_mounted hx
  constructor
  · rw [resolveMount, map_eq_none_iff]
    constructor
    · intro hnone i habove
      obtain ⟨b, hb, -⟩ := bestMount_longest ((hm.covers_iff hps i).mpr habove)
      rw [hnone] at hb
      cases hb
    · intro hall
      cases hbest : bestMount t.mounts (render ps) with
      | none => rfl
      | some i => exact absurd ((hm.covers_iff hps i).mp (bestMount_covers hbest)) (hall i)
  · intro i relative hres
    obtain ⟨b, hbest, heq⟩ := map_eq_some_iff.mp hres
    obtain ⟨rfl, rfl⟩ := Prod.mk.inj heq
    have habove := (hm.covers_iff hps b).mp (bestMount_covers hbest)
    refine ⟨habove, ?_, ?_⟩
    · intro j hne hj
      obtain ⟨b', hb', hle⟩ := bestMount_longest ((hm.covers_iff hps j).mpr hj)
      obtain rfl := some.inj (hbest.symm.trans hb')
      exact hm.segments_lt hps habove hj hne hle
    · obtain ⟨ms, hms⟩ := hm.ok b habove.1
      exact hms.join_afterLen hps ((hms.covers_iff habove.1 hps).mp (bestMount_covers hbest))

/-- The root, "/a" and "/a/b". -/
def nestedMounts : List Action :=
  [.mount (some [slash]) (some fun _ => true), .mount (some [slash, 97]) (some fun _ => true),
    .mount (some [slash, 97, slash, 98]) (some fun _ => true)]

def nestedTables : Tables :=
  (vfsMount (vfsMount (vfsMount Tables.empty (some [slash]) (some fun _ => true)).1
    (some [slash, 97]) (some fun _ => true)).1 (some [slash, 97, slash, 98]) (some fun _ => true)).1

theorem nestedMounts_exec : Exec Step Tables.empty nestedMounts nestedTables :=
  (Exec.single (performs_labelled.mpr rfl)).trans
    ((Exec.single (performs_labelled.mpr rfl)).trans (Exec.single (performs_labelled.mpr rfl)))

/-- "/a/bc" goes to "/a", although its string begins with "/a/b". -/
theorem resolveMount_longest_nested :
    resolveMount nestedTables.mounts (render [[97], [98, 99]]) = some (⟨1, by decide⟩, [98, 99]) ∧
      joinPath (nestedTables.mounts ⟨1, by decide⟩).mountPoint [98, 99] = render [[97], [98, 99]] := by
  have hres : resolveMount nestedTables.mounts (render [[97], [98, 99]]) = some (⟨1, by decide⟩, [98, 99]) := by
    decide +kernel
  have hps : ∀ seg ∈ [[97], [98, 99]], Plain seg := by
    simp only [mem_cons, not_mem_nil, or_false]
    rintro seg (rfl | rfl)
    · exact ⟨by decide, by decide, by decide, by decide⟩
    · exact ⟨by decide, by decide, by decide, by decide⟩
  exact ⟨hres, ((resolveMount_longest nestedMounts nestedTables _ nestedMounts_exec hps).2 _ _ hres).2.2⟩

end ProOS.Vfs
