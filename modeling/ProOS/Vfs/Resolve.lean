import ProOS.Vfs.Model

namespace ProOS.Vfs

open ProOS.Framework Option List

variable {t t' : Tables} {a : Alias} {fs ts rs : List Str} {p q c : Str} {i : Fin vfsMaxAliases}

/-- An alias between canonical paths, its source not the root. -/
structure Alias.Ok (a : Alias) (fs ts : List Str) : Prop where
  source : Canonical fs
  target : Canonical ts
  notRoot : fs ≠ []
  fromPath : a.fromPath = render fs
  fromLen : a.fromLen = (render fs).length
  toPath : a.toPath = render ts

def Tables.Ok (t : Tables) : Prop := ∀ i, (t.aliases i).used = true → ∃ fs ts, (t.aliases i).Ok fs ts

theorem render_append (h : fs ≠ []) : render (fs ++ rs) = render fs ++ rs.flatMap (slash :: ·) := by
  rw [render_of_ne_nil h, render_of_ne_nil (by simp [h]), flatMap_append]

theorem render_ne_nil (segs : List Str) : render segs ≠ [] := by
  intro h
  have hhead := render_head segs
  rw [h] at hhead
  cases hhead

theorem length_render_le_one (h : Canonical fs) (hlen : (render fs).length ≤ 1) : fs = [] := by
  cases fs with
  | nil => rfl
  | cons seg segs =>
    have hseg := (h.plain seg (by simp)).nonempty
    have hpos := length_pos_iff.mpr hseg
    simp only [render, cons_ne_nil, if_false, flatMap_cons, length_append,
      length_cons] at hlen
    omega

theorem vfsRegisterAlias_ok (h : t.Ok) (source target : Option Str) : (vfsRegisterAlias t source target).1.Ok := by
  cases source with
  | none => exact h
  | some source =>
    cases target with
    | none => exact h
    | some target =>
      cases hs : normalizePath source vfsMaxPath with
      | none => simpa only [vfsRegisterAlias, hs] using h
      | some normFrom =>
        cases ht : normalizePath target vfsMaxPath with
        | none => simpa only [vfsRegisterAlias, hs, ht] using h
        | some normTo =>
          simp only [vfsRegisterAlias, hs, ht]
          split_ifs with hroot
          · exact h
          · exact h
          · exact h
          · cases aliasSlot t.aliases normFrom with
            | none => exact h
            | some i =>
              intro j hj
              by_cases hji : j = i
              · subst hji
                obtain ⟨fs, hfs, rfl, -⟩ := normalizePath_canonical hs
                obtain ⟨ts, hts, rfl, -⟩ := normalizePath_canonical ht
                refine ⟨fs, ts, ?_⟩
                simp only [Function.update_self]
                refine ⟨hfs, hts, ?_, rfl, rfl, rfl⟩
                rintro rfl
                exact hroot (by decide)
              · simp only [Function.update_of_ne hji] at hj ⊢
                exact h j hj

theorem vfsMount_aliases (t : Tables) (mountPoint : Option Str) (ops : Option (Handler → Bool)) :
    (vfsMount t mountPoint ops).1.aliases = t.aliases := by
  unfold vfsMount
  split
  · split
    · rfl
    · split_ifs
      · rfl
      · split <;> rfl
  · rfl

theorem exec_ok {acts : List Action} (hx : Exec Step Tables.empty acts t) : t.Ok := by
  refine hx.invariant ?_ ?_
  · intro i hi
    cases hi
  · intro t a t' h hstep
    have hact := performs_labelled.mp hstep
    cases a with
    | mount mountPoint ops =>
      cases hact
      intro i hi
      rw [vfsMount_aliases] at hi ⊢
      exact h i hi
    | registerAlias source target =>
      cases hact
      exact vfsRegisterAlias_ok h source target

theorem afterLen_slash (xs ys : Str) : afterLen (xs ++ slash :: ys) xs.length = ys := by
  simp [afterLen]

theorem afterLen_end (xs : Str) : afterLen xs xs.length = [] := by
  simp [afterLen]

/-- A path that has a string at its beginning, up to the end of a segment, ends there or goes on with a slash. -/
theorem split_of_strncmpEq {head : Str} (htake : strncmpEq p head head.length = true)
    (hend : endsSegment p head.length = true) :
    p = head ∧ afterLen p head.length = [] ∨ p = head ++ slash :: afterLen p head.length := by
  simp only [strncmpEq, endsSegment, Bool.or_eq_true, beq_iff_eq, take_length] at htake hend
  have hsplit : p = head ++ p.drop head.length := by
    rw [← htake, length_take]
    conv_lhs => rw [← take_append_drop head.length p]
    congr 2
    have hlen := congrArg List.length htake
    rw [length_take] at hlen
    omega
  cases hrest : p.drop head.length with
  | nil =>
    rw [hrest, append_nil] at hsplit
    left
    rw [hsplit]
    exact ⟨rfl, afterLen_end _⟩
  | cons ch rest =>
    rw [hrest] at hsplit
    have hch : p[head.length]? = some ch := by
      rw [hsplit, getElem?_append_right le_rfl, Nat.sub_self, getElem?_cons_zero]
    rw [hch] at hend
    obtain rfl : ch = slash := by simpa using hend
    right
    rw [hsplit, afterLen_slash]

theorem Alias.Ok.covers_split (h : a.Ok fs ts) (hc : a.covers p = true) :
    p = render fs ∧ afterLen p a.fromLen = [] ∨ p = render fs ++ slash :: afterLen p a.fromLen := by
  simp only [Alias.covers, h.fromPath, h.fromLen, Bool.and_eq_true] at hc
  rw [h.fromLen]
  exact split_of_strncmpEq hc.1.2 hc.2

theorem Alias.Ok.fields_covered (h : a.Ok fs ts) (hc : a.covers p = true) :
    fields slash p = fs ++ fields slash (afterLen p a.fromLen) := by
  rcases h.covers_split hc with ⟨hp, hend⟩ | hp
  · rw [hend, hp, fields_render h.source.plain, fields_nil, append_nil]
  · conv_lhs => rw [hp]
    rw [fields_append_sep, fields_render h.source.plain]

theorem getLast_render (h : Canonical ts) (hne : ts ≠ []) : (render ts).getLast? ≠ some slash := by
  rw [render_of_ne_nil hne]
  obtain ⟨init, seg, rfl⟩ := eq_nil_or_concat ts |>.resolve_left hne
  have hseg := h.plain seg (by simp)
  intro hlast
  rw [concat_eq_append, flatMap_append, flatMap_singleton,
    getLast?_append_of_ne_nil _ (cons_ne_nil slash seg),
    getLast?_cons_of_ne_nil hseg.nonempty] at hlast
  exact hseg.unslashed (mem_of_getLast? hlast)

theorem Alias.Ok.substitute_eq (h : a.Ok fs ts) (p : Str) :
    a.substitute p = if afterLen p a.fromLen = [] then render ts else if ts = [] then slash :: afterLen p a.fromLen
      else render ts ++ slash :: afterLen p a.fromLen := by
  unfold Alias.substitute
  simp only [h.toPath]
  by_cases hs : afterLen p a.fromLen = []
  · simp [hs]
  · by_cases ht : ts = []
    · subst ht
      simp [hs, render]
    · have hlast := getLast_render h.target ht
      simp [hs, ht, render_ne_nil, hlast]

theorem Alias.Ok.fields_substitute (h : a.Ok fs ts) (p : Str) :
    fields slash (a.substitute p) = ts ++ fields slash (afterLen p a.fromLen) := by
  rw [h.substitute_eq]
  split_ifs with hs ht
  · rw [hs, fields_render h.target.plain, fields_nil, append_nil]
  · rw [ht, fields_sep_cons, nil_append]
  · rw [fields_append_sep, fields_render h.target.plain]

/-- On a canonical path an alias puts its target in the place of its source. -/
theorem Alias.Ok.substitute_render (h : a.Ok fs ts) (hrs : ∀ seg ∈ rs, Plain seg) :
    a.substitute (render (fs ++ rs)) = render (ts ++ rs) := by
  rw [h.substitute_eq, h.fromLen, render_append h.notRoot]
  cases rs with
  | nil => simp [afterLen_end]
  | cons seg rest =>
    have hne : seg ++ rest.flatMap (slash :: ·) ≠ [] := by simp [(hrs seg (by simp)).nonempty]
    rw [flatMap_cons, cons_append, afterLen_slash, if_neg hne]
    by_cases ht : ts = []
    · subst ht
      rw [if_pos rfl, nil_append, render_of_ne_nil (cons_ne_nil seg rest),
        flatMap_cons, cons_append]
    · rw [if_neg ht, render_append ht, flatMap_cons, cons_append]

/-- The path is spelled so that the alias found for the string is the one for its canonical
form, and what follows the source fits in the buffers and does not climb out of it. -/
def Straight (t : Tables) (p : Str) : Prop :=
  findAlias t.aliases p = findAlias t.aliases ((normalizePath p vfsMaxPath).getD []) ∧
    ∀ i, findAlias t.aliases p = some i →
      ((t.aliases i).substitute p).length + 1 < vfsMaxPath ∧
      staysInside 0 (fields slash (afterLen p (t.aliases i).fromLen)) = true ∧
      (normalizePath ((t.aliases i).substitute p) vfsMaxPath).isSome = true

instance (t : Tables) (p : Str) : Decidable (Straight t p) :=
  inferInstanceAs (Decidable (_ ∧ ∀ i, findAlias t.aliases p = some i → _ ∧ _ ∧ _))

theorem covers_of_findAlias (h : findAlias t.aliases p = some i) : (t.aliases i).covers p = true := by
  simpa using find?_some h

theorem used_of_covers (h : a.covers p = true) : a.used = true := by
  simp only [Alias.covers, Bool.and_eq_true] at h
  exact h.1.1.1

theorem normalizePath_inside {base segs : List Str} {e : Str} (hb : Canonical base)
    (hf : fields slash p = base ++ segs) (hin : staysInside 0 segs = true) (hp : normalizePath p vfsMaxPath = some e) :
    e = render (base ++ reduce [] segs) ∧ ∀ seg ∈ reduce [] segs, Plain seg := by
  obtain ⟨stack, hstack, rfl, hfold⟩ := normalizePath_canonical hp
  rw [hf, foldlM_append, stack_plain hb.plain (by simpa using hb.short), nil_append,
    bind_eq_bind, bind_some] at hfold
  have heq : stack = base ++ reduce [] segs := by
    refine stack_inside (show staysInside ([] : List Str).length segs = true from hin) ?_
    rw [append_nil]
    exact hfold
  refine ⟨by rw [heq], ?_⟩
  intro seg hseg
  exact hstack.plain seg (by rw [heq]; exact mem_append_right _ hseg)

/-- What a straight path comes to: its canonical form, with the alias of that form applied. -/
theorem Straight.effective (h : t.Ok) (hs : Straight t p) (hp : normalizePath p vfsMaxPath = some c) :
    normalizePath (applyAlias t.aliases p vfsMaxPath) vfsMaxPath =
      some (match findAlias t.aliases c with
        | none => c
        | some i => (t.aliases i).substitute c) := by
  have hsame : findAlias t.aliases p = findAlias t.aliases c := by
    have hsp := hs.1
    rwa [hp, getD_some] at hsp
  cases hfind : findAlias t.aliases p with
  | none => rw [applyAlias, hfind, ← hsame, hfind, hp]
  | some i =>
    obtain ⟨hfit, hin, hsome⟩ := hs.2 i hfind
    have hcov := covers_of_findAlias hfind
    obtain ⟨fs, ts, hok⟩ := h i (used_of_covers hcov)
    obtain ⟨e, he⟩ := isSome_iff_exists.mp hsome
    obtain ⟨hc, hplain⟩ := normalizePath_inside hok.source (hok.fields_covered hcov) hin hp
    obtain ⟨hsub, -⟩ := normalizePath_inside hok.target (hok.fields_substitute p) hin he
    have happly : applyAlias t.aliases p vfsMaxPath = (t.aliases i).substitute p := by
      simp only [applyAlias, hfind]
      rw [if_neg (not_le.mpr hfit)]
    rw [happly, he, ← hsame, hfind, hsub, hc]
    simp only [hok.substitute_render hplain]

end ProOS.Vfs
