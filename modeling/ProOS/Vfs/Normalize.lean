import ProOS.Vfs.Path

namespace ProOS.Vfs

open ProOS.Framework Option List

/-! ## `shell_normalize_absolute` (`shell.c`)

The shell has the text of `normalize_path` a second time. Here it runs over the characters, with the segments kept as
pointers into the input. -/

/-- `while (input[i] == '/') ++i;` -/
def skipSlashes (input : Str) (i : Nat) : Nat := i + ((input.drop i).takeWhile (· = slash)).length

/-- `while (input[i] && input[i] != '/') ++i;` -/
def segmentEnd (input : Str) (i : Nat) : Nat := i + ((input.drop i).takeWhile (· ≠ slash)).length

/-- An element of `segments` with its element of `seg_lengths`. -/
structure Slice (input : Str) where
  start : Nat
  len : Nat
  inside : start + len ≤ input.length

def Slice.text {input : Str} (seg : Slice input) : Str := (input.drop seg.start).take seg.len

def pushSlice {input : Str} (stack : List (Slice input)) (seg : Slice input) : Option (List (Slice input)) :=
  if seg.len = 1 ∧ input[seg.start]? = some dot then some stack
  else if seg.len = 2 ∧ input[seg.start]? = some dot ∧ input[seg.start + 1]? = some dot then some stack.dropLast
  else if maxSegments ≤ stack.length then none
  else some (stack ++ [seg])

section Scanning

variable {input : Str} {i : Nat}

theorem drop_skipSlashes : input.drop (skipSlashes input i) = (input.drop i).dropWhile (· = slash) := by
  have h := takeWhile_append_dropWhile (p := (· = slash)) (l := input.drop i)
  rw [skipSlashes, ← drop_drop]
  nth_rewrite 2 [← h]
  rw [drop_left]

theorem drop_segmentEnd : input.drop (segmentEnd input i) = (input.drop i).dropWhile (· ≠ slash) := by
  have h := takeWhile_append_dropWhile (p := (· ≠ slash)) (l := input.drop i)
  rw [segmentEnd, ← drop_drop]
  nth_rewrite 2 [← h]
  rw [drop_left]

theorem le_skipSlashes : i ≤ skipSlashes input i := Nat.le_add_right _ _

theorem segmentEnd_le (h : i ≤ input.length) : segmentEnd input i ≤ input.length := by
  have hlen := (takeWhile_sublist (· ≠ slash) (l := input.drop i)).length_le
  rw [length_drop] at hlen
  unfold segmentEnd
  omega

theorem head_skipSlashes (h : skipSlashes input i < input.length) :
    ∃ x rest, x ≠ slash ∧ input.drop (skipSlashes input i) = x :: rest := by
  have hne : (input.drop i).dropWhile (· = slash) ≠ [] := by
    rw [← drop_skipSlashes]
    exact ne_nil_of_length_pos (by rw [length_drop]; omega)
  refine ⟨_, _, ?_, drop_skipSlashes.trans (cons_head_tail hne).symm⟩
  simpa using head_dropWhile_not (· = slash) hne

theorem takeWhile_skipSlashes (h : skipSlashes input i < input.length) :
    (input.drop (skipSlashes input i)).takeWhile (· ≠ slash) ≠ [] := by
  obtain ⟨x, rest, hx, hdrop⟩ := head_skipSlashes h
  rw [hdrop, takeWhile_cons, if_pos (by simpa using hx)]
  exact cons_ne_nil _ _

/-- A segment that is there has a character: the test for a length of 0 in the source never succeeds. -/
theorem skipSlashes_lt_segmentEnd (h : skipSlashes input i < input.length) :
    skipSlashes input i < segmentEnd input (skipSlashes input i) := by
  have hpos := length_pos_iff.mpr (takeWhile_skipSlashes h)
  unfold segmentEnd
  omega

end Scanning

def shellSegments (input : Str) (i : Nat) (stack : List (Slice input)) : Option (List (Slice input)) :=
  let start := skipSlashes input i
  if h : start < input.length then
    let stop := segmentEnd input start
    have inside : start + (stop - start) ≤ input.length := by
      have hlt := skipSlashes_lt_segmentEnd h
      have hle := segmentEnd_le h.le
      omega
    (pushSlice stack ⟨start, stop - start, inside⟩).bind fun stack => shellSegments input stop stack
  else some stack
termination_by input.length - i
decreasing_by
  have hlt := skipSlashes_lt_segmentEnd h
  have hle : i ≤ skipSlashes input i := le_skipSlashes
  omega

def emitSlices {input : Str} (capacity : Nat) : List (Slice input) → Str → Option Str
  | [], out => some out
  | seg :: segs, out =>
    if capacity ≤ out.length + seg.len + 1 then none
    else emitSlices capacity segs (out ++ slash :: seg.text)

def shellNormalizeAbsolute (input : Str) (capacity : Nat) : Option Str :=
  if capacity < 2 then none
  else if input.head? ≠ some slash then none
  else
    match shellSegments input 0 [] with
    | none => none
    | some [] => some [slash]
    | some segs => emitSlices capacity segs []

/-! ## The two copies agree -/

section Agreement

variable {input : Str} {i : Nat} {seg : Slice input} {stack segs : List (Slice input)}

theorem Slice.text_length (seg : Slice input) : seg.text.length = seg.len := by
  have h := seg.inside
  rw [text, length_take, length_drop]
  omega

theorem Slice.text_getElem? (seg : Slice input) {j : Nat} (h : j < seg.len) : seg.text[j]? = input[seg.start + j]? := by
  rw [text, getElem?_take_of_lt h, getElem?_drop]

theorem Slice.text_eq_dot : seg.text = [dot] ↔ seg.len = 1 ∧ input[seg.start]? = some dot := by
  constructor
  · intro h
    have hlen : seg.len = 1 := by rw [← seg.text_length, h]; rfl
    have hget := seg.text_getElem? (j := 0) (by omega)
    rw [h] at hget
    exact ⟨hlen, hget.symm⟩
  · rintro ⟨hlen, hget⟩
    obtain ⟨x, hx⟩ := length_eq_one_iff.mp (seg.text_length.trans hlen)
    have hfirst := seg.text_getElem? (j := 0) (by omega)
    rw [Nat.add_zero, hget, hx] at hfirst
    rw [hx, some.inj hfirst]

theorem Slice.text_eq_dotDot : seg.text = [dot, dot] ↔
    seg.len = 2 ∧ input[seg.start]? = some dot ∧ input[seg.start + 1]? = some dot := by
  constructor
  · intro h
    have hlen : seg.len = 2 := by rw [← seg.text_length, h]; rfl
    have hget₀ := seg.text_getElem? (j := 0) (by omega)
    have hget₁ := seg.text_getElem? (j := 1) (by omega)
    rw [h] at hget₀ hget₁
    exact ⟨hlen, hget₀.symm, hget₁.symm⟩
  · rintro ⟨hlen, hget₀, hget₁⟩
    obtain ⟨x, y, hxy⟩ := length_eq_two.mp (seg.text_length.trans hlen)
    have hfirst := seg.text_getElem? (j := 0) (by omega)
    have hsecond := seg.text_getElem? (j := 1) (by omega)
    rw [Nat.add_zero, hget₀, hxy] at hfirst
    rw [hget₁, hxy] at hsecond
    rw [hxy, some.inj hfirst, some.inj hsecond]

theorem pushSlice_text (stack : List (Slice input)) (seg : Slice input) :
    (pushSlice stack seg).map (List.map Slice.text) = pushSegment (stack.map Slice.text) seg.text := by
  simp only [pushSlice, pushSegment, ← Slice.text_eq_dot, ← Slice.text_eq_dotDot, length_map]
  split_ifs
  · rfl
  · rw [map_some, map_dropLast]
  · rfl
  · rw [map_some, map_append, map_singleton]

theorem emitSlices_text (capacity : Nat) (out : Str) :
    emitSlices capacity segs out = emitSegments capacity (segs.map Slice.text) out := by
  induction segs generalizing out with
  | nil => rfl
  | cons seg segs ih => rw [map_cons, emitSlices, emitSegments, Slice.text_length, ih]

theorem shellSegments_text (i : Nat) (stack : List (Slice input)) :
    (shellSegments input i stack).map (List.map Slice.text) =
      (fields slash (input.drop i)).foldlM pushSegment (stack.map Slice.text) := by
  induction i, stack using shellSegments.induct input with
  | case1 i stack start h stop inside ih =>
    have hfields : fields slash (input.drop i) =
        (input.drop start).takeWhile (· ≠ slash) :: fields slash (input.drop stop) := by
      rw [← fields_dropWhile, ← drop_skipSlashes, fields_eq_cons (takeWhile_skipSlashes h), ← drop_segmentEnd]
    have htext : (⟨start, stop - start, inside⟩ : Slice input).text =
        (input.drop start).takeWhile (· ≠ slash) := by
      have hsplit := takeWhile_append_dropWhile (p := (· ≠ slash)) (l := input.drop start)
      have hlen : stop - start = ((input.drop start).takeWhile (· ≠ slash)).length := Nat.add_sub_cancel_left _ _
      show (input.drop start).take (stop - start) = _
      rw [hlen]
      nth_rewrite 2 [← hsplit]
      rw [take_left]
    have hturn : shellSegments input i stack =
        (pushSlice stack ⟨start, stop - start, inside⟩).bind (shellSegments input stop) := by
      rw [shellSegments, dif_pos h]
    rw [hturn, hfields, foldlM_cons, ← htext, ← pushSlice_text]
    cases hpush : pushSlice stack ⟨start, stop - start, inside⟩ with
    | none => rfl
    | some stack' => exact ih stack'
  | case2 i stack start h =>
    have hfields : fields slash (input.drop i) = [] := by
      rw [← fields_dropWhile, ← drop_skipSlashes, drop_eq_nil_of_le (not_lt.mp h), fields_nil]
    rw [shellSegments, dif_neg h, hfields]
    rfl

theorem shellNormalizeAbsolute_eq (input : Str) (capacity : Nat) :
    shellNormalizeAbsolute input capacity = normalizePath input capacity := by
  have hsegs : (shellSegments input 0 []).map (List.map Slice.text) = _ := shellSegments_text 0 []
  rw [drop_zero, map_nil] at hsegs
  rw [shellNormalizeAbsolute, normalizePath, ← hsegs]
  cases shellSegments input 0 [] with
  | none => rfl
  | some segs =>
    cases segs with
    | nil => rfl
    | cons seg segs =>
      simp only [map_some, map_cons]
      rw [emitSlices_text, map_cons]

end Agreement

/-! ## What the normal form is -/

section NormalForm

variable {stack stack' segs : List Str} {p out : Str} {capacity : Nat}

theorem stack_eq_some (hstack : stack.length ≤ maxSegments) : segs.foldlM pushSegment stack = some stack' ↔
    (∀ pre, pre <+: segs → (reduce stack pre).length ≤ maxSegments) ∧ stack' = reduce stack segs := by
  induction segs generalizing stack with
  | nil =>
    constructor
    · intro h
      refine ⟨?_, (some.inj h).symm⟩
      intro pre hpre
      rw [prefix_nil.mp hpre]
      exact hstack
    · rintro ⟨-, rfl⟩
      rfl
  | cons seg segs ih =>
    have hpre : (∀ pre, pre <+: seg :: segs → (reduce stack pre).length ≤ maxSegments) ↔
        ∀ pre, pre <+: segs → (reduce stack (seg :: pre)).length ≤ maxSegments := by
      constructor
      · intro h pre hpre
        exact h (seg :: pre) (cons_prefix_cons.mpr ⟨rfl, hpre⟩)
      · intro h pre hpre
        rcases prefix_cons_iff.mp hpre with rfl | ⟨pre', rfl, hpre'⟩
        · exact hstack
        · exact h pre' hpre'
    rw [foldlM_cons, hpre, bind_eq_bind, pushSegment]
    simp only [reduce]
    split_ifs with h₁ h₂ h₃
    · exact ih hstack
    · exact ih (by rw [length_dropLast]; omega)
    · -- the stack is full: it is too deep as soon as the segment is pushed
      constructor
      · intro h
        cases h
      · rintro ⟨h, -⟩
        have hnil := h [] ⟨segs, rfl⟩
        rw [reduce, length_append, length_singleton] at hnil
        omega
    · exact ih (by rw [length_append, length_singleton]; omega)

theorem reduce_plain (hsegs : ∀ seg ∈ segs, seg ≠ [] ∧ slash ∉ seg) (hstack : ∀ seg ∈ stack, Plain seg) :
    ∀ seg ∈ reduce stack segs, Plain seg := by
  induction segs generalizing stack with
  | nil => exact hstack
  | cons seg segs ih =>
    have hrest : ∀ s ∈ segs, s ≠ [] ∧ slash ∉ s := fun s hs => hsegs s (mem_cons_of_mem seg hs)
    rw [reduce]
    split_ifs with h₁ h₂
    · exact ih hrest hstack
    · exact ih hrest (fun s hs => hstack s (mem_of_mem_dropLast hs))
    · refine ih hrest ?_
      intro s hs
      rcases mem_append.mp hs with hs | hs
      · exact hstack s hs
      · rw [mem_singleton.mp hs]
        exact ⟨(hsegs seg (by simp)).1, (hsegs seg (by simp)).2, h₁, h₂⟩

theorem normalizePath_idem (h : normalizePath p capacity = some out) : normalizePath out capacity = some out := by
  obtain ⟨hcap, -, -, -, -, hlen⟩ := normalizePath_eq_some.mp h
  obtain ⟨segs, hsegs, rfl, -⟩ := normalizePath_canonical h
  refine normalizePath_eq_some.mpr ⟨hcap, render_head segs, segs, ?_, rfl, hlen⟩
  rw [fields_render hsegs.plain]
  have hfold : segs.foldlM pushSegment [] = some ([] ++ segs) := stack_plain hsegs.plain hsegs.short
  exact hfold

/-- `normalize_path` is the function that renders the reduced segments, and the shell's copy is the same function. -/
theorem normalize_exact (input : Str) (capacity : Nat) :
    (∀ out, normalizePath input capacity = some out ↔
        2 ≤ capacity ∧ input.head? = some slash ∧
          (∀ pre, pre <+: fields slash input → (reduce [] pre).length ≤ maxSegments) ∧
          out = render (reduce [] (fields slash input)) ∧ out.length < capacity) ∧
      (∀ seg ∈ reduce [] (fields slash input), Plain seg) ∧
      (∀ out, normalizePath input capacity = some out → normalizePath out capacity = some out) ∧
      shellNormalizeAbsolute input capacity = normalizePath input capacity := by
  refine ⟨?_, ?_, fun out => normalizePath_idem, shellNormalizeAbsolute_eq input capacity⟩
  · intro out
    have hempty : ([] : List Str).length ≤ maxSegments := Nat.zero_le _
    rw [normalizePath_eq_some]
    simp only [stack_eq_some hempty]
    constructor
    · rintro ⟨hcap, hhead, segs, ⟨hdeep, rfl⟩, rfl, hlen⟩
      exact ⟨hcap, hhead, hdeep, rfl, hlen⟩
    · rintro ⟨hcap, hhead, hdeep, rfl, hlen⟩
      exact ⟨hcap, hhead, _, ⟨hdeep, rfl⟩, rfl, hlen⟩
  · refine reduce_plain (fun seg hs => mem_fields hs) ?_
    intro seg hs
    cases hs

end NormalForm

end ProOS.Vfs
