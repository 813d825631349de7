import ProOS.Fat.Names

namespace ProOS.Fat

open ProOS.Framework Option List

/-! ## `fatfs_make_short_name`, character by character -/

/-- One of the loops that fill a field of the name, with the test behind it; `none` is a return of 0. -/
def fillField (capacity : Nat) : Str → Str → Option Str
  | [], field => some field
  | c :: rest, field =>
    if capacity ≤ field.length then none
    else if !isValidChar (toUpper c) then none
    else fillField capacity rest (field ++ [toUpper c])

def makeShortNameLoops (segment : Str) : Option Name :=
  if segment = [] then none
  else
    (fillField 8 (baseAndExt segment).1 []).bind fun base =>
      (fillField 3 (baseAndExt segment).2 []).bind fun ext =>
        if base.length = 0 then none else some (padTo 8 space base ++ padTo 3 space ext)

section Encoding

variable {segment field : Str} {capacity : Nat}

theorem fillField_eq (hfield : field.length ≤ capacity) : fillField capacity segment field =
    if field.length + segment.length ≤ capacity ∧ (segment.map toUpper).all isValidChar then
      some (field ++ segment.map toUpper) else none := by
  induction segment generalizing field with
  | nil => simp [fillField, hfield]
  | cons c rest ih =>
    rw [fillField]
    by_cases hfull : capacity ≤ field.length
    · rw [if_pos hfull, if_neg]
      intro h
      have hlen := h.1
      rw [length_cons] at hlen
      omega
    · rw [if_neg hfull]
      cases hc : isValidChar (toUpper c) with
      | false => simp [hc]
      | true =>
        have hroom : (field ++ [toUpper c]).length ≤ capacity := by
          rw [length_append, length_singleton]
          omega
        rw [ih hroom]
        simp [hc, Nat.add_assoc, Nat.add_comm 1]

theorem fillField_nil (capacity : Nat) (segment : Str) : fillField capacity segment [] =
    if segment.length ≤ capacity ∧ (segment.map toUpper).all isValidChar then some (segment.map toUpper) else none := by
  rw [fillField_eq (Nat.zero_le _), length_nil, Nat.zero_add, nil_append]

theorem makeShortNameLoops_eq (segment : Str) : makeShortNameLoops segment = makeShortName segment := by
  by_cases hne : segment = []
  · rw [hne]
    rfl
  rw [makeShortNameLoops, if_neg hne, makeShortName, fillField_nil, fillField_nil]
  by_cases hbase : (baseAndExt segment).1.length ≤ 8 ∧ ((baseAndExt segment).1.map toUpper).all isValidChar = true
  · by_cases hext : (baseAndExt segment).2.length ≤ 3 ∧ ((baseAndExt segment).2.map toUpper).all isValidChar = true
    · rw [if_pos hbase, if_pos hext]
      by_cases hempty : (baseAndExt segment).1 = []
      · simp [hempty]
      · rw [bind_some, bind_some, if_neg (by simpa using hempty), if_pos]
        exact ⟨by simpa using hempty, by simpa using hbase.1, by simpa using hext.1,
          by rw [all_append, hbase.2, hext.2]; rfl⟩
    · rw [if_pos hbase, if_neg hext, if_neg]
      · rfl
      · rintro ⟨-, -, hlen, hall⟩
        rw [all_append, Bool.and_eq_true] at hall
        exact hext ⟨by simpa using hlen, hall.2⟩
  · rw [if_neg hbase, bind_none, if_neg]
    rintro ⟨-, hlen, -, hall⟩
    rw [all_append, Bool.and_eq_true] at hall
    exact hbase ⟨by simpa using hlen, hall.1⟩

end Encoding

/-! ## The names accepted -/

/-- One to eight valid characters, and then perhaps a dot and up to three more; letters of either case. -/
structure AcceptedName (segment : Str) : Prop where
  shape : ∃ base : Str, base ≠ [] ∧ base.length ≤ 8 ∧ (∀ c ∈ base, isValidChar (toUpper c) = true) ∧
    (segment = base ∨ ∃ ext : Str, ext.length ≤ 3 ∧ (∀ c ∈ ext, isValidChar (toUpper c) = true) ∧
      segment = base ++ dot :: ext)

/-- The text in upper case, without a dot at its end. -/
def normalText (segment : Str) : Str :=
  let upper := segment.map toUpper
  if upper.getLast? = some dot then upper.dropLast else upper

theorem toUpper_toUpper (c : UInt8) : toUpper (toUpper c) = toUpper c := by
  unfold toUpper
  split_ifs <;> first | rfl | grind

structure Parts (base ext : Str) : Prop where
  nonempty : base ≠ []
  baseShort : base.length ≤ 8
  extShort : ext.length ≤ 3
  baseValid : ∀ c ∈ base, isValidChar (toUpper c) = true
  extValid : ∀ c ∈ ext, isValidChar (toUpper c) = true

def encode (base ext : Str) : Name := padTo 8 space (base.map toUpper) ++ padTo 3 space (ext.map toUpper)

section Codec

variable {segment base ext : Str} {name : Name}

theorem dot_notMem (h : ∀ c ∈ base, isValidChar (toUpper c) = true) : dot ∉ base := by
  intro hdot
  exact absurd (h dot hdot) (by decide)

theorem baseAndExt_dotted (h : dot ∉ ext) : baseAndExt (base ++ dot :: ext) = (base, ext) := by
  rw [baseAndExt, lastIndexOf_split h]
  simp

theorem baseAndExt_plain (h : dot ∉ base) : baseAndExt base = (base, []) := by
  rw [baseAndExt, lastIndexOf_of_notMem h]

theorem Parts.make_of_split (h : Parts base ext) (hsplit : baseAndExt segment = (base, ext)) :
    makeShortName segment = some (encode base ext) := by
  rw [makeShortName, hsplit]
  refine if_pos ⟨by simpa using h.nonempty, by simpa using h.baseShort, by simpa using h.extShort, ?_⟩
  rw [List.all_eq_true]
  intro c hc
  rw [← map_append] at hc
  obtain ⟨c, hmem, rfl⟩ := List.mem_map.mp hc
  rcases mem_append.mp hmem with hmem | hmem
  · exact h.baseValid c hmem
  · exact h.extValid c hmem

theorem Parts.make_dotted (h : Parts base ext) : makeShortName (base ++ dot :: ext) = some (encode base ext) :=
  h.make_of_split (baseAndExt_dotted (dot_notMem h.extValid))

theorem Parts.make_plain (h : Parts base []) : makeShortName base = some (encode base []) :=
  h.make_of_split (baseAndExt_plain (dot_notMem h.baseValid))

theorem make_eq_some (h : makeShortName segment = some name) : ∃ base ext, Parts base ext ∧ name = encode base ext ∧
    (segment = base ++ dot :: ext ∨ segment = base ∧ ext = []) := by
  have hspelled : segment = (baseAndExt segment).1 ++ dot :: (baseAndExt segment).2 ∨
      segment = (baseAndExt segment).1 ∧ (baseAndExt segment).2 = [] := by
    by_cases hdot : dot ∈ segment
    · obtain ⟨base, ext, rfl, hext⟩ := exists_last_split hdot
      rw [baseAndExt_dotted hext]
      exact .inl rfl
    · rw [baseAndExt_plain hdot]
      exact .inr ⟨rfl, rfl⟩
  rw [makeShortName] at h
  by_cases hc : (baseAndExt segment).1.map toUpper ≠ [] ∧ ((baseAndExt segment).1.map toUpper).length ≤ 8 ∧
      ((baseAndExt segment).2.map toUpper).length ≤ 3 ∧
      ((baseAndExt segment).1.map toUpper ++ (baseAndExt segment).2.map toUpper).all isValidChar = true
  · rw [if_pos hc] at h
    obtain ⟨hne, hbase, hext, hall⟩ := hc
    rw [all_append, Bool.and_eq_true, List.all_map, List.all_map, List.all_eq_true, List.all_eq_true] at hall
    rw [length_map] at hbase hext
    exact ⟨_, _, ⟨fun he => hne (by rw [he]; rfl), hbase, hext, hall.1, hall.2⟩, (some.inj h).symm, hspelled⟩
  · rw [if_neg hc] at h
    cases h

theorem make_isSome_iff (segment : Str) : (makeShortName segment).isSome = true ↔ AcceptedName segment := by
  constructor
  · intro h
    obtain ⟨name, hname⟩ := isSome_iff_exists.mp h
    obtain ⟨base, ext, hp, -, hspelled⟩ := make_eq_some hname
    refine ⟨base, hp.nonempty, hp.baseShort, hp.baseValid, ?_⟩
    rcases hspelled with hs | ⟨hs, -⟩
    · exact .inr ⟨ext, hp.extShort, hp.extValid, hs⟩
    · exact .inl hs
  · rintro ⟨base, hne, hshort, hvalid, rfl | ⟨ext, hext, hextValid, rfl⟩⟩
    · have hp : Parts segment [] := ⟨hne, hshort, Nat.zero_le _, hvalid, by simp⟩
      rw [hp.make_plain]
      rfl
    · have hp : Parts base ext := ⟨hne, hshort, hext, hvalid, hextValid⟩
      rw [hp.make_dotted]
      rfl

/-! ## Decoding -/

def textOf (base ext : Str) : Str :=
  base.map toUpper ++ if ext = [] then [] else dot :: ext.map toUpper

theorem takeWhile_padTo {n : Nat} {field : Str} (h : ∀ c ∈ field, c ≠ space) :
    (padTo n space field).takeWhile (· ≠ space) = field := by
  rw [padTo, takeWhile_append_of_pos (by simpa using h)]
  cases n - field.length with
  | zero => simp
  | succ k => simp [replicate_succ]

theorem ne_space_of_valid {field : Str} (h : ∀ c ∈ field, isValidChar (toUpper c) = true) :
    ∀ c ∈ field.map toUpper, c ≠ space := by
  intro c hc
  obtain ⟨c, hmem, rfl⟩ := List.mem_map.mp hc
  exact (isValidChar_ne (h c hmem)).2.2.2

theorem Parts.format (h : Parts base ext) : formatEntryName (encode base ext) = textOf base ext := by
  have hlen : (padTo 8 space (base.map toUpper)).length = 8 := length_padTo (by simpa using h.baseShort)
  have htake : (encode base ext).take 8 = padTo 8 space (base.map toUpper) := by
    rw [encode, take_left' hlen]
  have hdrop : (encode base ext).drop 8 = padTo 3 space (ext.map toUpper) := by
    rw [encode, drop_left' hlen]
  have hext := ne_space_of_valid h.extValid
  rw [formatEntryName, htake, hdrop, takeWhile_padTo (ne_space_of_valid h.baseValid), takeWhile_padTo hext, textOf]
  cases ext with
  | nil => rfl
  | cons c ext =>
    have hc : toUpper c ≠ space := hext (toUpper c) (by simp)
    rw [if_neg (by simp [padTo, hc]), if_neg (cons_ne_nil c ext)]

theorem map_toUpper_twice (text : Str) : (text.map toUpper).map toUpper = text.map toUpper := by
  rw [List.map_map]
  exact map_congr_left (fun c _ => toUpper_toUpper c)

theorem valid_upper {field : Str} (h : ∀ c ∈ field, isValidChar (toUpper c) = true) :
    ∀ c ∈ field.map toUpper, isValidChar (toUpper c) = true := by
  intro c hc
  obtain ⟨c, hmem, rfl⟩ := List.mem_map.mp hc
  rw [toUpper_toUpper]
  exact h c hmem

theorem Parts.upper (h : Parts base ext) : Parts (base.map toUpper) (ext.map toUpper) where
  nonempty := by simpa using h.nonempty
  baseShort := by simpa using h.baseShort
  extShort := by simpa using h.extShort
  baseValid := valid_upper h.baseValid
  extValid := valid_upper h.extValid

theorem encode_upper (base ext : Str) : encode (base.map toUpper) (ext.map toUpper) = encode base ext := by
  rw [encode, map_toUpper_twice, map_toUpper_twice, encode]

theorem Parts.make_textOf (h : Parts base ext) : makeShortName (textOf base ext) = some (encode base ext) := by
  rw [textOf, ← encode_upper]
  cases ext with
  | nil =>
    rw [if_pos rfl, append_nil]
    exact h.upper.make_plain
  | cons c ext =>
    rw [if_neg (cons_ne_nil c ext)]
    exact h.upper.make_dotted

theorem getLast_upper {field : Str} (h : ∀ c ∈ field, isValidChar (toUpper c) = true) :
    (field.map toUpper).getLast? ≠ some dot := by
  intro hlast
  obtain ⟨c, hmem, hc⟩ := List.mem_map.mp (mem_of_getLast? hlast)
  exact (isValidChar_ne (h c hmem)).2.2.1 hc

theorem Parts.normalText_eq (h : Parts base ext) (hs : segment = base ++ dot :: ext ∨ segment = base ∧ ext = []) :
    normalText segment = textOf base ext := by
  have hdot : toUpper dot = dot := rfl
  rcases hs with rfl | ⟨rfl, rfl⟩
  · rw [normalText, textOf, map_append, map_cons, hdot]
    cases ext with
    | nil => simp
    | cons c ext =>
      have hlast := getLast_upper h.extValid
      rw [map_cons] at hlast
      rw [if_neg (cons_ne_nil c ext)]
      refine if_neg ?_
      rw [getLast?_append_of_ne_nil _ (cons_ne_nil dot _), map_cons, getLast?_cons_cons]
      exact hlast
  · rw [normalText, textOf, if_pos rfl, append_nil]
    exact if_neg (getLast_upper h.baseValid)

theorem validate_of_acceptedName (h : AcceptedName segment) : validatePathSegment segment = true := by
  obtain ⟨base, hne, -, hvalid, rfl | ⟨ext, -, hext, rfl⟩⟩ := h
  · simp only [validatePathSegment, Bool.and_eq_true, decide_eq_true_eq, List.all_eq_true, Bool.or_eq_true]
    exact ⟨hne, fun c hc => .inr (hvalid c hc)⟩
  · simp only [validatePathSegment, Bool.and_eq_true, decide_eq_true_eq, List.all_eq_true, Bool.or_eq_true]
    refine ⟨by simp, ?_⟩
    intro c hc
    rcases mem_append.mp hc with hc | hc
    · exact .inr (hvalid c hc)
    · rcases mem_cons.mp hc with rfl | hc
      · exact .inl rfl
      · exact .inr (hext c hc)

theorem prepareShortName_eq (segment : Str) : prepareShortName segment = makeShortName segment := by
  by_cases hv : validatePathSegment segment = true
  · rw [prepareShortName, if_pos hv]
  · rw [prepareShortName, if_neg hv, eq_comm, ← not_isSome_iff_eq_none, make_isSome_iff]
    exact fun h => hv (validate_of_acceptedName h)

theorem makeShortName_short (hn : makeShortName segment = some name) : segment.length < 16 := by
  obtain ⟨base, ext, hp, -, hspelled⟩ := make_eq_some hn
  have hbase := hp.baseShort
  have hext := hp.extShort
  rcases hspelled with rfl | ⟨rfl, -⟩
  · simp only [length_append, length_cons]
    omega
  · omega

theorem toUpper_valid {c : UInt8} (h : isValidChar c = true) : toUpper c = c := by
  unfold toUpper
  unfold isValidChar at h
  grind

theorem ShortName.parts (h : ShortName name) : ∃ base ext, Parts base ext ∧ name = encode base ext := by
  obtain ⟨base, ext, hne, hb, he, hall, rfl⟩ := h.shape
  have hbase : ∀ c ∈ base, isValidChar c = true := fun c hc => hall c (mem_append_left ext hc)
  have hext : ∀ c ∈ ext, isValidChar c = true := fun c hc => hall c (mem_append_right base hc)
  have hupper : ∀ text : Str, (∀ c ∈ text, isValidChar c = true) → text.map toUpper = text := by
    intro text htext
    rw [map_congr_left (fun c hc => toUpper_valid (htext c hc)), List.map_id']
  refine ⟨base, ext, ⟨hne, hb, he, ?_, ?_⟩, by rw [encode, hupper base hbase, hupper ext hext]⟩
  · intro c hc
    rw [toUpper_valid (hbase c hc)]
    exact hbase c hc
  · intro c hc
    rw [toUpper_valid (hext c hc)]
    exact hext c hc

theorem ShortName.make_format (h : ShortName name) : makeShortName (formatEntryName name) = some name := by
  obtain ⟨base, ext, hp, rfl⟩ := h.parts
  rw [hp.format, hp.make_textOf]

theorem ShortName.takeWhile_format (h : ShortName name) :
    (formatEntryName name).takeWhile (fun c => decide (c ≠ 0)) = formatEntryName name := by
  have hval : validatePathSegment (formatEntryName name) = true :=
    validate_of_acceptedName ((make_isSome_iff _).mp (by rw [h.make_format]; rfl))
  have hall := (Bool.and_eq_true _ _ ▸ hval).2
  refine takeWhile_eq_self_iff.mpr (fun c hc => ?_)
  have hc' := List.all_eq_true.mp hall c hc
  rw [decide_eq_true_iff]
  rintro rfl
  revert hc'
  decide

theorem slash_notMem_of_make (h : makeShortName segment = some name) : slash ∉ segment := by
  have hval : validatePathSegment segment = true :=
    validate_of_acceptedName ((make_isSome_iff segment).mp (by rw [h]; rfl))
  intro hmem
  have hall := (Bool.and_eq_true _ _ ▸ hval).2
  have hslash := List.all_eq_true.mp hall slash hmem
  revert hslash
  decide

/-- The short names are a code of the accepted strings up to case and a dot at the end. -/
theorem short_name_codec :
    (∀ segment, (makeShortNameLoops segment).isSome = true ↔ AcceptedName segment) ∧
      (∀ segment name, makeShortNameLoops segment = some name →
        formatEntryName name = normalText segment ∧ makeShortNameLoops (normalText segment) = some name) ∧
      (∀ segment segment', AcceptedName segment → AcceptedName segment' →
        (makeShortNameLoops segment = makeShortNameLoops segment' ↔ normalText segment = normalText segment')) ∧
      ∀ segment, (prepareShortName segment).isSome = true ↔ AcceptedName segment := by
  have hround : ∀ segment name, makeShortName segment = some name →
      formatEntryName name = normalText segment ∧ makeShortName (normalText segment) = some name := by
    intro segment name hname
    obtain ⟨base, ext, hp, rfl, hspelled⟩ := make_eq_some hname
    rw [hp.normalText_eq hspelled]
    exact ⟨hp.format, hp.make_textOf⟩
  simp only [makeShortNameLoops_eq, prepareShortName_eq]
  refine ⟨make_isSome_iff, hround, ?_, make_isSome_iff⟩
  intro segment segment' ha ha'
  obtain ⟨name, hname⟩ := isSome_iff_exists.mp ((make_isSome_iff segment).mpr ha)
  obtain ⟨name', hname'⟩ := isSome_iff_exists.mp ((make_isSome_iff segment').mpr ha')
  constructor
  · intro heq
    rw [hname, hname', some.injEq] at heq
    rw [← (hround segment name hname).1, heq, (hround segment' name' hname').1]
  · intro heq
    rw [hname, hname', ← (hround segment name hname).2, heq, (hround segment' name' hname').2]

end Codec

end ProOS.Fat
