import ProOS.Kernel.Types
import ProOS.Framework.Separated

namespace ProOS.Vfs

open ProOS.Framework Option List

def vfsMaxPath : Nat := 128

/-- The size of the segment arrays in `normalize_path`. -/
def maxSegments : Nat := 32
def dot : UInt8 := 46

/-- What `normalize_path` does with one non-empty segment. -/
def pushSegment (stack : List Str) (seg : Str) : Option (List Str) :=
  if seg = [dot] then some stack
  else if seg = [dot, dot] then some stack.dropLast
  else if maxSegments ≤ stack.length then none
  else some (stack ++ [seg])

def emitSegments (capacity : Nat) : List Str → Str → Option Str
  | [], out => some out
  | seg :: segs, out =>
    if capacity ≤ out.length + seg.length + 1 then none
    else emitSegments capacity segs (out ++ slash :: seg)

def normalizePath (input : Str) (capacity : Nat) : Option Str :=
  if capacity < 2 then none
  else if input.head? ≠ some slash then none
  else
    match (fields slash input).foldlM pushSegment [] with
    | none => none
    | some [] => some [slash]
    | some segs => emitSegments capacity segs []

structure Plain (seg : Str) : Prop where
  nonempty : seg ≠ []
  unslashed : slash ∉ seg
  notDot : seg ≠ [dot]
  notDotDot : seg ≠ [dot, dot]

structure Canonical (segs : List Str) : Prop where
  plain : ∀ seg ∈ segs, Plain seg
  short : segs.length ≤ maxSegments

def render (segs : List Str) : Str := if segs = [] then [slash] else segs.flatMap (slash :: ·)

variable {segs stack stack' base rest : List Str} {seg p c : Str} {capacity : Nat}

theorem render_of_ne_nil (h : segs ≠ []) : render segs = segs.flatMap (slash :: ·) := if_neg h

theorem render_head (segs : List Str) : (render segs).head? = some slash := by
  cases segs with
  | nil => rfl
  | cons seg segs => simp [render]

theorem emitSegments_eq (out : Str) : emitSegments capacity segs out =
    if segs = [] ∨ (out ++ segs.flatMap (slash :: ·)).length < capacity then
      some (out ++ segs.flatMap (slash :: ·)) else none := by
  induction segs generalizing out with
  | nil => simp [emitSegments]
  | cons seg segs ih =>
    rw [emitSegments]
    by_cases hlen : capacity ≤ out.length + seg.length + 1
    · have hlong : ¬((out ++ (seg :: segs).flatMap (slash :: ·)).length < capacity) := by
        simp only [length_append, flatMap_cons, length_cons]
        omega
      rw [if_pos hlen, if_neg]
      simpa using hlong
    · have happ : out ++ (seg :: segs).flatMap (slash :: ·) =
          (out ++ slash :: seg) ++ segs.flatMap (slash :: ·) := by simp
      rw [if_neg hlen, ih, happ]
      cases segs with
      | nil =>
        have hshort : out.length + (seg.length + 1) < capacity := by omega
        simp [hshort]
      | cons seg' segs => simp

/-- `normalize_path` renders the segments that are left of the path, if they fit. -/
theorem normalizePath_eq_some : normalizePath p capacity = some c ↔
    2 ≤ capacity ∧ p.head? = some slash ∧
      ∃ segs, (fields slash p).foldlM pushSegment [] = some segs ∧ c = render segs ∧ c.length < capacity := by
  unfold normalizePath
  by_cases hcap : capacity < 2
  · simp [hcap]
  by_cases hhead : p.head? = some slash
  · rw [if_neg hcap, if_neg (not_not.mpr hhead)]
    cases hsegs : (fields slash p).foldlM pushSegment [] with
    | none => simp
    | some segs =>
      cases segs with
      | nil =>
        simp only [some.injEq, hhead, true_and, exists_eq_left', render, if_true]
        constructor
        · rintro rfl
          exact ⟨by omega, rfl, by simp; omega⟩
        · rintro ⟨-, rfl, -⟩
          rfl
      | cons seg segs =>
        simp only [some.injEq, hhead, true_and, exists_eq_left']
        rw [emitSegments_eq, nil_append, ← render_of_ne_nil (cons_ne_nil seg segs)]
        constructor
        · intro h
          by_cases hfit : (render (seg :: segs)).length < capacity
          · rw [if_pos (.inr hfit)] at h
            cases h
            exact ⟨by omega, rfl, hfit⟩
          · rw [if_neg (by simpa using hfit)] at h
            cases h
        · rintro ⟨-, rfl, hfit⟩
          rw [if_pos (.inr hfit)]
  · simp [hcap, hhead]

theorem fields_render (h : ∀ seg ∈ segs, Plain seg) : fields slash (render segs) = segs := by
  cases segs with
  | nil => rfl
  | cons seg segs =>
    rw [render_of_ne_nil (cons_ne_nil seg segs)]
    exact fields_flatMap (fun s hs => ⟨(h s hs).nonempty, (h s hs).unslashed⟩)

theorem pushSegment_plain (h : Plain seg) (hroom : stack.length < maxSegments) :
    pushSegment stack seg = some (stack ++ [seg]) := by
  rw [pushSegment, if_neg h.notDot, if_neg h.notDotDot, if_neg (not_le.mpr hroom)]

theorem pushSegment_canonical (hseg : seg ≠ [] ∧ slash ∉ seg) (h : Canonical stack)
    (hp : pushSegment stack seg = some stack') : Canonical stack' := by
  unfold pushSegment at hp
  split_ifs at hp with h₁ h₂ h₃
  · cases hp
    exact h
  · cases hp
    constructor
    · intro s hs
      exact h.plain s (mem_of_mem_dropLast hs)
    · rw [length_dropLast]
      exact (Nat.sub_le _ 1).trans h.short
  · cases hp
    constructor
    · intro s hs
      rcases mem_append.mp hs with hs | hs
      · exact h.plain s hs
      · rw [mem_singleton.mp hs]
        exact ⟨hseg.1, hseg.2, h₁, h₂⟩
    · rw [length_append, length_singleton]
      omega

theorem stack_canonical (hsegs : ∀ seg ∈ segs, seg ≠ [] ∧ slash ∉ seg) (h : Canonical stack)
    (hs : segs.foldlM pushSegment stack = some stack') : Canonical stack' := by
  induction segs generalizing stack with
  | nil =>
    cases hs
    exact h
  | cons seg segs ih =>
    rw [foldlM_cons] at hs
    obtain ⟨stack₁, hp, hrest⟩ := bind_eq_some_iff.mp hs
    exact ih (fun s hm => hsegs s (mem_cons_of_mem seg hm))
      (pushSegment_canonical (hsegs seg (by simp)) h hp) hrest

theorem stack_plain (h : ∀ seg ∈ segs, Plain seg) (hroom : (stack ++ segs).length ≤ maxSegments) :
    segs.foldlM pushSegment stack = some (stack ++ segs) := by
  induction segs generalizing stack with
  | nil =>
    rw [append_nil]
    rfl
  | cons seg segs ih =>
    have hlt : stack.length < maxSegments := by
      simp only [length_append, length_cons] at hroom
      omega
    rw [foldlM_cons, pushSegment_plain (h seg (by simp)) hlt, bind_eq_bind,
      bind_some, ih (fun s hs => h s (mem_cons_of_mem seg hs)) (by simpa using hroom),
      append_assoc, singleton_append]

theorem normalizePath_canonical (h : normalizePath p capacity = some c) :
    ∃ segs, Canonical segs ∧ c = render segs ∧ (fields slash p).foldlM pushSegment [] = some segs := by
  obtain ⟨-, -, segs, hsegs, rfl, -⟩ := normalizePath_eq_some.mp h
  refine ⟨segs, stack_canonical (fun seg hs => mem_fields hs) ⟨?_, Nat.zero_le _⟩ hsegs, rfl, hsegs⟩
  intro seg hseg
  cases hseg

/-- The stack that is left when nothing limits its depth. -/
def reduce : List Str → List Str → List Str
  | stack, [] => stack
  | stack, seg :: segs =>
    if seg = [dot] then reduce stack segs
    else if seg = [dot, dot] then reduce stack.dropLast segs
    else reduce (stack ++ [seg]) segs

/-- No ".." climbs out of the directory that lies `depth` levels up. -/
def staysInside : Nat → List Str → Bool
  | _, [] => true
  | depth, seg :: segs =>
    if seg = [dot] then staysInside depth segs
    else if seg = [dot, dot] then 0 < depth && staysInside (depth - 1) segs
    else staysInside (depth + 1) segs

/-- Segments that stay inside the directory `base` do there what they do anywhere. -/
theorem stack_inside (hin : staysInside rest.length segs = true)
    (hs : segs.foldlM pushSegment (base ++ rest) = some stack) : stack = base ++ reduce rest segs := by
  induction segs generalizing rest with
  | nil => exact (some.inj hs).symm
  | cons seg segs ih =>
    rw [foldlM_cons] at hs
    obtain ⟨stack₁, hp, hrest⟩ := bind_eq_some_iff.mp hs
    unfold pushSegment at hp
    rw [staysInside] at hin
    rw [reduce]
    split_ifs at hp with h₁ h₂ h₃
    · cases hp
      rw [if_pos h₁] at hin
      rw [if_pos h₁]
      exact ih hin hrest
    · cases hp
      rw [if_neg h₁, if_pos h₂, Bool.and_eq_true, decide_eq_true_eq] at hin
      rw [if_neg h₁, if_pos h₂]
      have hne : rest ≠ [] := ne_nil_of_length_pos hin.1
      rw [dropLast_append_of_ne_nil hne] at hrest
      exact ih (by rw [length_dropLast]; exact hin.2) hrest
    · cases hp
      rw [if_neg h₁, if_neg h₂] at hin
      rw [if_neg h₁, if_neg h₂]
      rw [append_assoc] at hrest
      exact ih (by simpa using hin) hrest

end ProOS.Vfs
