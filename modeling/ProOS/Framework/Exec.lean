import Mathlib

namespace ProOS.Framework

open Option List

variable {σ ε : Type*}

/-- Runs of a labelled transition system, the trace of labels growing at its end. -/
inductive Exec (step : σ → ε → σ → Prop) (s₀ : σ) : List ε → σ → Prop
  | nil : Exec step s₀ [] s₀
  | snoc {tr : List ε} {s s' : σ} {e : ε} :
      Exec step s₀ tr s → step s e s' → Exec step s₀ (tr ++ [e]) s'

variable {step : σ → ε → σ → Prop} {s₀ s s' s'' : σ} {tr tr' : List ε} {e : ε}

/-- What holds at the start and is kept by every step holds of every state reached. -/
theorem Exec.invariant {P : σ → Prop} (hx : Exec step s₀ tr s) (h0 : P s₀)
    (hs : ∀ s e s', P s → step s e s' → P s') : P s := by
  induction hx with
  | nil => exact h0
  | snoc _ hstep ih => exact hs _ _ _ ih hstep

/-- The same rule for properties that also speak of the trace so far. -/
theorem Exec.historyInvariant {P : List ε → σ → Prop} (hx : Exec step s₀ tr s) (h0 : P [] s₀)
    (hs : ∀ tr s e s', Exec step s₀ tr s → P tr s → step s e s' → P (tr ++ [e]) s') : P tr s := by
  induction hx with
  | nil => exact h0
  | snoc hx hstep ih => exact hs _ _ _ _ hx ih hstep

theorem Exec.single (h : step s e s') : Exec step s [e] s' := by
  exact Exec.snoc .nil h

theorem Exec.of_nil (hx : Exec step s [] s') : s' = s := by
  generalize hnil : ([] : List ε) = tr at hx
  cases hx with
  | nil => rfl
  | snoc _ _ => simp at hnil

theorem Exec.of_single (hx : Exec step s [e] s') : step s e s' := by
  generalize hone : [e] = tr at hx
  cases hx with
  | nil => simp at hone
  | @snoc tr s₁ s₂ f hx hstep =>
    obtain ⟨rfl, hef⟩ := append_inj' (show ([] ++ [e] : List ε) = tr ++ [f] from hone) rfl
    obtain rfl : e = f := by simpa using hef
    obtain rfl := hx.of_nil
    exact hstep

theorem Exec.trans (h1 : Exec step s tr s') (h2 : Exec step s' tr' s'') : Exec step s (tr ++ tr') s'' := by
  induction h2 with
  | nil => simpa using h1
  | snoc _ hstep ih =>
    rw [← append_assoc]
    exact ih.snoc hstep

theorem Exec.split (hx : Exec step s₀ tr s) {pre post : List ε} (ht : tr = pre ++ post) :
    ∃ s₁, Exec step s₀ pre s₁ ∧ Exec step s₁ post s := by
  induction hx generalizing post with
  | nil =>
    obtain ⟨rfl, rfl⟩ := append_eq_nil_iff.mp ht.symm
    exact ⟨s₀, .nil, .nil⟩
  | @snoc tr s s' e hx hstep ih =>
    cases post using List.reverseRecOn with
    | nil =>
      rw [append_nil] at ht
      subst ht
      exact ⟨s', hx.snoc hstep, .nil⟩
    | append_singleton post f =>
      rw [← append_assoc] at ht
      obtain ⟨h1, h2⟩ := append_inj' ht rfl
      obtain ⟨s₁, ha, hb⟩ := ih h1
      obtain rfl : e = f := by simpa using h2
      exact ⟨s₁, ha, hb.snoc hstep⟩

theorem Exec.unique (hdet : ∀ s e s₁ s₂, step s e s₁ → step s e s₂ → s₁ = s₂) (h : Exec step s₀ tr s)
    (h' : Exec step s₀ tr s') : s = s' := by
  induction h generalizing s' with
  | nil => exact h'.of_nil.symm
  | @snoc tr s₁ s₂ e _ hstep ih =>
    obtain ⟨s₃, h₃, hlast⟩ := h'.split rfl
    obtain rfl := ih h₃
    exact hdet _ _ _ _ hstep hlast.of_single

/-- `P` held in some state that a run with this trace has passed. -/
def Once (step : σ → ε → σ → Prop) (s₀ : σ) (tr : List ε) (P : σ → Prop) : Prop :=
  ∃ pre post s, tr = pre ++ post ∧ Exec step s₀ pre s ∧ P s

theorem Once.now {P : σ → Prop} (hx : Exec step s₀ tr s) (h : P s) : Once step s₀ tr P :=
  ⟨tr, [], s, (append_nil tr).symm, hx, h⟩

theorem Once.later {P : σ → Prop} (h : Once step s₀ tr P) (e : ε) : Once step s₀ (tr ++ [e]) P := by
  obtain ⟨pre, post, s, rfl, hx, hP⟩ := h
  exact ⟨pre, post ++ [e], s, append_assoc _ _ _, hx, hP⟩

theorem Once.imp {P Q : σ → Prop} (h : Once step s₀ tr P) (hPQ : ∀ {s}, P s → Q s) : Once step s₀ tr Q := by
  obtain ⟨pre, post, s, ht, hx, hP⟩ := h
  exact ⟨pre, post, s, ht, hx, hPQ hP⟩

theorem Once.cases {P : σ → Prop} (h : Once step s₀ (tr ++ [e]) P) :
    (∃ s, Exec step s₀ (tr ++ [e]) s ∧ P s) ∨ Once step s₀ tr P := by
  obtain ⟨pre, post, s, ht, hx, hP⟩ := h
  cases post using List.reverseRecOn with
  | nil =>
    rw [append_nil] at ht
    exact .inl ⟨s, ht ▸ hx, hP⟩
  | append_singleton post f =>
    rw [← append_assoc] at ht
    exact .inr ⟨pre, post, s, (append_inj' ht rfl).1, hx, hP⟩

/-- `P` holds in every state that a run passes, together with the trace up to there. -/
def Always (step : σ → ε → σ → Prop) (s₀ : σ) (tr : List ε) (s : σ) (P : List ε → σ → Prop) :
    Prop :=
  ∀ pre post s', tr = pre ++ post → Exec step s₀ pre s' → Exec step s' post s → P pre s'

/-- `C` holds of every state of a run and the step taken from it. -/
def EachStep (step : σ → ε → σ → Prop) (s₀ : σ) (tr : List ε) (s : σ) (C : σ → ε → Prop) : Prop :=
  ∀ pre e post s₁ s₂, tr = pre ++ e :: post → Exec step s₀ pre s₁ → step s₁ e s₂ →
    Exec step s₂ post s → C s₁ e

theorem Always.last {P : List ε → σ → Prop} (h : Always step s₀ tr s P) (hx : Exec step s₀ tr s) : P tr s := by
  exact h tr [] s (by simp) hx .nil

/-- A property that every step meeting `C` keeps holds all along a run whose steps meet `C`. -/
theorem EachStep.always {C : σ → ε → Prop} {P : List ε → σ → Prop} (hc : EachStep step s₀ tr s C) (h0 : P [] s₀)
    (hs : ∀ tr s e s', Exec step s₀ tr s → P tr s → step s e s' → C s e → P (tr ++ [e]) s') :
    Always step s₀ tr s P := by
  intro pre post s' ht hpre hpost
  induction hpre generalizing post with
  | nil => exact h0
  | @snoc pre s₁ s₂ e hpre hstep ih =>
    rw [append_assoc] at ht
    have hrest := (Exec.single hstep).trans hpost
    have hP := ih _ ht hrest
    exact hs _ _ _ _ hpre hP hstep (hc pre e post s₁ s₂ ht hpre hstep hpost)

/-- When the steps that meet `C` keep an invariant, and the others break what it is for, a run has that all along if and
only if all its steps meet `C`. -/
theorem always_iff_eachStep {C : σ → ε → Prop} {I P : List ε → σ → Prop} (h0 : I [] s₀)
    (hIP : ∀ tr s, I tr s → P tr s) (hkeep : ∀ tr s e s', I tr s → step s e s' → C s e → I (tr ++ [e]) s')
    (hbreak : ∀ tr s e s', I tr s → step s e s' → ¬C s e → ¬P (tr ++ [e]) s') :
    Always step s₀ tr s P ↔ EachStep step s₀ tr s C := by
  constructor
  · intro hall
    have hinv : Always step s₀ tr s I := by
      intro pre post s' ht hpre hpost
      induction hpre generalizing post with
      | nil => exact h0
      | @snoc pre s₁ s₂ e hpre hstep ih =>
        have hP := hall (pre ++ [e]) post s₂ ht (hpre.snoc hstep) hpost
        rw [append_assoc] at ht
        have hI := ih _ ht ((Exec.single hstep).trans hpost)
        by_contra hnot
        by_cases hc : C s₁ e
        · exact hnot (hkeep pre s₁ e s₂ hI hstep hc)
        · exact hbreak pre s₁ e s₂ hI hstep hc hP
    intro pre e post s₁ s₂ ht hpre hstep hpost
    by_contra hc
    have hI := hinv pre (e :: post) s₁ ht hpre ((Exec.single hstep).trans hpost)
    refine hbreak pre s₁ e s₂ hI hstep hc (hall (pre ++ [e]) post s₂ ?_ (hpre.snoc hstep) hpost)
    rw [ht, append_assoc, singleton_append]
  · intro hc pre post s' ht hpre hpost
    have hinv : Always step s₀ tr s I := hc.always h0 (fun tr s e s' _ hI hstep hC => hkeep tr s e s' hI hstep hC)
    exact hIP pre s' (hinv pre post s' ht hpre hpost)

section Deterministic

variable {α : Type*} (perform : σ → α → Option (ε × σ))

/-- The labelled transitions of a system given by a partial function of the action taken. -/
def Performs (s : σ) (e : ε) (s' : σ) : Prop := ∃ a, perform s a = some (e, s')

def performAll : σ → List α → Option (List ε × σ)
  | s, [] => some ([], s)
  | s, a :: as =>
    match perform s a with
    | none => none
    | some (e, s') => (performAll s' as).map (fun r => (e :: r.1, r.2))

theorem performAll_exec (as : List α) (s s' : σ) (tr : List ε)
    (h : performAll perform s as = some (tr, s')) : Exec (Performs perform) s tr s' := by
  induction as generalizing s tr with
  | nil =>
    obtain ⟨rfl, rfl⟩ : [] = tr ∧ s = s' := by simpa [performAll] using h
    exact .nil
  | cons a as ih =>
    simp only [performAll] at h
    split at h
    · simp at h
    · rename_i e s₁ ha
      obtain ⟨r, hr, he⟩ := map_eq_some_iff.mp h
      cases he
      exact (Exec.single ⟨a, ha⟩).trans (ih s₁ r.1 hr)

/-- A system whose labels are the actions themselves. -/
def labelled (act : σ → α → Option σ) (s : σ) (a : α) : Option (α × σ) :=
  (act s a).map (fun s' => (a, s'))

theorem performs_labelled {act : σ → α → Option σ} {s s' : σ} {a : α} :
    Performs (labelled act) s a s' ↔ act s a = some s' := by
  constructor
  · rintro ⟨b, hb⟩
    obtain ⟨s₁, hs₁, he⟩ := map_eq_some_iff.mp hb
    cases he
    exact hs₁
  · intro h
    exact ⟨a, by rw [labelled, h]; rfl⟩

/-- Every action of a list can be performed, and meets `C` in the state it is performed in. -/
def allMeet (act : σ → α → Option σ) (C : σ → α → Prop) [∀ s a, Decidable (C s a)] : σ → List α → Bool
  | _, [] => true
  | s, a :: as =>
    decide (C s a) &&
      match act s a with
      | none => false
      | some s' => allMeet act C s' as

theorem eachStep_of_allMeet {act : σ → α → Option σ} {C : σ → α → Prop} [∀ s a, Decidable (C s a)]
    {as : List α} {s s' : σ} (h : allMeet act C s as = true) : EachStep (Performs (labelled act)) s as s' C := by
  induction as generalizing s with
  | nil =>
    intro pre e post s₁ s₂ ht
    have hlen := congrArg List.length ht
    simp at hlen
  | cons a as ih =>
    intro pre e post s₁ s₂ ht hpre hstep hpost
    rw [allMeet, Bool.and_eq_true, decide_eq_true_eq] at h
    cases pre with
    | nil =>
      obtain ⟨rfl, rfl⟩ := List.cons.inj ht
      obtain rfl : s₁ = s := hpre.of_nil
      exact h.1
    | cons b pre =>
      obtain ⟨rfl, ht'⟩ := List.cons.inj ht
      obtain ⟨s₃, hfirst, hrest⟩ := hpre.split (show a :: pre = [a] ++ pre from rfl)
      have hact : act s a = some s₃ := performs_labelled.mp hfirst.of_single
      rw [hact] at h
      exact ih h.2 pre e post s₁ s₂ ht' hrest hstep hpost

theorem performAll_get_exec (as : List α) (s : σ) (h : (performAll perform s as).isSome = true) :
    Exec (Performs perform) s ((performAll perform s as).get h).1 ((performAll perform s as).get h).2 :=
  performAll_exec perform as s _ _ (some_get h).symm

theorem performAll_labelled_fst {act : σ → α → Option σ} {as : List α} {s : σ} {r : List α × σ}
    (h : performAll (labelled act) s as = some r) : r.1 = as := by
  induction as generalizing s r with
  | nil =>
    cases h
    rfl
  | cons a as ih =>
    cases hact : act s a with
    | none => simp [performAll, labelled, hact] at h
    | some s₁ =>
      simp only [performAll, labelled, hact, map_some] at h
      obtain ⟨r₁, hr₁, rfl⟩ := map_eq_some_iff.mp h
      exact congrArg (a :: ·) (ih hr₁)

theorem performAll_labelled_exec {act : σ → α → Option σ} (as : List α) (s : σ)
    (h : (performAll (labelled act) s as).isSome = true) :
    Exec (Performs (labelled act)) s as ((performAll (labelled act) s as).get h).2 := by
  have hrun := performAll_get_exec (labelled act) as s h
  rwa [performAll_labelled_fst (some_get h).symm] at hrun

end Deterministic

end ProOS.Framework
