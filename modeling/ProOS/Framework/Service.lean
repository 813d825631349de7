import Mathlib

namespace ProOS.Framework

variable {σ τ α ρ : Type*}

/-- A service answers calls one after the other. -/
def serve (op : σ → α → σ × ρ) : σ → List α → σ × List ρ
  | s, [] => (s, [])
  | s, a :: as => ((serve op (op s a).1 as).1, (op s a).2 :: (serve op (op s a).1 as).2)

/-- In the states that meet `I` every call does to the abstraction what `spec` says and is answered
as `spec` says. -/
structure Refines (op : σ → α → σ × ρ) (spec : τ → α → τ × ρ) (I : σ → Prop) (abs : σ → τ) : Prop where
  keeps : ∀ s a, I s → I (op s a).1
  simulates : ∀ s a, I s → spec (abs s) a = (abs (op s a).1, (op s a).2)

theorem Refines.serve {op : σ → α → σ × ρ} {spec : τ → α → τ × ρ} {I : σ → Prop} {abs : σ → τ}
    (h : Refines op spec I abs) {s : σ} (hs : I s) (as : List α) :
    I (serve op s as).1 ∧ serve spec (abs s) as = (abs (serve op s as).1, (serve op s as).2) := by
  induction as generalizing s with
  | nil => exact ⟨hs, rfl⟩
  | cons a as ih =>
    obtain ⟨hinv, hsame⟩ := ih (h.keeps s a hs)
    refine ⟨hinv, ?_⟩
    simp only [Framework.serve, h.simulates s a hs, hsame]

end ProOS.Framework
