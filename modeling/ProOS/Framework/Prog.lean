import ProOS.Framework.Memory

/-! Straight-line programs that read and write memory which somebody else designates, and that make
calls whose answers they do not control. -/

namespace ProOS.Framework

/-- A program over the calls `Call`, each with the type of its answers, ending in a value of `ρ`. -/
inductive Prog (Call : Type → Type) (ρ : Type) : Type 1
  | ret (result : ρ)
  | load (addr n : Nat) (next : List UInt8 → Prog Call ρ)
  | store (addr : Nat) (bytes : List UInt8) (next : Prog Call ρ)
  | call {α : Type} (c : Call α) (next : α → Prog Call ρ)

namespace Prog

variable {Call : Type → Type} {ρ σ : Type}

def bind : Prog Call ρ → (ρ → Prog Call σ) → Prog Call σ
  | ret result, f => f result
  | load addr n next, f => load addr n (fun bytes => (next bytes).bind f)
  | store addr bytes next, f => store addr bytes (next.bind f)
  | call c next, f => call c (fun answer => (next answer).bind f)

/-- Every store, whatever is read and whatever the calls answer, is of an address and a length that
are `ok`. -/
def Confined (answers : ∀ {α : Type}, Call α → α → Prop) (ok : Nat → Nat → Prop) : Prog Call ρ → Prop
  | ret _ => True
  | load _ n next => ∀ bytes, bytes.length = n → (next bytes).Confined answers ok
  | store addr bytes next => ok addr bytes.length ∧ next.Confined answers ok
  | call c next => ∀ answer, answers c answer → (next answer).Confined answers ok

/-- Some execution makes a call of which `Q` holds. -/
def MayCall (Q : ∀ {α : Type}, Call α → Prop) : Prog Call ρ → Prop
  | ret _ => False
  | load _ n next => ∃ bytes, bytes.length = n ∧ (next bytes).MayCall Q
  | store _ _ next => next.MayCall Q
  | call c next => Q c ∨ ∃ answer, (next answer).MayCall Q

/-- Executes a program that makes no more calls. -/
def finish : Prog Call ρ → Mem → Option (ρ × Mem)
  | ret result, m => some (result, m)
  | load addr n next, m => (next (cells (fun i => m (addr + i)) n)).finish m
  | store addr bytes next, m => next.finish (writeBytes m addr bytes)
  | call _ _, _ => none

/-- Executes a program whose calls are answered from a state, where they are answered at all. -/
def execute {τ : Type} (answer : ∀ {α : Type}, Call α → τ → Option (α × τ)) : Prog Call ρ → Mem → τ → Option (ρ × Mem × τ)
  | ret result, m, s => some (result, m, s)
  | load addr n next, m, s => (next (cells (fun i => m (addr + i)) n)).execute answer m s
  | store addr bytes next, m, s => next.execute answer (writeBytes m addr bytes) s
  | call c next, m, s => (answer c s).bind (fun r => (next r.1).execute answer m r.2)

section Rules

variable {answers : ∀ {α : Type}, Call α → α → Prop} {ok : Nat → Nat → Prop}
  {Q : ∀ {α : Type}, Call α → Prop} {p : Prog Call ρ} {f : ρ → Prog Call σ}

theorem Confined.bind (hp : p.Confined answers ok) (hf : ∀ r, (f r).Confined answers ok) :
    (p.bind f).Confined answers ok := by
  induction p with
  | ret r => exact hf r
  | load addr n next ih => exact fun bytes hbytes => ih bytes (hp bytes hbytes)
  | store addr bytes next ih => exact ⟨hp.1, ih hp.2⟩
  | call c next ih => exact fun answer hanswer => ih answer (hp answer hanswer)

theorem Confined.of_bind (h : (p.bind f).Confined answers ok) : p.Confined answers ok := by
  induction p with
  | ret r => exact trivial
  | load addr n next ih => exact fun bytes hbytes => ih bytes (h bytes hbytes)
  | store addr bytes next ih => exact ⟨h.1, ih h.2⟩
  | call c next ih => exact fun answer hanswer => ih answer (h answer hanswer)

theorem MayCall.exists (h : p.MayCall Q) : ∃ (α : Type) (c : Call α), Q c := by
  induction p with
  | ret r => exact h.elim
  | load addr n next ih =>
    obtain ⟨bytes, -, h⟩ := h
    exact ih bytes h
  | store addr bytes next ih => exact ih h
  | call c next ih =>
    rcases h with h | ⟨answer, h⟩
    · exact ⟨_, c, h⟩
    · exact ih answer h

end Rules

end Prog

end ProOS.Framework
