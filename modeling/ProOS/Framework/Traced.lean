import Mathlib

namespace ProOS.Framework

open List

variable {ω α β σ : Type}

/-- A computation that notes what it uses, in order, and may give up. -/
structure Traced (ω α : Type) where
  uses : List ω
  result : Option α

namespace Traced

def ret (a : α) : Traced ω α := ⟨[], some a⟩

def fail : Traced ω α := ⟨[], none⟩

def use (u : ω) : Traced ω Unit := ⟨[u], some ()⟩

/-- Nothing more is used once the computation has given up. -/
def andThen (t : Traced ω α) (f : α → Traced ω β) : Traced ω β :=
  match t.result with
  | none => ⟨t.uses, none⟩
  | some a => ⟨t.uses ++ (f a).uses, (f a).result⟩

instance : Monad (Traced ω) where
  pure := ret
  bind := andThen

/-- The loop over a list that threads a state. -/
def loop (f : σ → α → Traced ω σ) : σ → List α → Traced ω σ
  | s, [] => ret s
  | s, a :: as => andThen (f s a) (fun s' => loop f s' as)

/-- All uses meet `P`, and a result meets `Q`. -/
structure Meets (P : ω → Prop) (t : Traced ω α) (Q : α → Prop) : Prop where
  uses : ∀ u ∈ t.uses, P u
  result : ∀ a, t.result = some a → Q a

variable {P : ω → Prop} {t : Traced ω α} {Q : α → Prop} {R : β → Prop}

theorem Meets.ret {a : α} (h : Q a) : Meets P (ret a) Q :=
  ⟨by rintro u ⟨⟩, by rintro b ⟨⟩; exact h⟩

theorem Meets.fail : Meets P (fail : Traced ω α) Q := ⟨by rintro u ⟨⟩, by rintro b ⟨⟩⟩

theorem Meets.use {u : ω} {Q : Unit → Prop} (h : P u) (hq : Q ()) : Meets P (use u) Q := by
  refine ⟨fun v hv => ?_, fun _ _ => hq⟩
  rw [mem_singleton.mp hv]
  exact h

theorem Meets.andThen {f : α → Traced ω β} (h : Meets P t Q) (hf : ∀ a, Q a → Meets P (f a) R) :
    Meets P (t.andThen f) R := by
  unfold Traced.andThen
  split
  · exact ⟨h.uses, by rintro b ⟨⟩⟩
  · rename_i a ha
    have hnext := hf a (h.result a ha)
    refine ⟨fun u hu => ?_, hnext.result⟩
    rcases mem_append.mp hu with hu | hu
    · exact h.uses u hu
    · exact hnext.uses u hu

theorem Meets.bind {f : α → Traced ω β} (h : Meets P t Q) (hf : ∀ a, Q a → Meets P (f a) R) :
    Meets P (t >>= f) R := h.andThen hf

theorem Meets.loop {f : σ → α → Traced ω σ} {I : σ → Prop} {s : σ} {as : List α} (h0 : I s)
    (hf : ∀ s, I s → ∀ a ∈ as, Meets P (f s a) I) : Meets P (loop f s as) I := by
  induction as generalizing s with
  | nil => exact .ret h0
  | cons a as ih =>
    refine (hf s h0 a mem_cons_self).andThen (fun s' hs' => ih hs' ?_)
    exact fun s hs b hb => hf s hs b (mem_cons_of_mem a hb)

@[simp] theorem result_bind (t : Traced ω α) (f : α → Traced ω β) : (t >>= f).result = t.result.bind (fun a => (f a).result) := by
  show (andThen t f).result = _
  unfold andThen
  split
  · rename_i h
    rw [h, Option.bind_none]
  · rename_i a h
    rw [h, Option.bind_some]

@[simp] theorem result_use (u : ω) : (use u).result = some () := rfl

theorem result_loop (f : σ → α → Traced ω σ) (s : σ) (as : List α) :
    (loop f s as).result = as.foldlM (fun s a => (f s a).result) s := by
  induction as generalizing s with
  | nil => rfl
  | cons a as ih =>
    rw [foldlM_cons]
    refine (result_bind (f s a) (fun s' => loop f s' as)).trans ?_
    simp only [ih]
    rfl

end Traced

theorem foldlM_congr {f g : σ → α → Option σ} {as : List α} (h : ∀ a ∈ as, ∀ s, f s a = g s a) (s : σ) :
    as.foldlM f s = as.foldlM g s := by
  induction as generalizing s with
  | nil => rfl
  | cons a as ih =>
    rw [foldlM_cons, foldlM_cons, h a mem_cons_self]
    exact congrArg _ (funext (ih (fun b hb => h b (mem_cons_of_mem a hb))))

theorem foldlM_flatMap (g : α → List β) (f : σ → β → Option σ) (as : List α) (s : σ) :
    (as.flatMap g).foldlM f s = as.foldlM (fun s a => (g a).foldlM f s) s := by
  induction as generalizing s with
  | nil => rfl
  | cons a as ih => simp [flatMap_cons, foldlM_append, ih]

end ProOS.Framework
