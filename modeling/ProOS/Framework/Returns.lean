import Mathlib

namespace ProOS.Framework

section Returns

variable {α β : Type*} {f : Nat → Option α} {a b : α}

/-- A computation that is given more and more fuel comes to the result `a` and stays there. -/
def Returns (f : Nat → Option α) (a : α) : Prop := ∃ n, ∀ k, n ≤ k → f k = some a

theorem Returns.unique (ha : Returns f a) (hb : Returns f b) : a = b := by
  obtain ⟨n, hn⟩ := ha
  obtain ⟨n', hn'⟩ := hb
  have h := hn (max n n') (le_max_left _ _)
  rw [hn' (max n n') (le_max_right _ _)] at h
  exact (Option.some.inj h).symm

theorem Returns.of_some (a : α) : Returns (fun _ => some a) a := ⟨0, fun _ _ => rfl⟩

theorem Returns.bind {g : Nat → α → Option β} {c : β} (ha : Returns f a) (hc : Returns (g · a) c) :
    Returns (fun n => (f n).bind (g n)) c := by
  obtain ⟨n, hn⟩ := ha
  obtain ⟨n', hn'⟩ := hc
  refine ⟨max n n', ?_⟩
  intro k hk
  dsimp only
  rw [hn k (le_trans (le_max_left _ _) hk)]
  exact hn' k (le_trans (le_max_right _ _) hk)

theorem Returns.map {g : α → β} (ha : Returns f a) : Returns (fun n => (f n).map g) (g a) := by
  obtain ⟨n, hn⟩ := ha
  refine ⟨n, ?_⟩
  intro k hk
  dsimp only
  rw [hn k hk, Option.map_some]

/-- What never runs out of fuel for good. -/
def Terminates (f : Nat → Option α) : Prop := ∃ a, Returns f a

theorem Terminates.of_some (a : α) : Terminates (fun _ => some a) := ⟨a, .of_some a⟩

theorem Terminates.of_succ (h : Terminates (fun n => f (n + 1))) : Terminates f := by
  obtain ⟨a, n, hn⟩ := h
  refine ⟨a, n + 1, ?_⟩
  intro k hk
  obtain ⟨k, rfl⟩ : ∃ j, k = j + 1 := ⟨k - 1, by omega⟩
  exact hn k (Nat.le_of_succ_le_succ hk)

theorem Terminates.bind {g : Nat → α → Option β} (ha : Terminates f)
    (hg : ∀ a, Returns f a → Terminates (g · a)) : Terminates (fun n => (f n).bind (g n)) := by
  obtain ⟨a, ha⟩ := ha
  obtain ⟨c, hc⟩ := hg a ha
  exact ⟨c, ha.bind hc⟩

end Returns

/-! A call that can fail: `some none` is the result -1. -/

section Fallible

variable {α β : Type*}

def onSuccess (x : Option (Option α)) (f : α → Option (Option β)) : Option (Option β) :=
  x.bind (fun r => r.elim (some none) f)

theorem Returns.onSuccess {f : Nat → Option (Option α)} {g : Nat → α → Option (Option β)} {a : α}
    {c : Option β} (ha : Returns f (some a)) (hc : Returns (g · a) c) :
    Returns (fun n => Framework.onSuccess (f n) (g n)) c :=
  ha.bind hc

theorem Returns.onFailure {f : Nat → Option (Option α)} {g : Nat → α → Option (Option β)}
    (ha : Returns f none) : Returns (fun n => Framework.onSuccess (f n) (g n)) none :=
  ha.bind (.of_some none)

theorem Terminates.onSuccess {f : Nat → Option (Option α)} {g : Nat → α → Option (Option β)}
    (ha : Terminates f) (hg : ∀ a, Returns f (some a) → Terminates (g · a)) :
    Terminates (fun n => Framework.onSuccess (f n) (g n)) := by
  apply ha.bind
  intro r hr
  cases r with
  | none => exact .of_some none
  | some a => exact hg a hr

end Fallible

end ProOS.Framework
