import ProOS.Framework.LinkedList
import ProOS.Framework.Returns

namespace ProOS.Framework

section Follow

variable {ι σ ρ : Type*} {next : ι → Option ι} {stop : ι → Bool} {body : ι → σ → ρ ⊕ σ}
  {leave : ι → σ → ρ} {x : ι} {xs : List ι} {s : σ}

/-- `while (!stop(x)) { body; if (!next(x)) break; x = next(x); }` on fuel. The body leaves the loop with a
result or goes on with a state; `leave` is the result of a loop that came to its end at `x`. -/
def follow (next : ι → Option ι) (stop : ι → Bool) (body : ι → σ → ρ ⊕ σ) (leave : ι → σ → ρ) :
    Nat → ι → σ → Option ρ
  | fuel, x, s =>
    if stop x then some (leave x s)
    else
      match fuel with
      | 0 => none
      | fuel + 1 =>
        match body x s with
        | .inl r => some r
        | .inr s =>
          match next x with
          | none => some (leave x s)
          | some y => follow next stop body leave fuel y s

def overList (body : ι → σ → ρ ⊕ σ) (leave : ι → σ → ρ) : ι → List ι → σ → ρ
  | x, [], s => (body x s).elim id (leave x)
  | x, y :: ys, s => (body x s).elim id (overList body leave y ys)

theorem follow_stop (hx : stop x = true) (n : Nat) : follow next stop body leave n x s = some (leave x s) := by
  cases n with
  | zero => rw [follow, if_pos hx]
  | succ n => rw [follow, if_pos hx]

theorem follow_linked (hl : Linked next (next x) xs) (hx : ∀ z ∈ x :: xs, stop z = false) {n : Nat}
    (hn : xs.length < n) : follow next stop body leave n x s = some (overList body leave x xs s) := by
  induction xs generalizing x n s with
  | nil =>
    obtain ⟨n, rfl⟩ : ∃ k, n = k + 1 := ⟨n - 1, by omega⟩
    have hnext : next x = none := hl
    rw [follow, if_neg (by simp [hx x])]
    cases hb : body x s with
    | inl r => simp [overList, hb]
    | inr s => simp [overList, hb, hnext]
  | cons y ys ih =>
    obtain ⟨n, rfl⟩ : ∃ k, n = k + 1 := ⟨n - 1, by omega⟩
    obtain ⟨hnext, hrest⟩ := hl
    rw [follow, if_neg (by simp [hx x])]
    cases hb : body x s with
    | inl r => simp [overList, hb]
    | inr s =>
      have h := ih (s := s) hrest (fun z hz => hx z (List.mem_cons_of_mem x hz)) (n := n) (by simpa using hn)
      simp [overList, hb, hnext, h]

theorem follow_terminates (hl : Linked next (some x) xs) : Terminates (fun n => follow next stop body leave n x s) := by
  induction xs generalizing x s with
  | nil => cases hl
  | cons y ys ih =>
    obtain ⟨hxy, hrest⟩ := hl
    obtain rfl := Option.some.inj hxy
    by_cases hs : stop x = true
    · exact ⟨leave x s, 0, fun n _ => follow_stop hs n⟩
    · -- one round, and then the rest of the list
      refine .of_succ ?_
      cases hb : body x s with
      | inl r => simpa [follow, hs, hb] using Terminates.of_some r
      | inr s' =>
        cases hnext : next x with
        | none => simpa [follow, hs, hb, hnext] using Terminates.of_some (leave x s')
        | some z =>
          rw [hnext] at hrest
          simpa [follow, hs, hb, hnext] using ih (s := s') hrest

end Follow

end ProOS.Framework
