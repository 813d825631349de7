import ProOS.Sync.Steps

namespace ProOS.Sync

open ProOS.Framework List

/-- The books of one semaphore, kept from the trace alone. `woken` lists the waiters a post
has taken from the array and that have not run since; `resumed` counts those that have. -/
structure Ledger where
  posts : Nat
  returned : Nat
  woken : List Pid
  resumed : Nat
  wrapped : Nat
  deriving DecidableEq, Repr

def Ledger.empty : Ledger := ⟨0, 0, [], 0, 0⟩

def Ledger.settle (L : Ledger) (p : Pid) (resumed : Bool) : Ledger :=
  if resumed ∧ p ∈ L.woken then
    { L with woken := L.woken.erase p, resumed := L.resumed + 1 }
  else L

def Ledger.record (i : Nat) (L : Ledger) : Event → Ledger
  | .post _ id _ (.woke p) =>
    if id = i then { L with posts := L.posts + 1, woken := p :: L.woken } else L
  | .post _ id _ .counted => if id = i then { L with posts := L.posts + 1 } else L
  | .post _ id _ .wrapped =>
    if id = i then { L with posts := L.posts + 1, wrapped := L.wrapped + 1 } else L
  | .wait p id resumed (.returned 0) =>
    if id = i then { L.settle p resumed with returned := L.returned + 1 } else L
  | .wait p id resumed _ => if id = i then L.settle p resumed else L
  | _ => L

def ledger (i : Nat) (tr : List Event) : Ledger := tr.foldl (Ledger.record i) .empty

@[simp] theorem ledger_nil (i : Nat) : ledger i [] = .empty := rfl

@[simp] theorem ledger_snoc (i : Nat) (tr : List Event) (e : Event) :
    ledger i (tr ++ [e]) = (ledger i tr).record i e := by simp [ledger]

theorem settle_balance (L : Ledger) (p : Pid) (r : Bool) :
    (L.settle p r).woken.length + (L.settle p r).resumed = L.woken.length + L.resumed ∧
    (L.settle p r).posts = L.posts ∧ (L.settle p r).returned = L.returned ∧ (L.settle p r).wrapped = L.wrapped := by
  unfold Ledger.settle
  split
  · rename_i h
    have hl := length_erase_of_mem h.2
    have hp := length_pos_of_mem h.2
    refine ⟨?_, rfl, rfl, rfl⟩
    dsimp only
    omega
  · exact ⟨rfl, rfl, rfl, rfl⟩

variable {i : Nat} {e : Event} {v v' : Semaphore} {s₁ : State} {id : Int}

theorem record_quiet (L : Ledger) (hw : ∀ p r o, e = .wait p i r o → r = false ∧ o = .returned (-1))
    (hp : ∀ p rc x, e = .post p i rc x → x = .refused) : L.record i e = L := by
  unfold Ledger.record
  split
  case h_6 => rfl
  case h_4 p id r =>
    rw [if_neg]
    rintro rfl
    exact absurd (hw _ _ _ rfl).2 (by decide)
  case h_5 p id r o _ =>
    split
    · rename_i hid
      subst hid
      obtain ⟨rfl, -⟩ := hw _ _ _ rfl
      simp [Ledger.settle]
    · rfl
  all_goals
    rw [if_neg]
    rintro rfl
    exact absurd (hp _ _ _ rfl) (by simp)

def Semaphore.InRange (v : Semaphore) : Prop := -2 ^ 31 ≤ v.count ∧ v.count ≤ intMax

theorem int32_range (n : Int) : -2 ^ 31 ≤ int32 n ∧ int32 n ≤ intMax := by
  simp only [int32, intMax, Int.bmod_def]
  split <;> omega

theorem SemStep.inRange (h : SemStep i v e v') (hu : v.used = true) (hv : v.InRange) : v'.InRange := by
  cases h with
  | quiet => exact hv
  | create _ _ _ hf => simp [hu] at hf
  | take => exact int32_range _
  | block => exact hv
  | wake => exact hv
  | count => exact int32_range _

theorem SemStep.used_eq (h : SemStep i v e v') (hu : v.used = true) : v'.used = true := by
  cases h with
  | create => rfl
  | _ => exact hu

/-- Everything a post adds and a return takes, on both sides of the counter. -/
def Ledger.spent (L : Ledger) (v : Semaphore) : Int :=
  v.count + L.returned + L.woken.length + L.resumed + 2 ^ 32 * L.wrapped - L.posts

theorem SemStep.spent_eq (h : SemStep i v e v')
    (hu : v.used = true) (hv : v.InRange) (L : Ledger) : (L.record i e).spent v' = L.spent v := by
  cases h with
  | quiet hw hp =>
    rw [record_quiet L]
    · intro p r o he
      obtain ⟨hr, ho⟩ := hw p r o he
      refine ⟨?_, ho⟩
      by_contra hne
      exact absurd (hu.symm.trans (hr (by simpa using hne))) (by decide)
    · exact fun p rc x he => (hp p rc x he).2
  | create _ _ _ hf => simp [hu] at hf
  | take p r _ hc =>
    obtain ⟨hw, hp, hr, hx⟩ := settle_balance L p r
    have hcount : int32 (v.count - 1) = v.count - 1 :=
      int32_of_range (by omega) (by have := hv.2; omega)
    simp only [Ledger.spent, Ledger.record, if_true, hcount, hp, hx]
    push_cast
    omega
  | block p r _ hc =>
    obtain ⟨hw, hp, hr, hx⟩ := settle_balance L p r
    simp only [Ledger.spent, Ledger.record, if_true, hp, hr, hx]
    omega
  | wake p w ws _ hws =>
    simp only [Ledger.spent, Ledger.record, if_true, length_cons]
    push_cast
    omega
  | count p _ hws =>
    by_cases hm : v.count = intMax
    · simp only [Ledger.spent, hm, if_true, Ledger.record, int32_succ_intMax]
      simp only [intMax]
      push_cast
      omega
    · have hcount : int32 (v.count + 1) = v.count + 1 :=
        int32_of_range (by have := hv.1; omega) (by have := hv.2; omega)
      simp only [Ledger.spent, hm, if_false, Ledger.record, if_true, hcount]
      push_cast
      omega

theorem exec_spent {s : State} {tr : List Event} (hu : (s₁.semaphores i).used = true) (hr : (s₁.semaphores i).InRange)
    (hx : Exec Step s₁ tr s) : (ledger i tr).spent (s.semaphores i) = (s₁.semaphores i).count := by
  have key := hx.historyInvariant
    (P := fun tr s => (s.semaphores i).used = true ∧ (s.semaphores i).InRange ∧
      (ledger i tr).spent (s.semaphores i) = (s₁.semaphores i).count)
    ⟨hu, hr, by simp [Ledger.spent, Ledger.empty]⟩
    (by
      intro tr s e s' _ ih hstep
      have hsem := step_semaphore i hstep
      refine ⟨hsem.used_eq ih.1, hsem.inRange ih.1 ih.2.1, ?_⟩
      rw [ledger_snoc, hsem.spent_eq ih.1 ih.2.1]
      exact ih.2.2)
  exact key.2.2

theorem created_semaphore {s₀ : State} {p : Pid} {n : Int} (hc : Step s₀ (.semaphoreCreated p n id) s₁) (hid : 0 ≤ id) :
    s₁.semaphores id.toNat = ⟨true, n, []⟩ ∧ 0 ≤ n ∧ n ≤ intMax := by
  cases step_took hc with
  | semaphoreCreate _ _ _ hn =>
    unfold syncSemaphoreCreate at hid ⊢
    by_cases hneg : n < 0
    · simp [hneg] at hid
    · rw [if_neg hneg] at hid ⊢
      cases hf : firstUnused (fun i => (s₀.semaphores i).used) configSyncMaxSemaphores 0 with
      | none => simp [hf] at hid
      | some k =>
        simp only [Int.toNat_natCast]
        exact ⟨by simp [setSemaphore_semaphores], by omega, hn⟩

/-- The books balance: every token is in the counter, was returned by a wait, or travels with
a waiter that a post has woken. -/
def Balanced (i : Nat) (n : Int) (tr : List Event) (s : State) : Prop :=
  n + (ledger i tr).posts =
    (s.semaphores i).count + (ledger i tr).returned + (ledger i tr).woken.length

/-- Conservation along a run: the books balance in every state passed, and each waiter woken
by a post returns 0 when it runs on. -/
def Conserved (id n : Int) (s₁ : State) (tr : List Event) (s : State) : Prop :=
  Always Step s₁ tr s (Balanced id.toNat n) ∧
  ∀ pre post q o, tr = pre ++ .wait q id true o :: post →
    q ∈ (ledger id.toNat pre).woken → o = .returned 0

theorem balanced_iff {s₀ s : State} {p : Pid} {n : Int} {tr : List Event}
    (hc : Step s₀ (.semaphoreCreated p n id) s₁) (hid : 0 ≤ id) (hx : Exec Step s₁ tr s) :
    Balanced id.toNat n tr s ↔ (ledger id.toNat tr).resumed = 0 ∧ (ledger id.toNat tr).wrapped = 0 := by
  obtain ⟨hsem, hn0, hn⟩ := created_semaphore hc hid
  have hr : (s₁.semaphores id.toNat).InRange := by
    rw [hsem]
    exact ⟨by dsimp only; omega, hn⟩
  have h := exec_spent (by rw [hsem]) hr hx
  rw [hsem] at h
  simp only [Ledger.spent] at h
  unfold Balanced
  omega

theorem record_resumed_le (i : Nat) (L : Ledger) (e : Event) :
    L.resumed ≤ (L.record i e).resumed ∧ L.wrapped ≤ (L.record i e).wrapped := by
  have hs : ∀ p r, L.resumed ≤ (L.settle p r).resumed := by
    intro p r
    unfold Ledger.settle
    split <;> simp
  have hw : ∀ p r, (L.settle p r).wrapped = L.wrapped := fun p r => (settle_balance L p r).2.2.2
  unfold Ledger.record
  split
  · split <;> simp
  · split <;> simp
  · split <;> simp
  · split <;> simp [hs, hw]
  · split <;> simp [hs, hw]
  · simp

theorem ledger_resumed_mono (i : Nat) (pre post : List Event) :
    (ledger i pre).resumed ≤ (ledger i (pre ++ post)).resumed ∧
      (ledger i pre).wrapped ≤ (ledger i (pre ++ post)).wrapped := by
  induction post using List.reverseRecOn with
  | nil => simp
  | append_singleton post e ih =>
    rw [← append_assoc, ledger_snoc]
    have h := record_resumed_le i (ledger i (pre ++ post)) e
    omega

theorem resumed_pos_of_woken {pre : List Event} {q : Pid} (post : List Event)
    (o : Outcome) (hid : 0 ≤ id) (hq : q ∈ (ledger id.toNat pre).woken) :
    0 < (ledger id.toNat (pre ++ .wait q id true o :: post)).resumed := by
  have hcast : id = (id.toNat : Int) := by omega
  have hstep : 0 < (ledger id.toNat (pre ++ [.wait q id true o])).resumed := by
    have hs : ((ledger id.toNat pre).settle q true).resumed = (ledger id.toNat pre).resumed + 1 := by
      simp [Ledger.settle, hq]
    rw [ledger_snoc]
    unfold Ledger.record
    split
    case h_4 heq =>
      obtain ⟨rfl, rfl, rfl, -⟩ := Event.wait.inj heq
      rw [if_pos hcast]
      dsimp only
      omega
    case h_5 heq =>
      obtain ⟨rfl, rfl, rfl, -⟩ := Event.wait.inj heq
      rw [if_pos hcast]
      omega
    case h_6 hne => exact (hne _ _ _ _ rfl).elim
    all_goals contradiction
  have hm := (ledger_resumed_mono id.toNat (pre ++ [.wait q id true o]) post).1
  rw [append_assoc] at hm
  exact lt_of_lt_of_le hstep hm

/-- Exactly the runs in which no waiter woken by a post runs on, and in which no post meets a
counter at `INT_MAX`, conserve the tokens: a woken waiter finds the counter as it was and
either takes a token that is not its own or blocks again. -/
theorem semaphore_conserved_iff {s₀ s₁ s : State} {p : Pid} {n id : Int} {tr : List Event}
    (hc : Step s₀ (.semaphoreCreated p n id) s₁) (hid : 0 ≤ id) (hx : Exec Step s₁ tr s) :
    Conserved id n s₁ tr s ↔
      (ledger id.toNat tr).resumed = 0 ∧ (ledger id.toNat tr).wrapped = 0 := by
  constructor
  · intro h
    exact (balanced_iff hc hid hx).mp (h.1.last hx)
  · rintro ⟨h1, h2⟩
    constructor
    · intro pre post s' ht hpre _
      have hm := ledger_resumed_mono id.toNat pre post
      rw [← ht] at hm
      exact (balanced_iff hc hid hpre).mpr ⟨by omega, by omega⟩
    · intro pre post q o ht hq
      have hpos := resumed_pos_of_woken post o hid hq
      rw [← ht] at hpos
      omega

/-- Process 1 waits on an empty semaphore, process 2 posts, process 1 runs on. -/
def lostPost : List Action := [.semaphoreWait 1 0, .semaphorePost 2 0, .resume 1]

/-- Process 1 takes the only token and process 2 puts one back. -/
def takeAndPost : List Action := [.semaphoreWait 1 0, .semaphorePost 2 0]

theorem semaphore_post_lost :
    ∃ s tr, Step syncInit (.semaphoreCreated 1 0 0) (syncSemaphoreCreate syncInit 0).1 ∧
      Exec Step (syncSemaphoreCreate syncInit 0).1 tr s ∧
      ¬Conserved 0 0 (syncSemaphoreCreate syncInit 0).1 tr s := by
  have hsome : (performAll perform (syncSemaphoreCreate syncInit 0).1 lostPost).isSome = true := by
    decide
  have hrun := performAll_exec perform lostPost _ _ _ (Option.some_get hsome).symm
  refine ⟨_, _, ⟨.semaphoreCreate 1 0, rfl⟩, hrun, ?_⟩
  intro h
  have hb := h.1.last hrun
  revert hb
  unfold Balanced
  decide

theorem semaphore_conserved_takeAndPost :
    ∃ s tr, tr.length = 2 ∧ Exec Step (syncSemaphoreCreate syncInit 1).1 tr s ∧
      Conserved 0 1 (syncSemaphoreCreate syncInit 1).1 tr s := by
  have hsome : (performAll perform (syncSemaphoreCreate syncInit 1).1 takeAndPost).isSome = true := by
    decide
  have hrun := performAll_exec perform takeAndPost _ _ _ (Option.some_get hsome).symm
  have hc : Step syncInit (.semaphoreCreated 1 1 0) (syncSemaphoreCreate syncInit 1).1 :=
    ⟨.semaphoreCreate 1 1, rfl⟩
  exact ⟨_, _, by decide, hrun, (semaphore_conserved_iff hc (by decide) hrun).mpr (by decide)⟩

end ProOS.Sync
