import ProOS.Sched.Queues

/-! Who holds which pid in the table of processes. -/

namespace ProOS.Sched

open ProOS.Framework Function Option List

def State.Live (s : State) (x : Ptr) : Prop := s.state x ≠ .unused ∧ s.state x ≠ .zombie

/-- The writes to the table, `true` where a thread is asked for. -/
inductive TableStep (s : State) : Bool → State → Prop
  | create (kind : ThreadKind) (basePriority : Nat) :
      TableStep s true (schedulerCreateThread s kind basePriority false).1
  -- `process_exit`
  | exit (x : Ptr) (h : s.Live x) : TableStep s false { s with state := update s.state x .zombie }
  -- `reclaim_zombie`
  | reclaim (x : Ptr) (h : s.state x = .zombie) : TableStep s false (s.reclaimSlot x)
  -- all other writes to a process's state
  | turn (x : Ptr) (v : ProcState) (h : s.Live x) (hv : v ≠ .unused ∧ v ≠ .zombie) :
      TableStep s false { s with state := update s.state x v }

def PidsUnique (s : State) : Prop := ∀ x y, s.Live x → s.Live y → s.pid x = s.pid y → x = y

/-- The table after `count` threads have been created, as long as their pids have not wrapped. -/
structure Numbered (s : State) (count : Nat) : Prop where
  next : s.nextPid = int32 (count + 1)
  bound : ∀ x, s.state x ≠ .unused → (0 : Int) ≤ s.pid x ∧ s.pid x ≤ (count : Int)
  inj : ∀ x y, s.state x ≠ .unused → s.state y ≠ .unused → s.pid x = s.pid y → x = y

section Steps

variable {s s' : State} {x : Ptr} {count : Nat}

theorem schedulerCreateThread_none (h : allocProcessSlot s = none) (kind : ThreadKind) (basePriority : Nat) :
    (schedulerCreateThread s kind basePriority false).1 = s := by
  simp only [schedulerCreateThread, h]

theorem schedulerCreateThread_table (h : allocProcessSlot s = some x) (kind : ThreadKind) (basePriority : Nat) :
    ∃ s', (schedulerCreateThread s kind basePriority false).1 = s' ∧ s'.state = update s.state x .ready ∧
      s'.pid = update s.pid x (acquirePid s).2 ∧ s'.nextPid = (acquirePid s).1.nextPid := by
  refine ⟨_, rfl, ?_⟩
  simp only [schedulerCreateThread, h, Bool.false_eq_true, if_false]
  obtain ⟨n, r, b, f, he⟩ :=
    schedulerEnqueueReady_only ((acquirePid s).1.initThread x kind basePriority (acquirePid s).2) x
  rw [he]
  exact ⟨update_idem _ _ _, update_idem _ _ _, rfl⟩

theorem Numbered.of_subset (h : Numbered s count) (hnext : s'.nextPid = s.nextPid)
    (hkeep : ∀ x, s'.state x ≠ .unused → s.state x ≠ .unused ∧ s'.pid x = s.pid x) : Numbered s' count := by
  refine ⟨hnext.trans h.next, ?_, ?_⟩
  · intro x hx
    obtain ⟨hx, hp⟩ := hkeep x hx
    rw [hp]
    exact h.bound x hx
  · intro x y hx hy he
    obtain ⟨hx, hpx⟩ := hkeep x hx
    obtain ⟨hy, hpy⟩ := hkeep y hy
    exact h.inj x y hx hy (by rw [← hpx, ← hpy, he])

theorem Numbered.setState (h : Numbered s count) (hx : s.state x ≠ .unused) (v : ProcState) :
    Numbered { s with state := update s.state x v } count := by
  refine h.of_subset rfl fun y hy => ⟨?_, rfl⟩
  by_cases hyx : y = x
  · rw [hyx]
    exact hx
  · have hy : update s.state x v y ≠ .unused := hy
    rwa [update_of_ne hyx] at hy

theorem Numbered.create (h : Numbered s count) (hcount : count + 1 < 2 ^ 31)
    (hstate : s'.state = update s.state x .ready) (hpid : s'.pid = update s.pid x (acquirePid s).2)
    (hnext : s'.nextPid = (acquirePid s).1.nextPid) : Numbered s' (count + 1) := by
  have hacquire : acquirePid s = ({ s with nextPid := int32 (count + 1 + 1) }, (count + 1 : Int)) := by
    have hsmall : int32 (count + 1) = count + 1 := Int.bmod_eq_of_le (by omega) (by omega)
    rw [acquirePid, h.next, hsmall, if_neg (by omega)]
  rw [hacquire] at hpid hnext
  have hnew : s'.pid x = (count : Int) + 1 := by rw [hpid, update_self]
  have hold : ∀ y, y ≠ x → s'.state y ≠ .unused →
      s.state y ≠ .unused ∧ s'.pid y = s.pid y ∧ (0 : Int) ≤ s'.pid y ∧ s'.pid y < (count : Int) + 1 := by
    intro y hyx hy
    rw [hstate, update_of_ne hyx] at hy
    have hb := h.bound y hy
    rw [hpid, update_of_ne hyx]
    exact ⟨hy, rfl, hb.1, Int.lt_add_one_of_le hb.2⟩
  refine ⟨by rw [hnext]; push_cast; rfl, ?_, ?_⟩
  · intro y hy
    push_cast
    by_cases hyx : y = x
    · rw [hyx, hnew]
      exact ⟨Int.le_add_one (Int.natCast_nonneg _), le_rfl⟩
    · obtain ⟨-, -, hpos, hlt⟩ := hold y hyx hy
      exact ⟨hpos, hlt.le⟩
  · intro y z hy hz he
    by_cases hyx : y = x <;> by_cases hzx : z = x
    · rw [hyx, hzx]
    · rw [hyx, hnew] at he
      exact absurd he.symm (hold z hzx hz).2.2.2.ne
    · rw [hzx, hnew] at he
      exact absurd he (hold y hyx hy).2.2.2.ne
    · obtain ⟨hy, hp, -⟩ := hold y hyx hy
      obtain ⟨hz, hq, -⟩ := hold z hzx hz
      exact h.inj y z hy hz (by rw [← hp, ← hq, he])

theorem Numbered.step {b : Bool} (h : Numbered s count) (hcount : b = true → count + 1 < 2 ^ 31)
    (hstep : TableStep s b s') : Numbered s' count ∨ b = true ∧ Numbered s' (count + 1) := by
  cases hstep with
  | create kind basePriority =>
    cases halloc : allocProcessSlot s with
    | none =>
      rw [schedulerCreateThread_none halloc]
      exact .inl h
    | some x =>
      obtain ⟨s', rfl, hstate, hpid, hnext⟩ := schedulerCreateThread_table halloc kind basePriority
      exact .inr ⟨rfl, h.create (hcount rfl) hstate hpid hnext⟩
  | exit x hx => exact .inl (h.setState hx.1 _)
  | turn x v hx hv => exact .inl (h.setState hx.1 _)
  | reclaim x hx =>
    refine .inl (h.of_subset rfl fun y hy => ?_)
    have hy : update s.state x .unused y ≠ .unused := hy
    have hyx : y ≠ x := by
      rintro rfl
      exact hy (update_self _ _ _)
    rw [update_of_ne hyx] at hy
    exact ⟨hy, update_of_ne hyx _ _⟩

/-- Slots 0 and 1 stay in use, the second with the pid 1, and the third can be taken. -/
structure Occupied (s : State) (next : Int) : Prop where
  idle : s.Live 0
  first : s.Live 1
  pid : s.pid 1 = 1
  free : ¬s.Live 2
  nextPid : s.nextPid = next

theorem Occupied.alloc {next : Int} (h : Occupied s next) : allocProcessSlot s = some 2 := by
  have hfree : s.state 2 = .unused ∨ s.state 2 = .zombie := by
    by_contra hlive
    exact h.free (not_or.mp hlive)
  refine find?_eq_some_iff_append.mpr ⟨by simpa using hfree, [0, 1], (finRange maxProcs).drop 3, by decide, ?_⟩
  simp [h.idle.1, h.idle.2, h.first.1, h.first.2]

theorem Occupied.round {next : Int} (h : Occupied s next) (hpos : 0 < next) :
    ∃ s', Exec TableStep s [true, false] s' ∧ Occupied s' (int32 (next + 1)) := by
  obtain ⟨s₁, hs₁, hstate, hpid, hnext⟩ := schedulerCreateThread_table h.alloc .user 0
  have hcreate : TableStep s true s₁ := hs₁ ▸ .create .user 0
  have hacquire : (acquirePid s).1.nextPid = int32 (next + 1) := by
    rw [acquirePid, h.nextPid, if_neg (not_le.mpr hpos)]
  have hlive : s₁.Live 2 := by simp [State.Live, hstate]
  refine ⟨_, (Exec.single hcreate).snoc (.exit 2 hlive), ?_, ?_, ?_, ?_, hnext.trans hacquire⟩
  · simpa [State.Live, hstate] using h.idle
  · simpa [State.Live, hstate] using h.first
  · simpa [hpid] using h.pid
  · simp [State.Live]

theorem exists_occupied (j : Nat) (hj : j + 2 ≤ 2 ^ 31) :
    ∃ tr s, Exec TableStep processSystemInit tr s ∧ tr.count true = j + 1 ∧ Occupied s (int32 (j + 2)) := by
  induction j with
  | zero =>
    have halloc : allocProcessSlot processSystemInit = some 1 := by decide
    obtain ⟨s, rfl, hstate, hpid, hnext⟩ := schedulerCreateThread_table halloc .user 0
    refine ⟨_, _, .single (.create .user 0), rfl, ?_, ?_, ?_, ?_, hnext.trans rfl⟩
    · rw [State.Live, hstate]
      decide
    · rw [State.Live, hstate]
      decide
    · rw [hpid]
      decide
    · rw [State.Live, hstate]
      decide
  | succ j ih =>
    obtain ⟨tr, s, hrun, hcount, hocc⟩ := ih (by omega)
    have hsmall : int32 (j + 2) = j + 2 := Int.bmod_eq_of_le (by omega) (by omega)
    rw [hsmall] at hocc
    obtain ⟨s', hround, hocc⟩ := hocc.round (by omega)
    refine ⟨_, s', hrun.trans hround, by rw [count_append, hcount]; rfl, ?_⟩
    rwa [show ((j + 1 : Nat) : Int) + 2 = j + 2 + 1 by push_cast; ring]

end Steps

theorem numbered_run {tr : List Bool} {s : State} (hrun : Exec TableStep processSystemInit tr s)
    (hcount : tr.count true < 2 ^ 31) : ∃ c ≤ tr.count true, Numbered s c := by
  refine hrun.historyInvariant (P := fun tr s => tr.count true < 2 ^ 31 → ∃ c ≤ tr.count true, Numbered s c) ?_ ?_
    hcount
  · intro _
    refine ⟨0, le_rfl, rfl, ?_, ?_⟩
    · decide
    · decide
  · intro tr s b s' _ ih hstep hlt
    rw [count_append, count_singleton] at hlt ⊢
    obtain ⟨c, hc, hs⟩ := ih (by omega)
    have hbound : b = true → c + 1 < 2 ^ 31 := by
      rintro rfl
      rw [if_pos (beq_self_eq_true _)] at hlt
      omega
    rcases hs.step hbound hstep with hs' | ⟨rfl, hs'⟩
    · exact ⟨c, by omega, hs'⟩
    · exact ⟨c + 1, by simpa using hc, hs'⟩

/-- With the 2^31st thread the counter has wrapped, and the pid 1 is given again. -/
theorem exists_shared_pid : ∃ tr s, Exec TableStep processSystemInit tr s ∧ tr.count true = 2 ^ 31 ∧ ¬PidsUnique s := by
  obtain ⟨tr, s, hrun, hcount, hocc⟩ := exists_occupied (2 ^ 31 - 2) (by norm_num)
  obtain ⟨s', hs', hstate, hpid, -⟩ := schedulerCreateThread_table hocc.alloc .user 0
  have hstep : TableStep s true s' := hs' ▸ .create .user 0
  refine ⟨_, s', hrun.snoc hstep, by rw [count_append, hcount]; rfl, ?_⟩
  have hfirst : s'.Live 1 := by simpa [State.Live, hstate] using hocc.first
  have hnew : s'.Live 2 := by simp [State.Live, hstate]
  have hsame : s'.pid 1 = s'.pid 2 := by
    have hwrap : (acquirePid s).2 = 1 := by
      have hneg : s.nextPid ≤ 0 := by
        rw [hocc.nextPid]
        decide
      rw [acquirePid, if_pos hneg]
    rw [hpid, update_self, hwrap, update_of_ne (by decide), hocc.pid]
  exact fun h => absurd (h 1 2 hfirst hnew hsame) (by decide)

theorem live_pids_unique_iff (n : Nat) :
    (∀ tr s, Exec TableStep processSystemInit tr s → tr.count true ≤ n → PidsUnique s) ↔ n < 2 ^ 31 := by
  constructor
  · intro h
    by_contra hn
    obtain ⟨tr, s, hrun, hcount, hshared⟩ := exists_shared_pid
    exact hshared (h tr s hrun (by omega))
  · intro hn tr s hrun hcount
    obtain ⟨c, -, hs⟩ := numbered_run hrun (by omega)
    exact fun x y hx hy => hs.inj x y hx.1 hy.1

theorem live_pids_repeat : ∃ tr s, Exec TableStep processSystemInit tr s ∧ ¬PidsUnique s := by
  obtain ⟨tr, s, hrun, -, hshared⟩ := exists_shared_pid
  exact ⟨tr, s, hrun, hshared⟩

end ProOS.Sched
