import ProOS.Sched.Model

namespace ProOS.Sched

open ProOS.Framework Function Option List

section Bitmap

variable {p : Nat} (hp : p < 32) (b : BitVec 32) (q : Nat)

include hp

theorem getLsbD_bitOf : (bitOf p).getLsbD q = decide (q = p) := by
  simp only [bitOf, BitVec.getLsbD_shiftLeft, BitVec.getLsbD_one]
  by_cases h : q = p
  · subst h
    simp [hp]
  · simp [h]
    omega

theorem getLsbD_set : (b ||| bitOf p).getLsbD q = (b.getLsbD q || decide (q = p)) := by
  rw [BitVec.getLsbD_or, getLsbD_bitOf hp]

theorem getLsbD_clear : (b &&& ~~~bitOf p).getLsbD q = (b.getLsbD q && decide (q ≠ p)) := by
  by_cases hq : q < 32
  · rw [BitVec.getLsbD_and, BitVec.getLsbD_not, getLsbD_bitOf hp]
    simp [hq]
  · rw [BitVec.getLsbD_of_ge _ _ (by omega), BitVec.getLsbD_of_ge _ _ (by omega)]
    simp

theorem and_bitOf_eq_zero : b &&& bitOf p = 0#32 ↔ b.getLsbD p = false := by
  constructor
  · intro h
    have hbit := congrArg (fun v => BitVec.getLsbD v p) h
    simpa [getLsbD_bitOf hp] using hbit
  · intro h
    apply BitVec.eq_of_getLsbD_eq
    intro i hi
    rw [BitVec.getLsbD_and, getLsbD_bitOf hp]
    by_cases he : i = p
    · subst he
      simp [h]
    · simp [he]

end Bitmap

theorem schedulerClampPriority_lt (value : Int) : schedulerClampPriority value < 4 := by
  unfold schedulerClampPriority schedPriorityMax
  split_ifs <;> omega

/-- `Q p` lists the processes linked in ready queue `p`. -/
structure RunRep (s : State) (Q : Nat → List Ptr) : Prop where
  linked : ∀ p < 4, Linked s.nextRun (s.readyQueues p).head (Q p)
  tail : ∀ p < 4, (s.readyQueues p).tail = (Q p).getLast?
  disjoint : ∀ p < 4, ∀ q < 4, ∀ x, x ∈ Q p → x ∈ Q q → p = q
  flag : ∀ x, s.onRunQueue x = true ↔ ∃ p < 4, x ∈ Q p
  bitmap : ∀ p, s.readyBitmap.getLsbD p = true ↔ p < 4 ∧ Q p ≠ []

/-- `Z` lists the processes linked in the sleep list. -/
def SleepRep (s : State) (Z : List Ptr) : Prop := Linked s.nextSleep s.sleepList Z

def QueueOnly (s s' : State) : Prop :=
  ∃ n r b f, s' = { s with nextRun := n, readyQueues := r, readyBitmap := b, onRunQueue := f }

def SleepOnly (s s' : State) : Prop := ∃ n l, s' = { s with nextSleep := n, sleepList := l }

theorem QueueOnly.refl (s : State) : QueueOnly s s := ⟨_, _, _, _, rfl⟩

theorem SleepOnly.refl (s : State) : SleepOnly s s := ⟨_, _, rfl⟩

theorem SleepOnly.runRep {s s' : State} {Q : Nat → List Ptr} (h : SleepOnly s s') (hq : RunRep s Q) : RunRep s' Q := by
  obtain ⟨n, l, rfl⟩ := h
  exact ⟨hq.linked, hq.tail, hq.disjoint, hq.flag, hq.bitmap⟩

theorem length_le_maxProcs {next : Ptr → Option Ptr} {h : Option Ptr} {xs : List Ptr}
    (hl : Linked next h xs) : xs.length ≤ maxProcs := by
  have hcard := hl.nodup.length_le_card
  simpa using hcard

variable {q : Nat} {y : Ptr} {ps : List Nat}

section Enqueue

variable {s : State} {Q : Nat → List Ptr} {x : Ptr}

theorem schedulerEnqueueReady_only (s : State) (x : Ptr) : QueueOnly s (schedulerEnqueueReady s x) := by
  unfold schedulerEnqueueReady
  split_ifs
  · exact QueueOnly.refl s
  · exact QueueOnly.refl s
  · exact ⟨_, _, _, _, rfl⟩

/-- The queues after `x` has gone to the end of queue `p`. -/
def pushed (Q : Nat → List Ptr) (p : Nat) (x : Ptr) : Nat → List Ptr :=
  update Q p (Q p ++ [x])

theorem mem_pushed {p : Nat} : y ∈ pushed Q p x q ↔ y ∈ Q q ∨ (q = p ∧ y = x) := by
  by_cases h : q = p
  · subst h
    simp [pushed]
  · simp [pushed, h]

theorem RunRep.not_mem (h : RunRep s Q) (hx : s.onRunQueue x = false) {p : Nat} (hp : p < 4) : x ∉ Q p := by
  intro hmem
  rw [(h.flag x).mpr ⟨p, hp, hmem⟩] at hx
  cases hx

theorem linkBehind_other {queue : RunQueue} (next : Ptr → Option Ptr)
    (h : queue.tail ≠ some y) : linkBehind queue next x y = next y := by
  unfold linkBehind
  cases queue.head with
  | none => rfl
  | some z =>
    cases ht : queue.tail with
    | none => rfl
    | some t =>
      have hyt : y ≠ t := fun he => h (by rw [ht, he])
      exact update_of_ne hyt _ _

theorem RunRep.enqueue (h : RunRep s Q) (hi : s.idleProcess ≠ some x) (hx : s.onRunQueue x = false) :
    RunRep (schedulerEnqueueReady s x) (pushed Q (schedulerClampPriority (s.dynamicPriority x)) x) := by
  generalize hpr : schedulerClampPriority (s.dynamicPriority x) = p
  have hp : p < 4 := hpr ▸ schedulerClampPriority_lt _
  have hfresh : ∀ q < 4, x ∉ Q q := fun q hq => h.not_mem hx hq
  have heq : schedulerEnqueueReady s x =
      { s with
        nextRun := linkBehind (s.readyQueues p) (update s.nextRun x none) x
        readyQueues := update s.readyQueues p
          ⟨some ((s.readyQueues p).head.getD x), some x⟩
        readyBitmap := s.readyBitmap ||| bitOf p
        onRunQueue := update s.onRunQueue x true } := by
    simp only [schedulerEnqueueReady, hi, hx, hpr, if_false, Bool.false_eq_true]
  have hlink := h.linked p hp
  have htail := h.tail p hp
  -- the successor function outside `x` and the old tail is unchanged
  have hothers : ∀ q < 4, q ≠ p → ∀ y ∈ Q q,
      (schedulerEnqueueReady s x).nextRun y = s.nextRun y := by
    intro q hq hqp y hy
    have hyx : y ≠ x := fun he => hfresh q hq (he ▸ hy)
    have hyt : (s.readyQueues p).tail ≠ some y := by
      intro ht
      rw [htail] at ht
      exact hqp (h.disjoint q hq p hp y hy (mem_of_getLast? ht))
    rw [heq]
    dsimp only
    rw [linkBehind_other _ hyt, update_of_ne hyx]
  refine ⟨?_, ?_, ?_, ?_, ?_⟩
  · intro q hq
    by_cases hqp : q = p
    · subst hqp
      rw [pushed, update_self]
      cases hlist : Q q using List.reverseRecOn with
      | nil =>
        rw [hlist] at hlink
        have hhead : (s.readyQueues q).head = none := hlink
        rw [heq]
        simp [hhead, linkBehind]
      | append_singleton ys t =>
        rw [hlist] at hlink htail
        have ht : (s.readyQueues q).tail = some t := by simpa using htail
        obtain ⟨z, hz⟩ : ∃ z, (s.readyQueues q).head = some z := by
          rw [hlink.head_eq]
          cases ys with
          | nil => exact ⟨t, rfl⟩
          | cons y ys => exact ⟨y, rfl⟩
        have hmemt : t ∈ Q q := by simp [hlist]
        have htx : t ≠ x := fun he => hfresh q hp (he ▸ hmemt)
        have hnd := hlink.nodup
        rw [heq]
        simp only [update_self, linkBehind, hz, ht, getD_some]
        rw [hz] at hlink
        apply hlink.snoc
        · rw [update_self]
        · rw [update_of_ne htx.symm, update_self]
        · intro y hy
          have hyq : y ∈ Q q := by simp [hlist, hy]
          have hyt : y ≠ t := by
            rintro rfl
            exact (nodup_append'.mp hnd).2.2 hy (by simp)
          have hyx : y ≠ x := fun he => hfresh q hp (he ▸ hyq)
          rw [update_of_ne hyt, update_of_ne hyx]
    · rw [pushed, update_of_ne hqp]
      have hhead : ((schedulerEnqueueReady s x).readyQueues q).head = (s.readyQueues q).head := by
        rw [heq]
        simp [update_of_ne hqp]
      rw [hhead]
      exact (h.linked q hq).congr (hothers q hq hqp)
  · intro q hq
    rw [heq]
    by_cases hqp : q = p
    · subst hqp
      simp [pushed]
    · simp only [pushed, update_of_ne hqp]
      exact h.tail q hq
  · intro q hq r hr y hyq hyr
    rw [mem_pushed] at hyq hyr
    rcases hyq with hyq | ⟨rfl, rfl⟩
    · rcases hyr with hyr | ⟨rfl, rfl⟩
      · exact h.disjoint q hq r hr y hyq hyr
      · exact absurd hyq (hfresh q hq)
    · rcases hyr with hyr | ⟨rfl, -⟩
      · exact absurd hyr (hfresh r hr)
      · rfl
  · intro y
    rw [heq]
    dsimp only
    simp only [mem_pushed]
    by_cases hyx : y = x
    · subst hyx
      rw [update_self]
      exact ⟨fun _ => ⟨p, hp, .inr ⟨rfl, rfl⟩⟩, fun _ => rfl⟩
    · rw [update_of_ne hyx, h.flag]
      simp [hyx]
  · intro q
    rw [heq]
    dsimp only
    rw [getLsbD_set (by omega), Bool.or_eq_true, h.bitmap, decide_eq_true_eq]
    by_cases hqp : q = p
    · subst hqp
      simp [pushed, hp]
    · simp [pushed, hqp]

end Enqueue

section Remove

variable {s : State} {Q : Nat → List Ptr} {x : Ptr} {p : Nat} {as bs : List Ptr}

/-- The queues after `x` has been taken out of queue `p`. -/
def dropped (Q : Nat → List Ptr) (p : Nat) (x : Ptr) : Nat → List Ptr :=
  update Q p ((Q p).erase x)

theorem mem_dropped (hn : ∀ q < 4, (Q q).Nodup) (hd : ∀ p < 4, ∀ q < 4, ∀ x, x ∈ Q p → x ∈ Q q → p = q)
    (hp : p < 4) (hx : x ∈ Q p) (hq : q < 4) : y ∈ dropped Q p x q ↔ y ∈ Q q ∧ y ≠ x := by
  by_cases hqp : q = p
  · subst hqp
    rw [dropped, update_self, (hn q hq).mem_erase_iff, and_comm]
  · rw [dropped, update_of_ne hqp]
    constructor
    · intro hy
      refine ⟨hy, ?_⟩
      rintro rfl
      exact hqp (hd q hq p hp y hy hx)
    · exact fun hy => hy.1

theorem RunRep.nodup (h : RunRep s Q) (hp : p < 4) : (Q p).Nodup := (h.linked p hp).nodup

theorem RunRep.unlink (h : RunRep s Q) (hp : p < 4) (hsplit : Q p = as ++ x :: bs)
    {next : Ptr → Option Ptr} {queue : RunQueue}
    (hl : Linked next queue.head (as ++ bs)) (ht : queue.tail = (as ++ bs).getLast?)
    (hothers : ∀ y, y ∉ Q p → next y = s.nextRun y) :
    RunRep { s with
      nextRun := next, readyQueues := update s.readyQueues p queue
      readyBitmap := if queue.head = none then s.readyBitmap &&& ~~~bitOf p else s.readyBitmap
      onRunQueue := update s.onRunQueue x false } (dropped Q p x) := by
  have hxp : x ∈ Q p := by simp [hsplit]
  have hnot : x ∉ as := by
    have hchain := h.linked p hp
    rw [hsplit] at hchain
    exact hchain.not_mem_left
  have herase : (Q p).erase x = as ++ bs := by
    rw [hsplit, erase_append_right _ hnot, erase_cons_head]
  have hmem := fun {q : Nat} (hq : q < 4) {y : Ptr} =>
    mem_dropped (fun q hq => h.nodup hq) h.disjoint hp hxp hq (y := y)
  refine ⟨?_, ?_, ?_, ?_, ?_⟩
  · intro q hq
    by_cases hqp : q = p
    · subst hqp
      simp only [dropped, update_self, herase]
      exact hl
    · simp only [dropped, update_of_ne hqp]
      apply (h.linked q hq).congr
      intro y hy
      apply hothers
      intro hyp
      exact hqp (h.disjoint q hq p hp y hy hyp)
  · intro q hq
    by_cases hqp : q = p
    · subst hqp
      simp only [dropped, update_self, herase]
      exact ht
    · simp only [dropped, update_of_ne hqp]
      exact h.tail q hq
  · intro q hq r hr y hyq hyr
    rw [hmem hq] at hyq
    rw [hmem hr] at hyr
    exact h.disjoint q hq r hr y hyq.1 hyr.1
  · intro y
    dsimp only
    by_cases hyx : y = x
    · subst hyx
      rw [update_self]
      refine ⟨fun hf => absurd hf Bool.false_ne_true, ?_⟩
      rintro ⟨q, hq, hy⟩
      exact absurd rfl ((hmem hq).mp hy).2
    · rw [update_of_ne hyx, h.flag]
      constructor
      · rintro ⟨q, hq, hy⟩
        exact ⟨q, hq, (hmem hq).mpr ⟨hy, hyx⟩⟩
      · rintro ⟨q, hq, hy⟩
        exact ⟨q, hq, ((hmem hq).mp hy).1⟩
  · intro q
    have hempty : queue.head = none ↔ as ++ bs = [] := by
      rw [hl.head_eq, head?_eq_none_iff]
    dsimp only
    by_cases hqp : q = p
    · subst hqp
      simp only [dropped, update_self, herase, hp, true_and]
      split_ifs with hn
      · rw [getLsbD_clear (by omega)]
        simp [hempty.mp hn]
      · rw [h.bitmap]
        simp only [hp, true_and]
        exact ⟨fun _ => fun he => hn (hempty.mpr he), fun _ => by simp [hsplit]⟩
    · simp only [dropped, update_of_ne hqp]
      split
      · rw [getLsbD_clear (by omega), Bool.and_eq_true, h.bitmap]
        simp [hqp]
      · exact h.bitmap q

theorem removeAtLevel_absent (h : RunRep s Q) (hp : p < 4) (hx : x ∉ Q p) : removeAtLevel s x p = some none := by
  have hl := h.linked p hp
  have hseek := seek_absent hl hx (n := listFuel)
    (by have := length_le_maxProcs hl; simp only [listFuel]; omega) none
  simp only [removeAtLevel, hseek]

theorem removeAtLevel_found (h : RunRep s Q) (hp : p < 4) (hx : x ∈ Q p) :
    ∃ s', removeAtLevel s x p = some (some s') ∧ QueueOnly s s' ∧ RunRep s' (dropped Q p x) := by
  obtain ⟨as, bs, hsplit⟩ := append_of_mem hx
  have hl := h.linked p hp
  have ht := h.tail p hp
  rw [hsplit] at hl ht
  have hxbs := hl.not_mem_right
  have hseek := seek_found hl hl.not_mem_left (n := listFuel)
    (by have := length_le_maxProcs hl; simp only [listFuel]; omega) none
  rw [or_none] at hseek
  refine ⟨_, by simp only [removeAtLevel, hseek]; rfl, ⟨_, _, _, _, rfl⟩, ?_⟩
  apply h.unlink hp hsplit
  · exact hl.bypass
  · dsimp only
    cases bs using List.reverseRecOn with
    | nil =>
      rw [ht]
      simp
    | append_singleton bs b =>
      have hbx : b ≠ x := fun he => hxbs (by simp [he])
      have htail : (s.readyQueues p).tail = some b := by
        rw [ht, show as ++ x :: (bs ++ [b]) = (as ++ x :: bs) ++ [b] by simp]
        exact getLast?_concat
      rw [htail, if_neg (by simpa using hbx), ← append_assoc]
      simp
  · intro y hy
    have hyx : y ≠ x := fun he => hy (he ▸ hx)
    apply bypass_other hyx
    intro hlast
    exact hy (by rw [hsplit]; exact mem_append_left _ (mem_of_getLast? hlast))

theorem removeFromLevels_found (h : RunRep s Q) (hps : ∀ q ∈ ps, q < 4) (hp : p ∈ ps) (hx : x ∈ Q p) :
    ∃ s', removeFromLevels s x ps = some s' ∧ QueueOnly s s' ∧ RunRep s' (dropped Q p x) := by
  induction ps with
  | nil => cases hp
  | cons q ps ih =>
    have hq : q < 4 := hps q (by simp)
    by_cases hqx : x ∈ Q q
    · obtain ⟨s', hr, honly, hrep⟩ := removeAtLevel_found h hq hqx
      obtain rfl : q = p := h.disjoint q hq p (hps p hp) x hqx hx
      exact ⟨s', by simp only [removeFromLevels, hr], honly, hrep⟩
    · have hne : p ≠ q := by
        rintro rfl
        exact hqx hx
      have hmem : p ∈ ps := by
        rcases mem_cons.mp hp with he | hm
        · exact absurd he hne
        · exact hm
      obtain ⟨s', hr, hrest⟩ := ih (fun r hr => hps r (mem_cons_of_mem q hr)) hmem
      refine ⟨s', ?_, hrest⟩
      simp only [removeFromLevels, removeAtLevel_absent h hq hqx, hr]

theorem mem_levels : q ∈ levels ↔ q < 4 := by simp [levels, schedPriorityLevels]

theorem schedulerRemoveFromReady_spec (h : RunRep s Q) (hp : p < 4) (hx : x ∈ Q p) :
    ∃ s', schedulerRemoveFromReady s x = some s' ∧ QueueOnly s s' ∧ RunRep s' (dropped Q p x) :=
  removeFromLevels_found h (fun _ hq => mem_levels.mp hq) (mem_levels.mpr hp) hx

end Remove

section Select

variable {s : State} {Q : Nat → List Ptr}

/-- What `scheduler_select_next` and its parts do: they take out one queued process, or
there is none to take. -/
inductive Selected (s : State) (Q : Nat → List Ptr) : State × Option Ptr → Prop
  | none {s' : State} (honly : QueueOnly s s') (hrep : RunRep s' Q) : Selected s Q (s', none)
  | some {s' : State} {p : Nat} {x : Ptr} (hp : p < 4) (hx : x ∈ Q p) (honly : QueueOnly s s')
      (hrep : RunRep s' (dropped Q p x)) : Selected s Q (s', some x)

theorem queuedProcesses_eq (h : RunRep s Q) (hps : ∀ q ∈ ps, q < 4) : queuedProcesses s ps = some (ps.flatMap Q) := by
  induction ps with
  | nil => rfl
  | cons q ps ih =>
    have hl := h.linked q (hps q (by simp))
    have hchain := chain_of_linked hl (n := listFuel)
      (by have := length_le_maxProcs hl; simp only [listFuel]; omega)
    have hrest := ih (fun r hr => hps r (mem_cons_of_mem q hr))
    simp only [queuedProcesses, hchain, hrest, flatMap_cons]

theorem foldl_best_mem {better : Option Ptr → Ptr → Option Ptr}
    (hb : ∀ best x, better best x = best ∨ better best x = some x) {xs : List Ptr} {start : Option Ptr}
    {b : Ptr} (h : xs.foldl better start = some b) : start = some b ∨ b ∈ xs := by
  induction xs generalizing start with
  | nil => exact .inl h
  | cons x xs ih =>
    rcases ih h with hstart | hmem
    · rcases hb start x with hkeep | htake
      · exact .inl (hkeep.symm.trans hstart)
      · obtain rfl : x = b := some.inj (htake.symm.trans hstart)
        exact .inr (by simp)
    · exact .inr (mem_cons_of_mem x hmem)

theorem betterDeadline_cases (s : State) (best : Option Ptr) (x : Ptr) :
    betterDeadline s best x = best ∨ betterDeadline s best x = some x := by
  unfold betterDeadline
  split_ifs
  · exact .inl rfl
  · cases best with
    | none => exact .inr rfl
    | some b =>
      dsimp only
      split_ifs
      · exact .inr rfl
      · exact .inl rfl

theorem betterFair_cases (s : State) (best : Option Ptr) (x : Ptr) :
    betterFair s best x = best ∨ betterFair s best x = some x := by
  unfold betterFair
  split_ifs
  · exact .inl rfl
  · cases best with
    | none => exact .inr rfl
    | some b =>
      dsimp only
      split_ifs
      · exact .inr rfl
      · exact .inl rfl

theorem schedulerPick_spec {better : State → Option Ptr → Ptr → Option Ptr}
    (hb : ∀ best x, better s best x = best ∨ better s best x = some x) (h : RunRep s Q) :
    schedulerPick better s = some (s, none) ∨
      ∃ s' x, schedulerPick better s = some (s', some x) ∧ Selected s Q (s', some x) := by
  have hq := queuedProcesses_eq h (fun q (hq : q ∈ levels) => mem_levels.mp hq)
  cases hbest : (levels.flatMap Q).foldl (better s) none with
  | none => exact .inl (by simp only [schedulerPick, hq, hbest])
  | some b =>
    have hmem : b ∈ levels.flatMap Q := by
      rcases foldl_best_mem hb hbest with hn | hm
      · cases hn
      · exact hm
    obtain ⟨p, hp, hx⟩ := mem_flatMap.mp hmem
    obtain ⟨s', hr, honly, hrep⟩ := schedulerRemoveFromReady_spec h (mem_levels.mp hp) hx
    refine Or.inr ⟨s', b, ?_, .some (mem_levels.mp hp) hx honly hrep⟩
    simp only [schedulerPick, hq, hbest, hr, map_some]

theorem dequeueFromLevels_spec (h : RunRep s Q) (hps : ∀ q ∈ ps, q < 4) :
    Selected s Q (dequeueFromLevels s ps) ∧ ((dequeueFromLevels s ps).2 = none → ∀ q ∈ ps, Q q = []) := by
  induction ps with
  | nil => exact ⟨.none (QueueOnly.refl s) h, fun _ q hq => by cases hq⟩
  | cons q ps ih =>
    have hq : q < 4 := hps q (by simp)
    have hbit := and_bitOf_eq_zero (show q < 32 by omega) s.readyBitmap
    have hrest := ih (fun r hr => hps r (mem_cons_of_mem q hr))
    by_cases he : Q q = []
    · have hclear : s.readyBitmap &&& bitOf q = 0#32 := by
        rw [hbit, ← Bool.not_eq_true, h.bitmap q]
        exact fun hset => hset.2 he
      rw [dequeueFromLevels, if_pos hclear]
      refine ⟨hrest.1, fun hn r hr => ?_⟩
      rcases mem_cons.mp hr with rfl | hr
      · exact he
      · exact hrest.2 hn r hr
    · obtain ⟨x, xs, hx⟩ := exists_cons_of_ne_nil he
      have hl := h.linked q hq
      have ht := h.tail q hq
      rw [hx] at hl ht
      obtain ⟨hhead, hl'⟩ := hl
      have hset : ¬(s.readyBitmap &&& bitOf q = 0#32) := by
        rw [hbit, (h.bitmap q).mpr ⟨hq, he⟩]
        exact Bool.noConfusion
      have hxs : x ∉ xs := by
        have hnd := h.nodup hq
        rw [hx] at hnd
        exact (nodup_cons.mp hnd).1
      rw [dequeueFromLevels, if_neg hset, hhead]
      refine ⟨.some hq (by simp [hx]) ⟨_, _, _, _, rfl⟩ ?_, fun hn => by cases hn⟩
      apply h.unlink hq (show Q q = [] ++ x :: xs from hx)
      · apply hl'.congr
        intro y hy
        have hyx : y ≠ x := fun he => hxs (he ▸ hy)
        exact update_of_ne hyx _ _
      · cases xs with
        | nil =>
          have hnone : s.nextRun x = none := hl'
          simp [hnone]
        | cons y ys =>
          have hsome : s.nextRun x = some y := hl'.1
          simp only [hsome, reduceCtorEq, if_false]
          rw [ht]
          rfl
      · intro y hy
        exact update_of_ne (fun he => hy (by simp [he, hx])) _ _

theorem schedulerSelectNext_spec (h : RunRep s Q) :
    ∃ r, schedulerSelectNext s = some r ∧ Selected s Q r ∧ (r.2 = none → ∀ q < 4, Q q = []) := by
  rcases schedulerPick_spec (betterDeadline_cases s) h with hnone | ⟨s', x, hpick, hsel⟩
  · rcases schedulerPick_spec (betterFair_cases s) h with hnone' | ⟨s', x, hpick, hsel⟩
    · have hdeq := dequeueFromLevels_spec h (fun q (hq : q ∈ levels) => mem_levels.mp hq)
      refine ⟨_, ?_, hdeq.1, fun hn q hq => hdeq.2 hn q (mem_levels.mpr hq)⟩
      simp only [schedulerSelectNext, schedulerPickDeadline, schedulerPickFair, hnone, hnone']
      rfl
    · refine ⟨(s', some x), ?_, hsel, fun hn => by cases hn⟩
      simp only [schedulerSelectNext, schedulerPickDeadline, schedulerPickFair, hnone, hpick]
  · refine ⟨(s', some x), ?_, hsel, fun hn => by cases hn⟩
    simp only [schedulerSelectNext, schedulerPickDeadline, hpick]

end Select

section Sleep

variable {s : State} {Z : List Ptr} {x : Ptr}

theorem schedulerRemoveFromSleep_absent (h : SleepRep s Z) (hx : x ∉ Z) : schedulerRemoveFromSleep s x = some s := by
  have hl : Linked s.nextSleep s.sleepList Z := h
  cases Z with
  | nil =>
    have hnone : s.sleepList = none := hl
    simp only [schedulerRemoveFromSleep, hnone]
  | cons z zs =>
    have hhead : s.sleepList = some z := hl.1
    have hlen := length_le_maxProcs hl
    have hzx : z ≠ x := fun he => hx (by simp [he])
    have hseek := seek_absent hl.2 (fun hm => hx (mem_cons_of_mem z hm)) (n := listFuel)
      (by simp at hlen ⊢; simp only [listFuel]; omega) (some z)
    simp only [schedulerRemoveFromSleep, hhead, if_neg hzx, hseek]

theorem schedulerRemoveFromSleep_spec (h : SleepRep s Z) :
    ∃ s', schedulerRemoveFromSleep s x = some s' ∧ SleepOnly s s' ∧ SleepRep s' (Z.erase x) := by
  by_cases hx : x ∈ Z
  · have hl : Linked s.nextSleep s.sleepList Z := h
    obtain ⟨as, bs, rfl⟩ := append_of_mem hx
    have hxas := hl.not_mem_left
    have hlen := length_le_maxProcs hl
    have hb := hl.bypass
    rw [erase_append_right _ hxas, erase_cons_head]
    cases as with
    | nil =>
      have hhead : s.sleepList = some x := hl.1
      exact ⟨_, by simp only [schedulerRemoveFromSleep, hhead, if_true]; rfl, ⟨_, _, rfl⟩, hb⟩
    | cons z as =>
      have hhead : s.sleepList = some z := hl.1
      have hzx : z ≠ x := fun he => hxas (by simp [he])
      have hseek := seek_found hl.2 (fun hm => hxas (mem_cons_of_mem z hm)) (n := listFuel)
        (by simp at hlen ⊢; simp only [listFuel]; omega) (some z)
      obtain ⟨q, hq⟩ : ∃ q, as.getLast?.or (some z) = some q := by
        cases as.getLast? <;> simp
      have hlast : (z :: as).getLast? = some q := by
        rw [getLast?_cons, ← hq]
        cases as.getLast? <;> rfl
      rw [hlast] at hb
      refine ⟨{ s with nextSleep := bypass s.nextSleep (some q) x }, ?_, ⟨_, _, rfl⟩, hb⟩
      simp only [schedulerRemoveFromSleep, hhead, if_neg hzx, hseek, hq]
  · rw [erase_of_not_mem hx]
    exact ⟨s, schedulerRemoveFromSleep_absent h hx, SleepOnly.refl s, h⟩

theorem schedulerInsertSleep_spec (h : SleepRep s Z) :
    ∃ s' Z', schedulerInsertSleep s x = some s' ∧ SleepOnly s s' ∧ SleepRep s' Z' ∧ ∀ y, y ∈ Z' ↔ y = x ∨ y ∈ Z := by
  obtain ⟨s₁, hr, ⟨n₁, l₁, rfl⟩, hrep⟩ := schedulerRemoveFromSleep_spec (x := x) h
  have hl : Linked n₁ l₁ (Z.erase x) := hrep
  have hnot : x ∉ Z.erase x := (Linked.nodup h).not_mem_erase
  have hmem : ∀ y, (y = x ∨ y ∈ Z.erase x) ↔ y = x ∨ y ∈ Z := by
    intro y
    by_cases hyx : y = x
    · simp [hyx]
    · simp [hyx, mem_erase_of_ne hyx]
  generalize Z.erase x = W at hl hnot hmem
  simp only [schedulerInsertSleep, hr]
  cases W with
  | nil =>
    have hhead : l₁ = none := hl
    subst hhead
    have hpush := Linked.push hl hnot
    refine ⟨_, [x], rfl, ⟨_, _, rfl⟩, hpush, ?_⟩
    intro y
    rw [← hmem]
    simp
  | cons w ws =>
    have hhead : l₁ = some w := hl.1
    subst hhead
    dsimp only
    split_ifs with hlt
    · refine ⟨_, x :: w :: ws, rfl, ⟨_, _, rfl⟩, hl.push hnot, ?_⟩
      intro y
      rw [← hmem]
      simp
    · have hlen := length_le_maxProcs hl
      obtain ⟨z, hz, hadv⟩ := advance_mem (fun y => decide (s.wakeDeadline y ≤ s.wakeDeadline x))
        hl.2 (n := listFuel) (by simp at hlen; simp only [listFuel]; omega)
      obtain ⟨as, bs, hsplit⟩ := append_of_mem hz
      rw [hsplit] at hl hnot hmem
      rw [hadv]
      refine ⟨_, as ++ z :: x :: bs, rfl, ⟨_, _, rfl⟩, hl.put_after hnot, ?_⟩
      intro y
      rw [← hmem]
      simp
      tauto

end Sleep

end ProOS.Sched
