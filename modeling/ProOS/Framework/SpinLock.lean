import ProOS.Framework.Exec

/-! Threads that share spin locks on one processor with interrupts. -/

namespace ProOS.Framework

open Function

/-- Code over the locks `L` and the data `D`. An interrupt can come before each instruction. -/
inductive Code (L D ρ : Type)
  | ret (result : ρ)
  | lock (l : L) (next : Code L D ρ)
  | unlock (l : L) (next : Code L D ρ)
  | pushf (next : Bool → Code L D ρ)
  | cli (next : Code L D ρ)
  | popf (flag : Bool) (next : Code L D ρ)
  | stmt (f : D → D) (next : Code L D ρ)
  | branch (f : D → Code L D ρ)

namespace Code

variable {L D ρ : Type}

/-- `spinlock_lock_irqsave`, which hands the saved flags to what follows. -/
def lockIrqsave (l : L) (next : Bool → Code L D ρ) : Code L D ρ :=
  .pushf (fun flags => .cli (.lock l (next flags)))

def unlockIrqrestore (l : L) (flags : Bool) (next : Code L D ρ) : Code L D ρ :=
  .unlock l (.popf flags next)

def isRet : Code L D ρ → Bool
  | .ret _ => true
  | _ => false

/-- Started with the locks `h` and the interrupt flag `i`, the code takes locks only while interrupts
are off, and none that it has, and has let go of all of them before interrupts are on again. -/
def Safe : Set L → Bool → Code L D ρ → Prop
  | h, _, .ret _ => h = ∅
  | h, i, .lock l next => i = false ∧ l ∉ h ∧ next.Safe (insert l h) i
  | h, i, .unlock l next => next.Safe (h \ {l}) i
  | h, i, .pushf next => (next i).Safe h i
  | h, _, .cli next => next.Safe h false
  | h, _, .popf flag next => (flag = true → h = ∅) ∧ next.Safe h flag
  | h, i, .stmt _ next => next.Safe h i
  | h, i, .branch f => ∀ d, (f d).Safe h i

end Code

/-- A context that can hold locks: a thread, or an interrupt of some depth on top of it. -/
structure Context where
  thread : Nat
  depth : Nat
  deriving DecidableEq, Repr

/-- What contexts share. `owner` is the context that has set the word of a lock. -/
structure Cpu (L D : Type) where
  data : D
  owner : L → Option Context
  enabled : Bool

/-- A thread runs `code`; `interrupted` is what lies under it on its stack, and `flag` is the interrupt
flag with which it goes on when it is switched to. -/
structure Thread (L D ρ : Type) where
  code : Code L D ρ
  interrupted : List (Code L D ρ)
  flag : Bool

structure Machine (L D ρ : Type) where
  cpu : Cpu L D
  current : Nat
  threads : Nat → Thread L D ρ

section Machine

variable {L D ρ C I : Type}

/-- One instruction of the context `o`. A lock that is taken leaves it where it is. -/
def Cpu.execute [DecidableEq L] (u : Cpu L D) (o : Context) : Code L D ρ → Cpu L D × Code L D ρ
  | .ret result => (u, .ret result)
  | .lock l next =>
    if (u.owner l).isSome then (u, .lock l next)
    else ({ u with owner := update u.owner l (some o) }, next)
  | .unlock l next => ({ u with owner := update u.owner l none }, next)
  | .pushf next => (u, next u.enabled)
  | .cli next => ({ u with enabled := false }, next)
  | .popf flag next => ({ u with enabled := flag }, next)
  | .stmt f next => ({ u with data := f u.data }, next)
  | .branch f => (u, f u.data)

def Machine.thread (m : Machine L D ρ) : Thread L D ρ := m.threads m.current

def Machine.running (m : Machine L D ρ) : Context := ⟨m.current, m.thread.interrupted.length⟩

/-- The thread that has the processor goes on as `a`. -/
def Machine.put (m : Machine L D ρ) (u : Cpu L D) (a : Thread L D ρ) : Machine L D ρ :=
  ⟨u, m.current, update m.threads m.current a⟩

inductive Machine.Action (C I : Type)
  | call (c : C)
  | run
  | interrupt (i : I)
  | switch (t : Nat)

/-- A thread between calls makes one, goes on by an instruction or returns from an interrupt, is
interrupted, or loses the processor: to the timer if interrupts are on, or by giving it up between
calls. An interrupt for which `handler` has no code passes without effect. -/
def Machine.perform [DecidableEq L] (calls : C → Code L D ρ) (handler : I → D → Option (Code L D ρ))
    (m : Machine L D ρ) : Machine.Action C I → Option (Machine L D ρ)
  | .call c =>
    if m.thread.interrupted.isEmpty && m.thread.code.isRet then
      some (m.put m.cpu ⟨calls c, [], m.thread.flag⟩)
    else none
  | .run =>
    if m.thread.code.isRet then
      match m.thread.interrupted with
      | [] => none
      | code :: rest => some (m.put { m.cpu with enabled := true } ⟨code, rest, m.thread.flag⟩)
    else
      let r := m.cpu.execute m.running m.thread.code
      some (m.put r.1 ⟨r.2, m.thread.interrupted, m.thread.flag⟩)
  | .interrupt i =>
    if m.cpu.enabled then
      match handler i m.cpu.data with
      | none => some m
      | some code =>
        some (m.put { m.cpu with enabled := false }
          ⟨code, m.thread.code :: m.thread.interrupted, m.thread.flag⟩)
    else none
  | .switch t =>
    if m.cpu.enabled || (m.thread.interrupted.isEmpty && m.thread.code.isRet) then
      let m := m.put m.cpu { m.thread with flag := m.cpu.enabled }
      some { m with current := t, cpu := { m.cpu with enabled := (m.threads t).flag } }
    else none

/-- The context that has the processor waits for a lock, and the context that it has interrupted is
the one that has it. -/
def Machine.SelfLocked (m : Machine L D ρ) : Prop :=
  ∃ l next code rest, m.thread.code = .lock l next ∧ m.thread.interrupted = code :: rest ∧
    m.cpu.owner l = some ⟨m.current, rest.length⟩

def Machine.selfLocked (m : Machine L D ρ) : Bool :=
  match m.thread.code, m.thread.interrupted with
  | .lock l _, _ :: rest => m.cpu.owner l == some ⟨m.current, rest.length⟩
  | _, _ => false

theorem selfLocked_of_eq_true {m : Machine L D ρ} (h : m.selfLocked = true) : m.SelfLocked := by
  unfold Machine.selfLocked at h
  split at h
  · rename_i l next code rest hcode hstack
    exact ⟨l, next, code, rest, hcode, hstack, by simpa using h⟩
  · cases h

def Cpu.held (u : Cpu L D) (o : Context) : Set L := {l | u.owner l = some o}

/-- Only the running context holds locks, and it does so with interrupts off. -/
structure Machine.Disciplined (m : Machine L D ρ) : Prop where
  idle : ∀ o, o ≠ m.running → m.cpu.held o = ∅
  masked : m.cpu.enabled = true → m.cpu.held m.running = ∅
  running : m.thread.code.Safe (m.cpu.held m.running) m.cpu.enabled
  interrupted : ∀ t, ∀ code ∈ (m.threads t).interrupted, code.Safe ∅ true
  others : ∀ t, t ≠ m.current → (m.threads t).code.Safe ∅ (m.threads t).flag

section Owners

variable [DecidableEq L] {u : Cpu L D} {o o' : Context} {l : L}

theorem held_take : ({ u with owner := update u.owner l (some o) } : Cpu L D).held o = insert l (u.held o) := by
  ext l'
  by_cases hl : l' = l
  · simp [Cpu.held, hl]
  · simp [Cpu.held, hl]

theorem held_take_other (h : (u.owner l).isSome = false) (ho : o' ≠ o) :
    ({ u with owner := update u.owner l (some o) } : Cpu L D).held o' = u.held o' := by
  ext l'
  by_cases hl : l' = l
  · have hnone : u.owner l = none := by simpa using h
    simp [Cpu.held, hl, hnone, Ne.symm ho]
  · simp [Cpu.held, hl]

theorem held_free : ({ u with owner := update u.owner l none } : Cpu L D).held o = u.held o \ {l} := by
  ext l'
  by_cases hl : l' = l
  · simp [Cpu.held, hl]
  · simp [Cpu.held, hl]

end Owners

/-- An instruction of safe code leaves safe code, and gives no lock to another context. -/
theorem execute_safe [DecidableEq L] {u : Cpu L D} {o : Context} {c : Code L D ρ} (hs : c.Safe (u.held o) u.enabled)
    (hm : u.enabled = true → u.held o = ∅) :
    (u.execute o c).2.Safe ((u.execute o c).1.held o) (u.execute o c).1.enabled ∧
      ((u.execute o c).1.enabled = true → (u.execute o c).1.held o = ∅) ∧
      ∀ o', o' ≠ o → u.held o' = ∅ → (u.execute o c).1.held o' = ∅ := by
  cases c with
  | ret result => exact ⟨hs, hm, fun _ _ => id⟩
  | lock l next =>
    obtain ⟨hoff, hnot, hnext⟩ := hs
    rw [Cpu.execute]
    split
    · exact ⟨⟨hoff, hnot, hnext⟩, hm, fun _ _ => id⟩
    · rename_i hfree
      have hfree := Bool.not_eq_true _ ▸ hfree
      refine ⟨?_, ?_, fun o' ho hnone => (held_take_other hfree ho).trans hnone⟩
      · rw [held_take]
        exact hnext
      · intro hon
        exact absurd (hoff.symm.trans hon) Bool.false_ne_true
  | unlock l next =>
    refine ⟨?_, ?_, ?_⟩
    · rw [Cpu.execute, held_free]
      exact hs
    · intro hon
      rw [Cpu.execute, held_free, hm hon, Set.empty_sdiff]
    · intro o' _ hnone
      rw [Cpu.execute, held_free, hnone, Set.empty_sdiff]
  | pushf next => exact ⟨hs, hm, fun _ _ => id⟩
  | cli next => exact ⟨hs, fun h => absurd h Bool.false_ne_true, fun _ _ => id⟩
  | popf flag next => exact ⟨hs.2, hs.1, fun _ _ => id⟩
  | stmt f next => exact ⟨hs, hm, fun _ _ => id⟩
  | branch f => exact ⟨hs u.data, hm, fun _ _ => id⟩

theorem isRet_safe {c : Code L D ρ} (h : c.isRet = true) {s : Set L} {i : Bool} : c.Safe s i ↔ s = ∅ := by
  cases c with
  | ret result => exact Iff.rfl
  | _ => cases h

section Steps

variable {calls : C → Code L D ρ} {handler : I → D → Option (Code L D ρ)} {m m' : Machine L D ρ}

section Put

variable (m : Machine L D ρ) (u : Cpu L D) (a : Thread L D ρ)

@[simp] theorem put_thread : (m.put u a).thread = a := update_self _ _ _

@[simp] theorem put_cpu : (m.put u a).cpu = u := rfl

theorem put_threads (t : Nat) : (m.put u a).threads t = if t = m.current then a else m.threads t :=
  update_apply _ _ _ _

end Put

section

variable (hm : m.Disciplined)

include hm

theorem Machine.Disciplined.put_rest (u : Cpu L D) {a : Thread L D ρ} (ha : ∀ code ∈ a.interrupted, code.Safe ∅ true) :
    (∀ t, ∀ code ∈ ((m.put u a).threads t).interrupted, code.Safe ∅ true) ∧
      ∀ t, t ≠ m.current → ((m.put u a).threads t).code.Safe ∅ ((m.put u a).threads t).flag := by
  constructor
  · intro t
    rw [put_threads]
    split_ifs
    · exact ha
    · exact hm.interrupted t
  · intro t ht
    rw [put_threads, if_neg ht]
    exact hm.others t ht

theorem Machine.Disciplined.goOn {u : Cpu L D} {c : Code L D ρ}
    (hs : c.Safe (u.held m.running) u.enabled) (hmask : u.enabled = true → u.held m.running = ∅)
    (hothers : ∀ o, o ≠ m.running → u.held o = ∅) (flag : Bool) :
    (m.put u ⟨c, m.thread.interrupted, flag⟩).Disciplined := by
  have hrun : (m.put u ⟨c, m.thread.interrupted, flag⟩).running = m.running := by
    rw [Machine.running, put_thread]
    rfl
  obtain ⟨hinter, hrest⟩ := hm.put_rest u (a := ⟨c, m.thread.interrupted, flag⟩) (hm.interrupted m.current)
  refine ⟨?_, ?_, ?_, hinter, hrest⟩
  · intro o ho
    rw [hrun] at ho
    exact hothers o ho
  · rw [hrun]
    exact hmask
  · rw [hrun, put_thread]
    exact hs

theorem Machine.Disciplined.change (hnone : m.cpu.held m.running = ∅)
    (hcpu : m'.cpu.owner = m.cpu.owner) (hs : m'.thread.code.Safe ∅ m'.cpu.enabled)
    (hinter : ∀ t, ∀ code ∈ (m'.threads t).interrupted, code.Safe ∅ true)
    (hothers : ∀ t, t ≠ m'.current → (m'.threads t).code.Safe ∅ (m'.threads t).flag) : m'.Disciplined := by
  have hall : ∀ o, m'.cpu.held o = ∅ := by
    intro o
    rw [Cpu.held, hcpu]
    by_cases ho : o = m.running
    · rw [ho]
      exact hnone
    · exact hm.idle o ho
  refine ⟨fun o _ => hall o, fun _ => hall _, ?_, hinter, hothers⟩
  rw [hall]
  exact hs

theorem Machine.Disciplined.step [DecidableEq L]
    (hhandler : ∀ i d c, handler i d = some c → c.Safe ∅ false) {a : Machine.Action C I}
    (hcall : ∀ c, a = .call c → (calls c).Safe ∅ m.cpu.enabled) (h : m.perform calls handler a = some m') :
    m'.Disciplined := by
  cases a with
  | call c =>
    simp only [Machine.perform] at h
    split at h
    · rename_i hidle
      obtain ⟨hstack, hret⟩ := Bool.and_eq_true_iff.mp hidle
      cases h
      have hnone := (isRet_safe hret).mp hm.running
      rw [← List.isEmpty_iff.mp hstack]
      refine hm.goOn ?_ hm.masked hm.idle m.thread.flag
      rw [hnone]
      exact hcall c rfl
    · cases h
  | run =>
    simp only [Machine.perform] at h
    split at h
    · rename_i hret
      have hnone := (isRet_safe hret).mp hm.running
      split at h
      · cases h
      · rename_i code rest hstack
        cases h
        have hmem : ∀ c ∈ code :: rest, c.Safe ∅ true := by
          rw [← hstack]
          exact hm.interrupted m.current
        obtain ⟨hinter, hrest⟩ := hm.put_rest { m.cpu with enabled := true }
          (a := ⟨code, rest, m.thread.flag⟩) (fun c hc => hmem c (List.mem_cons_of_mem _ hc))
        refine hm.change hnone rfl ?_ hinter hrest
        rw [put_thread]
        exact hmem code List.mem_cons_self
    · cases h
      obtain ⟨hs, hmask, hothers⟩ := execute_safe hm.running hm.masked
      exact hm.goOn hs hmask (fun o ho => hothers o ho (hm.idle o ho)) m.thread.flag
  | interrupt i =>
    simp only [Machine.perform] at h
    split at h
    · rename_i hon
      have hnone := hm.masked hon
      split at h
      · cases h
        exact hm
      · rename_i code hcode
        cases h
        -- an interrupted context had interrupts on, so it holds nothing
        have hinter : ∀ c ∈ m.thread.code :: m.thread.interrupted, c.Safe ∅ true := by
          have hs := hm.running
          rw [hnone, hon] at hs
          intro c hc
          rcases List.mem_cons.mp hc with rfl | hc
          · exact hs
          · exact hm.interrupted m.current c hc
        obtain ⟨hinter, hrest⟩ := hm.put_rest { m.cpu with enabled := false }
          (a := ⟨code, m.thread.code :: m.thread.interrupted, m.thread.flag⟩) hinter
        refine hm.change hnone rfl ?_ hinter hrest
        rw [put_thread]
        exact hhandler i _ code hcode
    · cases h
  | switch t =>
    simp only [Machine.perform] at h
    split at h
    · rename_i hguard
      cases h
      have hnone : m.cpu.held m.running = ∅ := by
        rcases Bool.or_eq_true_iff.mp hguard with hon | hidle
        · exact hm.masked hon
        · exact (isRet_safe (Bool.and_eq_true_iff.mp hidle).2).mp hm.running
      have hs := hm.running
      rw [hnone] at hs
      obtain ⟨hinter, hrest⟩ := hm.put_rest m.cpu
        (a := { m.thread with flag := m.cpu.enabled }) (hm.interrupted m.current)
      -- the thread that is left is at safe code, too, with the flag that it takes along
      have hall : ∀ s, ((m.put m.cpu { m.thread with flag := m.cpu.enabled }).threads s).code.Safe ∅
          ((m.put m.cpu { m.thread with flag := m.cpu.enabled }).threads s).flag := by
        intro s
        by_cases hsc : s = m.current
        · rw [put_threads, if_pos hsc]
          exact hs
        · exact hrest s hsc
      exact hm.change hnone rfl (hall t) hinter (fun s _ => hall s)
    · cases h

/-- A context of a disciplined machine never finds a lock taken. -/
theorem Machine.Disciplined.free {l : L} {next : Code L D ρ}
    (h : m.thread.code = .lock l next) : m.cpu.owner l = none := by
  cases ho : m.cpu.owner l with
  | none => rfl
  | some o =>
    have hheld : l ∈ m.cpu.held o := ho
    by_cases hrun : o = m.running
    · have hs := hm.running
      rw [h] at hs
      exact absurd (hrun ▸ hheld) hs.2.1
    · rw [hm.idle o hrun] at hheld
      exact absurd hheld (Set.notMem_empty l)

/-- Calls that are safe to start where they are started keep a machine disciplined. -/
theorem Machine.Disciplined.run [DecidableEq L]
    (hhandler : ∀ i d c, handler i d = some c → c.Safe ∅ false) {tr : List (Machine.Action C I)}
    (hx : Exec (Performs (labelled (Machine.perform calls handler))) m tr m')
    (hcalls : EachStep (Performs (labelled (Machine.perform calls handler))) m tr m'
      (fun m a => ∀ c, a = .call c → (calls c).Safe ∅ m.cpu.enabled)) : m'.Disciplined := by
  have halways := hcalls.always (P := fun _ m => m.Disciplined) hm
    (fun _ _ _ _ _ hd hstep hc => hd.step hhandler hc (performs_labelled.mp hstep))
  exact halways.last hx

end

/-- With interrupts off, waiting for the context that is interrupted lasts for ever. -/
theorem Machine.SelfLocked.stuck [DecidableEq L] (h : m.SelfLocked) (hoff : m.cpu.enabled = false)
    {a : Machine.Action C I} (hstep : m.perform calls handler a = some m') : m' = m := by
  obtain ⟨l, next, code, rest, hcode, hstack, howner⟩ := h
  cases a with
  | call c => simp [Machine.perform, hstack] at hstep
  | run =>
    have hspin : m.cpu.execute m.running (.lock l next : Code L D ρ) = (m.cpu, .lock l next) := by
      rw [Cpu.execute, howner]
      rfl
    have hnot : ¬(Code.lock l next : Code L D ρ).isRet = true := Bool.false_ne_true
    rw [Machine.perform, hcode, if_neg hnot, hspin] at hstep
    cases hstep
    have hsame : (⟨.lock l next, m.thread.interrupted, m.thread.flag⟩ : Thread L D ρ) = m.thread := by
      rw [← hcode]
    rw [hsame, Machine.put, Machine.thread, update_eq_self]
  | interrupt i => simp [Machine.perform, hoff] at hstep
  | switch t => simp [Machine.perform, hoff, hstack] at hstep

theorem Machine.Disciplined.not_selfLocked (hm : m.Disciplined) : ¬m.SelfLocked := by
  rintro ⟨l, next, code, rest, hcode, -, howner⟩
  rw [hm.free hcode] at howner
  cases howner

end Steps

end Machine

end ProOS.Framework
