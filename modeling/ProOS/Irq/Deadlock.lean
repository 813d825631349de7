import ProOS.Irq.Model

/-! When the keyboard interrupt can wait for a lock of the context that it has interrupted. -/

namespace ProOS.Irq

open ProOS.Framework

section Codes

variable {next : IrqCode}

theorem single_release (l : Lock) : (insert l ∅ : Set Lock) \ {l} = ∅ := by
  simp

theorem mailboxPush_safe (b : Nat) (event : IrqEvent) (h : next.Safe ∅ false) :
    (mailboxPush b event next).Safe ∅ false := by
  refine ⟨rfl, Set.notMem_empty _, fun d => ?_⟩
  dsimp only
  split
  · show next.Safe _ false
    rwa [single_release]
  · show next.Safe _ false
    rwa [single_release]

theorem pushAll_safe (event : IrqEvent) (h : next.Safe ∅ false) (targets : List (Option Nat)) :
    (pushAll event next targets).Safe ∅ false := by
  induction targets with
  | nil => exact h
  | cons target targets ih =>
    cases target with
    | none => exact ih
    | some b => exact mailboxPush_safe b event ih

theorem irqDispatchEvent_safe (irq : Nat) (data : UInt32) (h : next.Safe ∅ false) :
    (irqDispatchEvent irq data next).Safe ∅ false := by
  unfold irqDispatchEvent
  split
  · exact h
  · refine ⟨rfl, Set.notMem_empty _, fun d d' => ?_⟩
    rw [single_release]
    exact pushAll_safe _ h _

theorem bufferPush_safe (c : UInt8) (h : next.Safe ∅ false) : (bufferPush c next).Safe ∅ false := by
  intro d
  dsimp only
  split
  · exact h
  · exact h

theorem keyboardHandleScancode_safe (scancode : UInt8) (h : next.Safe ∅ false) :
    (keyboardHandleScancode scancode next).Safe ∅ false := by
  have hdispatch : ∀ {after : IrqCode} code release extended, after.Safe ∅ false →
      (dispatchScancode code release extended after).Safe ∅ false :=
    fun _ _ _ hafter => irqDispatchEvent_safe _ _ hafter
  unfold keyboardHandleScancode
  split
  · exact h
  · intro d
    dsimp only
    split
    · split
      · exact hdispatch _ _ _ h
      · split
        · exact bufferPush_safe _ (hdispatch _ _ _ h)
        · exact hdispatch _ _ _ h
    split
    · refine hdispatch _ _ _ ?_
      split
      · exact h
      · exact h
    split
    · exact hdispatch _ _ _ h
    split
    · exact bufferPush_safe _ (hdispatch _ _ _ h)
    split
    · exact bufferPush_safe _ (hdispatch _ _ _ h)
    · intro d'
      dsimp only
      split
      · exact bufferPush_safe _ (hdispatch _ _ _ h)
      · exact h

theorem lockIrqsave_safe (l : Lock) {body : Bool → IrqCode} (flag : Bool)
    (h : (body flag).Safe {l} false) : (Code.lockIrqsave l body).Safe ∅ flag := by
  refine ⟨rfl, Set.notMem_empty _, ?_⟩
  rwa [insert_empty_eq]

theorem unlockIrqrestore_safe (l : Lock) (flag : Bool) (h : next.Safe ∅ flag) :
    (Code.unlockIrqrestore l flag next).Safe {l} false := by
  have hnone : ({l} : Set Lock) \ {l} = ∅ := by simp
  show (flag = true → ({l} : Set Lock) \ {l} = ∅) ∧ next.Safe (({l} : Set Lock) \ {l}) flag
  rw [hnone]
  exact ⟨fun _ => rfl, h⟩

theorem installKeyboard_safe (installed flag : Bool) (h : next.Safe ∅ flag) :
    (installKeyboard installed next).Safe ∅ flag :=
  lockIrqsave_safe .table flag (unlockIrqrestore_safe .table flag h)

end Codes

/-- Calls that take a lock with plain `spinlock_lock`. -/
def Call.plain : Call → Bool
  | .receive _ => true
  | .peek _ => true
  | .flush _ => true
  | .dispatch _ _ => true
  | .poll _ => true
  | _ => false

theorem irqHandler_safe (i : Interrupt) (d : Data) (c : IrqCode) (h : irqHandler i d = some c) : c.Safe ∅ false := by
  cases i with
  | key scancode =>
    rw [irqHandler] at h
    split at h
    · cases h
      exact keyboardHandleScancode_safe scancode rfl
    · cases h
  | tick =>
    cases h
    exact rfl

theorem Call.code_safe (c : Call) (flag : Bool) (h : c.plain = true → flag = false) : c.code.Safe ∅ flag := by
  have hone : ∀ l : Lock, (insert l ∅ : Set Lock) \ {l} = ∅ := single_release
  cases c with
  | init b => exact Set.empty_sdiff _
  | subscribe irq b =>
    show (irqMailboxSubscribe irq b).Safe ∅ flag
    unfold irqMailboxSubscribe
    split
    · exact rfl
    · refine lockIrqsave_safe .table flag (fun d => ?_)
      dsimp only
      split
      · exact unlockIrqrestore_safe _ _ rfl
      · split
        · exact unlockIrqrestore_safe _ _ rfl
        · exact unlockIrqrestore_safe _ _ rfl
  | unsubscribe irq b =>
    show (irqMailboxUnsubscribe irq b).Safe ∅ flag
    unfold irqMailboxUnsubscribe
    split
    · exact rfl
    · refine lockIrqsave_safe .table flag (fun d => ?_)
      dsimp only
      split
      · exact unlockIrqrestore_safe _ _ rfl
      · exact unlockIrqrestore_safe _ _ rfl
  | receive b =>
    refine ⟨h rfl, Set.notMem_empty _, fun d => ?_⟩
    dsimp only
    split
    · exact hone _
    · exact hone _
  | peek b => exact ⟨h rfl, Set.notMem_empty _, fun _ => hone _⟩
  | flush b => exact ⟨h rfl, Set.notMem_empty _, hone _⟩
  | dispatch irq data =>
    obtain rfl := h rfl
    exact irqDispatchEvent_safe irq data rfl
  | poll input =>
    obtain rfl := h rfl
    cases input with
    | none => exact rfl
    | some scancode => exact keyboardHandleScancode_safe scancode rfl
  | kbInit => exact installKeyboard_safe true flag rfl
  | uninstall => exact installKeyboard_safe false flag rfl
  | sti => exact ⟨fun _ => rfl, rfl⟩
  | cli => exact rfl

theorem start_disciplined (d : Data) (enabled : Bool) : (start d enabled).Disciplined := by
  have hnone : ∀ o, (start d enabled).cpu.held o = ∅ := by
    intro o
    apply Set.eq_empty_of_forall_notMem
    rintro l ⟨⟩
  exact ⟨fun o _ => hnone o, fun _ => hnone _, hnone _, fun _ _ h => absurd h List.not_mem_nil, fun _ _ => rfl⟩

/-- A call that takes a lock with plain `spinlock_lock` is made with interrupts off. -/
def Masked (m : IrqMachine) : IrqAction → Prop
  | .call c => c.plain = true → m.cpu.enabled = false
  | _ => True

instance (m : IrqMachine) (a : IrqAction) : Decidable (Masked m a) := by
  cases a <;> unfold Masked <;> infer_instance

/-- If every call that takes a lock without saving the flags is made with interrupts off, then no
interrupt waits for a lock of the context that it has interrupted. -/
theorem keyboard_irq_not_self_locked (d : Data) (enabled : Bool) (tr : List IrqAction) (m : IrqMachine)
    (hx : Exec Step (start d enabled) tr m) (hmask : EachStep Step (start d enabled) tr m Masked) :
    ¬m.SelfLocked := by
  have hd : m.Disciplined := by
    refine (start_disciplined d enabled).run irqHandler_safe hx ?_
    intro pre a post m₁ m₂ ht hpre hstep hpost c hc
    subst hc
    exact c.code_safe _ (hmask pre _ post m₁ m₂ ht hpre hstep hpost)
  exact hd.not_selfLocked

def blankData : Data where
  mailboxes := fun _ _ => none
  boxes := fun _ => ⟨fun _ => ⟨0, 0, 0⟩, 0, 0, 0⟩
  keyboard := false
  ticks := 0
  buffer := fun _ => 0
  head := 0
  tail := 0
  shiftActive := false
  extendedActive := false

/-- The driver sets up mailbox 0 and the handler. -/
def driverActs : List IrqAction :=
  [.call (.init 0)] ++ .replicate 4 .run ++ [.call (.subscribe 1 0)] ++ .replicate 7 .run ++
    [.call .kbInit] ++ .replicate 10 .run

/-- A thread that has turned interrupts off reads the mailbox and turns them on again, and a key
arrives and is put there. -/
def maskedActs : List IrqAction :=
  driverActs ++ [.call .cli, .run, .call (.receive 0), .run, .run, .run, .call .sti, .run,
    .interrupt (.key 0x1E)] ++ .replicate 9 .run

theorem maskedActs_isSome : (performAll (labelled perform) (start blankData true) maskedActs).isSome = true := by
  decide +kernel

theorem maskedActs_masked : allMeet perform Masked (start blankData true) maskedActs = true := by
  decide +kernel

def masked : IrqMachine :=
  ((performAll (labelled perform) (start blankData true) maskedActs).get maskedActs_isSome).2

theorem keyboard_irq_not_self_locked_masked : ¬masked.SelfLocked :=
  keyboard_irq_not_self_locked blankData true maskedActs masked
    (performAll_labelled_exec maskedActs (start blankData true) maskedActs_isSome)
    (eachStep_of_allMeet maskedActs_masked)

/-- A key arrives while a thread has the lock of the mailbox that it reads. -/
def readActs : List IrqAction :=
  driverActs ++ [.call (.receive 0), .run, .interrupt (.key 0x1E)] ++ .replicate 9 .run

theorem readActs_isSome : (performAll (labelled perform) (start blankData true) readActs).isSome = true := by
  decide +kernel

def read : IrqMachine :=
  ((performAll (labelled perform) (start blankData true) readActs).get readActs_isSome).2

/-- From there on nothing changes any more. -/
theorem keyboard_irq_self_locked :
    ∃ d enabled tr m, Exec Step (start d enabled) tr m ∧ m.SelfLocked ∧ ∀ a m', Step m a m' → m' = m := by
  have hlocked : read.SelfLocked := selfLocked_of_eq_true (by decide +kernel)
  have hoff : read.cpu.enabled = false := by decide +kernel
  refine ⟨blankData, true, readActs, read,
    performAll_labelled_exec readActs (start blankData true) readActs_isSome, hlocked, ?_⟩
  intro a m' hstep
  exact hlocked.stuck hoff (performs_labelled.mp hstep)

end ProOS.Irq
