import ProOS.Syscall.Model

/-! What a caller of `SYS_KBD_POLL` learns of the key that the call has taken from the queue. -/

namespace ProOS.Syscall

open ProOS.Framework

/-- The keys in the queue of the module, oldest first. -/
def Keyboard.keys (d : Keyboard) : List KeyFifoEntry :=
  ring d.fifo keyFifoCapacity d.head ((d.tail + keyFifoCapacity - d.head) % keyFifoCapacity)

/-- The keys that are there for the next poll. -/
def Keyboard.pending (d : Keyboard) : List KeyFifoEntry := (processPendingEvents d).keys

/-- Of all calls only the one of the module is answered here. -/
def answerPoll {α : Type} : KernelCall α → Keyboard → Option (α × Keyboard)
  | .pollKey, d => some (fifoPop (processPendingEvents d))
  | _, _ => none

def resultAt (m : Mem) (address : Nat) : Nat := get32 m (address + 24)

/-- One key was removed from the queue and stored at `event`. -/
def Took (d d' : Keyboard) (m' : Mem) (event : Nat) : Prop :=
  ∃ key, d.pending = key :: d'.keys ∧ cells (fun i => m' (event + i)) 12 = eventBytes key

/-- A poll with this envelope, which passes the checks of the handler. -/
structure PollCall (m : Mem) (address : Nat) : Prop where
  envelope : syscallValidateUserBuffer address envelopeSize = true
  number : get32 m address = sysDynamicBase
  argc : 1 ≤ get32 m (address + 4) ∧ get32 m (address + 4) ≤ syscallMaxArgs
  event : syscallValidateUserPointer (get32 m (address + 8)) = true ∧
    syscallValidateUserBuffer (get32 m (address + 8)) 12 = true

/-- The caller is told 1 exactly when a key was taken for it, and 0 exactly when there was none. -/
def PollTold (d : Keyboard) (m : Mem) (address : Nat) : Prop :=
  ∃ eax m' d', (syscallHandler true address).execute answerPoll m d = some (eax, m', d') ∧
    (Took d d' m' (get32 m (address + 8)) ↔ resultAt m' address = 1) ∧
    (resultAt m' address = 0 ↔ d.pending = [])

variable {m : Mem} {address : Nat}

theorem word_cells {n off : Nat} (h : off + 4 ≤ n) : word (cells (fun i => m (address + i)) n) off = get32 m (address + off) := by
  simp [word, get32, get16, show off < n by omega, show off + 1 < n by omega, show off + 2 < n by omega,
    show off + 2 + 1 < n by omega, Nat.add_assoc]

theorem resultAt_setResult (result status : Nat) :
    resultAt (writeBytes (writeBytes m (address + 24) (bytes32 result)) (address + 28) (bytes32 status)) address =
      result % 2 ^ 32 := by
  have hbefore : get32 (writeBytes (put32 m (address + 24) result) (address + 28) (bytes32 status)) (address + 24) =
      get32 (put32 m (address + 24) result) (address + 24) :=
    get32_congr (fun i _ hi => writeBytes_before (by omega))
  exact hbefore.trans (get32_put32 result)

theorem poll_result_zero (d : Keyboard) (h : PollCall m address) :
    ∃ m' d', (syscallHandler true address).execute answerPoll m d = some (0, m', d') ∧ resultAt m' address = 0 := by
  have hnum : word (cells (fun i => m (address + i)) envelopeSize) 0 = 32 := (word_cells (by decide)).trans h.number
  have hargc : word (cells (fun i => m (address + i)) envelopeSize) 4 = get32 m (address + 4) := word_cells (by decide)
  have hptr : word (cells (fun i => m (address + i)) envelopeSize) 8 = get32 m (address + 8) := word_cells (by decide)
  have harg : (UInt32.ofNat (get32 m (address + 8))).toNat = get32 m (address + 8) :=
    UInt32.toNat_ofNat_of_lt (get32_lt m _)
  have hne : get32 m (address + 8) ≠ 0 := by
    have hvalid := h.event.1
    simp only [syscallValidateUserPointer, Bool.and_eq_true, decide_eq_true_eq] at hvalid
    exact hvalid.1
  have hargs : 1 ≤ get32 m (address + 4) ∧ get32 m (address + 4) ≤ 4 := h.argc
  rw [syscallHandler, h.envelope]
  simp only [Bool.not_true, Bool.false_eq_true, if_false, Prog.execute, syscallDispatch, syscallInvoke, readEnvelope,
    hnum, hargc, hptr, syscallTable, if_true, syscallTableSize, syscallMaxArgs]
  rw [if_neg (by omega), if_neg (by omega)]
  simp only [sysKbdPoll, harg, hne, if_false, h.event.2, cBool, if_true]
  rw [if_neg (by omega), if_neg (by decide)]
  simp only [Prog.bind, Prog.execute, answerPoll, Option.bind_some]
  -- in both cases what the dispatcher writes last is the handler's return value 0
  cases (fifoPop (processPendingEvents d)).1 with
  | none => exact ⟨_, _, rfl, resultAt_setResult 0 0⟩
  | some key => exact ⟨_, _, rfl, resultAt_setResult 0 0⟩

theorem PollTold.pending_eq_nil {d : Keyboard} (h : PollCall m address) (htold : PollTold d m address) : d.pending = [] := by
  obtain ⟨m', d', hrun, hzero⟩ := poll_result_zero d h
  obtain ⟨eax, m₁, d₁, hrun₁, -, hnone⟩ := htold
  rw [hrun] at hrun₁
  obtain ⟨rfl, rfl, rfl⟩ : 0 = eax ∧ m' = m₁ ∧ d' = d₁ := by simpa using hrun₁
  exact hnone.mp hzero

/-- A poll tells its caller the truth exactly when there is nothing to tell. -/
theorem kbd_poll_told_iff (d : Keyboard) (h : PollCall m address) : PollTold d m address ↔ d.pending = [] := by
  refine ⟨fun htold => htold.pending_eq_nil h, fun hempty => ?_⟩
  obtain ⟨m', d', hrun, hzero⟩ := poll_result_zero d h
  refine ⟨0, m', d', hrun, iff_of_false ?_ (by omega), iff_of_true hzero hempty⟩
  rintro ⟨key, hkeys, -⟩
  simp [hempty] at hkeys

/-- A keyboard with these events in its mailbox. -/
def keyboardWith (mailbox : List IrqEvent) : Keyboard := ⟨mailbox, fun _ => ⟨0, 0, 0⟩, 0, 0, false⟩

/-- An envelope at 0x1000 that polls into 0x2000. -/
def pollMemory : Mem := writeBytes (fun _ => 0) 0x1000 (bytes32 32 ++ bytes32 1 ++ bytes32 0x2000)

theorem pollCall_pollMemory : PollCall pollMemory 0x1000 := by
  constructor <;> decide +kernel

theorem kbd_poll_told_empty : PollTold (keyboardWith []) pollMemory 0x1000 :=
  (kbd_poll_told_iff _ pollCall_pollMemory).mpr (by decide +kernel)

/-- The key `a` is stored for the caller, who is told 0. -/
theorem kbd_poll_loses_key :
    ∃ eax m' d', (syscallHandler true 0x1000).execute answerPoll pollMemory (keyboardWith [⟨0x1E, 7⟩]) = some (eax, m', d') ∧
      Took (keyboardWith [⟨0x1E, 7⟩]) d' m' 0x2000 ∧ resultAt m' 0x1000 = 0 ∧ ¬PollTold (keyboardWith [⟨0x1E, 7⟩]) pollMemory 0x1000 := by
  refine ⟨_, _, _, rfl, ⟨⟨0x1E, 7, 97⟩, by decide +kernel, by decide +kernel⟩, by decide +kernel, ?_⟩
  exact fun htold => absurd (htold.pending_eq_nil pollCall_pollMemory) (by decide +kernel)

end ProOS.Syscall
