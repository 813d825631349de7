import ProOS.Syscall.Model

namespace ProOS.Syscall

open ProOS.Framework ProOS.Kernel Option

/-- What the kernel may answer while the keyboard driver is in the state `d`; other calls may answer
anything. -/
def Answers (d : Keyboard) : {α : Type} → KernelCall α → α → Prop
  | _, .pollKey, key => key = d.poll
  | _, _, _ => True

/-- The `n` bytes from `addr` on lie in a range that the kernel accepts as a user buffer. -/
def Covered (addr n : Nat) : Prop :=
  ∃ p length, length < 2 ^ 32 ∧ syscallValidateUserBuffer p length = true ∧ p ≤ addr ∧
    addr + n ≤ p + length

section Ranges

variable {addr n length p : Nat}

theorem validate_iff (hlen : length < 2 ^ 32) :
    syscallValidateUserBuffer addr length = true ↔ length = 0 ∨ (0 < addr ∧ addr + length < configUserSpaceLimit) := by
  have hlimit : configUserSpaceLimit = 2 ^ 31 := rfl
  have hpointer : syscallValidateUserPointer addr = true ↔ 0 < addr ∧ addr < 2 ^ 31 := by
    simp [syscallValidateUserPointer, hlimit, Nat.pos_iff_ne_zero]
  unfold syscallValidateUserBuffer
  rw [hlimit]
  by_cases h0 : length = 0
  · simp [h0]
  rw [if_neg h0]
  by_cases h1 : 0 < addr ∧ addr < 2 ^ 31
  · rw [hpointer.mpr h1, if_neg (by simp)]
    by_cases h2 : (addr + length) % 2 ^ 32 < addr
    · rw [if_pos h2]
      simp only [Bool.false_eq_true, false_iff]
      omega
    · rw [if_neg h2]
      split_ifs with h3
      · simp only [false_iff]
        omega
      · simp only [true_iff]
        omega
  · have hno : syscallValidateUserPointer addr = false := by
      rw [← Bool.not_eq_true, hpointer]
      exact h1
    rw [hno, if_pos (by simp)]
    simp only [Bool.false_eq_true, false_iff]
    omega

theorem Covered.below (h : Covered addr n) (hn : 0 < n) : addr + n < configUserSpaceLimit := by
  obtain ⟨p, length, hlen, hvalid, hp, hend⟩ := h
  rcases (validate_iff hlen).mp hvalid with rfl | ⟨-, hlt⟩
  · omega
  · omega

theorem covered_iff (hn : 0 < n) (hlt : n < 2 ^ 32) : Covered addr n ↔ syscallValidateUserBuffer addr n = true := by
  constructor
  · intro h
    have hbelow := h.below hn
    obtain ⟨p, length, hlen, hvalid, hp, hend⟩ := h
    rcases (validate_iff hlen).mp hvalid with rfl | ⟨hpos, -⟩
    · omega
    · exact (validate_iff hlt).mpr (.inr ⟨by omega, hbelow⟩)
  · intro h
    exact ⟨addr, n, hlt, h, le_rfl, le_rfl⟩

theorem Covered.of_valid (hlen : length < 2 ^ 32) (h : syscallValidateUserBuffer p length = true)
    (hp : p ≤ addr) (hend : addr + n ≤ p + length) : Covered addr n :=
  ⟨p, length, hlen, h, hp, hend⟩

end Ranges

section Handlers

variable {d : Keyboard} {msg : Envelope}

theorem fail_confined : fail.Confined (Answers d) Covered := trivial

theorem ret_confined (r : Int) : (Prog.ret r : Handler).Confined (Answers d) Covered := trivial

theorem call_ret_confined (c : KernelCall Int) :
    (Prog.call c .ret : Handler).Confined (Answers d) Covered := fun _ _ => trivial

theorem withCurrent_confined {f : Pid → Handler} (hf : ∀ pid, (f pid).Confined (Answers d) Covered) :
    (withCurrent f).Confined (Answers d) Covered := by
  intro proc _
  cases proc with
  | none => exact fail_confined
  | some pid => exact hf pid

theorem sysWriteHandler_confined : (sysWriteHandler msg).Confined (Answers d) Covered := by
  unfold sysWriteHandler
  dsimp only
  split_ifs
  · exact fail_confined
  · exact ret_confined 0
  · exact fail_confined
  · exact fun _ _ _ _ => trivial

theorem sysSpawnHandler_confined : (sysSpawnHandler msg).Confined (Answers d) Covered := by
  unfold sysSpawnHandler
  split_ifs
  · exact fail_confined
  · exact fail_confined
  · exact call_ret_confined _

theorem sysSleepHandler_confined : (sysSleepHandler msg).Confined (Answers d) Covered := by
  unfold sysSleepHandler
  split_ifs
  · exact fail_confined
  · exact fun _ _ => trivial

theorem sysIpcSendHandler_confined : (sysIpcSendHandler msg).Confined (Answers d) Covered := by
  unfold sysIpcSendHandler
  dsimp only
  split_ifs
  · exact fail_confined
  · exact fail_confined
  · exact fail_confined
  · exact fun _ _ => call_ret_confined _
  · exact call_ret_confined _

theorem sysIpcRecvHandler_confined : (sysIpcRecvHandler msg).Confined (Answers d) Covered := by
  unfold sysIpcRecvHandler
  dsimp only
  split
  · exact fail_confined
  split
  · exact fail_confined
  rename_i hbuffer
  generalize (if configMsgDataMax < msg.arg2.toNat then configMsgDataMax else msg.arg2.toNat) = cap
  intro r _
  dsimp only
  split
  · exact ret_confined _
  split
  · rename_i huser
    have hvalid : syscallValidateUserBuffer msg.arg1.toNat msg.arg2.toNat = true := by
      by_contra hno
      exact hbuffer ⟨huser.2.1, by simpa using hno⟩
    -- what is copied is never more than `max`
    have hlen : (if msg.arg2.toNat < r.1.toNat then msg.arg2.toNat else r.1.toNat) ≤ msg.arg2.toNat := by
      split_ifs <;> omega
    generalize (if msg.arg2.toNat < r.1.toNat then msg.arg2.toNat else r.1.toNat) = n at hlen ⊢
    have hcopy : (if cap < n then cap else n) ≤ msg.arg2.toNat := by
      split_ifs <;> omega
    generalize (if cap < n then cap else n) = copyLen at hcopy ⊢
    split
    · refine ⟨Covered.of_valid (UInt32.toNat_lt _) hvalid le_rfl ?_, ret_confined _⟩
      rw [List.length_take]
      omega
    · exact ret_confined _
  · exact ret_confined _

theorem sysIpcShareHandler_confined : (sysIpcShareHandler msg).Confined (Answers d) Covered := by
  unfold sysIpcShareHandler
  dsimp only
  split_ifs
  · exact fail_confined
  · exact fail_confined
  · exact fail_confined
  · exact fail_confined
  · exact fail_confined
  · exact call_ret_confined _

theorem sysServiceConnectHandler_confined : (sysServiceConnectHandler msg).Confined (Answers d) Covered := by
  unfold sysServiceConnectHandler
  split
  · exact fail_confined
  refine withCurrent_confined (fun pid => ?_)
  split
  · exact fail_confined
  intro rc _
  dsimp only
  split
  · exact fail_confined
  · exact call_ret_confined _

theorem sysSendHandler_confined : (sysSendHandler msg).Confined (Answers d) Covered := by
  unfold sysSendHandler
  dsimp only
  split
  · exact fail_confined
  split
  · exact fail_confined
  intro message _
  dsimp only
  split
  · exact fail_confined
  split
  · split
    · exact fail_confined
    · intro bytes _
      exact withCurrent_confined (fun pid => call_ret_confined _)
  · exact withCurrent_confined (fun pid => call_ret_confined _)

/-- The buffer and the structure are the two ranges that `sys_recv` has checked. -/
theorem sysRecvDeliver_confined {userMessage userBuffer userCapacity : Nat}
    (hmessage : syscallValidateUserBuffer userMessage ipcMessageSize = true) (hcapacity : userCapacity < 2 ^ 32)
    (hbuffer : userBuffer ≠ 0 → 0 < userCapacity →
      syscallValidateUserBuffer userBuffer userCapacity = true) (rc : Int) (e : Channel.Delivery) :
    (sysRecvDeliver userMessage userBuffer userCapacity rc e).Confined (Answers d) Covered := by
  have hstruct : Covered userMessage ipcMessageSize :=
    .of_valid (by decide) hmessage le_rfl le_rfl
  unfold sysRecvDeliver
  split
  · exact ret_confined rc
  split
  · exact fail_confined
  rename_i header type sender size _
  dsimp only
  generalize (if configMsgDataMax < size then configMsgDataMax else size) = copyLen
  split
  · rename_i huser
    have hcopy : (if copyLen < userCapacity then copyLen else userCapacity) ≤ userCapacity := by
      split_ifs <;> omega
    generalize (if copyLen < userCapacity then copyLen else userCapacity) = toCopy at hcopy ⊢
    split
    · refine ⟨Covered.of_valid hcapacity (hbuffer huser.1 huser.2) le_rfl ?_, hstruct, ret_confined 1⟩
      rw [List.length_take]
      omega
    · exact ⟨hstruct, ret_confined 1⟩
  · exact ⟨hstruct, ret_confined 1⟩

theorem word_lt (bytes : List UInt8) (offset : Nat) : word bytes offset < 2 ^ 32 := get32_lt _ _

theorem sysRecvHandler_confined : (sysRecvHandler msg).Confined (Answers d) Covered := by
  unfold sysRecvHandler
  dsimp only
  split
  · exact fail_confined
  split
  · exact fail_confined
  rename_i hmessage
  intro request _
  dsimp only
  split
  · exact fail_confined
  rename_i hbuffer
  refine withCurrent_confined (fun pid => ?_)
  intro r _
  refine sysRecvDeliver_confined (by simpa using hmessage) (word_lt _ _) ?_ r.1 r.2
  intro huser hcap
  by_contra hno
  exact hbuffer ⟨huser, hcap, by simpa using hno⟩

theorem sysChanCreateHandler_confined : (sysChanCreateHandler msg).Confined (Answers d) Covered := by
  unfold sysChanCreateHandler
  dsimp only
  split
  · exact fail_confined
  split
  · split
    · exact fail_confined
    · exact fun _ _ => call_ret_confined _
  · exact call_ret_confined _

theorem passHandler_confined (c : Int → KernelCall Int) : (passHandler c msg).Confined (Answers d) Covered := by
  unfold passHandler
  split
  · exact fail_confined
  · exact call_ret_confined _

theorem passCurrentHandler_confined (c : Int → KernelCall Int) :
    (passCurrentHandler c msg).Confined (Answers d) Covered := by
  unfold passCurrentHandler
  split
  · exact fail_confined
  · exact withCurrent_confined (fun pid => call_ret_confined _)

theorem sysExitHandler_confined : (sysExitHandler msg).Confined (Answers d) Covered := by
  unfold sysExitHandler
  split
  · exact fail_confined
  · exact fun _ _ => trivial

theorem sysSchedSetHandler_confined : (sysSchedSetHandler msg).Confined (Answers d) Covered := by
  unfold sysSchedSetHandler
  split
  · exact fail_confined
  · exact call_ret_confined _

theorem setResult_confined (henv : syscallValidateUserBuffer msg.address envelopeSize = true)
    {next : Handler} (hnext : next.Confined (Answers d) Covered) (result : Int) (status : Nat) :
    (setResult msg result status next).Confined (Answers d) Covered := by
  have hpart (k : Nat) (hk : k + 4 ≤ envelopeSize) : Covered (msg.address + k) 4 :=
    .of_valid (by decide) henv (by omega) (by omega)
  exact ⟨hpart 24 (by decide), hpart 28 (by decide), hnext⟩

/-- The keyboard call stores a key at its argument whatever that is: the test for an invalid buffer
compares a flag with 0. -/
theorem sysKbdPoll_confined_iff (henv : syscallValidateUserBuffer msg.address envelopeSize = true) :
    (sysKbdPoll msg).Confined (Answers d) Covered ↔
      ¬(1 ≤ msg.argc ∧ msg.arg0 ≠ 0 ∧ syscallValidateUserBuffer msg.arg0.toNat 12 = false ∧ d.poll.isSome) := by
  have hflag : ¬cBool (syscallValidateUserBuffer msg.arg0.toNat 12) < 0 := by
    unfold cBool
    split_ifs <;> decide
  have hzero : msg.arg0.toNat = 0 ↔ msg.arg0 = 0 := by
    rw [← UInt32.toNat_inj]
    rfl
  unfold sysKbdPoll
  rw [if_neg hflag]
  split_ifs with hargc hnull
  · refine iff_of_true (setResult_confined henv fail_confined _ _) ?_
    rintro ⟨h, -⟩
    omega
  · refine iff_of_true (setResult_confined henv fail_confined _ _) ?_
    rintro ⟨-, h, -⟩
    exact h (hzero.mp hnull)
  · have hnull' : msg.arg0 ≠ 0 := fun h => hnull (hzero.mpr h)
    cases hkey : d.poll with
    | none =>
      refine iff_of_true ?_ (by simp)
      intro key hans
      have hans' : key = none := hans.trans hkey
      subst hans'
      exact setResult_confined henv (ret_confined 0) _ _
    | some entry =>
      have hlen : (eventBytes entry).length = 12 := rfl
      constructor
      · intro h
        have hstore := (h (some entry) hkey.symm).1
        rw [hlen, covered_iff (by decide) (by decide)] at hstore
        rintro ⟨-, -, hbad, -⟩
        rw [hstore] at hbad
        cases hbad
      · intro hok key hans
        have hans' : key = some entry := hans.trans hkey
        subst hans'
        have hvalid : syscallValidateUserBuffer msg.arg0.toNat 12 = true := by
          rw [← Bool.not_eq_false]
          exact fun hbad => hok ⟨by omega, hnull', hbad, rfl⟩
        refine ⟨?_, setResult_confined henv (ret_confined 0) _ _⟩
        rw [hlen, covered_iff (by decide) (by decide)]
        exact hvalid

/-- Every call of the kernel proper is confined. -/
theorem syscallTable_confined {kbd : Bool} {number : Nat} {handler : Envelope → Handler}
    (h : syscallTable kbd number = some handler) (hkbd : number ≠ sysDynamicBase) :
    (handler msg).Confined (Answers d) Covered := by
  unfold syscallTable at h
  split at h
  case _ => obtain rfl := some.inj h; exact sysWriteHandler_confined
  case _ => obtain rfl := some.inj h; exact fun _ _ => trivial
  case _ => obtain rfl := some.inj h; exact sysSpawnHandler_confined
  case _ => obtain rfl := some.inj h; exact sysSendHandler_confined
  case _ => obtain rfl := some.inj h; exact sysRecvHandler_confined
  case _ => obtain rfl := some.inj h; exact sysExitHandler_confined
  case _ => obtain rfl := some.inj h; exact sysChanCreateHandler_confined
  case _ => obtain rfl := some.inj h; exact passCurrentHandler_confined _
  case _ => obtain rfl := some.inj h; exact passCurrentHandler_confined _
  case _ => obtain rfl := some.inj h; exact passHandler_confined _
  case _ => obtain rfl := some.inj h; exact passHandler_confined _
  case _ => obtain rfl := some.inj h; exact sysSleepHandler_confined
  case _ => obtain rfl := some.inj h; exact sysIpcSendHandler_confined
  case _ => obtain rfl := some.inj h; exact sysIpcRecvHandler_confined
  case _ => obtain rfl := some.inj h; exact sysIpcShareHandler_confined
  case _ => obtain rfl := some.inj h; exact sysServiceConnectHandler_confined
  case _ => obtain rfl := some.inj h; exact sysSchedSetHandler_confined
  case _ => obtain rfl := some.inj h; exact call_ret_confined _
  case _ => obtain rfl := some.inj h; exact passHandler_confined _
  case _ => obtain rfl := some.inj h; exact passHandler_confined _
  case _ => obtain rfl := some.inj h; exact passHandler_confined _
  case _ => obtain rfl := some.inj h; exact passHandler_confined _
  case _ => obtain rfl := some.inj h; exact passHandler_confined _
  case _ => exact absurd rfl hkbd
  case _ => cases h

theorem syscallInvoke_confined_iff (kbd : Bool) (henv : syscallValidateUserBuffer msg.address envelopeSize = true) :
    (syscallInvoke kbd msg).Confined (Answers d) Covered ↔
      ¬(kbd = true ∧ msg.number = sysDynamicBase ∧ 1 ≤ msg.argc ∧ msg.arg0 ≠ 0 ∧
        syscallValidateUserBuffer msg.arg0.toNat 12 = false ∧ d.poll.isSome) := by
  unfold syscallInvoke
  by_cases hnumber : msg.number = sysDynamicBase
  · rw [if_neg (by rw [hnumber]; decide), hnumber]
    have htable : syscallTable kbd sysDynamicBase = if kbd then some sysKbdPoll else none := rfl
    cases kbd with
    | false =>
      rw [htable]
      exact iff_of_true fail_confined (by simp)
    | true =>
      rw [htable]
      simpa using sysKbdPoll_confined_iff henv
  · refine iff_of_true ?_ (fun h => hnumber h.2.1)
    split
    · exact fail_confined
    · cases htable : syscallTable kbd msg.number with
      | none => exact fail_confined
      | some handler => exact syscallTable_confined htable hnumber

end Handlers

/-- A system call writes outside of the user buffers that the kernel accepts exactly if it is the
keyboard call, with an argument that is not NULL but no such buffer, while a key is waiting. -/
theorem syscall_writes_confined_iff (d : Keyboard) (kbd : Bool) (msg : Envelope)
    (henv : syscallValidateUserBuffer msg.address envelopeSize = true) :
    (syscallDispatch kbd msg).Confined (Answers d) Covered ↔
      ¬(kbd = true ∧ msg.number = sysDynamicBase ∧ 1 ≤ msg.argc ∧ msg.argc ≤ syscallMaxArgs ∧
        msg.arg0 ≠ 0 ∧ syscallValidateUserBuffer msg.arg0.toNat 12 = false ∧ d.poll.isSome) := by
  unfold syscallDispatch
  split
  · rename_i hargs
    refine iff_of_true (setResult_confined henv fail_confined _ _) ?_
    rintro ⟨-, -, -, h, -⟩
    omega
  · rename_i hargs
    have hinvoke := syscallInvoke_confined_iff (d := d) kbd henv
    constructor
    · rintro h ⟨hk, hn, h1, -, hrest⟩
      exact hinvoke.mp h.of_bind ⟨hk, hn, h1, hrest⟩
    · intro h
      refine (hinvoke.mpr ?_).bind (fun r => setResult_confined henv (ret_confined r) _ _)
      rintro ⟨hk, hn, h1, hrest⟩
      exact h ⟨hk, hn, h1, by omega, hrest⟩

/-- A key waits in the mailbox. -/
def pressed : Keyboard := ⟨[⟨0x1E, 7⟩], fun _ => ⟨0, 0, 0⟩, 0, 0, false⟩

/-- With a buffer in user space the keyboard call is confined, too. -/
theorem syscall_writes_confined_poll :
    (syscallDispatch true ⟨0x1000, 32, 1, 0x2000, 0, 0, 0⟩).Confined (Answers pressed) Covered :=
  (syscall_writes_confined_iff pressed true ⟨0x1000, 32, 1, 0x2000, 0, 0, 0⟩ (by decide)).mpr
    (by decide)

theorem syscall_writes_kernel_memory :
    ¬∀ (d : Keyboard) (kbd : Bool) (msg : Envelope),
      syscallValidateUserBuffer msg.address envelopeSize = true →
        (syscallDispatch kbd msg).Confined (Answers d) Covered := by
  intro h
  have hpoll := h pressed true ⟨0x1000, 32, 1, 0xC0000000, 0, 0, 0⟩ (by decide)
  have hinvoke : (sysKbdPoll ⟨0x1000, 32, 1, 0xC0000000, 0, 0, 0⟩).Confined (Answers pressed) Covered :=
    Prog.Confined.of_bind hpoll
  exact (sysKbdPoll_confined_iff (by decide)).mp hinvoke (by decide)

end ProOS.Syscall
