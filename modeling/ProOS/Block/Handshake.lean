import ProOS.Block.Ata

/-! The order in which `ata_pio_read` and `ata_pio_write` use the ports of the drive. -/

namespace ProOS.Block

open ProOS.Framework List

/-- The driver's accesses, with the byte that a read of the status register returns. -/
inductive PortEvent
  | registers (r : Registers)
  | command (cmd : UInt8)
  | status (s : UInt8)
  -- the 256 words of a sector, through the data register
  | sector
  deriving DecidableEq

def failed (s : UInt8) : Bool := s &&& 0x01 ≠ 0 || s &&& 0x20 ≠ 0
def busy (s : UInt8) : Bool := s &&& 0x80 ≠ 0
def dataRequest (s : UInt8) : Bool := s &&& 0x08 ≠ 0

/-- What a wait did, the number of the next byte of the status register, and whether it returned 0. -/
structure Wait where
  events : List PortEvent
  next : Nat
  ok : Bool

/-- The loop of `ata_wait`; byte `i` is what read number `i` of the status register returns. -/
def ataWaitLoop (bytes : Nat → UInt8) (needDrq : Bool) : Nat → Nat → Wait
  | 0, i => ⟨[], i, false⟩
  | rounds + 1, i =>
    if failed (bytes i) then ⟨[.status (bytes i)], i + 1, false⟩
    else if busy (bytes i) || needDrq && !dataRequest (bytes i) then
      let w := ataWaitLoop bytes needDrq rounds (i + 1)
      ⟨.status (bytes i) :: w.events, w.next, w.ok⟩
    else ⟨[.status (bytes i)], i + 1, true⟩

def ataWait (bytes : Nat → UInt8) (needDrq : Bool) (i : Nat) : Wait := ataWaitLoop bytes needDrq 100000 i

/-- The loop over the chunks of a request: the events and the result. A write waits for the drive once more behind each
chunk. -/
def ataPioLoop (write : Bool) (slave : UInt8) (bytes : Nat → UInt8) (lba : UInt64) (remaining i : Nat) :
    List PortEvent × Int :=
  if remaining = 0 then ([], 0)
  else
    let chunk := if 128 < remaining then 128 else remaining
    let issued := [.registers (ataSetup slave lba chunk), .command (if write then 0x30 else 0x20)]
    let w := ataWait bytes true i
    if !w.ok then (issued ++ w.events, -1)
    else
      let moved := issued ++ (w.events ++ replicate chunk .sector)
      let v := if write then ataWait bytes false w.next else ⟨[], w.next, true⟩
      if !v.ok then (moved ++ v.events, -1)
      else
        let r := ataPioLoop write slave bytes (lba + UInt64.ofNat chunk) (remaining - chunk) v.next
        (moved ++ (v.events ++ r.1), r.2)
termination_by remaining
decreasing_by split <;> omega

def ataPioRead (slave : UInt8) (bytes : Nat → UInt8) (lba : UInt64) (count : UInt32) : List PortEvent × Int :=
  ataPioLoop false slave bytes lba count.toNat 0

def ataPioWrite (slave : UInt8) (bytes : Nat → UInt8) (lba : UInt64) (count : UInt32) : List PortEvent × Int :=
  ataPioLoop true slave bytes lba count.toNat 0

/-- The handshake: a sector is moved when the status read since the command and since the sector before showed that the
drive asks for it, and from a failure on none is and the call returns -1. The flag tells that the drive has asked. -/
def Handshake (result : Int) : Bool → List PortEvent → Prop
  | _, [] => True
  | asked, .registers _ :: es => Handshake result asked es
  | _, .command _ :: es => Handshake result false es
  | asked, .status s :: es =>
    if failed s then result = -1 ∧ .sector ∉ es
    else Handshake result (asked || !busy s && dataRequest s) es
  | asked, .sector :: es => asked = true ∧ Handshake result false es

section Waiting

variable {bytes : Nat → UInt8} {needDrq : Bool}

theorem ataWaitLoop_ok (rounds i : Nat) (asked : Bool) (h : (ataWaitLoop bytes needDrq rounds i).ok = true) :
    ∃ asked', (needDrq = true → asked' = true) ∧ ∀ result es,
      Handshake result asked ((ataWaitLoop bytes needDrq rounds i).events ++ es) ↔ Handshake result asked' es := by
  induction rounds generalizing i asked with
  | zero => cases h
  | succ rounds ih =>
    rw [ataWaitLoop] at h ⊢
    by_cases hf : failed (bytes i) = true
    · rw [if_pos hf] at h
      cases h
    rw [if_neg hf] at h ⊢
    by_cases hagain : (busy (bytes i) || needDrq && !dataRequest (bytes i)) = true
    · rw [if_pos hagain] at h ⊢
      obtain ⟨asked', hneed, hrest⟩ := ih (i + 1) (asked || !busy (bytes i) && dataRequest (bytes i)) h
      refine ⟨asked', hneed, fun result es => ?_⟩
      rw [cons_append, Handshake, if_neg hf]
      exact hrest result es
    · rw [if_neg hagain]
      refine ⟨asked || !busy (bytes i) && dataRequest (bytes i), fun hneed => ?_, fun result es => ?_⟩
      · rw [hneed] at hagain
        simp_all
      · rw [singleton_append, Handshake, if_neg hf]

theorem ataWaitLoop_fails (rounds i : Nat) (asked : Bool) (h : (ataWaitLoop bytes needDrq rounds i).ok = false) :
    Handshake (-1) asked (ataWaitLoop bytes needDrq rounds i).events := by
  induction rounds generalizing i asked with
  | zero => trivial
  | succ rounds ih =>
    rw [ataWaitLoop] at h ⊢
    by_cases hf : failed (bytes i) = true
    · rw [if_pos hf, Handshake, if_pos hf]
      exact ⟨rfl, not_mem_nil⟩
    rw [if_neg hf] at h ⊢
    by_cases hagain : (busy (bytes i) || needDrq && !dataRequest (bytes i)) = true
    · rw [if_pos hagain] at h ⊢
      rw [Handshake, if_neg hf]
      exact ih (i + 1) _ h
    · rw [if_neg hagain] at h
      cases h

theorem wait_behind (write : Bool) (i : Nat) {v : Wait} (hv : (if write then ataWait bytes false i else ⟨[], i, true⟩) = v) :
    (v.ok = false → Handshake (-1) false v.events) ∧ (v.ok = true → Handshake 0 false v.events) := by
  subst hv
  cases write with
  | false => exact ⟨Bool.noConfusion, fun _ => trivial⟩
  | true =>
    refine ⟨ataWaitLoop_fails _ _ _, fun h => ?_⟩
    obtain ⟨asked, -, hrest⟩ := ataWaitLoop_ok _ _ false h
    have hend := (hrest 0 []).mpr trivial
    rwa [append_nil] at hend

theorem ataPioLoop_handshake_iff (write : Bool) (slave : UInt8) (lba : UInt64) (count i : Nat) :
    Handshake (ataPioLoop write slave bytes lba count i).2 false (ataPioLoop write slave bytes lba count i).1 ↔
      count ≤ 1 ∨ (ataWait bytes true i).ok = false := by
  rw [ataPioLoop]
  by_cases hzero : count = 0
  · rw [if_pos hzero]
    exact iff_of_true trivial (.inl (by omega))
  rw [if_neg hzero]
  dsimp only
  obtain ⟨chunk, hchunk⟩ : ∃ chunk, (if 128 < count then 128 else count) = chunk := ⟨_, rfl⟩
  generalize hv : (if write then ataWait bytes false (ataWait bytes true i).next else ⟨[], _, true⟩ : Wait) = v
  rw [hchunk]
  cases hok : (ataWait bytes true i).ok with
  | false => exact iff_of_true (ataWaitLoop_fails _ _ _ hok) (.inr rfl)
  | true =>
    obtain ⟨asked, hneed, hwait⟩ := ataWaitLoop_ok _ _ false hok
    obtain rfl := hneed rfl
    have hfirst : ∀ result es, Handshake result false ([.registers (ataSetup slave lba chunk),
        .command (if write then 0x30 else 0x20)] ++ ((ataWait bytes true i).events ++ replicate chunk .sector) ++ es) ↔
          Handshake result true (replicate chunk .sector ++ es) := by
      intro result es
      rw [append_assoc, append_assoc]
      exact hwait result _
    rw [Bool.not_true, if_neg Bool.false_ne_true]
    by_cases hone : count = 1
    · obtain rfl : 1 = chunk := by rw [← hchunk, hone]; rfl
      refine iff_of_true ?_ (.inl hone.le)
      obtain ⟨hfails, hends⟩ := wait_behind write _ hv
      cases hvok : v.ok with
      | false => exact (hfirst _ _).mpr ⟨rfl, hfails hvok⟩
      | true =>
        rw [Bool.not_true, if_neg Bool.false_ne_true, hone, ataPioLoop, if_pos rfl, append_nil]
        exact (hfirst _ _).mpr ⟨rfl, hends hvok⟩
    · -- the second sector of the chunk follows the first one at once
      obtain ⟨n, rfl⟩ : ∃ n, chunk = n + 2 := ⟨chunk - 2, by split at hchunk <;> omega⟩
      have htwo : ∀ result es, ¬Handshake result true (replicate (n + 2) .sector ++ es) := by
        rintro result es ⟨-, hagain, -⟩
        cases hagain
      refine iff_of_false ?_ (by simp; omega)
      cases v.ok with
      | false => exact fun h => htwo _ _ ((hfirst _ _).mp h)
      | true => exact fun h => htwo _ _ ((hfirst _ _).mp h)

/-- The driver looks at the status once for each chunk, not for each sector: the handshake holds if and only if the
request is for one sector at most, or the drive never asks for the first one. -/
theorem ata_handshake_iff (slave : UInt8) (bytes : Nat → UInt8) (lba : UInt64) (count : UInt32) :
    (Handshake (ataPioRead slave bytes lba count).2 false (ataPioRead slave bytes lba count).1 ∧
        Handshake (ataPioWrite slave bytes lba count).2 false (ataPioWrite slave bytes lba count).1) ↔
      count.toNat ≤ 1 ∨ (ataWait bytes true 0).ok = false := by
  rw [ataPioRead, ataPioWrite, ataPioLoop_handshake_iff, ataPioLoop_handshake_iff, and_self_iff]

/-- Two sectors from a drive that is always ready: the second one is not waited for. -/
theorem ata_second_sector_unasked :
    ataPioRead 0 (fun _ => 0x58) 0 2 =
        ([.registers (ataSetup 0 0 2), .command 0x20, .status 0x58, .sector, .sector], 0) ∧
      ¬Handshake 0 false [.registers (ataSetup 0 0 2), .command 0x20, .status 0x58, .sector, .sector] := by
  have hwait : ataWait (fun _ => 0x58) true 0 = ⟨[.status 0x58], 1, true⟩ := by
    rw [ataWait, ataWaitLoop, if_neg (by decide), if_neg (by decide)]
  constructor
  · simp [ataPioRead, ataPioLoop, hwait, replicate_succ]
  · rintro ⟨-, hagain, -⟩
    cases hagain

end Waiting

end ProOS.Block
