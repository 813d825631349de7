import ProOS.Syscall.Model

/-! The two decoders of the keyboard (`keyboard.c` and the ps2kbd module): what a byte from the controller makes readable in each. -/

namespace ProOS.Keyboard

open ProOS.Syscall List

def kbBufferSize : Nat := 256
def irqMailboxCapacity : Nat := 32

/-- The state of `keyboard.c`; characters are put in at `head`. -/
structure Decoder where
  buffer : Nat → UInt8
  head : Nat
  tail : Nat
  shift : Bool
  extended : Bool

def bufferPush (k : Decoder) (c : UInt8) : Decoder :=
  let next := (k.head + 1) % kbBufferSize
  if next ≠ k.tail then { k with buffer := Function.update k.buffer k.head c, head := next } else k

def dispatchScancode (scancode : UInt8) (release extended : Bool) : UInt32 :=
  UInt32.ofNat scancode.toNat ||| (if release then 0x100 else 0) ||| (if extended then 0x200 else 0)

def translateScancode (shift : Bool) (scancode : UInt8) : UInt8 :=
  if 128 ≤ scancode.toNat then 0 else (if shift then keymapShift else keymap).getD scancode.toNat 0

/-- `keyboard_handle_scancode`, with the event that it dispatches. -/
def keyboardHandleScancode (k : Decoder) (scancode : UInt8) : Decoder × Option UInt32 :=
  if scancode = 0xE0 then ({ k with extended := true }, none)
  else
    let release := scancode &&& 0x80 != 0
    let code := scancode &&& 0x7F
    if k.extended then
      let k := { k with extended := false }
      if release then (k, some (dispatchScancode code true true))
      else
        (if arrowKey code.toNat = 0 then k else bufferPush k (arrowKey code.toNat), some (dispatchScancode code false true))
    else if release then
      (if code = 0x2A ∨ code = 0x36 then { k with shift := false } else k, some (dispatchScancode code true false))
    else if code = 0x2A ∨ code = 0x36 then ({ k with shift := true }, some (dispatchScancode code false false))
    else if code = 0x0E then (bufferPush k 8, some (dispatchScancode code false false))
    else if code = 0x1C then (bufferPush k 10, some (dispatchScancode code false false))
    else if translateScancode k.shift code = 0 then (k, none)
    else (bufferPush k (translateScancode k.shift code), some (dispatchScancode code false false))

def kbGetchar (k : Decoder) : UInt8 × Decoder :=
  if k.head = k.tail then (0, k) else (k.buffer k.tail, { k with tail := (k.tail + 1) % kbBufferSize })

/-- At most `n` calls of `kb_getchar`, up to the first that returns 0. -/
def kbDrain : Nat → Decoder → List UInt8 × Decoder
  | 0, k => ([], k)
  | n + 1, k =>
    let r := kbGetchar k
    if r.1 = 0 then ([], r.2)
    else
      let rest := kbDrain n r.2
      (r.1 :: rest.1, rest.2)

def mailboxPush (box : List IrqEvent) (event : IrqEvent) : List IrqEvent :=
  (if irqMailboxCapacity ≤ box.length then box.drop 1 else box) ++ [event]

/-- The loop of `keyboard_read`, with room for `length` more characters; each turn takes an entry from the queue. -/
def readLoop : Nat → Nat → Keyboard → List UInt8 × Keyboard
  | 0, _, d => ([], d)
  | _ + 1, 0, d => ([], d)
  | n + 1, length + 1, d =>
    match fifoPop d with
    | (none, d) => ([], d)
    | (some entry, d) =>
      if entry.ch = 0 then readLoop n (length + 1) d
      else
        let rest := readLoop n length d
        (entry.ch :: rest.1, rest.2)

/-- `keyboard_read` into a buffer of `length` bytes. -/
def keyboardRead (d : Keyboard) (length : Nat) : Int × List UInt8 × Keyboard :=
  if length = 0 then (-1, [], d)
  else
    let r := readLoop keyFifoCapacity length (processPendingEvents d)
    (if r.1 = [] then -1 else 0, r)

/-- A byte of the controller, the time at which it arrives and the room of the next `keyboard_read`. -/
structure Arrival where
  scancode : UInt8
  timestamp : UInt32
  room : Nat

/-- The byte is handled and both consumers drain their queues. -/
def feed (k : Decoder) (d : Keyboard) (a : Arrival) : (List UInt8 × Decoder) × (Int × List UInt8 × Keyboard) :=
  let r := keyboardHandleScancode k a.scancode
  (kbDrain kbBufferSize r.1,
    keyboardRead { d with mailbox := r.2.elim d.mailbox (fun p => mailboxPush d.mailbox ⟨p, a.timestamp⟩) } a.room)

/-- The characters that `kb_getchar` and those that `keyboard_read` have returned in the end. -/
def typed : Decoder → Keyboard → List Arrival → List UInt8 × List UInt8
  | _, _, [] => ([], [])
  | k, d, a :: rest =>
    let r := feed k d a
    let t := typed r.1.2 r.2.2.2 rest
    (r.1.1 ++ t.1, r.2.2.1 ++ t.2)

def kbInit (buffer : Nat → UInt8) : Decoder := ⟨buffer, 0, 0, false, false⟩

def keyboardStart (fifo : Nat → KeyFifoEntry) : Keyboard := ⟨[], fifo, 0, 0, false⟩

/-! ## Both queues are empty between two bytes -/

def Decoder.Drained (k : Decoder) : Prop := k.head = k.tail ∧ k.tail < kbBufferSize

def Quiet (d : Keyboard) : Prop := (d.head = d.tail ∧ d.tail < keyFifoCapacity) ∧ d.mailbox = []

variable {k j : Decoder} {d : Keyboard} {c : UInt8} {p t : UInt32} {code : UInt8} {a : Arrival} {s : Bool}

theorem kbDrain_empty (h : k.Drained) (n : Nat) : kbDrain n k = ([], k) := by
  cases n <;> simp [kbDrain, kbGetchar, h.1]

theorem kbGetchar_push (h : k.Drained) : ∃ k', kbGetchar (bufferPush k c) = (c, k') ∧ k'.Drained ∧ k'.shift = k.shift := by
  have hnext : (k.tail + 1) % kbBufferSize ≠ k.tail := by
    have htail := h.2
    rw [kbBufferSize] at htail ⊢
    omega
  rw [bufferPush, h.1, if_pos hnext, kbGetchar, if_neg hnext]
  simp only [Function.update_self]
  exact ⟨_, rfl, ⟨rfl, Nat.mod_lt _ (by decide)⟩, rfl⟩

theorem kbDrain_push (h : k.Drained) (n : Nat) : ∃ k', kbDrain (n + 1) (if c = 0 then k else bufferPush k c) =
    (if c = 0 then [] else [c], k') ∧ k'.Drained ∧ k'.shift = k.shift := by
  by_cases hc : c = 0
  · simp only [hc, if_true]
    exact ⟨k, kbDrain_empty h _, h, rfl⟩
  · obtain ⟨k', hget, hk', hshift⟩ := kbGetchar_push (c := c) h
    refine ⟨k', ?_, hk', hshift⟩
    simp only [hc, if_false, kbDrain, hget, kbDrain_empty hk']

theorem readLoop_empty (h : d.head = d.tail) (n room : Nat) : readLoop n room d = ([], d) := by
  cases n <;> cases room <;> simp [readLoop, fifoPop, h]

theorem fifoPop_push (h : Quiet d) :
    ∃ d', fifoPop (fifoPush d p c t) = (some ⟨p, t, c⟩, d') ∧ Quiet d' ∧ d'.shift = d.shift := by
  have hnext : (d.tail + 1) % keyFifoCapacity ≠ d.tail := by
    have htail := h.1.2
    rw [keyFifoCapacity] at htail ⊢
    omega
  rw [fifoPush, h.1.1, if_neg hnext, fifoPop, if_neg hnext.symm]
  simp only [Function.update_self]
  exact ⟨_, rfl, ⟨⟨rfl, Nat.mod_lt _ (by decide)⟩, h.2⟩, rfl⟩

theorem readLoop_push (h : Quiet d) {room : Nat} (hroom : room ≠ 0) (n : Nat) : ∃ d', readLoop (n + 1) room (fifoPush d p c t) =
    (if c = 0 then [] else [c], d') ∧ Quiet d' ∧ d'.shift = d.shift := by
  obtain ⟨d', hpop, hd', hshift⟩ := fifoPop_push (p := p) (c := c) (t := t) h
  obtain ⟨room, rfl⟩ := Nat.exists_eq_succ_of_ne_zero hroom
  refine ⟨d', ?_, hd', hshift⟩
  simp only [readLoop, hpop, readLoop_empty hd'.1.1]
  split_ifs <;> rfl

theorem dispatchScancode_bits (code : UInt8) (release extended : Bool) :
    (dispatchScancode code release extended &&& 0xFF).toNat = code.toNat ∧
      (dispatchScancode code release extended &&& 0x100 != 0) = release ∧
      (dispatchScancode code release extended &&& 0x200 != 0) = extended := by
  have hall : ∀ n < 256, ∀ r e : Bool,
      (dispatchScancode (UInt8.ofNat n) r e &&& 0xFF).toNat = (UInt8.ofNat n).toNat ∧
        (dispatchScancode (UInt8.ofNat n) r e &&& 0x100 != 0) = r ∧ (dispatchScancode (UInt8.ofNat n) r e &&& 0x200 != 0) = e := by
    decide +kernel
  have hcode := hall code.toNat code.toNat_lt release extended
  rwa [UInt8.ofNat_toNat] at hcode

theorem pendingEvent_dispatch (release extended : Bool) (hcode : code.toNat < 128) :
    pendingEvent d ⟨dispatchScancode code release extended, t⟩ =
      if extended then fifoPush d (dispatchScancode code release extended) (if release then 0 else arrowKey code.toNat) t
      else if code = 0x2A ∨ code = 0x36 then
        fifoPush { d with shift := !release } (dispatchScancode code release extended) 0 t
      else if release then fifoPush d (dispatchScancode code release extended) 0 t
      else if code = 0x0E then fifoPush d (dispatchScancode code release extended) 8 t
      else if code = 0x1C then fifoPush d (dispatchScancode code release extended) 10 t
      else if translateScancode d.shift code ≠ 0 then
        fifoPush d (dispatchScancode code release extended) (translateScancode d.shift code) t else d := by
  have heq (n : UInt8) : code = n ↔ code.toNat = n.toNat := UInt8.toNat_inj.symm
  obtain ⟨hlow, hrel, hext⟩ := dispatchScancode_bits code release extended
  simp only [pendingEvent, hlow, hrel, hext, translateScancode, if_neg (Nat.not_le.mpr hcode), heq, UInt8.reduceToNat]

theorem fifoPush_mailbox (box : List IrqEvent) :
    { fifoPush d p c t with mailbox := box } = fifoPush { d with mailbox := box } p c t := by
  simp only [fifoPush]
  split_ifs <;> rfl

theorem processPendingEvents_single (hd : Quiet d)
    (hpend : ∀ d₀ : Keyboard, d₀.shift = d.shift → pendingEvent d₀ ⟨p, t⟩ = fifoPush { d₀ with shift := s } p c t) :
    processPendingEvents { d with mailbox := mailboxPush d.mailbox ⟨p, t⟩ } = fifoPush { d with shift := s } p c t := by
  have hbox : mailboxPush d.mailbox ⟨p, t⟩ = [⟨p, t⟩] := by simp [mailboxPush, hd.2, irqMailboxCapacity]
  rw [hbox, processPendingEvents, foldl_cons, foldl_nil, hpend { d with mailbox := [⟨p, t⟩] } rfl,
    fifoPush_mailbox, ← hd.2]

/-- What holds after a byte has been handled: both consumers have got the same characters, and nothing is left. -/
structure Agrees (r : (List UInt8 × Decoder) × (Int × List UInt8 × Keyboard)) : Prop where
  chars : r.1.1 = r.2.2.1
  kernel : r.1.2.Drained
  module : Quiet r.2.2.2
  shift : r.2.2.2.shift = r.1.2.shift

theorem feed_event (hd : Quiet d) (hroom : a.room ≠ 0) (hj : j.Drained) (hs : s = j.shift)
    (hhandle : keyboardHandleScancode k a.scancode = (if c = 0 then j else bufferPush j c, some p))
    (hpend : ∀ d₀ : Keyboard, d₀.shift = d.shift → pendingEvent d₀ ⟨p, a.timestamp⟩ =
      fifoPush { d₀ with shift := s } p c a.timestamp) : Agrees (feed k d a) := by
  obtain ⟨k', hdrain, hk', hks⟩ := kbDrain_push (c := c) hj 255
  have hd₁ : Quiet { d with shift := s } := hd
  obtain ⟨d', hread, hd', hds⟩ := readLoop_push (p := p) (c := c) (t := a.timestamp) hd₁ hroom 63
  have hfeed : feed k d a = ((if c = 0 then [] else [c], k'), if (if c = 0 then [] else [c]) = [] then -1 else 0,
      if c = 0 then [] else [c], d') := by
    simp only [feed, hhandle, Option.elim_some, keyboardRead, if_neg hroom, processPendingEvents_single hd hpend]
    exact Prod.ext hdrain (congrArg (fun r => (if r.1 = [] then (-1 : Int) else 0, r)) hread)
  rw [hfeed]
  exact ⟨rfl, hk', hd', hds.trans (hs.trans hks.symm)⟩

theorem feed_silent (hd : Quiet d) (hroom : a.room ≠ 0) (hj : j.Drained) (hs : d.shift = j.shift)
    (hhandle : keyboardHandleScancode k a.scancode = (j, none)) : Agrees (feed k d a) := by
  have hproc : processPendingEvents d = d := by rw [processPendingEvents, hd.2, foldl_nil, ← hd.2]
  have hfeed : feed k d a = (([], j), -1, [], d) := by
    simp [feed, hhandle, keyboardRead, hroom, hproc, readLoop_empty hd.1.1, kbDrain_empty hj]
  rw [hfeed]
  exact ⟨rfl, hj, hd, hs⟩

theorem feed_agrees (a : Arrival) (hk : k.Drained) (hd : Quiet d) (hs : d.shift = k.shift) (hroom : a.room ≠ 0) :
    Agrees (feed k d a) := by
  obtain ⟨code, hc⟩ : ∃ code, a.scancode &&& 0x7F = code := ⟨_, rfl⟩
  obtain ⟨release, hr⟩ : ∃ release, (a.scancode &&& 0x80 != 0) = release := ⟨_, rfl⟩
  have hcode : code.toNat < 128 := by
    rw [← hc, UInt8.toNat_and]
    exact Nat.lt_of_le_of_lt Nat.and_le_right (by decide)
  by_cases hE0 : a.scancode = 0xE0
  · exact feed_silent (j := { k with extended := true }) hd hroom hk hs (by rw [keyboardHandleScancode, if_pos hE0])
  by_cases hext : k.extended = true
  · refine feed_event (c := if release then 0 else arrowKey code.toNat) (j := { k with extended := false })
      (p := dispatchScancode code release true) hd hroom hk hs ?_ ?_
    · cases release <;> simp [keyboardHandleScancode, hE0, hext, hr, hc]
    · intro d₀ hd₀
      rw [pendingEvent_dispatch _ _ hcode, if_pos rfl, ← hd₀]
  -- no prefix is pending
  have hlive : k.extended = false := by simpa using hext
  by_cases hshift : code = 0x2A ∨ code = 0x36
  · refine feed_event (c := 0) (j := { k with shift := !release }) (s := !release) (p := dispatchScancode code release false)
      hd hroom hk rfl ?_ ?_
    · cases release <;> simp [keyboardHandleScancode, hE0, hlive, hr, hc, hshift]
    · intro d₀ _
      rw [pendingEvent_dispatch _ _ hcode, if_neg (by simp), if_pos hshift]
  by_cases hrel : release = true
  · refine feed_event (c := 0) (p := dispatchScancode code true false) hd hroom hk hs ?_ ?_
    · simp [keyboardHandleScancode, hE0, hlive, hr, hc, hrel, hshift]
    · intro d₀ hd₀
      rw [pendingEvent_dispatch _ _ hcode, if_neg (by simp), if_neg hshift, if_pos rfl, ← hd₀]
  -- a press of a key that has at most a character
  have hpress : release = false := by simpa using hrel
  have hfeed (c : UInt8) (hhandle : keyboardHandleScancode k a.scancode = (bufferPush k c, some (dispatchScancode code false false)))
      (hne : c ≠ 0) (hpend : ∀ d₀ : Keyboard, d₀.shift = d.shift → pendingEvent d₀ ⟨dispatchScancode code false false, a.timestamp⟩ =
        fifoPush d₀ (dispatchScancode code false false) c a.timestamp) : Agrees (feed k d a) := by
    refine feed_event (c := c) hd hroom hk hs (by rw [hhandle, if_neg hne]) ?_
    intro d₀ hd₀
    rw [hpend d₀ hd₀, ← hd₀]
  by_cases h0E : code = 0x0E
  · refine hfeed 8 (by simp [keyboardHandleScancode, hE0, hlive, hr, hc, hpress, h0E]) (by decide) ?_
    intro d₀ _
    rw [pendingEvent_dispatch _ _ hcode, if_neg (by simp), if_neg hshift, if_neg (by simp), if_pos h0E]
  by_cases h1C : code = 0x1C
  · refine hfeed 10 (by simp [keyboardHandleScancode, hE0, hlive, hr, hc, hpress, h1C]) (by decide) ?_
    intro d₀ _
    rw [pendingEvent_dispatch _ _ hcode, if_neg (by simp), if_neg hshift, if_neg (by simp), if_neg h0E, if_pos h1C]
  by_cases hnone : translateScancode k.shift code = 0
  · exact feed_silent hd hroom hk hs (by simp [keyboardHandleScancode, hE0, hlive, hr, hc, hpress, hshift, h0E, h1C, hnone])
  · refine hfeed _ (by simp [keyboardHandleScancode, hE0, hlive, hr, hc, hpress, hshift, h0E, h1C, hnone]) hnone ?_
    intro d₀ hd₀
    simp [pendingEvent_dispatch _ _ hcode, hshift, h0E, h1C, hd₀, hs, hnone]

theorem typed_agree {as : List Arrival} (hk : k.Drained) (hd : Quiet d) (hs : d.shift = k.shift) (hroom : ∀ a ∈ as, a.room ≠ 0) :
    (typed k d as).1 = (typed k d as).2 := by
  induction as generalizing k d with
  | nil => rfl
  | cons a as ih =>
    have hstep := feed_agrees a hk hd hs (hroom a mem_cons_self)
    have hrest := ih hstep.kernel hstep.module hstep.shift (fun b hb => hroom b (mem_cons_of_mem a hb))
    simp only [typed]
    rw [hstep.chars, hrest]

/-- From the initial state on, and whatever bytes the controller sends, both interfaces deliver the same characters. -/
theorem decoders_agree (buffer : Nat → UInt8) (fifo : Nat → KeyFifoEntry) (as : List Arrival) (hroom : ∀ a ∈ as, a.room ≠ 0) :
    (typed (kbInit buffer) (keyboardStart fifo) as).1 = (typed (kbInit buffer) (keyboardStart fifo) as).2 :=
  typed_agree ⟨rfl, Nat.zero_lt_succ 255⟩ ⟨⟨rfl, Nat.zero_lt_succ 63⟩, rfl⟩ rfl hroom

/-- Shift and `a`, a prefix before another prefix and an arrow, an unmapped key, the releases. -/
def someArrivals : List Arrival :=
  [0x2A, 0x1E, 0xE0, 0xE0, 0x48, 0x59, 0xE0, 0xAA, 0xAA, 0x1E, 0x9E].map (fun b => ⟨b, 0, 1⟩)

theorem decoders_agree_some :
    (typed (kbInit fun _ => 0) (keyboardStart fun _ => ⟨0, 0, 0⟩) someArrivals).1 = [65, 0x80, 97] ∧
      (typed (kbInit fun _ => 0) (keyboardStart fun _ => ⟨0, 0, 0⟩) someArrivals).1 =
        (typed (kbInit fun _ => 0) (keyboardStart fun _ => ⟨0, 0, 0⟩) someArrivals).2 :=
  ⟨by decide +kernel, decoders_agree _ _ _ (by decide +kernel)⟩

end ProOS.Keyboard
