import ProOS.E1000.Model

namespace ProOS.E1000

open ProOS.Framework Function List

/-- The descriptor `i` and its buffer hold the frame `data`, to be sent with its end, its checksum and a report. -/
structure Intact (s : State) (i : Slot) (data : Str) : Prop where
  bytes : frameAt s i = data
  cmd : (s.txDescs i).cmd = txdCmdEop ||| txdCmdIfcs ||| txdCmdRs
  notDone : (s.txDescs i).isDone = false

structure Disciplined (s : State) : Prop where
  pending : pending s = s.waiting.map Prod.fst
  intact : ∀ e ∈ s.waiting, Intact s e.1 e.2
  untouched : ∀ a s', Step s a s' → ∀ e ∈ s.waiting, e ∈ s'.waiting →
    s'.txDescs e.1 = s.txDescs e.1 ∧ s'.txBuffers e.1 = s.txBuffers e.1
  apart : s.waiting ≠ [] → s.tdt ≠ s.tdh

/-- When a frame is handed over, fewer frames wait than the ring has descriptors, less one. -/
def Action.RoomLeft (s : State) (a : Action) : Prop :=
  ∀ slot data, a = .resume → s.call = .transmit .tdt slot data → s.waiting.length < e1000NumTxDesc - 1

/-- How far the frame `data` has got into the place `slot`. -/
def Written (s : State) (slot : Slot) (data : Str) : Stage → Prop
  | .copy k => s.txTail = s.tdt ∧ k ≤ data.length ∧ (s.txBuffers slot).take k = data.take k
  | .length => s.txTail = s.tdt ∧ (s.txBuffers slot).take data.length = data
  | .cmd => s.txTail = s.tdt ∧ frameAt s slot = data
  | .status => s.txTail = s.tdt ∧ frameAt s slot = data ∧
      (s.txDescs slot).cmd = txdCmdEop ||| txdCmdIfcs ||| txdCmdRs
  | .tail => s.txTail = s.tdt ∧ Intact s slot data
  | .tdt => s.txTail = s.tdt + 1 ∧ Intact s slot data

def Underway (s : State) : Call → Prop
  | .transmit stage slot data => slot = s.tdt ∧ data.length ≤ e1000TxBufSize ∧ Written s slot data stage
  | _ => s.txTail = s.tdt

structure Invariant (s : State) : Prop where
  ring : Queued s.tdh s.tdt (s.waiting.map Prod.fst)
  intact : ∀ e ∈ s.waiting, Intact s e.1 e.2
  size : ∀ i, (s.txBuffers i).length = e1000TxBufSize
  underway : Underway s s.call

section Steps

variable {s s' : State} {a : Action} {slot : Slot} {data : Str}

theorem Intact.congr {i : Slot} (h : Intact s i data) (hd : s'.txDescs i = s.txDescs i)
    (hb : s'.txBuffers i = s.txBuffers i) : Intact s' i data := by
  refine ⟨?_, by rw [hd]; exact h.cmd, by rw [hd]; exact h.notDone⟩
  rw [frameAt, hd, hb]
  exact h.bytes

/-! ## A step that hands nothing over -/

/-- The card and the waiting frames are left alone: only the place at `TDT` is written to. -/
structure Local (s s' : State) : Prop where
  tdh : s'.tdh = s.tdh
  tdt : s'.tdt = s.tdt
  waiting : s'.waiting = s.waiting
  descs : ∀ i, i ≠ s.tdt → s'.txDescs i = s.txDescs i
  buffers : ∀ i, i ≠ s.tdt → s'.txBuffers i = s.txBuffers i

theorem Invariant.waiting_ne (h : Invariant s) {e : Slot × Str} (he : e ∈ s.waiting) : e.1 ≠ s.tdt := by
  intro heq
  apply h.ring.tail_notMem
  rw [← heq]
  exact List.mem_map_of_mem he

theorem Local.invariant (hl : Local s s') (h : Invariant s) (hsize : ∀ i, (s'.txBuffers i).length = e1000TxBufSize)
    (hunder : Underway s' s'.call) : Invariant s' := by
  refine ⟨?_, ?_, hsize, hunder⟩
  · rw [hl.tdh, hl.tdt, hl.waiting]
    exact h.ring
  · rw [hl.waiting]
    intro e he
    have hne := h.waiting_ne he
    exact (h.intact e he).congr (hl.descs e.1 hne) (hl.buffers e.1 hne)

theorem local_call (s : State) (call : Call) : Local s { s with call := call } :=
  ⟨rfl, rfl, rfl, fun _ _ => rfl, fun _ _ => rfl⟩

theorem local_desc (hslot : slot = s.tdt) (desc : TxDesc) (call : Call) :
    Local s { s.putDesc slot desc with call := call } := by
  refine ⟨rfl, rfl, rfl, ?_, fun _ _ => rfl⟩
  intro i hi
  exact update_of_ne (hslot ▸ hi) _ _

theorem local_buffer (hslot : slot = s.tdt) (bytes : Str) (call : Call) :
    Local s { s with txBuffers := update s.txBuffers slot bytes, call := call } := by
  refine ⟨rfl, rfl, rfl, fun _ _ => rfl, ?_⟩
  intro i hi
  exact update_of_ne (hslot ▸ hi) _ _

theorem transmitStep_local (hslot : slot = s.tdt) {stage : Stage} (hne : stage ≠ .tdt) :
    Local s (transmitStep s slot data stage) := by
  cases stage with
  | copy k =>
    rw [transmitStep]
    cases data[k]? with
    | none => exact local_call s _
    | some b => exact local_buffer hslot _ _
  | length => exact local_desc hslot _ _
  | cmd => exact local_desc hslot _ _
  | status => exact local_desc hslot _ _
  | tail => exact ⟨rfl, rfl, rfl, fun _ _ => rfl, fun _ _ => rfl⟩
  | tdt => exact absurd rfl hne

theorem pollStep_local (s : State) (reclaimed : Nat) : Local s (pollStep s reclaimed) := by
  rw [pollStep]
  split
  · exact ⟨rfl, rfl, rfl, fun _ _ => rfl, fun _ _ => rfl⟩
  · exact local_call s _

theorem transmitStep_size (hsize : ∀ i, (s.txBuffers i).length = e1000TxBufSize) (stage : Stage) (i : Slot) :
    ((transmitStep s slot data stage).txBuffers i).length = e1000TxBufSize := by
  cases stage with
  | copy k =>
    rw [transmitStep]
    cases data[k]? with
    | none => exact hsize i
    | some b =>
      by_cases hi : i = slot
      · simp [hi, hsize]
      · simp [hi, hsize]
  | _ => exact hsize i

/-! ## The frame is written -/

theorem copy_step {b : UInt8} {bytes : Str} {k : Nat} (hk : data[k]? = some b) (hlen : data.length ≤ bytes.length)
    (htake : bytes.take k = data.take k) : (bytes.set k b).take (k + 1) = data.take (k + 1) := by
  obtain ⟨hlt, hb⟩ := List.getElem?_eq_some_iff.mp hk
  rw [take_add_one, take_add_one, take_set_of_le le_rfl, htake, hk, getElem?_set_self (by omega)]

theorem status_isDone (x : UInt8) (desc : TxDesc) :
    ({ desc with status := x &&& ~~~txdStatDd } : TxDesc).isDone = false := by
  have hmask : ~~~txdStatDd &&& txdStatDd = 0 := by decide
  have hzero : x &&& ~~~txdStatDd &&& txdStatDd = 0 := by rw [UInt8.and_assoc, hmask, UInt8.and_zero]
  rw [TxDesc.isDone, hzero]
  rfl

theorem Written.step (hlen : data.length ≤ e1000TxBufSize) (hsize : ∀ i, (s.txBuffers i).length = e1000TxBufSize)
    (hslot : slot = s.tdt) {stage : Stage} (hw : Written s slot data stage) (hne : stage ≠ .tdt) :
    ∃ stage', (transmitStep s slot data stage).call = .transmit stage' slot data ∧
      Written (transmitStep s slot data stage) slot data stage' := by
  cases stage with
  | copy k =>
    obtain ⟨htail, hk, htake⟩ := hw
    rw [transmitStep]
    cases hb : data[k]? with
    | none =>
      have hge := List.getElem?_eq_none_iff.mp hb
      refine ⟨.length, rfl, htail, ?_⟩
      obtain rfl : k = data.length := by omega
      exact htake.trans (take_length)
    | some b =>
      obtain ⟨hlt, -⟩ := List.getElem?_eq_some_iff.mp hb
      refine ⟨.copy (k + 1), rfl, htail, hlt, ?_⟩
      dsimp only
      rw [update_self]
      exact copy_step hb (by rw [hsize]; exact hlen) htake
  | length =>
    obtain ⟨htail, htake⟩ := hw
    refine ⟨.cmd, rfl, htail, ?_⟩
    have hnat : (UInt16.ofNat data.length).toNat = data.length := by
      have hsmall : e1000TxBufSize < UInt16.size := by decide
      exact UInt16.toNat_ofNat_of_lt' (by omega)
    simp only [frameAt, transmitStep, State.putDesc, update_self, hnat]
    exact htake
  | cmd =>
    obtain ⟨htail, hbytes⟩ := hw
    refine ⟨.status, rfl, htail, ?_, ?_⟩
    · simp only [frameAt, transmitStep, State.putDesc, update_self]
      exact hbytes
    · simp only [transmitStep, State.putDesc, update_self]
  | status =>
    obtain ⟨htail, hbytes, hcmd⟩ := hw
    refine ⟨.tail, rfl, htail, ?_, ?_, ?_⟩
    · simp only [frameAt, transmitStep, State.putDesc, update_self]
      exact hbytes
    · simp only [transmitStep, State.putDesc, update_self]
      exact hcmd
    · simp only [transmitStep, State.putDesc, update_self]
      exact status_isDone _ _
  | tail =>
    obtain ⟨-, hintact⟩ := hw
    exact ⟨.tdt, rfl, congrArg (· + 1) hslot, hintact.congr rfl rfl⟩
  | tdt => exact absurd rfl hne

/-! ## The two steps that change what waits -/

theorem Invariant.handOver (h : Invariant s) (hcall : s.call = .transmit .tdt slot data)
    (hroom : s.waiting.length < e1000NumTxDesc - 1) : Invariant (transmitStep s slot data .tdt) := by
  obtain ⟨hslot, -, htail, hintact⟩ : Underway s (.transmit .tdt slot data) := hcall ▸ h.underway
  refine ⟨?_, ?_, h.size, ?_⟩
  · show Queued s.tdh (slot + 1) ((s.waiting ++ [(slot, data)]).map Prod.fst)
    rw [map_append, map_singleton, hslot]
    refine h.ring.push ?_
    rw [length_map]
    omega
  · intro e he
    rcases mem_append.mp he with he | he
    · exact (h.intact e he).congr rfl rfl
    · obtain rfl := mem_singleton.mp he
      exact hintact.congr rfl rfl
  · show s.txTail = slot + 1
    rw [hslot]
    exact htail

theorem Invariant.first (h : Invariant s) (hne : s.tdh ≠ s.tdt) :
    Queued (s.tdh + 1) s.tdt (s.waiting.tail.map Prod.fst) ∧ ∀ e ∈ s.waiting.tail, e.1 ≠ s.tdh := by
  have hring := h.ring
  cases hw : s.waiting with
  | nil =>
    rw [hw] at hring
    exact absurd rfl (hring.nonempty hne)
  | cons e rest =>
    rw [hw, map_cons] at hring
    refine ⟨hring.pop.2, ?_⟩
    intro e' he' heq
    apply hring.head_notMem
    rw [hring.pop.1, ← heq]
    exact List.mem_map_of_mem he'

theorem complete_others {i : Slot} (hi : i ≠ s.tdh) : (complete s).txDescs i = s.txDescs i :=
  update_of_ne hi _ _

theorem Underway.complete {call : Call} (hu : Underway s call) (hne : s.tdh ≠ s.tdt) : Underway (complete s) call := by
  cases call with
  | idle => exact hu
  | poll r => exact hu
  | transmit stage slot data =>
    obtain ⟨hslot, hlen, hw⟩ := hu
    have hd : (E1000.complete s).txDescs slot = s.txDescs slot := complete_others (hslot ▸ hne.symm)
    refine ⟨hslot, hlen, ?_⟩
    cases stage with
    | copy k => exact hw
    | length => exact hw
    | cmd => exact ⟨hw.1, by rw [frameAt, hd]; exact hw.2⟩
    | status => exact ⟨hw.1, by rw [frameAt, hd]; exact hw.2.1, by rw [hd]; exact hw.2.2⟩
    | tail => exact ⟨hw.1, hw.2.congr hd rfl⟩
    | tdt => exact ⟨hw.1, hw.2.congr hd rfl⟩

theorem Invariant.complete (h : Invariant s) (hne : s.tdh ≠ s.tdt) : Invariant (complete s) := by
  obtain ⟨hring, hothers⟩ := h.first hne
  refine ⟨hring, ?_, h.size, h.underway.complete hne⟩
  intro e he
  exact (h.intact e (mem_of_mem_tail he)).congr (complete_others (hothers e he)) rfl

/-! ## Every step -/

theorem e1000NetTransmit_cases (s : State) (data : Option Str) : e1000NetTransmit s data = none ∨
    ∃ bytes : Str, e1000NetTransmit s data = some (.transmit (.copy 0) s.txTail bytes) ∧
      bytes.length ≤ e1000TxBufSize := by
  cases data with
  | none => exact .inl rfl
  | some bytes =>
    rw [e1000NetTransmit]
    by_cases hempty : bytes.length = 0
    · exact .inl (if_pos hempty)
    rw [if_neg hempty]
    by_cases hinit : !s.initialized
    · exact .inl (if_pos hinit)
    rw [if_neg hinit]
    by_cases hlarge : e1000TxBufSize < bytes.length
    · exact .inl (if_pos hlarge)
    rw [if_neg hlarge]
    by_cases hfull : !(s.txDescs s.txTail).isDone
    · exact .inl (if_pos hfull)
    rw [if_neg hfull]
    exact .inr ⟨bytes, rfl, Nat.not_lt.mp hlarge⟩

theorem e1000NetTransmit_full (hfull : (s.txDescs s.txTail).isDone = false) (data : Option Str) :
    e1000NetTransmit s data = none := by
  cases data with
  | none => rfl
  | some bytes => simp [e1000NetTransmit, hfull]

section

variable (h : Invariant s)

include h

theorem Invariant.begin (hidle : s.call = .idle) (data : Option Str) :
    Invariant { s with call := (e1000NetTransmit s data).getD .idle } := by
  have htail : Underway s .idle := hidle ▸ h.underway
  refine (local_call s _).invariant h h.size ?_
  rcases e1000NetTransmit_cases s data with hr | ⟨bytes, hr, hlen⟩
  · rw [hr]
    exact htail
  · rw [hr]
    exact ⟨htail, hlen, htail, Nat.zero_le _, rfl⟩

theorem Invariant.poll {reclaimed : Nat} (hcall : s.call = .poll reclaimed) : Invariant (pollStep s reclaimed) := by
  have htail : s.txTail = s.tdt := by
    have hu := h.underway
    rwa [hcall] at hu
  refine (pollStep_local s reclaimed).invariant h ?_ ?_
  · rw [pollStep]
    split
    · exact h.size
    · exact h.size
  · rw [pollStep]
    split
    · exact htail
    · exact htail

theorem Invariant.write {stage : Stage} (hcall : s.call = .transmit stage slot data) (hne : stage ≠ .tdt) :
    Local s (transmitStep s slot data stage) ∧ Invariant (transmitStep s slot data stage) := by
  obtain ⟨hslot, hlen, hw⟩ : Underway s (.transmit stage slot data) := hcall ▸ h.underway
  have hl : Local s (transmitStep s slot data stage) := transmitStep_local hslot hne
  obtain ⟨stage', hcall', hw'⟩ := hw.step hlen h.size hslot hne
  refine ⟨hl, hl.invariant h (transmitStep_size h.size stage) ?_⟩
  rw [hcall']
  exact ⟨hslot.trans hl.tdt.symm, hlen, hw'⟩

theorem Invariant.step_cases (hstep : Step s a s') : (Local s s' ∧ Invariant s') ∨
      (∃ slot data, a = .resume ∧ s.call = .transmit .tdt slot data ∧ s' = transmitStep s slot data .tdt) ∨
      (a = .complete ∧ s.tdh ≠ s.tdt ∧ s' = E1000.complete s) := by
  have hact := performs_labelled.mp hstep
  cases a with
  | transmit data =>
    obtain ⟨hidle, hs'⟩ := Option.ite_none_right_eq_some.mp hact
    cases hs'
    exact .inl ⟨local_call s _, h.begin hidle data⟩
  | poll =>
    obtain ⟨hidle, hs'⟩ := Option.ite_none_right_eq_some.mp hact
    cases hs'
    have htail : Underway s .idle := hidle ▸ h.underway
    exact .inl ⟨local_call s _, (local_call s _).invariant h h.size htail⟩
  | resume =>
    rw [act] at hact
    cases hcall : s.call with
    | idle =>
      rw [hcall] at hact
      cases hact
    | poll reclaimed =>
      rw [hcall] at hact
      cases hact
      exact .inl ⟨pollStep_local s reclaimed, h.poll hcall⟩
    | transmit stage slot data =>
      rw [hcall] at hact
      cases hact
      by_cases hne : stage = .tdt
      · obtain rfl := hne
        exact .inr (.inl ⟨slot, data, rfl, rfl, rfl⟩)
      · exact .inl (h.write hcall hne)
  | complete =>
    obtain ⟨hne, hs'⟩ := Option.ite_none_left_eq_some.mp hact
    cases hs'
    exact .inr (.inr ⟨rfl, hne, rfl⟩)

theorem Invariant.step (hstep : Step s a s') (hroom : a.RoomLeft s) : Invariant s' := by
  rcases h.step_cases hstep with ⟨-, hinv⟩ | ⟨slot, data, ha, hcall, rfl⟩ | ⟨-, hne, rfl⟩
  · exact hinv
  · exact h.handOver hcall (hroom slot data ha hcall)
  · exact h.complete hne

theorem Invariant.untouched (hstep : Step s a s') {e : Slot × Str} (he : e ∈ s.waiting)
    (he' : e ∈ s'.waiting) : s'.txDescs e.1 = s.txDescs e.1 ∧ s'.txBuffers e.1 = s.txBuffers e.1 := by
  rcases h.step_cases hstep with ⟨hl, -⟩ | ⟨slot, data, -, -, rfl⟩ | ⟨-, hne, rfl⟩
  · have hslot := h.waiting_ne he
    exact ⟨hl.descs e.1 hslot, hl.buffers e.1 hslot⟩
  · exact ⟨rfl, rfl⟩
  · exact ⟨complete_others ((h.first hne).2 e he'), rfl⟩

theorem Invariant.disciplined : Disciplined s := by
  refine ⟨h.ring.between_eq, h.intact, fun a s' hstep e he he' => h.untouched hstep he he', ?_⟩
  intro hne heq
  have hpending := h.ring.between_eq
  rw [heq, between_self] at hpending
  exact hne (map_eq_nil_iff.mp hpending.symm)

theorem Invariant.overrun (hstep : Step s a s') (hfull : ¬a.RoomLeft s) : s'.tdt = s'.tdh ∧ s'.waiting ≠ [] := by
  simp only [Action.RoomLeft] at hfull
  push Not at hfull
  obtain ⟨slot, data, rfl, hcall, hlen⟩ := hfull
  have hact := performs_labelled.mp hstep
  rw [act, hcall] at hact
  cases hact
  obtain ⟨hslot, -⟩ : Underway s (.transmit .tdt slot data) := hcall ▸ h.underway
  refine ⟨?_, append_ne_nil_of_right_ne_nil _ (cons_ne_nil _ _)⟩
  show slot + 1 = s.tdh
  rw [hslot]
  refine h.ring.wrap ?_
  have hroom := h.ring.room
  rw [length_map] at hroom ⊢
  omega

end

end Steps

theorem e1000HwInit_invariant : Invariant e1000HwInit := by
  refine ⟨.empty 0, ?_, fun _ => length_replicate, rfl⟩
  intro e he
  cases he

/-- The ring is in order all along a run if and only if no frame is handed over while 31 frames wait. -/
theorem tx_ring_disciplined_iff (acts : List Action) (s : State) :
    Always Step e1000HwInit acts s (fun _ s => Disciplined s) ↔
      EachStep Step e1000HwInit acts s (fun s a => a.RoomLeft s) := by
  refine always_iff_eachStep (I := fun _ s => Invariant s) e1000HwInit_invariant ?_ ?_ ?_
  · exact fun _ s h => h.disciplined
  · exact fun _ s a s' h hstep hroom => h.step hstep hroom
  · intro _ s a s' h hstep hfull hd
    obtain ⟨heq, hne⟩ := h.overrun hstep hfull
    exact hd.apart hne heq

/-- A call that sends one byte, in its eight accesses. -/
def sendByte (b : UInt8) : List Action := .transmit (some [b]) :: List.replicate 7 .resume

/-- 32 frames sent while the card is busy with the first one. -/
def busyCard : List Action := (List.range e1000NumTxDesc).flatMap (fun i => sendByte (UInt8.ofNat i))

theorem busyCard_performs : (performAll (labelled act) e1000HwInit busyCard).isSome = true := by decide +kernel

def fullRing : State := ((performAll (labelled act) e1000HwInit busyCard).get busyCard_performs).2

/-- The card sees no frame, though 32 wait, and from here on no frame is sent and none is taken. -/
theorem full_ring_looks_empty : Exec Step e1000HwInit busyCard fullRing ∧ fullRing.waiting.length = 32 ∧
    pending fullRing = [] ∧ act fullRing .complete = none ∧ (∀ data, e1000NetTransmit fullRing data = none) ∧
    ¬Disciplined fullRing := by
  have hlen : fullRing.waiting.length = 32 := by decide +kernel
  have hpending : pending fullRing = [] := by decide +kernel
  have hempty : fullRing.tdh = fullRing.tdt := by decide +kernel
  refine ⟨performAll_labelled_exec busyCard e1000HwInit busyCard_performs, hlen, hpending, ?_,
    e1000NetTransmit_full (by decide +kernel), ?_⟩
  · rw [act, if_pos hempty]
  · intro h
    have hmap := congrArg List.length (hpending.symm.trans h.pending)
    rw [length_map, hlen] at hmap
    cases hmap

end ProOS.E1000
