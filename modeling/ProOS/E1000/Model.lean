import ProOS.Kernel.Types
import ProOS.Framework.Exec
import ProOS.Framework.Ring

/-! The transmit side of the network driver (`e1000.c`) and of its card. The calls of the driver run one after the other, one
access to memory or to a register at a time; between any two of them the card may complete a descriptor. -/

namespace ProOS.E1000

open ProOS.Framework

def e1000NumTxDesc : Nat := 32
def e1000TxBufSize : Nat := 2048

instance : NeZero e1000NumTxDesc := ⟨by decide⟩

abbrev Slot := Fin e1000NumTxDesc
def txdCmdEop : UInt8 := 1
def txdCmdIfcs : UInt8 := 2
def txdCmdRs : UInt8 := 8
def txdStatDd : UInt8 := 1

/-- `struct e1000_tx_desc`. Its `buffer_addr` is that of the buffer in the same place and never changes; the fields left out
stay 0. -/
structure TxDesc where
  length : UInt16
  cmd : UInt8
  status : UInt8
  deriving DecidableEq, Repr

def TxDesc.isDone (d : TxDesc) : Bool := (d.status &&& txdStatDd) != 0

/-- The access that `e1000_net_transmit` makes next. -/
inductive Stage
  | copy (k : Nat)
  | length
  | cmd
  | status
  | tail
  | tdt
  deriving DecidableEq, Repr

/-- The call that runs. `slot` is the place of `desc` and `buffer`. -/
inductive Call
  | idle
  | transmit (stage : Stage) (slot : Slot) (data : Str)
  | poll (reclaimed : Nat)
  deriving DecidableEq, Repr

/-- The part of `struct e1000_device` for sending, the card's two registers, and, as a record of what has happened, the
frames for which a transmission has succeeded and that the card has not completed, with their places. -/
structure State where
  txDescs : Slot → TxDesc
  txBuffers : Slot → Str
  txTail : Slot
  txHead : Slot
  initialized : Bool
  call : Call
  tdh : Slot
  tdt : Slot
  waiting : List (Slot × Str)

def e1000SetupTx : State where
  txDescs := fun _ => ⟨0, 0, txdStatDd⟩
  txBuffers := fun _ => List.replicate e1000TxBufSize 0
  txTail := 0
  txHead := 0
  initialized := false
  call := .idle
  tdh := 0
  tdt := 0
  waiting := []

def e1000HwInit : State := { e1000SetupTx with initialized := true }

/-! ## The driver -/

/-- `e1000_net_transmit` up to the copy; `none` is the result -1. The device is the one that the driver has registered. -/
def e1000NetTransmit (s : State) (data : Option Str) : Option Call :=
  match data with
  | none => none
  | some data =>
    if data.length = 0 then none
    else if !s.initialized then none
    else if e1000TxBufSize < data.length then none
    else if !(s.txDescs s.txTail).isDone then none
    else some (.transmit (.copy 0) s.txTail data)

def State.putDesc (s : State) (slot : Slot) (desc : TxDesc) : State :=
  { s with txDescs := Function.update s.txDescs slot desc }

/-- One access of `e1000_net_transmit`; the last one ends the call with the result 0. -/
def transmitStep (s : State) (slot : Slot) (data : Str) : Stage → State
  | .copy k =>
    match data[k]? with
    | some b =>
      { s with
        txBuffers := Function.update s.txBuffers slot ((s.txBuffers slot).set k b)
        call := .transmit (.copy (k + 1)) slot data }
    | none => { s with call := .transmit .length slot data }
  | .length =>
    { s.putDesc slot { s.txDescs slot with length := UInt16.ofNat data.length } with
      call := .transmit .cmd slot data }
  | .cmd =>
    { s.putDesc slot { s.txDescs slot with cmd := txdCmdEop ||| txdCmdIfcs ||| txdCmdRs } with
      call := .transmit .status slot data }
  | .status =>
    { s.putDesc slot { s.txDescs slot with status := (s.txDescs slot).status &&& ~~~txdStatDd } with
      call := .transmit .tail slot data }
  | .tail => { s with txTail := slot + 1, call := .transmit .tdt slot data }
  | .tdt => { s with tdt := slot + 1, call := .idle, waiting := s.waiting ++ [(slot, data)] }

/-- One round of the loop of `e1000_poll_tx`. -/
def pollStep (s : State) (reclaimed : Nat) : State :=
  if s.txHead ≠ s.txTail ∧ (s.txDescs s.txHead).isDone then
    { s with txHead := s.txHead + 1, call := .poll (reclaimed + 1) }
  else { s with call := .idle }

/-! ## The card -/

/-- The card is done with the descriptor at `TDH`. -/
def complete (s : State) : State :=
  { s.putDesc s.tdh { s.txDescs s.tdh with status := (s.txDescs s.tdh).status ||| txdStatDd } with
    tdh := s.tdh + 1
    waiting := s.waiting.tail }

/-- The descriptors that the card regards as pending. -/
def pending (s : State) : List Slot := between s.tdh s.tdt

def frameAt (s : State) (i : Slot) : Str := (s.txBuffers i).take (s.txDescs i).length.toNat

/-! ## Runs -/

inductive Action
  | transmit (data : Option Str)
  | poll
  | resume
  | complete
  deriving DecidableEq, Repr

def act (s : State) : Action → Option State
  | .transmit data => if s.call = .idle then some { s with call := (e1000NetTransmit s data).getD .idle } else none
  | .poll => if s.call = .idle then some { s with call := .poll 0 } else none
  | .resume =>
    match s.call with
    | .idle => none
    | .transmit stage slot data => some (transmitStep s slot data stage)
    | .poll reclaimed => some (pollStep s reclaimed)
  -- the ring is empty for the card when the two registers are the same
  | .complete => if s.tdh = s.tdt then none else some (complete s)

abbrev Step : State → Action → State → Prop := Performs (labelled act)

end ProOS.E1000
