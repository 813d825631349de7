import ProOS.Kernel.Authority
import ProOS.Syscall.Model

/-! What system calls can do to capabilities, mailboxes and shared regions. -/

namespace ProOS.Syscall

open ProOS.Framework ProOS.Kernel

/-- The memory behind a pointer to a copy of `bytes`. -/
def bufferOf (bytes : List UInt8) : Nat → UInt8 := fun i => bytes.getD i 0

/-- The action that a kernel call is when the process `p` makes it. Calls that only read, print or
reschedule are none. -/
inductive Issued (p : Pid) : {α : Type} → KernelCall α → Action → Prop
  | create (entry stackSize : Nat) (memory : Ipc.Mailbox) :
      Issued p (.processCreate entry stackSize) (.create .user memory)
  | sleep (ticks : Nat) : Issued p (.processSleep ticks) (.sleep p)
  | exit (code : Int) (posts : List Post) : Issued p (.processExit code) (.exit p posts)
  | send (target : Pid) (msg : Option (List UInt8)) (size : Nat) :
      Issued p (.ipcSend target msg size) (.post (some p) (.mail target (msg.map bufferOf) size))
  | recv (call : Ipc.RecvCall) (logs : Nat → Option Ipc.LogSend) :
      Issued p (.ipcRecv call) (.recv p call logs)
  | share (target : Pid) (addr pages : Nat) :
      Issued p (.ipcShare target addr pages) (.share p target addr pages)
  | connect (service : Nat) (rights : UInt32) (memory : Ipc.Mailbox) :
      Issued p (.serviceGrantCapabilities service rights) (.serviceGrant p service rights memory)
  | channelCreate (name : List UInt8) (flags : UInt32) :
      Issued p (.ipcChannelCreate name flags) (.channelCreate flags)
  | channelJoin (channelId : Int) : Issued p (.ipcChannelJoin channelId) (.channelJoin p channelId)
  | channelLeave (channelId : Int) : Issued p (.ipcChannelLeave channelId) (.channelLeave p channelId)
  | channelSend (channelId : Int) (sender : Pid) (header type : UInt32) (data : Option (List UInt8))
      (size : Nat) (flags : UInt32) :
      Issued p (.ipcChannelSend channelId sender header type data size flags)
        (.channelSend channelId sender header type (data.map bufferOf) size flags)
  | channelReceive (call : Channel.ReceiveCall) : Issued p (.ipcChannelReceive call) (.channelReceive p call)
  | sync (call : SyncCall) : Issued p (.sync call) (.sync p call)

def HandsOut : Action → Prop
  | .grant _ _ _ => True
  | .serviceGrant _ _ _ _ => True
  | _ => False

/-- Where an action comes from: a system call that some process makes with some arguments, or the kernel
itself, which hands out no rights. -/
inductive Cause (x : Action) : Prop
  | syscall (p : Pid) (kbd : Bool) (msg : Envelope)
      (h : (syscallDispatch kbd msg).MayCall (fun c => Issued p c x)) : Cause x
  | kernel (h : ¬HandsOut x) : Cause x

/-- No handler calls `ipc_cap_grant` itself. -/
theorem Cause.ne_grant {x : Action} (h : Cause x) (owner target : Pid) (rights : UInt32) :
    x ≠ .grant owner target rights := by
  rintro rfl
  cases h with
  | syscall p kbd msg h =>
    obtain ⟨α, c, hc⟩ := h.exists
    cases hc
  | kernel h => exact h trivial

/-- `p` can reach `q`: by a capability, by a message that is there, or by a shared region. -/
def Reaches (k : State) (p q : Pid) : Prop :=
  (∃ a n, k.procs p = some a ∧ n < Ipc.configIpcCapacityPerProc ∧ (a.caps n).used = true ∧
      (a.caps n).peer = q) ∨
    (∃ b, k.procs q = some b ∧ ∃ slot ∈ b.mailbox.queue, slot.sender = p) ∨
      ∃ i, (k.shareTable i).used = true ∧ (k.shareTable i).owner = p ∧ (k.shareTable i).target = q

theorem Reaches.within {A : Pid → Pid → Prop} {k : State} (hk : k.Within A) {p q : Pid}
    (h : Reaches k p q) : A p q := by
  rcases h with ⟨a, n, ha, -, hu, rfl⟩ | ⟨b, hb, slot, hslot, rfl⟩ | ⟨i, hu, rfl, rfl⟩
  · exact (hk.procs p a ha).caps n hu
  · exact (hk.procs q b hb).mail slot hslot
  · exact hk.shares i hu

/-- A user process reaches another process only if one of them has run a system service. -/
theorem ipc_authority_confined (memory : Channel.Index → Channel.IpcChannel) (tr : List Action) (k : State)
    (hrun : Run (boot memory) tr k) (hcause : ∀ x ∈ tr, Cause x) (p q : Pid) (hne : p ≠ q)
    (huser : Been memory tr (·.HasKind .user p)) (hreach : Reaches k p q) :
    Been memory tr (fun k => k.Serves p ∨ k.Serves q) := by
  have hc := hrun.chronicle (fun owner target rights hm => (hcause _ hm).ne_grant owner target rights rfl)
  rcases hreach.within hc.within with h | h | h | h | h
  · exact absurd h hne
  · exact absurd h (not_le.mpr (hc.born .user p huser).1)
  · exact absurd h (hc.single p huser)
  · exact h.imp .inl
  · exact h.imp .inr

/-- Process 1 connects to a service, which is started as process 2, and sends it a message. -/
def connectActs : List Action :=
  [.serviceRegister 0 3, .create .user blankMailbox, .serviceGrant 1 0 0 blankMailbox,
    .post (some 1) (.mail 2 none 0)]

theorem connectActs_isSome : (performAll (labelled act) (boot blankChannels) connectActs).isSome = true := by
  decide +kernel

def connected : State := ((performAll (labelled act) (boot blankChannels) connectActs).get connectActs_isSome).2

theorem connect_cause (x : Action) (hx : x ∈ connectActs) : Cause x := by
  simp only [connectActs, List.mem_cons, List.not_mem_nil, or_false] at hx
  rcases hx with rfl | rfl | rfl | rfl
  · exact .kernel id
  · exact .kernel id
  · exact .syscall 1 false ⟨0x1000, 15, 2, 0, 0, 0, 0⟩ (.inr ⟨some 1, .inl (.connect 0 0 blankMailbox)⟩)
  · exact .syscall 1 false ⟨0x1000, 12, 3, 2, 0, 0, 0⟩ (.inl (.send 2 none 0))

theorem ipc_authority_confined_connected :
    Reaches connected 1 2 ∧ Been blankChannels connectActs (fun k => k.Serves 1 ∨ k.Serves 2) := by
  have hrun := performAll_labelled_exec connectActs (boot blankChannels) connectActs_isSome
  have hmail : (connected.procs 2).map (fun b => b.mailbox.queue.map Ipc.Slot.sender) = some [1] := by
    decide +kernel
  have hkind : (connected.procs 1).map Proc.kind = some .user := by
    decide +kernel
  have hreach : Reaches connected 1 2 := by
    obtain ⟨b, hb, hsenders⟩ := Option.map_eq_some_iff.mp hmail
    have hone : (1 : Pid) ∈ b.mailbox.queue.map Ipc.Slot.sender := by
      rw [hsenders]
      exact List.mem_singleton_self _
    obtain ⟨slot, hslot, hsender⟩ := List.mem_map.mp hone
    exact .inr (.inl ⟨b, hb, slot, hslot, hsender⟩)
  refine ⟨hreach, ipc_authority_confined blankChannels connectActs connected hrun connect_cause 1 2
    (by decide) (.now hrun ?_) hreach⟩
  obtain ⟨a, ha, hk⟩ := Option.map_eq_some_iff.mp hkind
  exact ⟨a, ha, hk⟩

end ProOS.Syscall
