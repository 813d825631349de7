import ProOS.Channel.Delivery
import ProOS.Syscall.Model

/-! What `sys_recv` leaves in the memory of its caller of a message that was sent on a channel. -/

namespace ProOS.Channel

open ProOS.Framework List

variable {s : State} {p : Pid} {call : ReceiveCall} {msg : Message} {d : Delivery} {tr : List Event}

end ProOS.Channel

namespace ProOS.Syscall

open ProOS.Framework
open ProOS.Channel (Slot Message ipcMessageTruncated)

/-- How many bytes the caller of `sys_recv` can take. -/
def capacity (userBuffer userCapacity : Nat) : Nat := if userBuffer = 0 then 0 else userCapacity

section Deliver

variable {slot : Slot} {channelId : Int} {userMessage userBuffer userCapacity : Nat} {flags : UInt32}

/-- The buffer and the structure do not overlap. -/
def Apart (userMessage userBuffer n : Nat) : Prop :=
  userBuffer + n ≤ userMessage ∨ userMessage + ipcMessageSize ≤ userBuffer

end Deliver

end ProOS.Syscall
