import ProOS.Framework.OnesComplement

/-! The IPv4 and ICMP layers: what they build and hand to the Ethernet layer. -/

namespace ProOS.Net

open ProOS.Framework

structure Address where
  b0 : UInt8
  b1 : UInt8
  b2 : UInt8
  b3 : UInt8
  deriving DecidableEq, Repr

def Address.bytes (a : Address) : List UInt8 := [a.b0, a.b1, a.b2, a.b3]

abbrev Mac := List UInt8

structure EchoReply where
  identifier : Nat
  sequence : Nat
  src : Address
  deriving DecidableEq, Repr

/-- `g_ipv4_address`, `g_ipv4_ident` and the used part of `g_replies`. -/
structure Stack where
  address : Address
  ident : UInt16
  replies : List EchoReply

/-- How a call ends: with a value, with a warning and -1, or with the result of
`ethernet_send_frame` on the `length` bytes at the start of a buffer. -/
inductive Outcome
  | ret (r : Int)
  | warn (text : String)
  | frame (mac : Mac) (ethertype : Nat) (buffer : List UInt8) (length : Nat)
  deriving DecidableEq, Repr

def ethertypeIpv4 : Nat := 0x0800
def ethernetMaxPayload : Nat := 1500
def icmpReplyCapacity : Nat := 8

def readBe16 (data : Mem) (a : Nat) : Nat := beWord (data a) (data (a + 1))

def bytesBe16 (value : Nat) : List UInt8 := [UInt8.ofNat (value / 256), UInt8.ofNat value]

def ipv4Checksum (data : List UInt8) : Nat := onesChecksum data

def icmpChecksum (data : List UInt8) : Nat := onesChecksum data

/-- The fields of `struct ipv4_header` ahead of the checksum. -/
def ipv4Front (totalLength ident : Nat) (protocol : UInt8) : List UInt8 :=
  [0x45, 0] ++ bytesBe16 totalLength ++ bytesBe16 ident ++ bytesBe16 0 ++ [64, protocol]

/-- The header with `checksum` in its 16-bit field, which the assignment stores least significant
byte first. -/
def ipv4Header (totalLength ident : Nat) (protocol : UInt8) (checksum : Nat)
    (src dst : Address) : List UInt8 :=
  ipv4Front totalLength ident protocol ++ bytes16 checksum ++ (src.bytes ++ dst.bytes)

section Send

variable {Dev : Type*}

/-- `ipv4_send`; `arpResolve` is the answer of the ARP layer, `payload` the bytes from the pointer
on, `none` for NULL. Lengths are 32-bit words. -/
def ipv4Send (arpResolve : Dev → Address → Int × Mac) (g : Stack) (dev : Option Dev)
    (dst : Option Address) (protocol : UInt8) (payload : Option Mem) (length : Nat) :
    Stack × Outcome :=
  match dev, dst with
  | some dev, some dst =>
    if 0 < length ∧ payload = none then (g, .ret (-1))
    else if ethernetMaxPayload < (20 + length) % 2 ^ 32 then (g, .warn "ipv4: payload too large")
    else
      let (resolve, mac) := arpResolve dev dst
      if resolve < 0 then (g, .ret (-1))
      else if 0 < resolve then (g, .ret 1)
      else
        let totalLength := (20 + length) % 2 ^ 32
        let g := { g with ident := g.ident + 1 }
        let blank := ipv4Header totalLength g.ident.toNat protocol 0 g.address dst
        let header :=
          ipv4Header totalLength g.ident.toNat protocol (ipv4Checksum blank) g.address dst
        (g, .frame mac ethertypeIpv4 (header ++ (payload.elim [] (cells · length))) totalLength)
  | _, _ => (g, .ret (-1))

/-- A call of the ICMP layer: the stack after it, how it ended and the message it built, if any. -/
structure IcmpCall where
  stack : Stack
  outcome : Outcome
  built : Option (List UInt8)

/-- `struct icmp_echo_header` followed by the payload, `checksum` stored in host byte order. -/
def icmpMessage (type : UInt8) (checksum identifier sequence : Nat) (payload : List UInt8) :
    List UInt8 :=
  [type, 0] ++ bytes16 checksum ++ (bytesBe16 identifier ++ bytesBe16 sequence ++ payload)

/-- The message with the checksum of the message whose checksum field is still 0. -/
def icmpSealed (type : UInt8) (identifier sequence : Nat) (payload : List UInt8) : List UInt8 :=
  icmpMessage type (icmpChecksum (icmpMessage type 0 identifier sequence payload)) identifier
    sequence payload

/-- Hands a built message to `ipv4_send` as protocol 1. -/
def sendIcmp (arpResolve : Dev → Address → Int × Mac) (g : Stack) (dev : Option Dev)
    (dst : Option Address) (message : List UInt8) : IcmpCall :=
  let (g, outcome) :=
    ipv4Send arpResolve g dev dst 1 (some fun i => message.getD i 0) message.length
  { stack := g, outcome := outcome, built := some message }

/-- `record_reply`: the oldest reply makes room when all places are taken. -/
def recordReply (g : Stack) (identifier sequence : Nat) (src : Option Address) : Stack :=
  let kept := if icmpReplyCapacity ≤ g.replies.length then g.replies.tail else g.replies
  { g with replies := kept ++ [⟨identifier, sequence, src.getD ⟨0, 0, 0, 0⟩⟩] }

/-- The echoed payload: at most 1500 of the bytes behind the header. -/
def echoPayload (packet : Mem) (length : Nat) : List UInt8 :=
  cells (fun i => packet (8 + i)) (min (length - 8) 1500)

def icmpReceive (arpResolve : Dev → Address → Int × Mac) (g : Stack) (dev : Option Dev)
    (packet : Option Mem) (length : Nat) (src : Option Address) : IcmpCall :=
  match dev, packet with
  | some dev, some packet =>
    if length < 8 then { stack := g, outcome := .warn "icmp: packet too small", built := none }
    else
      let identifier := readBe16 packet 4
      let sequence := readBe16 packet 6
      if packet 0 = 0 ∧ packet 1 = 0 then
        { stack := recordReply g identifier sequence src, outcome := .ret 0, built := none }
      else if packet 0 = 8 ∧ packet 1 = 0 then
        sendIcmp arpResolve g (some dev) src
          (icmpSealed 0 identifier sequence (echoPayload packet length))
      else { stack := g, outcome := .warn "icmp: unsupported type", built := none }
  | _, _ => { stack := g, outcome := .ret (-1), built := none }

def icmpSendEchoRequest (arpResolve : Dev → Address → Int × Mac) (g : Stack) (dev : Option Dev)
    (dst : Option Address) (identifier sequence : UInt16) : IcmpCall :=
  if dev.isNone ∨ dst.isNone then { stack := g, outcome := .ret (-1), built := none }
  else sendIcmp arpResolve g dev dst (icmpSealed 8 identifier.toNat sequence.toNat [])

/-- `ipv4_receive`: the payload's length is a 32-bit difference, so a total length below the header
length makes it huge. -/
def ipv4Receive (arpResolve : Dev → Address → Int × Mac) (g : Stack) (dev : Option Dev)
    (packet : Option Mem) (length : Nat) : IcmpCall :=
  let failed (outcome : Outcome) : IcmpCall := { stack := g, outcome := outcome, built := none }
  match dev, packet with
  | some dev, some packet =>
    if length < 20 then failed (.warn "ipv4: packet too small")
    else
      let version := (packet 0).toNat / 16
      let ihl := (packet 0).toNat % 16
      if version ≠ 4 ∨ ihl < 5 then failed (.warn "ipv4: invalid header")
      else if length < ihl * 4 then failed (.warn "ipv4: truncated header")
      else
        let totalLength := readBe16 packet 2
        if length < totalLength then failed (.warn "ipv4: total length mismatch")
        else if packet 9 = 1 then
          icmpReceive arpResolve g (some dev) (some fun i => packet (ihl * 4 + i))
            ((totalLength + 2 ^ 32 - ihl * 4) % 2 ^ 32)
            (some ⟨packet 12, packet 13, packet 14, packet 15⟩)
        else failed (.warn "ipv4: unsupported protocol")
  | _, _ => failed (.ret (-1))

section Words

variable {a x y : Nat} {data : Mem}

theorem wordSum_bytesBe16 (x : Nat) : wordSum (bytesBe16 x) = x % 2 ^ 16 := by
  simp only [bytesBe16, wordSum, beWord, UInt8.toNat_ofNat']
  omega

theorem readBe16_lt : readBe16 data a < 2 ^ 16 := by
  exact beWord_lt _ _

@[simp] theorem length_bytesBe16 : (bytesBe16 x).length = 2 := rfl
@[simp] theorem length_bytes16 : (bytes16 x).length = 2 := rfl
@[simp] theorem length_ipv4Front {p : UInt8} : (ipv4Front x y p).length = 10 := rfl
@[simp] theorem Address.length_bytes (d : Address) : d.bytes.length = 4 := rfl

end Words

section Headers

variable {total ident identifier sequence : Nat} {p type : UInt8} {src dst : Address}
  {payload : List UInt8}

/-- The sum of the words an IPv4 header has beside its checksum. -/
def headerSum (total ident : Nat) (protocol : UInt8) (src dst : Address) : Nat :=
  0x4500 + total + ident + beWord 64 protocol + wordSum src.bytes + wordSum dst.bytes

@[simp] theorem length_ipv4Header {c : Nat} : (ipv4Header total ident p c src dst).length = 20 :=
  rfl

theorem wordSum_ipv4Front (htotal : total < 2 ^ 16) (hident : ident < 2 ^ 16) :
    wordSum (ipv4Front total ident p) = 0x4500 + total + ident + beWord 64 p := by
  have hfirst : wordSum [0x45, 0] = 0x4500 := rfl
  have hlast : wordSum [64, p] = beWord 64 p := by simp [wordSum]
  rw [ipv4Front, wordSum_append (by simp), wordSum_append (by simp), wordSum_append (by simp),
    wordSum_append (by simp), wordSum_bytesBe16, wordSum_bytesBe16, wordSum_bytesBe16, hfirst,
    hlast, Nat.mod_eq_of_lt htotal, Nat.mod_eq_of_lt hident]
  omega

theorem ipv4Header_verifies (htotal : total < 2 ^ 16) (hident : ident < 2 ^ 16) :
    ipv4Checksum (ipv4Header total ident p (ipv4Checksum (ipv4Header total ident p 0 src dst)) src dst) = 0 ↔
      257 ∣ headerSum total ident p src dst := by
  have hblank : wordSum (ipv4Front total ident p ++ [0, 0] ++ (src.bytes ++ dst.bytes)) =
      headerSum total ident p src dst := by
    have hfield : wordSum [0, 0] = 0 := rfl
    rw [wordSum_append (by simp), wordSum_append (by simp), wordSum_append (by simp),
      wordSum_ipv4Front htotal hident, hfield, Nat.add_zero, headerSum, Nat.add_assoc _ (wordSum _)]
  rw [← hblank]
  exact onesChecksum_swapped (by simp) (by simp)

theorem icmpSealed_verifies (hid : identifier < 2 ^ 16) (hseq : sequence < 2 ^ 16) (hlen : payload.length ≤ 1500) :
    icmpChecksum (icmpSealed type identifier sequence payload) = 0 ↔
      257 ∣ beWord type 0 + identifier + sequence + wordSum payload := by
  have hblank : wordSum ([type, 0] ++ [0, 0] ++
      (bytesBe16 identifier ++ bytesBe16 sequence ++ payload)) =
        beWord type 0 + identifier + sequence + wordSum payload := by
    have hfirst : wordSum [type, 0] = beWord type 0 := by simp [wordSum]
    have hfield : wordSum [0, 0] = 0 := rfl
    rw [wordSum_append (by simp), wordSum_append (by simp), wordSum_append (by simp),
      wordSum_append (by simp), wordSum_bytesBe16, wordSum_bytesBe16, hfirst, hfield,
      Nat.mod_eq_of_lt hid, Nat.mod_eq_of_lt hseq]
    omega
  rw [← hblank]
  exact onesChecksum_swapped (by simp) (by simp; omega)

end Headers

section Emitted

variable {arpResolve : Dev → Address → Int × Mac} {g : Stack} {dev : Option Dev}
  {dst src : Option Address} {protocol : UInt8} {payload packet : Option Mem} {length : Nat}
  {mac : Mac} {ethertype total : Nat} {buffer message : List UInt8}

theorem ipv4Send_frame
    (h : (ipv4Send arpResolve g dev dst protocol payload length).2 = .frame mac ethertype buffer total) :
    ∃ d, dst = some d ∧ total = (20 + length) % 2 ^ 32 ∧ total ≤ ethernetMaxPayload ∧
      buffer.take 20 = ipv4Header total (g.ident + 1).toNat protocol
        (ipv4Checksum (ipv4Header total (g.ident + 1).toNat protocol 0 g.address d)) g.address d := by
  unfold ipv4Send at h
  cases dev with
  | none => simp at h
  | some dev =>
    cases dst with
    | none => simp at h
    | some d =>
      simp only at h
      split_ifs at h with hnull hlarge hneg hwait
      simp only [Outcome.frame.injEq] at h
      obtain ⟨_, _, rfl, rfl⟩ := h
      refine ⟨d, rfl, rfl, by omega, ?_⟩
      exact List.take_left' (by simp)

theorem icmpReceive_built (h : (icmpReceive arpResolve g dev packet length src).built = some message) :
    ∃ p, packet = some p ∧ message = icmpSealed 0 (readBe16 p 4) (readBe16 p 6) (echoPayload p length) := by
  unfold icmpReceive at h
  cases dev with
  | none => simp at h
  | some dev =>
    cases packet with
    | none => simp at h
    | some p =>
      simp only at h
      split_ifs at h with hshort hreply hrequest
      simp only [sendIcmp, Option.some.injEq] at h
      exact ⟨p, rfl, h.symm⟩

theorem icmpSendEchoRequest_built {identifier sequence : UInt16}
    (h : (icmpSendEchoRequest arpResolve g dev dst identifier sequence).built = some message) :
    message = icmpSealed 8 identifier.toNat sequence.toNat [] := by
  unfold icmpSendEchoRequest at h
  split_ifs at h with hnull
  simp only [sendIcmp, Option.some.injEq] at h
  exact h.symm

theorem length_echoPayload {p : Mem} : (echoPayload p length).length ≤ 1500 := by
  simp [echoPayload]

end Emitted

section Ping

variable {arpResolve : Dev → Address → Int × Mac} {g : Stack} {dev : Dev} {p : Mem} {n ident c c' : Nat}
  {src dst : Address} {type : UInt8} {id seq : UInt16}

theorem ipv4Receive_echo (hn : 28 ≤ n)
    (hp : cells p 28 = ipv4Header 28 ident 1 c src dst ++ icmpMessage type c' id.toNat seq.toNat []) :
    ipv4Receive arpResolve g (some dev) (some p) n =
      if type = 0 then ⟨recordReply g id.toNat seq.toNat (some src), .ret 0, none⟩
      else if type = 8 then sendIcmp arpResolve g (some dev) (some src) (icmpSealed 0 id.toNat seq.toNat [])
      else ⟨g, .warn "icmp: unsupported type", none⟩ := by
  have hword (x : UInt16) : x.toNat / 256 % 256 * 256 + x.toNat % 256 = x.toNat := by
    have := x.toNat_lt
    omega
  simp [cells, ipv4Header, ipv4Front, icmpMessage, bytes16, bytesBe16, Address.bytes, List.range_succ] at hp
  simp [ipv4Receive, icmpReceive, readBe16, echoPayload, beWord, hp, hword, hn, show ¬n < 20 by omega]

/-- A ping from `a` to `b` and back; frames may arrive padded. -/
theorem ping_recorded (dev : Dev) (a b a' : Stack) (macA macB : Mac) (id seq : UInt16) : ∃ request reply,
    (icmpSendEchoRequest (fun _ _ => (0, macB)) a (some dev) (some b.address) id seq).outcome =
        .frame macB ethertypeIpv4 request 28 ∧
      (∀ p n, cells p 28 = request → 28 ≤ n →
        (ipv4Receive (fun _ _ => (0, macA)) b (some dev) (some p) n).outcome = .frame macA ethertypeIpv4 reply 28) ∧
      ∀ p n, cells p 28 = reply → 28 ≤ n →
        (ipv4Receive (fun _ _ => (0, macB)) a' (some dev) (some p) n).stack.replies.getLast? =
          some ⟨id.toNat, seq.toNat, b.address⟩ := by
  refine ⟨_, ?_, rfl, fun p n hp hn => ?_, fun p n hp hn => ?_⟩
  rotate_left
  -- what `b` answers settles the reply
  · rw [ipv4Receive_echo hn hp]
    rfl
  · rw [ipv4Receive_echo hn hp]
    simp [icmpSealed, icmpMessage, recordReply]

end Ping

/-- All three kinds of emitted checksum pass the receiver's test. -/
def EmittedVerify (arpResolve : Dev → Address → Int × Mac) : Prop :=
  (∀ g dev dst protocol payload length mac ethertype buffer total,
    (ipv4Send arpResolve g dev dst protocol payload length).2 =
        .frame mac ethertype buffer total →
      ipv4Checksum (buffer.take 20) = 0) ∧
  (∀ g dev packet length src message,
    (icmpReceive arpResolve g dev packet length src).built = some message →
      icmpChecksum message = 0) ∧
  (∀ g dev dst identifier sequence message,
    (icmpSendEchoRequest arpResolve g dev dst identifier sequence).built = some message →
      icmpChecksum message = 0)

/-- Each emitted checksum passes the receiver's test exactly if 257 divides the sum of the other
words of what it covers. -/
theorem emitted_checksums_verify_iff (arpResolve : Dev → Address → Int × Mac) :
    (∀ g dev d protocol payload length mac ethertype buffer total,
      (ipv4Send arpResolve g dev (some d) protocol payload length).2 =
          .frame mac ethertype buffer total →
        (ipv4Checksum (buffer.take 20) = 0 ↔
          257 ∣ headerSum ((20 + length) % 2 ^ 32) (g.ident + 1).toNat protocol g.address d)) ∧
    (∀ g dev p length src message,
      (icmpReceive arpResolve g dev (some p) length src).built = some message →
        (icmpChecksum message = 0 ↔
          257 ∣ readBe16 p 4 + readBe16 p 6 + wordSum (echoPayload p length))) ∧
    (∀ g dev dst identifier sequence message,
      (icmpSendEchoRequest arpResolve g dev dst identifier sequence).built = some message →
        (icmpChecksum message = 0 ↔ 257 ∣ 0x0800 + identifier.toNat + sequence.toNat)) := by
  refine ⟨?_, ?_, ?_⟩
  · intro g dev d protocol payload length mac ethertype buffer total h
    obtain ⟨d', hd, htotal, hmax, hbuffer⟩ := ipv4Send_frame h
    obtain rfl : d = d' := by simpa using hd
    have hlt : total < 2 ^ 16 := by
      unfold ethernetMaxPayload at hmax
      omega
    rw [hbuffer, ← htotal]
    exact ipv4Header_verifies hlt (UInt16.toNat_lt _)
  · intro g dev p length src message h
    obtain ⟨p', hp, rfl⟩ := icmpReceive_built h
    obtain rfl : p = p' := by simpa using hp
    have hword : beWord 0 0 = 0 := rfl
    rw [icmpSealed_verifies readBe16_lt readBe16_lt length_echoPayload, hword, Nat.zero_add]
  · intro g dev dst identifier sequence message h
    have hword : beWord 8 0 = 0x0800 := rfl
    have hempty : wordSum [] = 0 := rfl
    rw [icmpSendEchoRequest_built h,
      icmpSealed_verifies (UInt16.toNat_lt _) (UInt16.toNat_lt _) (by simp), hword, hempty,
      Nat.add_zero]

/-- The echo request with identifier 0 and sequence number 8 passes it. -/
theorem emitted_checksum_verifies_eight :
    (icmpSendEchoRequest (fun (_ : Unit) _ => (0, [1, 2, 3, 4, 5, 6])) ⟨⟨10, 0, 2, 15⟩, 0, []⟩
        (some ()) (some ⟨10, 0, 2, 2⟩) 0 8).built = some (icmpSealed 8 0 8 []) ∧
      icmpChecksum (icmpSealed 8 0 8 []) = 0 :=
  ⟨rfl, ((emitted_checksums_verify_iff fun (_ : Unit) _ => (0, [1, 2, 3, 4, 5, 6])).2.2
    ⟨⟨10, 0, 2, 15⟩, 0, []⟩ (some ()) (some ⟨10, 0, 2, 2⟩) 0 8 _ rfl).2 (by decide)⟩

/-- The echo request with identifier 1 and sequence number 1 fails the test. -/
theorem emitted_checksum_swapped :
    ¬ EmittedVerify (fun (_ : Unit) _ => (0, [1, 2, 3, 4, 5, 6])) := by
  intro h
  have hzero := h.2.2 ⟨⟨10, 0, 2, 15⟩, 0, []⟩ (some ()) (some ⟨10, 0, 2, 2⟩) 1 1 _ rfl
  have hiff : icmpChecksum (icmpSealed 8 1 1 []) = 0 ↔ _ :=
    icmpSealed_verifies (by decide) (by decide) (by decide)
  exact absurd (hiff.1 hzero) (by decide)

end Send

end ProOS.Net
