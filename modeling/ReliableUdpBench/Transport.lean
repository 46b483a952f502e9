import ReliableUdpBench.Udt

/-!
# The transport between a client and its server

UDT is assumed to be reliable and to keep the order in each direction. A datagram connection carries
whole messages, a stream connection bytes. A channel holds what one side has sent and the other has
not yet received, the oldest first; an outcome of a call that such a channel cannot have is refused.

The channels have room for everything. Where a result says that a run exists, `Outcome.InBuffers`
bounds its calls by UDT's buffers, as the programs set them.
-/

namespace ReliableUdpBench

/-! ### Whole messages -/

namespace MsgChannel

/-- `sendmsg` of a message: it fails, or takes the whole message. -/
def send (channel : List Str) (msg : Str) : SendOutcome → Option (List Str)
  | .error _ => some channel
  | .ret count => if count = msg.length then some (channel ++ [msg]) else none

/-- `recvmsg`: it fails, returns zero, or hands over the oldest message. -/
def recv (channel : List Str) : RecvOutcome → Option (List Str)
  | .error _ => some channel
  | .ret data =>
    if data = [] then some channel
    else if channel.head? = some data then some channel.tail else none

theorem send_cases {channel channel' : List Str} {msg : Str} {o : SendOutcome}
    (h : send channel msg o = some channel') :
    (o ≠ .ret msg.length ∧ channel' = channel) ∨
      (o = .ret msg.length ∧ channel' = channel ++ [msg]) := by
  cases o with
  | error code =>
    cases h
    exact .inl ⟨by simp, rfl⟩
  | ret count =>
    by_cases hcount : count = msg.length
    · rw [send, if_pos hcount] at h
      cases h
      exact .inr ⟨by rw [hcount], rfl⟩
    · rw [send, if_neg hcount] at h
      cases h

theorem recv_cases {channel channel' : List Str} {o : RecvOutcome}
    (h : recv channel o = some channel') :
    (o.data = [] ∧ channel' = channel) ∨ (o.data ≠ [] ∧ channel = o.data :: channel') := by
  cases o with
  | error code =>
    cases h
    exact .inl ⟨rfl, rfl⟩
  | ret data =>
    by_cases hdata : data = []
    · rw [recv, if_pos hdata] at h
      cases h
      exact .inl ⟨hdata, rfl⟩
    · rw [recv, if_neg hdata] at h
      by_cases hhead : channel.head? = some data
      · rw [if_pos hhead] at h
        cases h
        exact .inr ⟨hdata, List.eq_cons_of_mem_head? hhead⟩
      · rw [if_neg hhead] at h
        cases h

end MsgChannel

/-! ### Bytes -/

namespace ByteChannel

/-- `send` of a buffer: it fails, or takes a leading part of the buffer. -/
def send (channel buf : Str) : SendOutcome → Option Str
  | .error _ => some channel
  | .ret count => if count ≤ buf.length then some (channel ++ buf.take count) else none

/-- `recv`: it fails, or hands over any number of the oldest bytes. -/
def recv (channel : Str) : RecvOutcome → Option Str
  | .error _ => some channel
  | .ret data => if data <+: channel then some (channel.drop data.length) else none

theorem send_eq {channel channel' buf : Str} {o : SendOutcome}
    (h : send channel buf o = some channel') :
    o.count ≤ buf.length ∧ channel' = channel ++ buf.take o.count := by
  cases o with
  | error code =>
    cases h
    exact ⟨Nat.zero_le _, by simp [SendOutcome.count]⟩
  | ret count =>
    by_cases hcount : count ≤ buf.length
    · rw [send, if_pos hcount] at h
      cases h
      exact ⟨hcount, rfl⟩
    · rw [send, if_neg hcount] at h
      cases h

theorem recv_eq {channel channel' : Str} {o : RecvOutcome} (h : recv channel o = some channel') :
    channel = o.data ++ channel' := by
  cases o with
  | error code =>
    cases h
    rfl
  | ret data =>
    by_cases hprefix : data <+: channel
    · rw [recv, if_pos hprefix] at h
      cases h
      obtain ⟨rest, rfl⟩ := hprefix
      simp [RecvOutcome.data]
    · rw [recv, if_neg hprefix] at h
      cases h

end ByteChannel

/-! ### Buffers -/

namespace Udt

/-- The bytes of the programs in a packet: of the 1500 that UDT sends, 28 are headers of IP and UDP, and
16 are its own. -/
def packetBytes : ℕ := 1500 - 28 - 16

/-- How many packets there are in a buffer set to so many bytes. -/
def bufPackets (bytes : ℕ) : ℕ := bytes / (1500 - 28)

/-- What a send call takes at most, if `UDT_SNDBUF` is set to so many bytes. -/
def sndBufBytes (bytes : ℕ) : ℕ := bufPackets bytes * packetBytes

/-- What waits to be received at most, if `UDT_RCVBUF` is set to so many bytes: UDT keeps one packet
of the buffer free. -/
def rcvBufBytes (bytes : ℕ) : ℕ := (bufPackets bytes - 1) * packetBytes

end Udt

/-- A call that both buffers have room for, set to so many bytes, and the array of `1024 * 100` bytes
that all four programs receive into. -/
def Outcome.InBuffers (bytes : ℕ) : Outcome → Prop
  | .send o => o.count ≤ Udt.sndBufBytes bytes
  | .recv o => o.data.length ≤ Udt.rcvBufBytes bytes ∧ o.data.length ≤ 1024 * 100

end ReliableUdpBench
