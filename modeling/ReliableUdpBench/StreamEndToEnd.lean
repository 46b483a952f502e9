import ReliableUdpBench.Lib.Conduit
import ReliableUdpBench.PaddingLength
import ReliableUdpBench.StreamClient
import ReliableUdpBench.StreamReceive
import ReliableUdpBench.StreamServer
import ReliableUdpBench.Transport

/-!
# The stream benchmark end to end

A stream client and the server's worker for it, joined by a channel of bytes in each direction. The
server's sends are assumed to take the whole string or nothing, since a partial one breaks the echo
(`StreamServer.echo_intact_iff`); the client's take any leading part.

The bytes of all messages sent so far are spread, in order, over the receive callback, the channels,
the worker's string and what the client has not sent: each step of the benchmark moves bytes along one
conduit (`step_flow`). The callback cuts what reaches it into blocks of the size that
`make_test_str` gives every message, so that the blocks are the messages (`stream_end_to_end`).
-/

namespace ReliableUdpBench.StreamEndToEnd

open Lib StreamClient

/-- A client, the worker, the channels, and the clock readings the messages sent so far were made
with. -/
structure World where
  sent : List UInt64
  client : StreamClient.Client RecvState
  toServer : Str
  server : StreamServer.Worker
  toClient : Str
  deriving DecidableEq

/-- What happens next: `SendMsg` with a message made at a clock reading, a step of the network thread
without a call or with one, or a call of the worker. -/
inductive Event where
  | sendMsg (t : UInt64)
  | tau
  | clientSend (o : SendOutcome)
  | clientRecv (o : RecvOutcome)
  | serverSend (o : SendOutcome)
  | serverRecv (o : RecvOutcome)
  deriving DecidableEq

/-- The bytes of the messages sent so far. -/
def World.bytesSent (n : ℕ) (w : World) : Str := (w.sent.map (makeTestStr n)).flatten

/-- The messages `recv_func` has given to `handle_one_msg`. -/
def World.frames (w : World) : List Str := w.client.callback.frames

/-- The bytes given to `recv_func`. -/
def World.received (w : World) : Str := w.frames.flatten ++ w.client.callback.recvedStr

/-- An action of the client, with the channels. -/
def World.clientStep (n : ℕ) (clock : ℕ → UInt64) (w : World) (a : ClientAction) :
    Option World :=
  (w.client.step (some (recvFunc n clock)) a).bind fun c =>
    match a with
    | .sendMsg _ => some { w with client := c }
    | .tau => some { w with client := c }
    | .send o =>
      (ByteChannel.send w.toServer w.client.sendMsgBuf o).map fun channel =>
        { w with client := c, toServer := channel }
    | .recv o =>
      (ByteChannel.recv w.toClient o).map fun channel =>
        { w with client := c, toClient := channel }

/-- `SendMsg` with a message made at a clock reading. -/
def World.sendMsg (n : ℕ) (clock : ℕ → UInt64) (w : World) (t : UInt64) : Option World :=
  (w.clientStep n clock (.sendMsg (makeTestStr n t))).map fun w' =>
    { w' with sent := w.sent ++ [t] }

/-- A call of the worker, with the channels; a send takes the whole string or nothing. -/
def World.serverStep (w : World) (o : Outcome) : Option World :=
  (w.server.step o).bind fun s =>
    match o with
    | .recv r =>
      (ByteChannel.recv w.toServer r).map fun channel =>
        { w with server := s, toServer := channel }
    | .send r =>
      if r.count = 0 ∨ r.count = w.server.msgBufNeedSend.length then
        (ByteChannel.send w.toClient w.server.msgBufNeedSend r).map fun channel =>
          { w with server := s, toClient := channel }
      else none

/-- Every run of the benchmark, for a message size and the clock readings of the callback. -/
def benchmark (n : ℕ) (clock : ℕ → UInt64) : System World Event where
  init := ⟨[], .start RecvState.init, [], .start, []⟩
  step w
    | .sendMsg t => w.sendMsg n clock t
    | .tau => w.clientStep n clock .tau
    | .clientSend o => w.clientStep n clock (.send o)
    | .clientRecv o => w.clientStep n clock (.recv o)
    | .serverSend o => w.serverStep (.send o)
    | .serverRecv o => w.serverStep (.recv o)

/-- The row of buffers a byte goes through, the callback first. -/
def World.conduit (n : ℕ) (w : World) : Conduit Char :=
  ⟨w.bytesSent n, [w.received, w.toClient, w.server.msgBufNeedSend, w.toServer, w.client.unsent]⟩

/-- What the network thread has taken is still in its string, and the callback is in the state that
the bytes given to it determine. -/
structure World.Ok (n : ℕ) (clock : ℕ → UInt64) (w : World) : Prop where
  takenFits : w.client.TakenFits
  callback : w.client.callback = .after n clock w.received

/-! ### Each step moves bytes along the row -/

/-- The bytes given to a callback whose state they determine. -/
theorem received_after {n : ℕ} {clock : ℕ → UInt64} {w : World} {bytes : Str}
    (h : w.client.callback = .after n clock bytes) : w.received = bytes := by
  rw [World.received, World.frames, h]
  exact blocks_flatten_append_remainder n bytes

/-- A receive call gives what it hands over to the callback. -/
theorem callback_recv {n : ℕ} {clock : ℕ → UInt64} {udtRunning : Bool} {bytes : Str}
    {o : RecvOutcome} {r : Bool × RecvState}
    (h : doRecvMsg (some (recvFunc n clock)) udtRunning (.after n clock bytes) o = some r)
    (hn : o.data ≠ [] → 0 < n) : r.2 = .after n clock (bytes ++ o.data) := by
  rcases doRecvMsg_callback _ _ _ _ h with ⟨hdata, hr⟩ | ⟨hdata, hr⟩
  · rw [hr, hdata, List.append_nil]
  · rw [recvFunc_after (hn hdata)] at hr
    exact (Option.some.inj hr).symm

theorem sendMsg_flow {n : ℕ} {clock : ℕ → UInt64} {w w' : World} {t : UInt64}
    (h : w.sendMsg n clock t = some w') (hok : w.Ok n clock) :
    w'.Ok n clock ∧ Conduit.Flow (w.conduit n) (w'.conduit n) := by
  obtain ⟨w₁, hw₁, rfl⟩ := Option.map_eq_some_iff.mp h
  obtain ⟨c, hc, hw⟩ := Option.bind_eq_some_iff.mp hw₁
  cases hw
  obtain ⟨hcallback, hbuf, htaken⟩ := sendMsg_cases hc
  have hfits := hok.takenFits
  have hunsent : c.unsent = w.client.unsent ++ makeTestStr n t := by
    rw [StreamClient.Client.unsent, hbuf, htaken, List.drop_append_of_le_length hfits]
    rfl
  refine ⟨⟨?_, ?_⟩, ?_⟩
  · show c.taken ≤ c.sendMsgBuf.length
    rw [htaken, hbuf, List.length_append]
    exact Nat.le_add_right_of_le hfits
  · simpa only [World.received, World.frames, hcallback] using hok.callback
  · simp only [World.conduit, World.bytesSent, World.received, World.frames, hcallback, hunsent,
      List.map_append, List.flatten_append, List.map_singleton, List.flatten_singleton]
    exact .enter _ (makeTestStr n t) w.client.unsent
      [_, w.toClient, w.server.msgBufNeedSend, w.toServer]

theorem tau_flow {n : ℕ} {clock : ℕ → UInt64} {w w' : World}
    (h : w.clientStep n clock .tau = some w') (hok : w.Ok n clock) :
    w'.Ok n clock ∧ w'.conduit n = w.conduit n := by
  obtain ⟨c, hc, hw⟩ := Option.bind_eq_some_iff.mp h
  cases hw
  obtain ⟨hcallback, hbuf, htaken⟩ := tau_cases hc
  have hunsent : c.unsent = w.client.unsent := by rw [unsent_of_taken htaken, hbuf]
  refine ⟨⟨takenFits_of_taken htaken, ?_⟩, ?_⟩
  · simpa only [World.received, World.frames, hcallback] using hok.callback
  · simp only [World.conduit, World.bytesSent, World.received, World.frames, hcallback, hunsent]

theorem clientSend_flow {n : ℕ} {clock : ℕ → UInt64} {w w' : World} {o : SendOutcome}
    (h : w.clientStep n clock (.send o) = some w') (hok : w.Ok n clock) :
    w'.Ok n clock ∧ Conduit.Flow (w.conduit n) (w'.conduit n) := by
  obtain ⟨c, hc, hw⟩ := Option.bind_eq_some_iff.mp h
  obtain ⟨channel, hchannel, rfl⟩ := Option.map_eq_some_iff.mp hw
  obtain ⟨hcallback, hbuf, htaken₀, htaken⟩ := send_cases hc
  obtain ⟨hcount, rfl⟩ := ByteChannel.send_eq hchannel
  refine ⟨⟨?_, ?_⟩, ?_⟩
  · show c.taken ≤ c.sendMsgBuf.length
    rw [htaken, hbuf]
    exact hcount
  · simpa only [World.received, World.frames, hcallback] using hok.callback
  · have hunsent' : c.unsent = w.client.sendMsgBuf.drop o.count := by
      rw [StreamClient.Client.unsent, htaken, hbuf]
    have hsplit := List.take_append_drop o.count w.client.sendMsgBuf
    simp only [World.conduit, World.bytesSent, World.received, World.frames, hcallback,
      unsent_of_taken htaken₀, hunsent']
    conv => lhs; rw [← hsplit]
    exact .advance _ w.toServer (w.client.sendMsgBuf.take o.count) _
      [_, w.toClient, w.server.msgBufNeedSend] []

theorem clientRecv_flow {n : ℕ} {clock : ℕ → UInt64} {w w' : World} {o : RecvOutcome}
    (h : w.clientStep n clock (.recv o) = some w') (hok : w.Ok n clock)
    (hn : w.toClient ≠ [] → 0 < n) :
    w'.Ok n clock ∧ Conduit.Flow (w.conduit n) (w'.conduit n) := by
  obtain ⟨c, hc, hw⟩ := Option.bind_eq_some_iff.mp h
  obtain ⟨channel, hchannel, rfl⟩ := Option.map_eq_some_iff.mp hw
  obtain ⟨hbuf, htaken₀, htaken, r, hr, hcallback⟩ := recv_cases hc
  have hunsent : c.unsent = w.client.unsent := by
    rw [unsent_of_taken htaken, unsent_of_taken htaken₀, hbuf]
  have htoClient := ByteChannel.recv_eq hchannel
  have hafter : c.callback = .after n clock (w.received ++ o.data) := by
    rw [hok.callback] at hr
    rw [hcallback]
    apply callback_recv hr
    intro hdata
    apply hn
    rw [htoClient]
    exact List.append_ne_nil_of_left_ne_nil hdata channel
  have hreceived : World.received { w with client := c, toClient := channel } =
      w.received ++ o.data := received_after hafter
  refine ⟨⟨takenFits_of_taken htaken, ?_⟩, ?_⟩
  · rw [hreceived]
    exact hafter
  · simp only [World.conduit, hreceived, hunsent, htoClient]
    exact Conduit.flow_exit _ w.received o.data channel _

theorem serverStep_flow {n : ℕ} {clock : ℕ → UInt64} {w w' : World} {o : Outcome}
    (h : w.serverStep o = some w') (hok : w.Ok n clock) :
    w'.Ok n clock ∧
      Relation.ReflTransGen Conduit.Flow (w.conduit n) (w'.conduit n) := by
  obtain ⟨s, hs, hw⟩ := Option.bind_eq_some_iff.mp h
  rcases StreamServer.step_cases hs with ⟨r, rfl, hrecv, hbuf⟩ | ⟨r, rfl, hsend, hserver⟩
  · obtain ⟨channel, hchannel, rfl⟩ := Option.map_eq_some_iff.mp hw
    refine ⟨⟨hok.takenFits, hok.callback⟩, ?_⟩
    have htoServer := ByteChannel.recv_eq hchannel
    simp only [World.conduit, World.bytesSent, World.received, World.frames, hbuf, htoServer]
    exact .single (.advance _ w.server.msgBufNeedSend r.data channel [_, w.toClient] _)
  · by_cases hcount : r.count = 0 ∨ r.count = w.server.msgBufNeedSend.length
    · simp only [if_pos hcount] at hw
      obtain ⟨channel, hchannel, rfl⟩ := Option.map_eq_some_iff.mp hw
      refine ⟨⟨hok.takenFits, hok.callback⟩, ?_⟩
      obtain ⟨-, rfl⟩ := ByteChannel.send_eq hchannel
      simp only [World.conduit, World.bytesSent, World.received, World.frames, hserver,
        StreamServer.msgBufNeedSend_recv]
      rcases StreamServer.trySendMsg_whole hcount with ⟨hstay, htake⟩ | ⟨hempty, htake⟩
      · rw [hstay, htake, List.append_nil]
      · rw [hempty, htake]
        simpa [World.bytesSent, World.received, World.frames] using Relation.ReflTransGen.single
          (Conduit.Flow.advance (w.bytesSent n) w.toClient w.server.msgBufNeedSend [] [w.received]
            [w.toServer, w.client.unsent])
    · simp only [if_neg hcount] at hw
      cases hw

/-- A step of the benchmark keeps the invariant and moves bytes along the row. -/
theorem step_flow {n : ℕ} {clock : ℕ → UInt64} {w w' : World} {e : Event}
    (h : (benchmark n clock).step w e = some w') (hok : w.Ok n clock)
    (hn : w.toClient ≠ [] → 0 < n) :
    w'.Ok n clock ∧ Relation.ReflTransGen Conduit.Flow (w.conduit n) (w'.conduit n) := by
  cases e with
  | sendMsg t =>
    obtain ⟨hok', hflow⟩ := sendMsg_flow h hok
    exact ⟨hok', .single hflow⟩
  | tau =>
    obtain ⟨hok', hconduit⟩ := tau_flow h hok
    exact ⟨hok', hconduit ▸ .refl⟩
  | clientSend o =>
    obtain ⟨hok', hflow⟩ := clientSend_flow h hok
    exact ⟨hok', .single hflow⟩
  | clientRecv o =>
    obtain ⟨hok', hflow⟩ := clientRecv_flow h hok hn
    exact ⟨hok', .single hflow⟩
  | serverSend o => exact serverStep_flow h hok
  | serverRecv o => exact serverStep_flow h hok

/-! ### The readings of the messages sent -/

theorem clientStep_sent {n : ℕ} {clock : ℕ → UInt64} {w w' : World} {a : ClientAction}
    (h : w.clientStep n clock a = some w') : w'.sent = w.sent := by
  obtain ⟨c, -, hw⟩ := Option.bind_eq_some_iff.mp h
  cases a with
  | sendMsg msg =>
    cases hw
    rfl
  | tau =>
    cases hw
    rfl
  | send o =>
    obtain ⟨channel, -, rfl⟩ := Option.map_eq_some_iff.mp hw
    rfl
  | recv o =>
    obtain ⟨channel, -, rfl⟩ := Option.map_eq_some_iff.mp hw
    rfl

theorem serverStep_sent {w w' : World} {o : Outcome} (h : w.serverStep o = some w') :
    w'.sent = w.sent := by
  obtain ⟨s, -, hw⟩ := Option.bind_eq_some_iff.mp h
  cases o with
  | recv r =>
    obtain ⟨channel, -, rfl⟩ := Option.map_eq_some_iff.mp hw
    rfl
  | send r =>
    simp only at hw
    split at hw
    · obtain ⟨channel, -, rfl⟩ := Option.map_eq_some_iff.mp hw
      rfl
    · cases hw

theorem step_sent {n : ℕ} {clock : ℕ → UInt64} {w w' : World} {e : Event}
    (h : (benchmark n clock).step w e = some w') : w.sent <+: w'.sent := by
  cases e with
  | sendMsg t =>
    change w.sendMsg n clock t = some w' at h
    obtain ⟨w₁, -, rfl⟩ := Option.map_eq_some_iff.mp h
    exact List.prefix_append w.sent [t]
  | tau => exact clientStep_sent h ▸ List.prefix_refl _
  | clientSend o => exact clientStep_sent h ▸ List.prefix_refl _
  | clientRecv o => exact clientStep_sent h ▸ List.prefix_refl _
  | serverSend o => exact serverStep_sent h ▸ List.prefix_refl _
  | serverRecv o => exact serverStep_sent h ▸ List.prefix_refl _

/-- Every clock reading can be read back from a message of `n` bytes. -/
def ReadingsFit (n : ℕ) (sent : List UInt64) : Prop :=
  ∀ t ∈ sent, t.toNat < 2 ^ 63 ∧ (decimal t.toNat).length < n

/-- Bytes in the channel belong to a message, which is then longer than the digits of a reading. -/
theorem pos_of_toClient {n : ℕ} {w : World} (hfit : ReadingsFit n w.sent)
    (hconserved : (w.conduit n).Conserved) (h : w.toClient ≠ []) : 0 < n := by
  cases hsent : w.sent with
  | nil =>
    have hempty : (w.conduit n).stages.flatten = [] := by
      rw [hconserved]
      show w.bytesSent n = []
      rw [World.bytesSent, hsent]
      rfl
    have hmem : w.toClient ∈ (w.conduit n).stages := by simp [World.conduit]
    exact absurd (List.flatten_eq_nil_iff.mp hempty _ hmem) h
  | cons t ts =>
    have hlen := (hfit t (by rw [hsent]; exact List.mem_cons_self)).2
    exact Nat.zero_lt_of_lt hlen

theorem run_conserved {n : ℕ} {clock : ℕ → UInt64} {ls : List Event} {w : World}
    (h : (benchmark n clock).run ls = some w) (hfit : ReadingsFit n w.sent) :
    w.Ok n clock ∧ (w.conduit n).Conserved := by
  refine (benchmark n clock).run_induction
    (fun _ w => ReadingsFit n w.sent → w.Ok n clock ∧ (w.conduit n).Conserved) ?_ ?_ h hfit
  · intro _
    exact ⟨⟨Nat.le_refl 0, (RecvState.after_nil n clock).symm⟩, rfl⟩
  · intro _ e w w' _ ih hstep hfit'
    have hfit : ReadingsFit n w.sent := by
      intro t ht
      exact hfit' t ((step_sent hstep).subset ht)
    obtain ⟨hok, hconserved⟩ := ih hfit
    obtain ⟨hok', hflow⟩ := step_flow hstep hok (pos_of_toClient hfit hconserved)
    exact ⟨hok', Conduit.conserved_of_flow hflow hconserved⟩

/-! ### Blocks are messages -/

/-- The buffers between the messages handled and the messages sent, in order. -/
def World.pending (w : World) : Str :=
  w.client.callback.recvedStr ++ w.toClient ++ w.server.msgBufNeedSend ++ w.toServer ++
    w.client.unsent

theorem conserved_iff_pending {n : ℕ} {w : World} :
    (w.conduit n).Conserved ↔ w.frames.flatten ++ w.pending = w.bytesSent n := by
  simp [Conduit.Conserved, World.conduit, World.received, World.pending]

/-- A callback that has been given a leading part of messages of its block size has handed on a
leading part of the messages. -/
theorem frames_prefix {n : ℕ} {clock : ℕ → UInt64} {w : World} (hn : n < 10000000)
    (hfit : ReadingsFit n w.sent) (hok : w.Ok n clock) (hconserved : (w.conduit n).Conserved) :
    w.frames <+: w.sent.map (makeTestStr n) := by
  have hframes : w.frames = blocks n w.received := congrArg RecvState.frames hok.callback
  rcases Nat.eq_zero_or_pos n with rfl | hpos
  · rw [hframes, blocks, Nat.div_zero]
    exact List.nil_prefix
  · refine prefix_of_flatten_eq hpos ?_ ?_ (conserved_iff_pending.mp hconserved)
    · intro msg hmsg
      rw [hframes] at hmsg
      exact length_of_mem_blocks hmsg
    · intro msg hmsg
      obtain ⟨t, ht, rfl⟩ := List.mem_map.mp hmsg
      exact length_makeTestStr hn (hfit t ht).2.le

/-- **The stream benchmark end to end.** In every reachable state the `k`-th message that the client's
`recv_func` has given to `handle_one_msg` is the `k`-th message sent, and its time is read back; and
the bytes of the messages sent that have not been handled are, in order, in the string of
`recv_func`, in the channel to the client, in the worker's string, in the channel to the server, and
in what the client has not sent. -/
theorem stream_end_to_end {n : ℕ} (hn : n < 10000000) {clock : ℕ → UInt64} {w : World}
    (h : (benchmark n clock).Reachable w)
    (hfit : ∀ t ∈ w.sent, t.toNat < 2 ^ 63 ∧ (decimal t.toNat).length < n) :
    (∀ (k : ℕ) (msg : Str), w.frames[k]? = some msg →
      ∃ t, w.sent[k]? = some t ∧ msg = makeTestStr n t ∧ getTimeFromMsg msg = t) ∧
    ((w.sent.drop w.frames.length).map (makeTestStr n)).flatten =
      w.client.callback.recvedStr ++ w.toClient ++ w.server.msgBufNeedSend ++ w.toServer ++
        w.client.unsent := by
  obtain ⟨ls, hls⟩ := h
  obtain ⟨hok, hconserved⟩ := run_conserved hls hfit
  have hprefix := frames_prefix hn hfit hok hconserved
  constructor
  · intro k msg hmsg
    obtain ⟨hk, rfl⟩ := List.getElem?_eq_some_iff.mp hmsg
    have hsent := List.prefix_iff_getElem?.mp hprefix k hk
    rw [List.getElem?_map, Option.map_eq_some_iff] at hsent
    obtain ⟨t, ht, hmsg⟩ := hsent
    obtain ⟨hclock, hdigits⟩ := hfit t (List.mem_of_getElem? ht)
    obtain ⟨tail, htail⟩ : ∃ tail, makeTestStr n t = decimal t.toNat ++ '_' :: tail :=
      makeTestStr_eq (by omega) hdigits
    refine ⟨t, ht, hmsg.symm, ?_⟩
    rw [← hmsg, htail]
    exact getTimeFromMsg_separator hclock tail
  · have hframes := List.prefix_iff_eq_take.mp hprefix
    have hsplit := List.take_append_drop w.frames.length (w.sent.map (makeTestStr n))
    have hbytes := conserved_iff_pending.mp hconserved
    rw [World.bytesSent, ← hsplit, List.flatten_append, ← hframes] at hbytes
    rw [List.map_drop]
    exact (List.append_cancel_left hbytes).symm

/-- Two messages are sent, the second between the send call and the erasure of the first; the bytes
come back in other parts, and one frame is complete. -/
def oneFrame : List Event :=
  [.sendMsg 7, .tau, .clientSend (.ret 2), .sendMsg 8, .tau, .clientRecv (.error Udt.EASYNCRCV),
    .serverRecv (.ret ['7', '_']), .serverRecv (.error Udt.EASYNCRCV), .serverSend (.ret 2),
    .clientSend (.ret 4), .tau, .clientRecv (.ret ['7']), .serverRecv (.ret [':', '8']),
    .serverRecv (.ret ['_', ':']), .serverRecv (.error Udt.EASYNCRCV), .serverSend (.ret 4), .tau,
    .tau, .clientRecv (.ret ['_', ':', '8'])]

/-- The world after `oneFrame`. -/
def oneFrameWorld : World :=
  ⟨[7, 8], ⟨.send true, [], true, ⟨['8'], ⟨[5], [5], 0, 3, 1⟩, [['7', '_', ':']], [⟨5, none⟩], 0⟩⟩,
    [], .recv [], ['_', ':']⟩

theorem stream_end_to_end_oneFrame :
    (3 < 10000000 ∧ (benchmark 3 fun _ => 12).Reachable oneFrameWorld ∧
      ∀ t ∈ oneFrameWorld.sent, t.toNat < 2 ^ 63 ∧ (decimal t.toNat).length < 3) ∧
    (∀ (k : ℕ) (msg : Str), oneFrameWorld.frames[k]? = some msg →
      ∃ t, oneFrameWorld.sent[k]? = some t ∧ msg = makeTestStr 3 t ∧ getTimeFromMsg msg = t) ∧
    ((oneFrameWorld.sent.drop oneFrameWorld.frames.length).map (makeTestStr 3)).flatten =
      oneFrameWorld.client.callback.recvedStr ++ oneFrameWorld.toClient ++
        oneFrameWorld.server.msgBufNeedSend ++ oneFrameWorld.toServer ++
        oneFrameWorld.client.unsent := by
  have h : (benchmark 3 fun _ => 12).Reachable oneFrameWorld := ⟨oneFrame, by decide +kernel⟩
  have hfit : ∀ t ∈ oneFrameWorld.sent, t.toNat < 2 ^ 63 ∧ (decimal t.toNat).length < 3 := by
    intro t ht
    obtain rfl | rfl : t = 7 ∨ t = 8 := by simpa [oneFrameWorld] using ht
    · decide +kernel
    · decide +kernel
  exact ⟨⟨by decide, h, hfit⟩, stream_end_to_end (by decide) h hfit⟩

end ReliableUdpBench.StreamEndToEnd
