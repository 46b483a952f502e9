import ReliableUdpBench.MainLoop

/-!
# The backlog of a server

`main` holds back while its own client has too much to send (`Backlog.client_backlog`). Nothing holds
back on behalf of the server: `TryRecvMsg` goes on for as long as messages come in, and the worker
sends nothing until it ends. Any number of messages can be what a worker has in its queue while nothing
has been sent back and `main` is about to push the next one (`DgramEndToEnd.server_backlog`,
`StreamEndToEnd.server_backlog_bytes`); so there is no bound. Each message goes through the buffers of
UDT by itself, so it is enough that each of them fits.
-/

namespace ReliableUdpBench

open Lib

namespace DgramEndToEnd

variable {κ : Type*} {f : Str → κ → Option κ} {init : κ}

/-- The client sends a message in one iteration, and the worker receives it and goes on receiving. -/
def handOver (msg : Str) : List Event :=
  [.client .tau, .client .tau, .client (.send (.ret msg.length)), .client .tau,
    .client (.recv (.error Udt.EASYNCRCV)), .server (.recv (.ret msg))]

/-- The client is idle, and the worker in its receive loop has queued the messages. -/
def hoarding (init : κ) (msgs : List Str) : World κ :=
  ⟨msgs, .start (init, []), [], true, .recv msgs, []⟩

theorem runFrom_handOver (msgs : List Str) {msg : Str} (hmsg : msg ≠ []) :
    (benchmark f init).runFrom (hoarding init msgs) (.client (.sendMsg msg) :: handOver msg) =
      some (hoarding init (msgs ++ [msg])) := by
  simp [System.runFrom, benchmark, handOver, hoarding, World.clientStep, World.serverStep,
    DgramClient.Client.step, DgramClient.Client.tau, DgramClient.Client.start,
    DgramClient.Client.sendPass, DgramClient.doSendOneMsg, Dgram.doSendOneMsg, hmsg,
    MsgChannel.send, MsgChannel.recv, ThreadsafeQueue.push, ThreadsafeQueue.grabAll,
    DgramServer.Worker.step, DgramServer.recvPass_message, DgramClient.doRecvMsg]

theorem adds_handOver (msg : Str) : ∀ e ∈ handOver msg, Backlog.sends Event.action e = false := by
  simp [handOver, Backlog.sends, Event.action, ClientAction.msg]

/-- `main` reads a size of zero after each message. -/
theorem runFrom_handOverMain (msgs : List Str) {msg : Str} (hmsg : msg ≠ []) :
    (whole f init).runFrom (.push, hoarding init msgs)
        (Throttle.round (.client (.sendMsg msg)) (handOver msg)) =
      some (.push, hoarding init (msgs ++ [msg])) :=
  Throttle.runFrom_round rfl (adds_handOver msg) (runFrom_handOver msgs hmsg) (Nat.zero_le 2)

/-- The calls take the message and hand it over. -/
theorem inBuffers_handOver {msg : Str} (hlength : msg.length ≤ Udt.rcvBufBytes 93440) {e : Event}
    (he : .system e ∈ Throttle.round (.client (.sendMsg msg)) (handOver msg)) {o : Outcome}
    (ho : e.outcome = some o) : o.InBuffers 93440 := by
  have hsnd : msg.length ≤ Udt.sndBufBytes 93440 := hlength.trans (by decide)
  have harray : msg.length ≤ 1024 * 100 := hlength.trans (by decide)
  simp only [Throttle.system_mem_round, handOver, List.mem_cons, List.not_mem_nil, or_false] at he
  rcases he with rfl | rfl | rfl | rfl | rfl | rfl | rfl
  · cases ho
  · cases ho
  · cases ho
  · cases ho
    exact hsnd
  · cases ho
  · cases ho
    exact ⟨Nat.zero_le _, Nat.zero_le _⟩
  · cases ho
    exact ⟨hlength, harray⟩

/-- **The backlog of the datagram server is not bounded.** Whatever messages are pushed that fit into
UDT's buffers, there is a run within the buffers in which `main` has never read a size above its limit,
the worker has all messages in its queue and has sent nothing back, and `main` is about to push the next
one. -/
theorem server_backlog (f : Str → κ → Option κ) (init : κ) {msgs : List Str}
    (hmsgs : ∀ msg ∈ msgs, msg ≠ [] ∧ msg.length ≤ Udt.rcvBufBytes 93440) :
    ∃ ls w, (whole f init).run ls = some (.push, w) ∧
      (∀ e, .system e ∈ ls → ∀ o, e.outcome = some o → o.InBuffers 93440) ∧
      (∀ q ∈ (whole f init).trace (whole f init).init ls, ∀ seen, q.1.1 = .test seen → seen ≤ 2) ∧
      w.pushed = msgs ∧ w.server.msgQueueNeedSend = msgs ∧ w.toClient = [] ∧ w.delivered = [] := by
  have hblock : ∀ done, ∀ msg ∈ msgs, (whole f init).runFrom (.push, hoarding init done)
      (Throttle.round (.client (.sendMsg msg)) (handOver msg)) =
        some (.push, hoarding init (done ++ [msg])) :=
    fun done msg hmsg => runFrom_handOverMain done (hmsgs msg hmsg).1
  refine ⟨msgs.flatMap fun msg => Throttle.round (.client (.sendMsg msg)) (handOver msg),
    hoarding init msgs, ?_, ?_, ?_, rfl, rfl, rfl, rfl⟩
  · exact (whole f init).runFrom_flatMap (fun done => (.push, hoarding init done)) _ hblock
  · intro e he o ho
    obtain ⟨msg, hmsg, hmem⟩ := List.mem_flatMap.mp he
    exact inBuffers_handOver (hmsgs msg hmsg).2 hmem ho
  · intro q hq seen hseen
    obtain ⟨done, msg, hmsg, hmem⟩ := (whole f init).exists_of_mem_trace_flatMap
      (fun done => (.push, hoarding init done)) _ hblock hq
    have hzero := Throttle.seen_of_mem_trace_round rfl (adds_handOver msg)
      (runFrom_handOver done (hmsgs msg hmsg).1) hmem hseen
    exact hzero.trans_le (Nat.zero_le 2)

theorem server_backlog_threeMessages :
    (∀ msg ∈ [['a'], ['b'], ['c']], msg ≠ [] ∧ msg.length ≤ Udt.rcvBufBytes 93440) ∧
    ∃ ls w, (whole (fun _ n => some (n + 1)) 0).run ls = some (.push, w) ∧
      (∀ e, .system e ∈ ls → ∀ o, e.outcome = some o → o.InBuffers 93440) ∧
      (∀ q ∈ (whole (fun _ n => some (n + 1)) 0).trace (whole (fun _ n => some (n + 1)) 0).init ls,
        ∀ seen, q.1.1 = .test seen → seen ≤ 2) ∧
      w.pushed = [['a'], ['b'], ['c']] ∧ w.server.msgQueueNeedSend = [['a'], ['b'], ['c']] ∧
      w.toClient = [] ∧ w.delivered = [] := by
  have hmsgs : ∀ msg ∈ [['a'], ['b'], ['c']], msg ≠ [] ∧ msg.length ≤ Udt.rcvBufBytes 93440 := by
    decide
  exact ⟨hmsgs, server_backlog (fun _ n => some (n + 1)) 0 hmsgs⟩

end DgramEndToEnd

namespace StreamEndToEnd

variable {n : ℕ} {clock : ℕ → UInt64}

/-- The client sends a message in one iteration, and the worker receives it and goes on receiving. -/
def handOver (n : ℕ) (t : UInt64) : List Event :=
  [.tau, .clientSend (.ret (makeTestStr n t).length), .tau, .clientRecv (.error Udt.EASYNCRCV),
    .tau, .clientRecv (.error Udt.EASYNCRCV), .serverRecv (.ret (makeTestStr n t))]

/-- The client is idle, and the worker in its receive loop has appended the messages. -/
def hoarding (n : ℕ) (ts : List UInt64) : World :=
  ⟨ts, .start StreamClient.RecvState.init, [], .recv (ts.map (makeTestStr n)).flatten, []⟩

theorem makeTestStr_ne_nil (n : ℕ) (t : UInt64) : makeTestStr n t ≠ [] :=
  List.append_ne_nil_of_left_ne_nil (List.ne_nil_of_length_pos Nat.length_toDigits_pos) _

theorem runFrom_handOver (ts : List UInt64) (t : UInt64) :
    (benchmark n clock).runFrom (hoarding n ts) (.sendMsg t :: handOver n t) =
      some (hoarding n (ts ++ [t])) := by
  have hmsg := makeTestStr_ne_nil n t
  simp [System.runFrom, benchmark, handOver, hoarding, World.sendMsg, World.clientStep,
    World.serverStep, StreamClient.Client.step, StreamClient.Client.tau, StreamClient.Client.start,
    StreamClient.doSendMsg, StreamClient.doRecvMsg, hmsg, ByteChannel.send, ByteChannel.recv,
    StreamServer.Worker.step, StreamServer.doRecvMsg, List.length_pos_iff]

theorem adds_handOver (n : ℕ) (t : UInt64) :
    ∀ e ∈ handOver n t, Backlog.sends (Event.action n) e = false := by
  simp [handOver, Backlog.sends, Event.action, ClientAction.msg]

/-- `main` reads a size of zero after each message. -/
theorem runFrom_handOverMain (ts : List UInt64) (t : UInt64) :
    (whole n clock).runFrom (.push, hoarding n ts) (Throttle.round (.sendMsg t) (handOver n t)) =
      some (.push, hoarding n (ts ++ [t])) :=
  Throttle.runFrom_round rfl (adds_handOver n t) (runFrom_handOver ts t) (Nat.zero_le _)

/-- The calls take the message and hand it over. -/
theorem inBuffers_handOver {t : UInt64} (hlength : (makeTestStr n t).length ≤ 1024 * 100) {e : Event}
    (he : .system e ∈ Throttle.round (.sendMsg t) (handOver n t)) {o : Outcome}
    (ho : e.outcome = some o) : o.InBuffers 934400 := by
  have hsnd : (makeTestStr n t).length ≤ Udt.sndBufBytes 934400 := hlength.trans (by decide)
  have hrcv : (makeTestStr n t).length ≤ Udt.rcvBufBytes 934400 := hlength.trans (by decide)
  simp only [Throttle.system_mem_round, handOver, List.mem_cons, List.not_mem_nil, or_false] at he
  rcases he with rfl | rfl | rfl | rfl | rfl | rfl | rfl | rfl
  · cases ho
  · cases ho
  · cases ho
    exact hsnd
  · cases ho
  · cases ho
    exact ⟨Nat.zero_le _, Nat.zero_le _⟩
  · cases ho
  · cases ho
    exact ⟨Nat.zero_le _, Nat.zero_le _⟩
  · cases ho
    exact ⟨hrcv, hlength⟩

/-- **The backlog of the stream server is not bounded** either: whatever messages are sent that fit into
the array of a receive call, there is a run within UDT's buffers in which `main` has never read a size
above its limit, the worker has all bytes of the messages in its string and has sent nothing back, and
`main` is about to send the next one. -/
theorem server_backlog_bytes (hn : n ≤ 1024 * 100) (clock : ℕ → UInt64) {ts : List UInt64}
    (hfit : ∀ t ∈ ts, (decimal t.toNat).length < n) :
    ∃ ls w, (whole n clock).run ls = some (.push, w) ∧
      (∀ e, .system e ∈ ls → ∀ o, e.outcome = some o → o.InBuffers 934400) ∧
      (∀ q ∈ (whole n clock).trace (whole n clock).init ls,
        ∀ seen, q.1.1 = .test seen → seen ≤ 500 * 50) ∧
      w.sent = ts ∧ w.server.msgBufNeedSend = w.bytesSent n ∧ w.toClient = [] ∧ w.frames = [] := by
  have hblock : ∀ done, ∀ t ∈ ts, (whole n clock).runFrom (.push, hoarding n done)
      (Throttle.round (.sendMsg t) (handOver n t)) = some (.push, hoarding n (done ++ [t])) :=
    fun done t _ => runFrom_handOverMain done t
  refine ⟨ts.flatMap fun t => Throttle.round (.sendMsg t) (handOver n t), hoarding n ts, ?_, ?_, ?_,
    rfl, rfl, rfl, rfl⟩
  · exact (whole n clock).runFrom_flatMap (fun done => (.push, hoarding n done)) _ hblock
  · intro e he o ho
    obtain ⟨t, ht, hmem⟩ := List.mem_flatMap.mp he
    have hlength : (makeTestStr n t).length = n := length_makeTestStr (by omega) (hfit t ht).le
    exact inBuffers_handOver (hlength.trans_le hn) hmem ho
  · intro q hq seen hseen
    obtain ⟨done, t, ht, hmem⟩ := (whole n clock).exists_of_mem_trace_flatMap
      (fun done => (.push, hoarding n done)) _ hblock hq
    have hzero := Throttle.seen_of_mem_trace_round rfl (adds_handOver n t)
      (runFrom_handOver done t) hmem hseen
    exact hzero.trans_le (Nat.zero_le _)

theorem server_backlog_bytes_twoReadings :
    (∀ t ∈ ([7, 8] : List UInt64), (decimal t.toNat).length < 3) ∧
    ∃ ls w, (whole 3 fun _ => 12).run ls = some (.push, w) ∧
      (∀ e, .system e ∈ ls → ∀ o, e.outcome = some o → o.InBuffers 934400) ∧
      (∀ q ∈ (whole 3 fun _ => 12).trace (whole 3 fun _ => 12).init ls,
        ∀ seen, q.1.1 = .test seen → seen ≤ 500 * 50) ∧
      w.sent = [7, 8] ∧ w.server.msgBufNeedSend = w.bytesSent 3 ∧ w.toClient = [] ∧
      w.frames = [] := by
  have hfit : ∀ t ∈ ([7, 8] : List UInt64), (decimal t.toNat).length < 3 := by
    intro t ht
    rcases List.mem_pair.mp ht with rfl | rfl
    · decide +kernel
    · decide +kernel
  exact ⟨hfit, server_backlog_bytes (by decide) (fun _ => 12) hfit⟩

end StreamEndToEnd

end ReliableUdpBench
