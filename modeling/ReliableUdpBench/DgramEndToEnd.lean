import ReliableUdpBench.Lib.Conduit
import ReliableUdpBench.DgramClient
import ReliableUdpBench.DgramServer
import ReliableUdpBench.Transport

/-!
# The datagram benchmark end to end

A datagram client and the server's worker for it, joined by a channel of messages in each direction.
Whatever the order of the steps and whatever the calls return, the messages pushed so far are spread
over the callback, the two channels and the three queues, in order: each step of the benchmark moves
messages along one conduit (`step_flow`), so nothing is lost, repeated or reordered
(`dgram_end_to_end`).
-/

namespace ReliableUdpBench.DgramEndToEnd

open Lib

variable {κ : Type*}

/-- A client, a worker with the server's `udt_running_`, the channels, and the messages that have
been pushed. The state of the client's callback is that of the function behind it and the messages
given to it. -/
structure World (κ : Type*) where
  pushed : List Str
  client : DgramClient.Client (κ × List Str)
  toServer : List Str
  serverRunning : Bool
  server : DgramServer.Worker
  toClient : List Str
  deriving DecidableEq

/-- What happens next: an action of the client or a call of the worker. -/
inductive Event where
  | client (a : ClientAction)
  | server (o : Outcome)
  deriving DecidableEq

/-- The messages given to the callback. -/
def World.delivered (w : World κ) : List Str := w.client.callback.2

/-- A callback that also keeps the messages given to it. -/
def recording (f : Str → κ → Option κ) : RecvCallback (κ × List Str) :=
  some fun msg s => (f msg s.1).map fun s' => (s', s.2 ++ [msg])

/-- An action of the client, with the channels; `SendMsg` is called with messages that are not
empty. -/
def World.clientStep (f : Str → κ → Option κ) (w : World κ) (a : ClientAction) :
    Option (World κ) :=
  (w.client.step (recording f) a).bind fun c =>
    match a with
    | .sendMsg msg =>
      if msg = [] then none else some { w with client := c, pushed := w.pushed ++ [msg] }
    | .tau => some { w with client := c }
    | .send o =>
      (MsgChannel.send w.toServer (w.client.sendMsgBuff.headD []) o).map fun channel =>
        { w with client := c, toServer := channel }
    | .recv o =>
      (MsgChannel.recv w.toClient o).map fun channel =>
        { w with client := c, toClient := channel }

/-- A call of the worker, with the channels. -/
def World.serverStep (w : World κ) (o : Outcome) : Option (World κ) :=
  (w.server.step w.serverRunning o).bind fun s =>
    match o with
    | .recv r =>
      (MsgChannel.recv w.toServer r).map fun channel =>
        { w with serverRunning := s.1, server := s.2, toServer := channel }
    | .send r =>
      (MsgChannel.send w.toClient (w.server.msgQueueNeedSend.headD []) r).map fun channel =>
        { w with serverRunning := s.1, server := s.2, toClient := channel }

/-- Every run of the benchmark, for a function behind the callback. -/
def benchmark (f : Str → κ → Option κ) (init : κ) : System (World κ) Event where
  init := ⟨[], .start (init, []), [], true, .start, []⟩
  step w
    | .client a => w.clientStep f a
    | .server o => w.serverStep o

/-- The row of buffers a message goes through, the callback first. -/
def World.conduit (w : World κ) : Conduit Str :=
  ⟨w.pushed, [w.delivered, w.toClient, w.server.msgQueueNeedSend, w.toServer,
    w.client.sendMsgBuff, w.client.sendMsgQueue]⟩

/-! ### Each step moves messages along the row -/

/-- The callback is given the message a receive call hands over. -/
theorem delivered_of_doRecvMsg {f : Str → κ → Option κ} {udtRunning : Bool}
    {s : κ × List Str} {o : RecvOutcome} {r : Bool × Bool × κ × List Str}
    (h : DgramClient.doRecvMsg (recording f) udtRunning s o = some r) :
    r.2.2.2 = s.2 ++ (if o.data = [] then [] else [o.data]) := by
  cases o with
  | error code =>
    rw [DgramClient.doRecvMsg_error] at h
    cases h
    simp [RecvOutcome.data]
  | ret data =>
    by_cases hdata : data = []
    · subst hdata
      rw [DgramClient.doRecvMsg_zero] at h
      cases h
      simp [RecvOutcome.data]
    · rw [recording, DgramClient.doRecvMsg_message _ _ _ hdata] at h
      obtain ⟨s', hs', rfl⟩ := Option.map_eq_some_iff.mp h
      obtain ⟨t, -, rfl⟩ := Option.map_eq_some_iff.mp hs'
      simp [RecvOutcome.data, hdata]

theorem sendMsg_flow {f : Str → κ → Option κ} {w w' : World κ} {msg : Str}
    (h : w.clientStep f (.sendMsg msg) = some w') (hgrab : w.client.GrabsEmpty) :
    w'.client.GrabsEmpty ∧ Relation.ReflTransGen Conduit.Flow w.conduit w'.conduit := by
  obtain ⟨c, hc, hw⟩ := Option.bind_eq_some_iff.mp h
  simp only at hw
  split at hw
  · cases hw
  · cases hw
    cases hc
    exact ⟨hgrab, .single (.enter w.pushed [msg] w.client.sendMsgQueue
      [w.delivered, w.toClient, w.server.msgQueueNeedSend, w.toServer, w.client.sendMsgBuff])⟩

theorem tau_flow {f : Str → κ → Option κ} {w w' : World κ}
    (h : w.clientStep f .tau = some w') (hgrab : w.client.GrabsEmpty) :
    w'.client.GrabsEmpty ∧ Relation.ReflTransGen Conduit.Flow w.conduit w'.conduit := by
  obtain ⟨c, hc, hw⟩ := Option.bind_eq_some_iff.mp h
  cases hw
  obtain ⟨hcallback, hgrab', ⟨hbuff, hqueue⟩ | ⟨hp, hbuff, hqueue⟩⟩ := DgramClient.tau_cases hc
  · refine ⟨hgrab', ?_⟩
    simp only [World.conduit, World.delivered, hcallback, hbuff, hqueue]
    exact .refl
  · -- `TryGrabMsg` overwrites the buffer, which is empty there
    refine ⟨hgrab', ?_⟩
    simp only [World.conduit, World.delivered, hcallback, hbuff, hqueue, hgrab hp]
    simpa using Relation.ReflTransGen.single (Conduit.Flow.advance w.pushed [] w.client.sendMsgQueue
      [] [w.client.callback.2, w.toClient, w.server.msgQueueNeedSend, w.toServer] [])

theorem clientSend_flow {f : Str → κ → Option κ} {w w' : World κ} {o : SendOutcome}
    (h : w.clientStep f (.send o) = some w') :
    w'.client.GrabsEmpty ∧ Relation.ReflTransGen Conduit.Flow w.conduit w'.conduit := by
  obtain ⟨c, hc, hw⟩ := Option.bind_eq_some_iff.mp h
  obtain ⟨channel, hchannel, rfl⟩ := Option.map_eq_some_iff.mp hw
  obtain ⟨front, behind, hbuff, hqueue, hcallback, hp, hsent⟩ := DgramClient.send_cases hc
  refine ⟨DgramClient.grabsEmpty_of_point hp, ?_⟩
  rw [hbuff, List.headD_cons] at hchannel
  rcases MsgChannel.send_cases hchannel with ⟨hne, rfl⟩ | ⟨ho, rfl⟩
  · rcases hsent with ⟨-, hbuff'⟩ | ⟨ho, -⟩
    · simp only [World.conduit, World.delivered, hcallback, hbuff, hbuff', hqueue]
      exact .refl
    · exact absurd ho hne
  · rcases hsent with ⟨hne, -⟩ | ⟨-, hbuff'⟩
    · exact absurd ho hne
    · simp only [World.conduit, World.delivered, hcallback, hbuff, hbuff', hqueue]
      exact .single (.advance w.pushed w.toServer [front] behind
        [w.client.callback.2, w.toClient, w.server.msgQueueNeedSend] [w.client.sendMsgQueue])

theorem clientRecv_flow {f : Str → κ → Option κ} {w w' : World κ} {o : RecvOutcome}
    (h : w.clientStep f (.recv o) = some w') :
    w'.client.GrabsEmpty ∧ Relation.ReflTransGen Conduit.Flow w.conduit w'.conduit := by
  obtain ⟨c, hc, hw⟩ := Option.bind_eq_some_iff.mp h
  obtain ⟨channel, hchannel, rfl⟩ := Option.map_eq_some_iff.mp hw
  obtain ⟨hqueue, hbuff, hp, r, hr, hcallback⟩ := DgramClient.recv_cases hc
  refine ⟨DgramClient.grabsEmpty_of_point hp, ?_⟩
  have hdelivered := delivered_of_doRecvMsg hr
  simp only [World.conduit, World.delivered, hcallback, hdelivered, hbuff, hqueue]
  rcases MsgChannel.recv_cases hchannel with ⟨hdata, rfl⟩ | ⟨hdata, hfront⟩
  · rw [if_pos hdata, List.append_nil]
  · rw [if_neg hdata, hfront]
    exact .single (Conduit.flow_exit w.pushed w.client.callback.2 [o.data] channel _)

theorem clientStep_flow {f : Str → κ → Option κ} {w w' : World κ} {a : ClientAction}
    (h : w.clientStep f a = some w') (hgrab : w.client.GrabsEmpty) :
    w'.client.GrabsEmpty ∧ Relation.ReflTransGen Conduit.Flow w.conduit w'.conduit := by
  cases a with
  | sendMsg msg => exact sendMsg_flow h hgrab
  | tau => exact tau_flow h hgrab
  | send o => exact clientSend_flow h
  | recv o => exact clientRecv_flow h

theorem serverStep_flow {w w' : World κ} {o : Outcome} (h : w.serverStep o = some w') :
    w'.client = w.client ∧ Relation.ReflTransGen Conduit.Flow w.conduit w'.conduit := by
  obtain ⟨⟨running', server'⟩, hs, hw⟩ := Option.bind_eq_some_iff.mp h
  rcases DgramServer.step_cases hs with
    ⟨queue, r, hserver, rfl, -, hqueue⟩ | ⟨front, behind, r, hserver, rfl, hne, rfl, -⟩ |
    ⟨front, behind, hserver, rfl, rfl, -⟩
  · obtain ⟨channel, hchannel, rfl⟩ := Option.map_eq_some_iff.mp hw
    refine ⟨rfl, ?_⟩
    simp only [World.conduit, World.delivered, hserver, hqueue, DgramServer.recvPass_queue,
      DgramServer.msgQueueNeedSend_recv]
    rcases MsgChannel.recv_cases hchannel with ⟨hdata, rfl⟩ | ⟨hdata, hfront⟩
    · rw [if_pos hdata, List.append_nil]
    · rw [if_neg hdata, hfront]
      exact .single (.advance w.pushed queue [r.data] channel [w.client.callback.2, w.toClient] _)
  · obtain ⟨channel, hchannel, rfl⟩ := Option.map_eq_some_iff.mp hw
    refine ⟨rfl, ?_⟩
    rw [hserver, DgramServer.msgQueueNeedSend_send, List.headD_cons] at hchannel
    rcases MsgChannel.send_cases hchannel with ⟨-, rfl⟩ | ⟨ho, -⟩
    · simp only [World.conduit, World.delivered, hserver]
      exact .refl
    · exact absurd ho hne
  · obtain ⟨channel, hchannel, rfl⟩ := Option.map_eq_some_iff.mp hw
    refine ⟨rfl, ?_⟩
    rw [hserver, DgramServer.msgQueueNeedSend_send, List.headD_cons] at hchannel
    rcases MsgChannel.send_cases hchannel with ⟨hne, -⟩ | ⟨-, rfl⟩
    · exact absurd rfl hne
    · simp only [World.conduit, World.delivered, hserver, DgramServer.msgQueueNeedSend_send,
        DgramServer.msgQueueNeedSend_trySend]
      exact .single (.advance w.pushed w.toClient [front] behind [w.client.callback.2] _)

/-- A step of the benchmark keeps the guard of `Run` and moves messages along the row. -/
theorem step_flow {f : Str → κ → Option κ} {init : κ} {w w' : World κ} {e : Event}
    (h : (benchmark f init).step w e = some w') (hgrab : w.client.GrabsEmpty) :
    w'.client.GrabsEmpty ∧ Relation.ReflTransGen Conduit.Flow w.conduit w'.conduit := by
  cases e with
  | client a => exact clientStep_flow h hgrab
  | server o =>
    obtain ⟨hclient, hflow⟩ := serverStep_flow h
    exact ⟨hclient ▸ hgrab, hflow⟩

theorem grabsEmpty_of_run {f : Str → κ → Option κ} {init : κ} {ls : List Event} {w : World κ}
    (h : (benchmark f init).run ls = some w) : w.client.GrabsEmpty := by
  refine (benchmark f init).reachable_induction (fun w => w.client.GrabsEmpty) ?_ ?_ ⟨ls, h⟩
  · intro hp
    cases hp
  · intro w e w' hgrab hstep
    exact (step_flow hstep hgrab).1

/-- A run of the benchmark is a flow of messages along the row. -/
theorem run_flow {f : Str → κ → Option κ} {init : κ} {ls : List Event} {w : World κ}
    (h : (benchmark f init).run ls = some w) :
    Relation.ReflTransGen Conduit.Flow (benchmark f init).init.conduit w.conduit := by
  refine (benchmark f init).run_simulates World.conduit
    (fun _ w => w.client.GrabsEmpty) grabsEmpty_of_run ?_ h
  intro _ _ w w' hgrab _ hstep
  exact (step_flow hstep hgrab).2

/-- **The datagram benchmark end to end.** In every reachable state the messages pushed so far are,
in order, those given to the callback, in the channel to the client, in the worker's queue, in the
channel to the server, in the client's buffer and in its queue. So the callback has been given a
prefix of what was pushed. -/
theorem dgram_end_to_end {f : Str → κ → Option κ} {init : κ} {w : World κ}
    (h : (benchmark f init).Reachable w) :
    w.pushed = w.delivered ++ w.toClient ++ w.server.msgQueueNeedSend ++ w.toServer ++
      w.client.sendMsgBuff ++ w.client.sendMsgQueue ∧
    w.delivered <+: w.pushed := by
  obtain ⟨ls, hls⟩ := h
  have hconserved := Conduit.conserved_of_flow (run_flow hls) rfl
  refine ⟨?_, Conduit.Conserved.exit_prefix hconserved⟩
  simpa [Conduit.Conserved, World.conduit] using hconserved.symm

/-- One message goes round. -/
def roundTrip : List Event :=
  [.client (.sendMsg ['a']), .client .tau, .client .tau, .client (.send (.ret 1)), .client .tau,
    .server (.recv (.ret ['a'])), .server (.recv (.error Udt.EASYNCRCV)), .server (.send (.ret 1)),
    .client (.sendMsg ['b']), .client (.recv (.ret ['a']))]

/-- The world after `roundTrip`, with a callback that counts. -/
def roundTripped : World ℕ :=
  ⟨[['a'], ['b']], ⟨.recv, [['b']], [], true, (1, [['a']])⟩, [], true, .recv [], []⟩

theorem dgram_end_to_end_roundTrip :
    (benchmark (fun _ n => some (n + 1)) 0).Reachable roundTripped ∧
    roundTripped.pushed = roundTripped.delivered ++ roundTripped.toClient ++
      roundTripped.server.msgQueueNeedSend ++ roundTripped.toServer ++
      roundTripped.client.sendMsgBuff ++ roundTripped.client.sendMsgQueue ∧
    roundTripped.delivered <+: roundTripped.pushed := by
  have h : (benchmark (fun _ n => some (n + 1)) 0).Reachable roundTripped :=
    ⟨roundTrip, by decide⟩
  exact ⟨h, dgram_end_to_end h⟩

end ReliableUdpBench.DgramEndToEnd
