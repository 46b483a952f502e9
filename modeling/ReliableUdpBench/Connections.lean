import ReliableUdpBench.AcceptLoop
import ReliableUdpBench.DgramEndToEnd
import ReliableUdpBench.StreamEndToEnd

/-!
# Servers with many connections

A server with its accept loop, one worker for each connection it has accepted, and at the other end
of each connection a client with its channels; any number of them move in any order. A client may
send before its connection is accepted: the messages wait in its channel.

Seen from one connection, a run of the whole is a run of the benchmark with that connection alone
(`DgramEndToEnd.connection_alone`, `StreamEndToEnd.connection_alone`), so that what is proved of one
client and one worker holds of each connection, however many there are. Seen from the accept loop it
is a run of the server of `AcceptLoop`. The datagram workers share `udt_running_` with the accept
loop, and none of them reads it; the stream server has no such flag, and its accept loop goes on as
if there were no workers at all. As in `StreamEndToEnd`, its sends take the whole string or nothing.

The workers are detached threads. When `Run` has left its loop it closes the listening socket, `main`
returns, and the process ends with all of them, wherever they are. Here they go on: a run of the program
is a run of the model that is cut short then, and what holds in every run holds in it.
-/

namespace ReliableUdpBench

open Lib

/-! ### The datagram server -/

namespace DgramServer

theorem doSendOneMsg_fst (b c : Bool) (msg : Str) (o : SendOutcome) :
    (doSendOneMsg b msg o).1 = (doSendOneMsg c msg o).1 := by
  rcases Dgram.doSendOneMsg_cases b msg o with ⟨ho, hb⟩ | ⟨hne, hwhole, hb⟩ | ⟨ho, hb⟩ <;>
    rcases Dgram.doSendOneMsg_cases c msg o with ⟨ho', hc⟩ | ⟨hne', hwhole', hc⟩ | ⟨ho', hc⟩ <;>
    simp_all

/-- What a worker does with its queue does not depend on `udt_running_`. -/
theorem step_flag {b b' : Bool} {w w' : Worker} {o : Outcome} (h : w.step b o = some (b', w'))
    (c : Bool) : ∃ c', w.step c o = some (c', w') := by
  cases w with
  | recv queue =>
    cases o with
    | recv r =>
      cases h
      exact ⟨c, rfl⟩
    | send r => cases h
  | send front behind =>
    cases o with
    | recv r => cases h
    | send r =>
      simp only [Worker.step, doSendOneMsg_fst b c front r] at h
      simp only [Worker.step]
      by_cases h₀ : (doSendOneMsg c front r).1 = 0
      · rw [if_pos h₀] at h
        cases h
        exact ⟨_, if_pos h₀⟩
      · rw [if_neg h₀] at h ⊢
        by_cases h₁ : (doSendOneMsg c front r).1 = -1
        · rw [if_pos h₁] at h ⊢
          cases h
          exact ⟨_, rfl⟩
        · rw [if_neg h₁] at h ⊢
          by_cases h₂ : (doSendOneMsg c front r).1 = 1
          · rw [if_pos h₂] at h ⊢
            cases h
            exact ⟨_, rfl⟩
          · rw [if_neg h₂] at h ⊢
            cases h
            exact ⟨_, rfl⟩
  | returned => cases o <;> cases h

end DgramServer

namespace DgramEndToEnd

variable {κ : Type*}

/-- The other end of a connection, with the channels. -/
structure Peer (κ : Type*) where
  pushed : List Str
  client : DgramClient.Client (κ × List Str)
  toServer : List Str
  toClient : List Str

/-- The server, and the other end of each connection in the order of their acceptance. -/
structure Net (κ : Type*) where
  server : DgramServer.Server
  peers : ℕ → Peer κ

/-- A turn of the accept loop, or something that happens on a connection. -/
inductive NetEvent where
  | run
  | connection (i : ℕ) (e : Event)

/-- A connection as a world of its own; its worker starts when it is accepted. -/
def Net.world (s : Net κ) (i : ℕ) : World κ :=
  ⟨(s.peers i).pushed, (s.peers i).client, (s.peers i).toServer, s.server.udtRunning,
    s.server.workers.getD i .start, (s.peers i).toClient⟩

/-- The world with another value of the server's flag. -/
def World.withFlag (w : World κ) (udtRunning : Bool) : World κ :=
  { w with serverRunning := udtRunning }

/-- The servers and peers after something has happened on a connection. -/
def Net.setWorld (s : Net κ) (i : ℕ) (w : World κ) : Net κ :=
  ⟨{ s.server with udtRunning := w.serverRunning, workers := s.server.workers.set i w.server },
    Function.update s.peers i ⟨w.pushed, w.client, w.toServer, w.toClient⟩⟩

/-- The net after an event; a worker that has not been started makes no call. -/
def Net.step (offers : ℕ → AcceptOutcome) (fs : ℕ → Str → κ → Option κ) (s : Net κ) :
    NetEvent → Option (Net κ)
  | .run => some { s with server := s.server.runTurn offers }
  | .connection i (.client a) => ((s.world i).clientStep (fs i) a).map (s.setWorld i)
  | .connection i (.server o) =>
    if i < s.server.workers.length then ((s.world i).serverStep o).map (s.setWorld i) else none

/-- Every run of a server with its connections, for the function behind each client's callback. -/
def net (offers : ℕ → AcceptOutcome) (fs : ℕ → Str → κ → Option κ) (inits : ℕ → κ) :
    System (Net κ) NetEvent :=
  ⟨⟨.start, fun i => ⟨[], .start (inits i, []), [], []⟩⟩, Net.step offers fs⟩

/-- What connection `i` sees of an event. -/
def NetEvent.at (i : ℕ) : NetEvent → Option Event
  | .run => none
  | .connection j e => if j = i then some e else none

theorem NetEvent.at_eq_some {i : ℕ} {l : NetEvent} {e : Event} :
    l.at i = some e ↔ l = .connection i e := by
  cases l with
  | run => simp [NetEvent.at]
  | connection j e' => simp [NetEvent.at]

/-- What the accept loop and the workers see of an event. -/
def NetEvent.turn : NetEvent → Option DgramServer.Turn
  | .run => some .run
  | .connection i (.server o) => some (.worker i o)
  | .connection _ (.client _) => none

/-! #### One connection -/

variable {offers : ℕ → AcceptOutcome} {f : Str → κ → Option κ} {init : κ}
  {fs : ℕ → Str → κ → Option κ} {inits : ℕ → κ}

theorem world_setWorld_self (s : Net κ) (i : ℕ) (w : World κ)
    (h : i < s.server.workers.length ∨ w.server = (s.world i).server) :
    (s.setWorld i w).world i = w := by
  have hserver : (s.server.workers.set i w.server).getD i .start = w.server := by
    by_cases hi : i < s.server.workers.length
    · simp [hi]
    · rw [h.resolve_left hi]
      simp [Net.world, hi]
  simp only [Net.world, Net.setWorld, Function.update_self, hserver]

theorem world_setWorld_of_ne (s : Net κ) {i j : ℕ} (hji : j ≠ i) (w : World κ) :
    (s.setWorld i w).world j = (s.world j).withFlag w.serverRunning := by
  have hij : i ≠ j := fun h => hji h.symm
  simp [Net.world, Net.setWorld, World.withFlag, Function.update_of_ne hji,
    List.getD_eq_getElem?_getD, hij]

/-- Accepting a connection does not touch the others. -/
theorem world_runTurn (s : Net κ) (i : ℕ) :
    Net.world { s with server := s.server.runTurn offers } i =
      (s.world i).withFlag (s.server.runTurn offers).udtRunning := by
  have hworkers : (s.server.runTurn offers).workers.getD i .start =
      s.server.workers.getD i .start := by
    simp only [DgramServer.Server.runTurn]
    split
    · split <;> rfl
    · split
      · split <;> rfl
      · simp only [List.getD_eq_getElem?_getD, List.getElem?_append]
        split
        · rfl
        · next hi =>
          rw [List.getElem?_eq_none (Nat.not_lt.mp hi)]
          cases i - s.server.workers.length <;> rfl
    · rfl
  simp only [Net.world, World.withFlag, hworkers]

/-- An action of the client leaves the server's side alone, and does not depend on its flag. -/
theorem clientStep_server {w w' : World κ} {a : ClientAction} (h : w.clientStep f a = some w') :
    w'.serverRunning = w.serverRunning ∧ w'.server = w.server ∧
      ∀ b, (w.withFlag b).clientStep f a = some (w'.withFlag b) := by
  obtain ⟨c, hc, hw⟩ := Option.bind_eq_some_iff.mp h
  have hc' : ∀ b, (w.withFlag b).clientStep f a =
      (some c).bind _ := fun b => congrArg (Option.bind · _) hc
  cases a with
  | sendMsg msg =>
    simp only at hw
    split at hw
    · cases hw
    · next hne =>
      cases hw
      refine ⟨rfl, rfl, fun b => ?_⟩
      rw [hc' b]
      exact if_neg hne
  | tau =>
    cases hw
    exact ⟨rfl, rfl, fun b => hc' b⟩
  | send o =>
    obtain ⟨channel, hchannel, rfl⟩ := Option.map_eq_some_iff.mp hw
    refine ⟨rfl, rfl, fun b => ?_⟩
    rw [hc' b]
    exact congrArg (Option.map _) hchannel
  | recv o =>
    obtain ⟨channel, hchannel, rfl⟩ := Option.map_eq_some_iff.mp hw
    refine ⟨rfl, rfl, fun b => ?_⟩
    rw [hc' b]
    exact congrArg (Option.map _) hchannel

/-- A call of the worker is a step of it, and does the same whatever the flag is. -/
theorem serverStep_worker {w w' : World κ} {o : Outcome} (h : w.serverStep o = some w') :
    w.server.step w.serverRunning o = some (w'.serverRunning, w'.server) ∧
      ∀ b, ∃ b', (w.withFlag b).serverStep o = some (w'.withFlag b') := by
  obtain ⟨⟨running', server'⟩, hs, hw⟩ := Option.bind_eq_some_iff.mp h
  cases o with
  | recv r =>
    obtain ⟨channel, hchannel, rfl⟩ := Option.map_eq_some_iff.mp hw
    refine ⟨hs, fun b => ?_⟩
    obtain ⟨b', hb'⟩ := DgramServer.step_flag hs b
    refine ⟨b', ?_⟩
    simp only [World.serverStep, World.withFlag, hb', Option.bind_some, hchannel, Option.map_some]
  | send r =>
    obtain ⟨channel, hchannel, rfl⟩ := Option.map_eq_some_iff.mp hw
    refine ⟨hs, fun b => ?_⟩
    obtain ⟨b', hb'⟩ := DgramServer.step_flag hs b
    refine ⟨b', ?_⟩
    simp only [World.serverStep, World.withFlag, hb', Option.bind_some, hchannel, Option.map_some]

/-- What happens on a connection is a step of its world, and sets no other part of the net. -/
theorem connection_cases (init : κ) {s s' : Net κ} {i : ℕ} {e : Event}
    (h : s.step offers fs (.connection i e) = some s') :
    ∃ w, (benchmark (fs i) init).step (s.world i) e = some w ∧ s' = s.setWorld i w ∧
      (i < s.server.workers.length ∨ w.server = (s.world i).server) := by
  cases e with
  | client a =>
    obtain ⟨w, hw, rfl⟩ := Option.map_eq_some_iff.mp h
    exact ⟨w, hw, rfl, .inr (clientStep_server hw).2.1⟩
  | server o =>
    simp only [Net.step] at h
    split at h
    · next hi =>
      obtain ⟨w, hw, rfl⟩ := Option.map_eq_some_iff.mp h
      exact ⟨w, hw, rfl, .inl hi⟩
    · cases h

theorem step_serverRunning {w w' : World κ} {e : Event}
    (h : (benchmark f init).step w e = some w') (b : Bool) :
    ∃ b', (benchmark f init).step (w.withFlag b) e = some (w'.withFlag b') := by
  cases e with
  | client a => exact ⟨b, (clientStep_server h).2.2 b⟩
  | server o => exact (serverStep_worker h).2 b

theorem connection_hidden (i : ℕ) {s s' : Net κ} {e : NetEvent} (he : e.at i = none)
    (h : s.step offers fs e = some s') : ∃ b, s'.world i = (s.world i).withFlag b := by
  cases e with
  | run =>
    cases h
    exact ⟨_, world_runTurn s i⟩
  | connection j e =>
    obtain ⟨w, -, rfl, -⟩ := connection_cases (s.peers j).client.callback.1 h
    have hij : i ≠ j := by
      rintro rfl
      simp [NetEvent.at] at he
    exact ⟨_, world_setWorld_of_ne s hij w⟩

theorem connection_shown (init : κ) (i : ℕ) {s s' : Net κ} {e : NetEvent} {m : Event}
    (he : e.at i = some m) (h : s.step offers fs e = some s') (b : Bool) :
    ∃ b', (benchmark (fs i) init).step ((s.world i).withFlag b) m =
      some ((s'.world i).withFlag b') := by
  cases e with
  | run => cases he
  | connection j e =>
    obtain ⟨w, hw, rfl, hself⟩ := connection_cases init h
    obtain ⟨rfl, rfl⟩ := NetEvent.connection.inj (NetEvent.at_eq_some.mp he)
    rw [world_setWorld_self s j w hself]
    exact step_serverRunning hw b

/-- **A connection sees its own events and nothing of the others.** -/
def connectionView (offers : ℕ → AcceptOutcome) (fs : ℕ → Str → κ → Option κ) (inits : ℕ → κ)
    (i : ℕ) : (net offers fs inits).View (benchmark (fs i) (inits i)) where
  label := NetEvent.at i
  shows s w := ∃ b, w = (s.world i).withFlag b
  init := ⟨true, rfl⟩
  hidden e s s' w he hw h := by
    obtain ⟨b, rfl⟩ := hw
    obtain ⟨b', hb'⟩ := connection_hidden i he h
    exact ⟨b, by rw [hb']; rfl⟩
  shown e m s s' w he hw h := by
    obtain ⟨b, rfl⟩ := hw
    obtain ⟨b', hb'⟩ := connection_shown (inits i) i he h b
    exact ⟨_, hb', b', rfl⟩

theorem connection_view {es : List NetEvent} {s : Net κ}
    (h : (net offers fs inits).run es = some s) (i : ℕ) :
    ∃ b, (benchmark (fs i) (inits i)).run (es.filterMap (NetEvent.at i)) =
      some ((s.world i).withFlag b) := by
  obtain ⟨w, hrun, b, rfl⟩ := (connectionView offers fs inits i).run h
  exact ⟨b, hrun⟩

/-! #### The accept loop -/

/-- A client's action leaves the server as it is. -/
theorem server_setWorld (s : Net κ) (i : ℕ) {w : World κ}
    (hrunning : w.serverRunning = (s.world i).serverRunning)
    (hserver : w.server = (s.world i).server) : (s.setWorld i w).server = s.server := by
  have hset : s.server.workers.set i (s.server.workers.getD i .start) = s.server.workers := by
    by_cases hi : i < s.server.workers.length
    · simp [hi]
    · exact List.set_eq_of_length_le (Nat.not_lt.mp hi)
  simp only [Net.setWorld, hrunning, hserver]
  simp only [Net.world, hset]

theorem server_hidden {s s' : Net κ} {e : NetEvent} (he : e.turn = none)
    (h : s.step offers fs e = some s') : s'.server = s.server := by
  cases e with
  | run => cases he
  | connection i e =>
    cases e with
    | server o => cases he
    | client a =>
      obtain ⟨w, hw, rfl⟩ := Option.map_eq_some_iff.mp h
      obtain ⟨hrunning, hserver, -⟩ := clientStep_server hw
      exact server_setWorld s i hrunning hserver

theorem server_shown {s s' : Net κ} {e : NetEvent} {t : DgramServer.Turn} (he : e.turn = some t)
    (h : s.step offers fs e = some s') : s.server.step offers t = some s'.server := by
  cases e with
  | run =>
    cases he
    cases h
    rfl
  | connection i e =>
    cases e with
    | client a => cases he
    | server o =>
      cases he
      simp only [Net.step] at h
      split at h
      · next hi =>
        obtain ⟨w, hw, rfl⟩ := Option.map_eq_some_iff.mp h
        have hworker : (s.world i).server.step s.server.udtRunning o =
          some (w.serverRunning, w.server) := (serverStep_worker hw).1
        have hget : s.server.workers[i]? = some (s.world i).server := by
          simp [Net.world, List.getElem?_eq_getElem hi]
        simp only [DgramServer.Server.step, hget, Option.bind_eq_bind, Option.bind_some]
        rw [hworker]
        rfl
      · cases h

/-- **The accept loop and the workers see their own turns and nothing of the clients.** -/
def serverView (offers : ℕ → AcceptOutcome) (fs : ℕ → Str → κ → Option κ) (inits : ℕ → κ) :
    (net offers fs inits).View (DgramServer.server offers) where
  label := NetEvent.turn
  shows s t := s.server = t
  init := rfl
  hidden _ _ _ _ he hs h := (server_hidden he h).trans hs
  shown _ _ _ _ _ he hs h := ⟨_, hs ▸ server_shown he h, rfl⟩

theorem server_view {es : List NetEvent} {s : Net κ} (h : (net offers fs inits).run es = some s) :
    (DgramServer.server offers).run (es.filterMap NetEvent.turn) = some s.server := by
  obtain ⟨t, ht, rfl⟩ := (serverView offers fs inits).run h
  exact ht

/-- **Connections are served as if each were the only one.** In every run of a server with any number
of connections, the turns of the accept loop and the workers are a run of the server by itself, and
what happens on connection `i`, taken alone and in its order, is a run of the benchmark of one
connection that ends with the client, the channels and the worker as they are. -/
theorem connections_alone {es : List NetEvent} {s : Net κ}
    (h : (net offers fs inits).run es = some s) :
    (DgramServer.server offers).run (es.filterMap NetEvent.turn) = some s.server ∧
      ∀ i, ∃ b, (benchmark (fs i) (inits i)).run (es.filterMap (NetEvent.at i)) =
        some ((s.world i).withFlag b) :=
  ⟨server_view h, connection_view h⟩

theorem net_conserved {es : List NetEvent} {s : Net κ} (h : (net offers fs inits).run es = some s)
    (i : ℕ) : (s.world i).conduit.Conserved := by
  obtain ⟨b, hb⟩ := connection_view h i
  have hconserved := Conduit.conserved_of_flow (run_flow hb) rfl
  exact hconserved

/-- **End to end on every connection.** With any number of connections, on each of them the messages
pushed so far are, in order, those given to its own callback and those in its own channels and
queues. -/
theorem net_end_to_end {es : List NetEvent} {s : Net κ} (h : (net offers fs inits).run es = some s)
    (i : ℕ) :
    (s.peers i).pushed = (s.peers i).client.callback.2 ++ (s.peers i).toClient ++
      (s.server.workers.getD i .start).msgQueueNeedSend ++ (s.peers i).toServer ++
      (s.peers i).client.sendMsgBuff ++ (s.peers i).client.sendMsgQueue := by
  have hconserved := net_conserved h i
  simpa [Conduit.Conserved, World.conduit, Net.world, World.delivered] using hconserved.symm

/-- Two clients push; the second is accepted late, and the peer of the first is lost. -/
def twoClients : List NetEvent :=
  [.connection 1 (.client (.sendMsg ['b'])), .connection 0 (.client (.sendMsg ['a'])), .run, .run,
    .connection 0 (.client .tau), .connection 0 (.client .tau),
    .connection 0 (.client (.send (.ret 1))), .run, .run, .connection 0 (.server (.recv (.ret ['a']))),
    .connection 1 (.client .tau), .connection 0 (.server (.recv (.error Udt.EASYNCRCV))),
    .connection 0 (.server (.send (.error Udt.ECONNLOST)))]

theorem connections_alone_twoClients :
    ∃ s : Net Unit,
      (net DgramServer.twoPeers (fun _ _ u => some u) fun _ => ()).run twoClients = some s ∧
      (DgramServer.server DgramServer.twoPeers).run (twoClients.filterMap NetEvent.turn) =
        some s.server ∧
      ∀ i, ∃ b, (benchmark (fun _ u => some u) ()).run (twoClients.filterMap (NetEvent.at i)) =
        some ((s.world i).withFlag b) :=
  ⟨_, rfl, connections_alone
    (show (net DgramServer.twoPeers (fun _ _ u => some u) fun _ => ()).run twoClients = some _ from rfl)⟩

theorem net_end_to_end_twoClients :
    ∃ s : Net Unit,
      (net DgramServer.twoPeers (fun _ _ u => some u) fun _ => ()).run twoClients = some s ∧
      (s.peers 0).pushed = (s.peers 0).client.callback.2 ++ (s.peers 0).toClient ++
        (s.server.workers.getD 0 .start).msgQueueNeedSend ++ (s.peers 0).toServer ++
        (s.peers 0).client.sendMsgBuff ++ (s.peers 0).client.sendMsgQueue :=
  ⟨_, rfl, net_end_to_end
    (show (net DgramServer.twoPeers (fun _ _ u => some u) fun _ => ()).run twoClients = some _ from rfl) 0⟩

end DgramEndToEnd

/-! ### The stream server -/

namespace StreamServer

/-- Where `Run` is: at its accept call, or behind the loop, which it has left because accept failed
with a code. -/
inductive RunPoint where
  | accept
  | left (acceptError : ErrorCode)
  deriving DecidableEq

/-- The server: the thread of `Run`, how many accept calls it has made, the sockets they returned, and
the workers of these connections. -/
structure Server where
  runPoint : RunPoint
  acceptCalls : ℕ
  accepted : List ℤ
  workers : List Worker
  deriving DecidableEq

/-- `Run` at the start of its loop. -/
def Server.start : Server := ⟨.accept, 0, [], []⟩

/-- A turn of `Run`, where accept call number `i` has the outcome `offers i`. -/
def Server.runTurn (offers : ℕ → AcceptOutcome) (s : Server) : Server :=
  match s.runPoint with
  | .accept =>
    match offers s.acceptCalls with
    | .error code =>
      if code = Udt.EASYNCRCV then { s with acceptCalls := s.acceptCalls + 1 }
      else { s with runPoint := .left code, acceptCalls := s.acceptCalls + 1 }
    | .ret sock =>
      { s with
        acceptCalls := s.acceptCalls + 1
        accepted := s.accepted ++ [sock]
        workers := s.workers ++ [.start] }
  | .left _ => s

/-- What `Run` has done so far. -/
structure AcceptPart where
  runPoint : RunPoint
  acceptCalls : ℕ
  accepted : List ℤ

def Server.acceptPart (s : Server) : AcceptPart := ⟨s.runPoint, s.acceptCalls, s.accepted⟩

/-- A turn of `Run` does not look at the workers. -/
theorem runTurn_acceptPart (offers : ℕ → AcceptOutcome) {s t : Server}
    (h : s.acceptPart = t.acceptPart) :
    (s.runTurn offers).acceptPart = (t.runTurn offers).acceptPart := by
  obtain ⟨point, calls, accepted, workers⟩ := s
  obtain ⟨point', calls', accepted', workers'⟩ := t
  simp only [Server.acceptPart, AcceptPart.mk.injEq] at h
  obtain ⟨rfl, rfl, rfl⟩ := h
  simp only [Server.runTurn]
  cases point with
  | left code => rfl
  | accept =>
    cases offers calls with
    | error code =>
      by_cases hcode : code = Udt.EASYNCRCV
      · simp [hcode, Server.acceptPart]
      · simp [hcode, Server.acceptPart]
    | ret sock => rfl

theorem getD_workers_runTurn (offers : ℕ → AcceptOutcome) (s : Server) (i : ℕ) :
    (s.runTurn offers).workers.getD i .start = s.workers.getD i .start := by
  simp only [Server.runTurn]
  split
  · split
    · split <;> rfl
    · simp only [List.getD_eq_getElem?_getD, List.getElem?_append]
      split
      · rfl
      · next hi =>
        rw [List.getElem?_eq_none (Nat.not_lt.mp hi)]
        cases i - s.workers.length <;> rfl
  · rfl

end StreamServer

namespace StreamEndToEnd

/-- The other end of a connection, with the channels. -/
structure Peer where
  sent : List UInt64
  client : StreamClient.Client StreamClient.RecvState
  toServer : Str
  toClient : Str

/-- The server, and the other end of each connection in the order of their acceptance. -/
structure Net where
  server : StreamServer.Server
  peers : ℕ → Peer

/-- A turn of the accept loop, or something that happens on a connection. -/
inductive NetEvent where
  | run
  | connection (i : ℕ) (e : Event)
  deriving DecidableEq

/-- A call of the worker, which has been started only when the connection is accepted. -/
def Event.ofServer : Event → Bool
  | .serverSend _ | .serverRecv _ => true
  | .sendMsg _ | .tau | .clientSend _ | .clientRecv _ => false

/-- A connection as a world of its own; its worker starts when it is accepted. -/
def Net.world (s : Net) (i : ℕ) : World :=
  ⟨(s.peers i).sent, (s.peers i).client, (s.peers i).toServer, s.server.workers.getD i .start,
    (s.peers i).toClient⟩

/-- The server and the peers after something has happened on a connection. -/
def Net.setWorld (s : Net) (i : ℕ) (w : World) : Net :=
  ⟨{ s.server with workers := s.server.workers.set i w.server },
    Function.update s.peers i ⟨w.sent, w.client, w.toServer, w.toClient⟩⟩

/-- The net after an event; a worker that has not been started makes no call. -/
def Net.step (offers : ℕ → AcceptOutcome) (ns : ℕ → ℕ) (clocks : ℕ → ℕ → UInt64) (s : Net) :
    NetEvent → Option Net
  | .run => some { s with server := s.server.runTurn offers }
  | .connection i e =>
    if e.ofServer ∧ s.server.workers.length ≤ i then none
    else ((benchmark (ns i) (clocks i)).step (s.world i) e).map (s.setWorld i)

/-- Every run of a server with its connections, for the message size and the clock readings of each
client. -/
def net (offers : ℕ → AcceptOutcome) (ns : ℕ → ℕ) (clocks : ℕ → ℕ → UInt64) :
    System Net NetEvent :=
  ⟨⟨.start, fun _ => ⟨[], .start StreamClient.RecvState.init, [], []⟩⟩, Net.step offers ns clocks⟩

/-- What connection `i` sees of an event. -/
def NetEvent.at (i : ℕ) : NetEvent → Option Event
  | .run => none
  | .connection j e => if j = i then some e else none

theorem NetEvent.at_eq_some {i : ℕ} {l : NetEvent} {e : Event} :
    l.at i = some e ↔ l = .connection i e := by
  cases l with
  | run => simp [NetEvent.at]
  | connection j e' => simp [NetEvent.at]

variable {offers : ℕ → AcceptOutcome} {ns : ℕ → ℕ} {clocks : ℕ → ℕ → UInt64}

theorem clientStep_server {n : ℕ} {clock : ℕ → UInt64} {w w' : World} {a : ClientAction}
    (h : w.clientStep n clock a = some w') : w'.server = w.server := by
  obtain ⟨c, -, hw⟩ := Option.bind_eq_some_iff.mp h
  cases a with
  | sendMsg msg =>
    cases hw
    rfl
  | tau =>
    cases hw
    rfl
  | send o =>
    obtain ⟨channel, -, rfl⟩ := Option.map_eq_some_iff.mp hw
    rfl
  | recv o =>
    obtain ⟨channel, -, rfl⟩ := Option.map_eq_some_iff.mp hw
    rfl

/-- What the client does leaves the worker as it is. -/
theorem step_server {n : ℕ} {clock : ℕ → UInt64} {w w' : World} {e : Event}
    (h : (benchmark n clock).step w e = some w') (he : e.ofServer = false) :
    w'.server = w.server := by
  cases e with
  | sendMsg t =>
    change w.sendMsg n clock t = some w' at h
    obtain ⟨w₁, hw₁, rfl⟩ := Option.map_eq_some_iff.mp h
    have hserver := clientStep_server hw₁
    exact hserver
  | tau => exact clientStep_server h
  | clientSend o => exact clientStep_server h
  | clientRecv o => exact clientStep_server h
  | serverSend o => cases he
  | serverRecv o => cases he

theorem world_setWorld_self (s : Net) (i : ℕ) (w : World)
    (h : i < s.server.workers.length ∨ w.server = (s.world i).server) :
    (s.setWorld i w).world i = w := by
  have hserver : (s.server.workers.set i w.server).getD i .start = w.server := by
    by_cases hi : i < s.server.workers.length
    · simp [hi]
    · rw [h.resolve_left hi]
      simp [Net.world, hi]
  simp only [Net.world, Net.setWorld, Function.update_self, hserver]

theorem world_setWorld_of_ne (s : Net) {i j : ℕ} (hji : j ≠ i) (w : World) :
    (s.setWorld i w).world j = s.world j := by
  have hij : i ≠ j := fun h => hji h.symm
  simp [Net.world, Net.setWorld, Function.update_of_ne hji, List.getD_eq_getElem?_getD, hij]

theorem connection_cases (offers : ℕ → AcceptOutcome) {s s' : Net} {i : ℕ} {e : Event}
    (h : s.step offers ns clocks (.connection i e) = some s') :
    ∃ w, (benchmark (ns i) (clocks i)).step (s.world i) e = some w ∧ s' = s.setWorld i w ∧
      (s.setWorld i w).world i = w := by
  simp only [Net.step] at h
  split at h
  · cases h
  · next hstarted =>
    obtain ⟨w, hw, rfl⟩ := Option.map_eq_some_iff.mp h
    refine ⟨w, hw, rfl, world_setWorld_self s i w ?_⟩
    cases he : e.ofServer with
    | false => exact .inr (step_server hw he)
    | true => exact .inl (Nat.not_le.mp fun hi => hstarted ⟨he, hi⟩)

theorem connection_hidden (i : ℕ) {s s' : Net} {e : NetEvent} (he : e.at i = none)
    (h : s.step offers ns clocks e = some s') : s'.world i = s.world i := by
  cases e with
  | run =>
    cases h
    simp only [Net.world, StreamServer.getD_workers_runTurn]
  | connection j e =>
    obtain ⟨w, -, rfl, -⟩ := connection_cases offers h
    have hij : i ≠ j := by
      rintro rfl
      simp [NetEvent.at] at he
    exact world_setWorld_of_ne s hij w

theorem connection_shown (i : ℕ) {s s' : Net} {e : NetEvent} {m : Event} (he : e.at i = some m)
    (h : s.step offers ns clocks e = some s') :
    (benchmark (ns i) (clocks i)).step (s.world i) m = some (s'.world i) := by
  cases e with
  | run => cases he
  | connection j e =>
    obtain ⟨w, hw, rfl, hself⟩ := connection_cases offers h
    obtain ⟨rfl, rfl⟩ := NetEvent.connection.inj (NetEvent.at_eq_some.mp he)
    rw [hw, hself]

/-- **A connection sees its own events and nothing of the others.** -/
def connectionView (offers : ℕ → AcceptOutcome) (ns : ℕ → ℕ) (clocks : ℕ → ℕ → UInt64) (i : ℕ) :
    (net offers ns clocks).View (benchmark (ns i) (clocks i)) where
  label := NetEvent.at i
  shows s w := s.world i = w
  init := rfl
  hidden _ _ _ _ he hs h := (connection_hidden i he h).trans hs
  shown _ _ _ _ _ he hs h := ⟨_, hs ▸ connection_shown i he h, rfl⟩

theorem connection_view {es : List NetEvent} {s : Net}
    (h : (net offers ns clocks).run es = some s) (i : ℕ) :
    (benchmark (ns i) (clocks i)).run (es.filterMap (NetEvent.at i)) = some (s.world i) := by
  obtain ⟨w, hrun, rfl⟩ := (connectionView offers ns clocks i).run h
  exact hrun

/-- **Neither side of the stream server sees the other.** In every run of a server with any number of
connections, the accept loop has done what it does without any, turn for turn, and what happens on
connection `i`, taken alone and in its order, is a run of the benchmark of one connection that ends
as the connection is. -/
theorem server_and_connections_alone {es : List NetEvent} {s : Net}
    (h : (net offers ns clocks).run es = some s) :
    s.server.acceptPart =
      ((StreamServer.Server.runTurn offers)^[es.count .run] .start).acceptPart ∧
    ∀ i, (benchmark (ns i) (clocks i)).run (es.filterMap (NetEvent.at i)) = some (s.world i) := by
  refine ⟨?_, connection_view h⟩
  refine (net offers ns clocks).run_induction (fun es s => s.server.acceptPart =
    ((StreamServer.Server.runTurn offers)^[es.count .run] .start).acceptPart) rfl ?_ h
  intro es e s s' _ ih hstep
  cases e with
  | run =>
    cases hstep
    rw [List.count_append, List.count_singleton_self, Function.iterate_succ_apply']
    exact StreamServer.runTurn_acceptPart offers ih
  | connection i e =>
    obtain ⟨w, -, rfl, -⟩ := connection_cases offers hstep
    rw [List.count_append, List.count_singleton]
    exact ih

/-- A client sends before it is accepted; another one is accepted first. -/
def twoClients : List NetEvent :=
  [.connection 1 (.sendMsg 8), .connection 0 (.sendMsg 7), .run, .connection 0 .tau,
    .connection 0 (.clientSend (.ret 2)), .connection 0 (.serverRecv (.ret ['7', '_'])), .run,
    .connection 1 .tau]

theorem server_and_connections_alone_twoClients :
    ∃ s : Net, (net DgramServer.twoPeers (fun i => i + 3) fun _ _ => 12).run twoClients = some s ∧
      s.server.acceptPart =
        ((StreamServer.Server.runTurn DgramServer.twoPeers)^[twoClients.count .run] .start).acceptPart ∧
      ∀ i, (benchmark (i + 3) fun _ => 12).run (twoClients.filterMap (NetEvent.at i)) =
        some (s.world i) :=
  ⟨_, rfl, server_and_connections_alone
    (show (net DgramServer.twoPeers (fun i => i + 3) fun _ _ => 12).run twoClients = some _ from rfl)⟩

end StreamEndToEnd

end ReliableUdpBench
