import ReliableUdpBench.Lib.Fair
import ReliableUdpBench.Shutdown
import ReliableUdpBench.StreamEndToEnd

/-!
# Every byte of a stream arrives

The counterpart of `DgramDelivery` for bytes: in an infinite run with the same fairness, in which the
worker's sends take the whole string or nothing, every message that is sent is in the end handled, if
the worker finds nothing to receive again and again (`stream_delivers`). The client's sends may take
any part, and it erases what they have taken in a step of its own; the row of buffers holds what is
not yet sent.
-/

namespace ReliableUdpBench

open Lib Filter

namespace StreamEndToEnd

open StreamClient

variable {n : ℕ} {clock : ℕ → UInt64}

/-- The outcome of the call of an event. -/
def Event.outcome : Event → Option Outcome
  | .sendMsg _ | .tau => none
  | .clientSend o | .serverSend o => some (.send o)
  | .clientRecv o | .serverRecv o => some (.recv o)

/-- A step of the client's network thread. -/
def Event.OfNetwork : Event → Prop
  | .tau | .clientSend _ | .clientRecv _ => True
  | .sendMsg _ | .serverSend _ | .serverRecv _ => False

/-- A call of the worker. -/
def Event.OfServer : Event → Prop
  | .serverSend _ | .serverRecv _ => True
  | .sendMsg _ | .tau | .clientSend _ | .clientRecv _ => False

/-- What is relied on for delivery: no outcome is out of the ordinary, both threads go on, and no call
is made for ever in vain. -/
structure Fair (r : (benchmark n clock).InfRun) : Prop where
  ordinary : ∀ k e, r.label k = some e → ∀ o, e.outcome = some o → o.Ordinary
  clientMoves : ∃ᶠ k in atTop, r.Takes Event.OfNetwork k
  serverMoves : ∃ᶠ k in atTop, r.Takes Event.OfServer k
  clientSends : (∃ᶠ k in atTop, ∃ o, r.label k = some (.clientSend o)) →
    ∃ᶠ k in atTop, ∃ count, r.label k = some (.clientSend (.ret count))
  serverSends : (∃ᶠ k in atTop, ∃ o, r.label k = some (.serverSend o)) →
    ∃ᶠ k in atTop, ∃ count, r.label k = some (.serverSend (.ret count))
  clientRecvs : (∃ᶠ k in atTop,
      (∃ o, r.label k = some (.clientRecv o)) ∧ (r.state k).toClient ≠ []) →
    ∃ᶠ k in atTop, ∃ data, r.label k = some (.clientRecv (.ret data))
  serverRecvs : (∃ᶠ k in atTop,
      (∃ o, r.label k = some (.serverRecv o)) ∧ (r.state k).toServer ≠ []) →
    ∃ᶠ k in atTop, ∃ data, r.label k = some (.serverRecv (.ret data))

/-- From some moment on nothing is sent. -/
def Quiet (r : (benchmark n clock).InfRun) : Prop :=
  ∀ᶠ k in atTop, ∀ t, r.label k ≠ some (.sendMsg t)

/-- Again and again the worker finds nothing to receive. -/
def Drains (r : (benchmark n clock).InfRun) : Prop :=
  ∃ᶠ k in atTop, ∃ code, r.label k = some (.serverRecv (.error code))

/-! ### What an ordinary step can be -/

/-- What the client does in a step, as far as its place in its loop depends on it. -/
inductive ClientMove (w w' : World) : Event → Prop
  | sendMsg (t : UInt64) (hp : w'.client.point = w.client.point) : ClientMove w w' (.sendMsg t)
  | enter (hp : w.client.point = .loop) (hp' : w'.client.point = .send false) : ClientMove w w' .tau
  | sent (second : Bool) (hp : w.client.point = .send second)
      (hp' : w'.client.point = .recv second) (hunsent : w.client.unsent = []) : ClientMove w w' .tau
  | erase (second : Bool) (sendLen : ℤ) (hp : w.client.point = .erase second sendLen)
      (hp' : w'.client.point = .recv second) : ClientMove w w' .tau
  | full (code : ErrorCode) (second : Bool) (hp : w.client.point = .send second)
      (hp' : w'.client.point = .recv second) : ClientMove w w' (.clientSend (.error code))
  | send (count : ℕ) (second : Bool) (sendLen : ℤ) (hp : w.client.point = .send second)
      (hp' : w'.client.point = .erase second sendLen)
      (hunsent : w'.client.unsent.length < w.client.unsent.length) :
      ClientMove w w' (.clientSend (.ret count))
  | drained (code : ErrorCode) (second : Bool) (hp : w.client.point = .recv second)
      (hp' : w'.client.point = if second then .loop else .send true) :
      ClientMove w w' (.clientRecv (.error code))
  | recv (data : Str) (second : Bool) (hp : w.client.point = .recv second)
      (hp' : w'.client.point = if second then .loop else .send true)
      (hchannel : w'.toClient.length < w.toClient.length) :
      ClientMove w w' (.clientRecv (.ret data))

/-- The flag of the client is set and its thread has not left its loop. -/
def World.ClientRuns (w : World) : Prop :=
  w.client.udtRunning = true ∧ w.client.point ≠ .closed

theorem tau_move {w w' : World} (h : w.clientStep n clock .tau = some w') (hruns : w.ClientRuns) :
    w'.ClientRuns ∧ w'.server = w.server ∧ ClientMove w w' .tau := by
  obtain ⟨c, hc, hw⟩ := Option.bind_eq_some_iff.mp h
  cases hw
  have hc' : w.client.tau = some c := hc
  unfold StreamClient.Client.tau at hc'
  cases hp : w.client.point with
  | loop =>
    simp only [hp, hruns.1, if_true] at hc'
    cases hc'
    exact ⟨⟨rfl, by simp⟩, rfl, .enter hp rfl⟩
  | send second =>
    simp only [hp] at hc'
    split at hc'
    · next hempty =>
      cases hc'
      refine ⟨⟨hruns.1, by simp⟩, rfl, .sent second hp rfl ?_⟩
      rw [unsent_of_taken (by simp [Client.taken, hp])]
      exact List.isEmpty_iff.mp hempty
    · cases hc'
  | erase second sendLen =>
    simp only [hp] at hc'
    cases hc'
    exact ⟨⟨hruns.1, by simp⟩, rfl, .erase second sendLen hp rfl⟩
  | recv second => simp [hp] at hc'
  | closed => exact absurd hp hruns.2

theorem clientSend_move {w w' : World} {o : SendOutcome}
    (h : w.clientStep n clock (.send o) = some w') (hord : o.Ordinary) (hruns : w.ClientRuns) :
    w'.ClientRuns ∧ w'.server = w.server ∧ ClientMove w w' (.clientSend o) := by
  obtain ⟨c, hc, hw⟩ := Option.bind_eq_some_iff.mp h
  obtain ⟨channel, hchannel, rfl⟩ := Option.map_eq_some_iff.mp hw
  obtain ⟨-, hbuf, htaken₀, htaken⟩ := send_cases hc
  simp only [StreamClient.Client.step] at hc
  split at hc
  · next second hp =>
    split at hc
    · cases hc
    · cases o with
      | error code =>
        have hcode : code = Udt.EASYNCSND := hord
        subst hcode
        cases hc
        exact ⟨⟨hruns.1, by simp [doSendMsg]⟩, rfl, .full _ second hp rfl⟩
      | ret count =>
        have hcount : count ≤ w.client.sendMsgBuf.length := (ByteChannel.send_eq hchannel).1
        have hpos : 0 < count := hord
        refine ⟨?_, rfl, .send count second count hp ?_ ?_⟩
        · cases hc
          refine ⟨hruns.1, ?_⟩
          simp [doSendMsg, hpos]
        · cases hc
          simp [doSendMsg, hpos]
        · show c.unsent.length < w.client.unsent.length
          rw [unsent_of_taken htaken₀, StreamClient.Client.unsent, htaken, hbuf, List.length_drop]
          show w.client.sendMsgBuf.length - count < w.client.sendMsgBuf.length
          omega
  · cases hc

theorem clientRecv_move {w w' : World} {o : RecvOutcome}
    (h : w.clientStep n clock (.recv o) = some w') (hord : o.Ordinary) (hruns : w.ClientRuns) :
    w'.ClientRuns ∧ w'.server = w.server ∧ ClientMove w w' (.clientRecv o) := by
  obtain ⟨c, hc, hw⟩ := Option.bind_eq_some_iff.mp h
  obtain ⟨channel, hchannel, rfl⟩ := Option.map_eq_some_iff.mp hw
  simp only [StreamClient.Client.step] at hc
  split at hc
  · next second hp =>
    obtain ⟨s, hs, rfl⟩ := Option.map_eq_some_iff.mp hc
    have hp' : (if second then StreamClient.Point.loop else .send true) ≠ .closed := by
      cases second <;> simp
    cases o with
    | error code =>
      have hcode : code = Udt.EASYNCRCV := hord
      subst hcode
      cases hs
      exact ⟨⟨hruns.1, hp'⟩, rfl, .drained _ second hp rfl⟩
    | ret data =>
      have hdata : data ≠ [] := hord
      have hflag : s.1 = true := (doRecvMsg_flag hs).trans hruns.1
      refine ⟨⟨hflag, hp'⟩, rfl, .recv data second hp rfl ?_⟩
      have hfront : w.toClient = data ++ channel := ByteChannel.recv_eq hchannel
      have hpos := List.length_pos_iff.mpr hdata
      show channel.length < w.toClient.length
      rw [hfront, List.length_append]
      omega
  · cases hc

/-- What the worker does in a step, as far as its place in its loop depends on it. -/
inductive ServerMove (w w' : World) : Event → Prop
  | drained (code : ErrorCode) (buf : Str) (hw : w.server = .recv buf)
      (hw' : w'.server = .afterRecv buf) : ServerMove w w' (.serverRecv (.error code))
  | recv (data buf : Str) (hw : w.server = .recv buf)
      (hchannel : w'.toServer.length < w.toServer.length) :
      ServerMove w w' (.serverRecv (.ret data))
  | full (code : ErrorCode) (buf : Str) (hw : w.server = .send buf) (hw' : w'.server = .recv buf)
      (hchannel : w'.toServer = w.toServer) : ServerMove w w' (.serverSend (.error code))
  | send (count : ℕ) (buf : Str) (hw : w.server = .send buf) (hw' : w'.server = .recv [])
      (hbuf : buf ≠ []) (hchannel : w'.toServer = w.toServer) :
      ServerMove w w' (.serverSend (.ret count))

theorem serverRecv_move {w w' : World} {o : RecvOutcome} (h : w.serverStep (.recv o) = some w')
    (hord : o.Ordinary) : w'.client = w.client ∧ ServerMove w w' (.serverRecv o) := by
  obtain ⟨s, hs, hw⟩ := Option.bind_eq_some_iff.mp h
  obtain ⟨channel, hchannel, rfl⟩ := Option.map_eq_some_iff.mp hw
  refine ⟨rfl, ?_⟩
  cases hserver : w.server with
  | recv buf =>
    cases o with
    | error code =>
      rw [hserver] at hs
      have hcode : code = Udt.EASYNCRCV := hord
      subst hcode
      cases hs
      exact .drained _ buf hserver rfl
    | ret data =>
      have hfront : w.toServer = data ++ channel := ByteChannel.recv_eq hchannel
      have hpos := List.length_pos_iff.mpr hord
      refine .recv data buf hserver ?_
      show channel.length < w.toServer.length
      rw [hfront, List.length_append]
      omega
  | send buf =>
    rw [hserver] at hs
    cases hs
  | returned =>
    rw [hserver] at hs
    cases hs

theorem serverSend_move {w w' : World} {o : SendOutcome} (h : w.serverStep (.send o) = some w')
    (hord : o.Ordinary) : w'.client = w.client ∧ ServerMove w w' (.serverSend o) := by
  obtain ⟨s, hs, hw⟩ := Option.bind_eq_some_iff.mp h
  by_cases hcount : o.count = 0 ∨ o.count = w.server.msgBufNeedSend.length
  · simp only [if_pos hcount] at hw
    obtain ⟨channel, hchannel, rfl⟩ := Option.map_eq_some_iff.mp hw
    refine ⟨rfl, ?_⟩
    cases hserver : w.server with
    | recv buf =>
      rw [hserver] at hs
      cases hs
    | send buf =>
      rw [hserver] at hs hcount
      cases hs
      cases o with
      | error code =>
        have hstay := StreamServer.trySendMsg_error buf code
        exact .full code buf hserver (congrArg StreamServer.Worker.recv hstay) rfl
      | ret count =>
        have hpos : 0 < count := hord
        have hwhole : count = buf.length := hcount.resolve_left (by simp [SendOutcome.count]; omega)
        have hempty : StreamServer.trySendMsg buf (.ret count) = [] := by
          rw [hwhole, StreamServer.trySendMsg_full]
        refine .send count buf hserver (congrArg StreamServer.Worker.recv hempty) ?_ rfl
        rw [← List.length_pos_iff]
        omega
    | returned =>
      rw [hserver] at hs
      cases hs
  · simp only [if_neg hcount] at hw
    cases hw

/-! ### Fair runs -/

variable {r : (benchmark n clock).InfRun}

/-- A step of the benchmark with an ordinary outcome. -/
theorem step_move {w w' : World} {e : Event} (h : (benchmark n clock).step w e = some w')
    (hord : ∀ o, e.outcome = some o → o.Ordinary) (hruns : w.ClientRuns) :
    w'.ClientRuns ∧ (¬ e.OfServer → w'.server = w.server ∧ ClientMove w w' e) ∧
      (e.OfServer → w'.client = w.client ∧ ServerMove w w' e) := by
  cases e with
  | sendMsg t =>
    change w.sendMsg n clock t = some w' at h
    obtain ⟨w₁, hw₁, rfl⟩ := Option.map_eq_some_iff.mp h
    obtain ⟨c, hc, hw⟩ := Option.bind_eq_some_iff.mp hw₁
    cases hw
    cases hc
    exact ⟨hruns, fun _ => ⟨rfl, .sendMsg t rfl⟩, False.elim⟩
  | tau =>
    have hmove := tau_move h hruns
    exact ⟨hmove.1, fun _ => hmove.2, False.elim⟩
  | clientSend o =>
    have hmove := clientSend_move h (hord _ rfl) hruns
    exact ⟨hmove.1, fun _ => hmove.2, False.elim⟩
  | clientRecv o =>
    have hmove := clientRecv_move h (hord _ rfl) hruns
    exact ⟨hmove.1, fun _ => hmove.2, False.elim⟩
  | serverSend o =>
    have hmove := serverSend_move h (hord _ rfl)
    refine ⟨?_, fun hother => absurd trivial hother, fun _ => hmove⟩
    rw [World.ClientRuns, hmove.1]
    exact hruns
  | serverRecv o =>
    have hmove := serverRecv_move h (hord _ rfl)
    refine ⟨?_, fun hother => absurd trivial hother, fun _ => hmove⟩
    rw [World.ClientRuns, hmove.1]
    exact hruns

theorem clientRuns (hfair : Fair r) (k : ℕ) : (r.state k).ClientRuns :=
  r.invariant World.ClientRuns (fun e => ∀ o, e.outcome = some o → o.Ordinary)
    ⟨rfl, by simp [benchmark, StreamClient.Client.start]⟩ hfair.ordinary
    (fun _ _ _ hord hruns hstep => (step_move hstep hord hruns).1) k

theorem client_move (hfair : Fair r) {k : ℕ} {e : Event} (hl : r.label k = some e)
    (h : ¬ e.OfServer) :
    (r.state (k + 1)).server = (r.state k).server ∧ ClientMove (r.state k) (r.state (k + 1)) e :=
  (step_move (r.step k e hl) (hfair.ordinary k e hl) (clientRuns hfair k)).2.1 h

theorem server_move (hfair : Fair r) {k : ℕ} {e : Event} (hl : r.label k = some e)
    (h : e.OfServer) :
    (r.state (k + 1)).client = (r.state k).client ∧ ServerMove (r.state k) (r.state (k + 1)) e :=
  (step_move (r.step k e hl) (hfair.ordinary k e hl) (clientRuns hfair k)).2.2 h

/-- The worker is left alone by the client. -/
theorem other_server (hfair : Fair r) {k : ℕ} (h : ¬ r.Takes Event.OfServer k) :
    (r.state (k + 1)).server = (r.state k).server :=
  r.eq_of_not_takes h World.server fun _ hl hother => (client_move hfair hl hother).1

theorem Event.OfNetwork.not_ofServer {e : Event} (h : e.OfNetwork) : ¬ e.OfServer := by
  cases e with
  | tau => exact id
  | clientSend o => exact id
  | clientRecv o => exact id
  | sendMsg t => exact h.elim
  | serverSend o => exact h.elim
  | serverRecv o => exact h.elim

/-! ### Every buffer is served -/

/-- What the network thread relies on is left alone by the others. -/
theorem other_client (hfair : Fair r) {k : ℕ} (h : ¬ r.Takes Event.OfNetwork k) :
    (r.state (k + 1)).client.point = (r.state k).client.point := by
  refine r.eq_of_not_takes h (fun w => w.client.point) fun e hl hother => ?_
  by_cases hserver : e.OfServer
  · rw [(server_move hfair hl hserver).1]
  · cases (client_move hfair hl hserver).2 with
    | sendMsg t hp => exact hp
    | _ => exact absurd trivial hother

/-- What each step of the network thread brings closer happens again and again. -/
theorem client_frequently (hfair : Fair r) {target : ℕ → Prop} (rank : StreamClient.Point → ℕ)
    (hcloser : ∀ᶠ k in atTop, ∀ e : Event, e.OfNetwork → r.label k = some e →
      ClientMove (r.state k) (r.state (k + 1)) e →
      target k ∨ rank (r.state (k + 1)).client.point < rank (r.state k).client.point) :
    ∃ᶠ k in atTop, target k := by
  refine frequently_of_rank (fun k => rank (r.state k).client.point) hfair.clientMoves ?_ ?_
  · filter_upwards [hcloser] with k hk hmove
    obtain ⟨e, hl, hnet⟩ := hmove
    exact hk e hnet hl (client_move hfair hl hnet.not_ofServer).2
  · filter_upwards with k hother
    rw [other_client hfair hother]

/-- How far the network thread is from a receive call. -/
def toRecv : StreamClient.Point → ℕ
  | .loop => 3
  | .send _ => 2
  | .erase _ _ => 1
  | .recv _ | .closed => 0

theorem client_recvs (hfair : Fair r) : ∃ᶠ k in atTop, ∃ o, r.label k = some (.clientRecv o) := by
  refine client_frequently hfair toRecv ?_
  filter_upwards with k e hnet hl hmove
  cases hmove with
  | sendMsg t hp => exact hnet.elim
  | enter hp hp' =>
    right
    rw [hp, hp']
    exact Nat.lt_succ_self 2
  | sent second hp hp' hunsent =>
    right
    rw [hp, hp']
    exact Nat.zero_lt_succ 1
  | erase second sendLen hp hp' =>
    right
    rw [hp, hp']
    exact Nat.zero_lt_one
  | full code second hp hp' =>
    right
    rw [hp, hp']
    exact Nat.zero_lt_succ 1
  | send count second sendLen hp hp' hunsent =>
    right
    rw [hp, hp']
    exact Nat.lt_succ_self 1
  | drained code second hp hp' => exact .inl ⟨_, hl⟩
  | recv data second hp hp' hchannel => exact .inl ⟨_, hl⟩

/-- What is left in the channel to the client is received. -/
theorem served_toClient (hfair : Fair r) (hne : ∀ᶠ k in atTop, (r.state k).toClient ≠ []) :
    ∃ᶠ k in atTop, (r.state (k + 1)).toClient.length < (r.state k).toClient.length := by
  refine (hfair.clientRecvs ((client_recvs hfair).and_eventually hne)).mono ?_
  rintro k ⟨data, hl⟩
  cases (client_move hfair hl id).2 with
  | recv _ second hp hp' hchannel => exact hchannel

/-- How far a network thread with something to send is from a send call. -/
def toSend : StreamClient.Point → ℕ
  | .erase true _ => 3
  | .erase false _ | .recv true => 2
  | .recv false | .loop => 1
  | .send _ | .closed => 0

theorem toSend_recv (second : Bool) :
    toSend (if second then .loop else .send true) < toSend (.recv second) := by
  cases second <;> decide

theorem client_sends (hfair : Fair r) (hne : ∀ᶠ k in atTop, (r.state k).client.unsent ≠ []) :
    ∃ᶠ k in atTop, ∃ o, r.label k = some (.clientSend o) := by
  refine client_frequently hfair toSend ?_
  filter_upwards [hne] with k hne e hnet hl hmove
  cases hmove with
  | sendMsg t hp => exact hnet.elim
  | enter hp hp' =>
    right
    rw [hp, hp']
    exact Nat.zero_lt_one
  | sent second hp hp' hunsent => exact absurd hunsent hne
  | erase second sendLen hp hp' =>
    right
    rw [hp, hp']
    cases second <;> exact Nat.lt_succ_self _
  | full code second hp hp' => exact .inl ⟨_, hl⟩
  | send count second sendLen hp hp' hunsent => exact .inl ⟨_, hl⟩
  | drained code second hp hp' =>
    right
    rw [hp, hp']
    exact toSend_recv second
  | recv data second hp hp' hchannel =>
    right
    rw [hp, hp']
    exact toSend_recv second

/-- What is left in the client's string is sent. -/
theorem served_unsent (hfair : Fair r) (hne : ∀ᶠ k in atTop, (r.state k).client.unsent ≠ []) :
    ∃ᶠ k in atTop,
      (r.state (k + 1)).client.unsent.length < (r.state k).client.unsent.length := by
  refine (hfair.clientSends (client_sends hfair hne)).mono ?_
  rintro k ⟨count, hl⟩
  cases (client_move hfair hl id).2 with
  | send _ second sendLen hp hp' hunsent => exact hunsent

/-- How far the worker is from its receive call. -/
def serverToRecv : StreamServer.Worker → ℕ
  | .send _ => 1
  | .recv _ | .returned => 0

theorem server_recvs (hfair : Fair r) : ∃ᶠ k in atTop, ∃ o, r.label k = some (.serverRecv o) := by
  refine frequently_of_rank (fun k => serverToRecv (r.state k).server) hfair.serverMoves ?_ ?_
  · filter_upwards with k hmove
    obtain ⟨e, hl, hserver⟩ := hmove
    cases (server_move hfair hl hserver).2 with
    | drained code buf hw hw' => exact .inl ⟨_, hl⟩
    | recv data buf hw hchannel => exact .inl ⟨_, hl⟩
    | full code buf hw hw' hchannel =>
      right
      rw [hw, hw']
      exact Nat.zero_lt_one
    | send count buf hw hw' hbuf hchannel =>
      right
      rw [hw, hw']
      exact Nat.zero_lt_one
  · filter_upwards with k hother
    rw [other_server hfair hother]

/-- What is left in the channel to the server is received. -/
theorem served_toServer (hfair : Fair r) (hne : ∀ᶠ k in atTop, (r.state k).toServer ≠ []) :
    ∃ᶠ k in atTop, (r.state (k + 1)).toServer.length < (r.state k).toServer.length := by
  refine (hfair.serverRecvs ((server_recvs hfair).and_eventually hne)).mono ?_
  rintro k ⟨data, hl⟩
  cases (server_move hfair hl trivial).2 with
  | recv _ buf hw hchannel => exact hchannel

/-- A worker that has something in its string and finds nothing to receive goes on to its send
call. -/
theorem server_sends (hfair : Fair r) (hdrains : Drains r)
    (hne : ∀ᶠ k in atTop, (r.state k).server.msgBufNeedSend ≠ []) :
    ∃ᶠ k in atTop, ∃ o, r.label k = some (.serverSend o) := by
  refine frequently_of_region (fun k => ∃ buf, (r.state k).server = .send buf) hfair.serverMoves
    ?_ ?_ ?_
  · have hnext := (tendsto_add_atTop_nat 1).eventually hne
    refine (tendsto_add_atTop_nat 1).frequently ((hdrains.and_eventually hnext).mono ?_)
    rintro k ⟨⟨code, hl⟩, hbuf⟩
    cases (server_move hfair hl trivial).2 with
    | drained _ buf hw hw' =>
      rw [hw', StreamServer.msgBufNeedSend_afterRecv] at hbuf
      exact ⟨buf, by rw [hw', StreamServer.Worker.afterRecv, if_pos (List.length_pos_iff.mpr hbuf)]⟩
  · filter_upwards with k hregion hother
    rw [other_server hfair hother]
    exact hregion
  · filter_upwards with k hregion hmove
    obtain ⟨buf, hsend⟩ := hregion
    obtain ⟨e, hl, hserver⟩ := hmove
    cases (server_move hfair hl hserver).2 with
    | drained code buf hw hw' =>
      rw [hsend] at hw
      cases hw
    | recv data buf hw hchannel =>
      rw [hsend] at hw
      cases hw
    | full code buf hw hw' hchannel => exact ⟨_, hl⟩
    | send count buf hw hw' hbuf hchannel => exact ⟨_, hl⟩

/-- What is left with the worker is sent, if the worker finds nothing to receive again and again. -/
theorem served_server (hfair : Fair r) (hdrains : Drains r)
    (hne : ∀ᶠ k in atTop, (r.state k).server.msgBufNeedSend ≠ []) :
    ∃ᶠ k in atTop, (r.state (k + 1)).server.msgBufNeedSend.length <
      (r.state k).server.msgBufNeedSend.length := by
  refine (hfair.serverSends (server_sends hfair hdrains hne)).mono ?_
  rintro k ⟨count, hl⟩
  cases (server_move hfair hl trivial).2 with
  | send _ buf hw hw' hbuf hchannel =>
    rw [hw', hw]
    exact List.length_pos_iff.mpr hbuf

/-! ### Everything arrives -/

/-- The bytes before the worker. -/
def World.upstream (w : World) : ℕ := w.toServer.length + w.client.unsent.length

theorem clientStep_upstream {w w' : World} {a : ClientAction} (h : w.clientStep n clock a = some w')
    (ha : a.msg = none) : w'.upstream = w.upstream := by
  obtain ⟨c, hc, hw⟩ := Option.bind_eq_some_iff.mp h
  cases a with
  | sendMsg msg => cases ha
  | tau =>
    cases hw
    obtain ⟨-, hbuf, htaken⟩ := tau_cases hc
    show w.toServer.length + c.unsent.length = _
    rw [unsent_of_taken htaken, hbuf, World.upstream]
  | send o =>
    obtain ⟨channel, hchannel, rfl⟩ := Option.map_eq_some_iff.mp hw
    obtain ⟨-, hbuf, htaken₀, htaken⟩ := send_cases hc
    obtain ⟨hcount, rfl⟩ := ByteChannel.send_eq hchannel
    show _ + c.unsent.length = w.toServer.length + w.client.unsent.length
    rw [unsent_of_taken htaken₀, StreamClient.Client.unsent, htaken, hbuf, List.length_drop]
    show (w.toServer ++ w.client.sendMsgBuf.take o.count).length + _ = _
    rw [List.length_append, List.length_take]
    omega
  | recv o =>
    obtain ⟨channel, -, rfl⟩ := Option.map_eq_some_iff.mp hw
    obtain ⟨hbuf, htaken₀, htaken, -⟩ := recv_cases hc
    show w.toServer.length + c.unsent.length = _
    rw [unsent_of_taken htaken, hbuf, World.upstream, unsent_of_taken htaken₀]

/-- When pushing ends the worker runs out of bytes. -/
theorem drains_of_quiet (hfair : Fair r) (hquiet : Quiet r) : Drains r := by
  refine frequently_of_rank
    (fun k => toLex ((r.state k).upstream, serverToRecv (r.state k).server)) hfair.serverMoves ?_ ?_
  · filter_upwards with k hmove
    obtain ⟨e, hl, hserver⟩ := hmove
    obtain ⟨hclient, hmove⟩ := server_move hfair hl hserver
    cases hmove with
    | drained code buf hw hw' => exact .inl ⟨code, hl⟩
    | recv data buf hw hchannel =>
      right
      refine Prod.Lex.toLex_lt_toLex.mpr (.inl ?_)
      simp only [World.upstream, hclient]
      omega
    | full code buf hw hw' hchannel =>
      right
      refine Prod.Lex.toLex_lt_toLex.mpr (.inr ⟨?_, ?_⟩)
      · simp only [World.upstream, hclient, hchannel]
      · rw [hw, hw']
        exact Nat.zero_lt_one
    | send count buf hw hw' hbuf hchannel =>
      right
      refine Prod.Lex.toLex_lt_toLex.mpr (.inr ⟨?_, ?_⟩)
      · simp only [World.upstream, hclient, hchannel]
      · rw [hw, hw']
        exact Nat.zero_lt_one
  · filter_upwards [hquiet] with k hk hother
    have hupstream : (r.state (k + 1)).upstream = (r.state k).upstream := by
      refine r.eq_of_not_takes hother World.upstream fun e hl hnot => ?_
      have hstep := r.step k e hl
      cases e with
      | sendMsg t => exact absurd hl (hk t)
      | tau => exact clientStep_upstream hstep rfl
      | clientSend o => exact clientStep_upstream hstep rfl
      | clientRecv o => exact clientStep_upstream hstep rfl
      | serverSend o => exact absurd trivial hnot
      | serverRecv o => exact absurd trivial hnot
    rw [hupstream, other_server hfair hother]

theorem flow (hfit : ∀ k, ReadingsFit n (r.state k).sent) (k : ℕ) :
    Relation.ReflTransGen Conduit.Flow ((r.state k).conduit n) ((r.state (k + 1)).conduit n) ∧
      (r.state k).Ok n clock ∧ ((r.state k).conduit n).Conserved := by
  obtain ⟨ls, hls⟩ := r.reachable k
  obtain ⟨hok, hconserved⟩ := run_conserved hls (hfit k)
  refine ⟨?_, hok, hconserved⟩
  cases hl : r.label k with
  | none => rw [r.rest k hl]
  | some e => exact (step_flow (r.step k e hl) hok (pos_of_toClient (hfit k) hconserved)).2

/-- All bytes that are sent are received. -/
theorem received_of_drains (hfair : Fair r) (hfit : ∀ k, ReadingsFit n (r.state k).sent)
    (hdrains : Drains r) (j : ℕ) :
    ∀ᶠ k in atTop, (r.state j).bytesSent n <+: (r.state k).received := by
  refine Conduit.eventually_at_exit (c := fun k => (r.state k).conduit n)
    (fun k => (flow hfit k).1) (fun k => (flow hfit k).2.2) (fun i hne => ?_) j
  rcases i with _ | _ | _ | _ | i
  · exact served_toClient hfair hne
  · exact served_server hfair hdrains hne
  · exact served_toServer hfair hne
  · exact served_unsent hfair hne
  · obtain ⟨k, hk⟩ := hne.exists
    exact absurd rfl hk

theorem sent_of_step {w w' : World} {e : Event} (h : (benchmark n clock).step w e = some w')
    (hquiet : ∀ t, e ≠ .sendMsg t) : w'.sent = w.sent := by
  cases e with
  | sendMsg t => exact absurd rfl (hquiet t)
  | tau => exact clientStep_sent h
  | clientSend o => exact clientStep_sent h
  | clientRecv o => exact clientStep_sent h
  | serverSend o => exact serverStep_sent h
  | serverRecv o => exact serverStep_sent h

/-- A callback that has been given all bytes of some messages has handed them on. -/
theorem prefix_frames {w : World} {ts : List UInt64} (hn : n < 10000000)
    (hfit : ReadingsFit n ts) (hok : w.Ok n clock)
    (hbytes : (ts.map (makeTestStr n)).flatten <+: w.received) :
    ts.map (makeTestStr n) <+: w.frames := by
  have hframes : w.frames = blocks n w.received := congrArg RecvState.frames hok.callback
  obtain ⟨rest, hrest⟩ := hbytes
  cases ts with
  | nil => exact List.nil_prefix
  | cons t ts =>
    have hpos : 0 < n := Nat.zero_lt_of_lt (hfit t List.mem_cons_self).2
    have hlength : ∀ b ∈ (t :: ts).map (makeTestStr n), b.length = n := by
      intro b hb
      obtain ⟨t', ht', rfl⟩ := List.mem_map.mp hb
      exact length_makeTestStr hn (hfit t' ht').2.le
    rw [hframes, ← hrest, blocks_flatten_append hpos hlength]
    exact List.prefix_append _ _

/-- Whatever is sent is handled. -/
theorem handled_of_drains (hn : n < 10000000) (hfair : Fair r)
    (hfit : ∀ k, ReadingsFit n (r.state k).sent) (hdrains : Drains r) (j : ℕ) :
    ∀ᶠ k in atTop, (r.state j).sent.map (makeTestStr n) <+: (r.state k).frames := by
  filter_upwards [received_of_drains hfair hfit hdrains j] with k hk
  exact prefix_frames hn (hfit j) (flow hfit k).2.1 hk

theorem sent_of_quiet (hquiet : Quiet r) : ∃ M, ∀ k ≥ M, (r.state k).sent = (r.state M).sent := by
  obtain ⟨M, hM⟩ := eventually_atTop.mp hquiet
  refine ⟨M, fun k hk => r.eq_of_steps World.sent (fun j hj e hl => ?_) hk⟩
  refine sent_of_step (r.step j e hl) fun t he => hM j hj t ?_
  rw [hl, he]

/-- When pushing ends all bytes are received. -/
theorem received_of_quiet (hfair : Fair r) (hfit : ∀ k, ReadingsFit n (r.state k).sent)
    (hquiet : Quiet r) : ∀ᶠ k in atTop, (r.state k).received = (r.state k).bytesSent n := by
  obtain ⟨M, hM⟩ := sent_of_quiet hquiet
  filter_upwards [eventually_ge_atTop M,
    received_of_drains hfair hfit (drains_of_quiet hfair hquiet) M] with k hk hreceived
  rw [World.bytesSent, ← hM k hk] at hreceived
  have hprefix := (flow hfit k).2.2.isPrefix_stage
  exact hprefix.eq_of_length_le hreceived.length_le

/-- When pushing ends everything is handled. -/
theorem handled_of_quiet (hn : n < 10000000) (hfair : Fair r)
    (hfit : ∀ k, ReadingsFit n (r.state k).sent) (hquiet : Quiet r) :
    ∀ᶠ k in atTop, (r.state k).frames = (r.state k).sent.map (makeTestStr n) := by
  filter_upwards [received_of_quiet hfair hfit hquiet] with k hk
  obtain ⟨-, hok, hconserved⟩ := flow hfit k
  have hprefix := frames_prefix hn (hfit k) hok hconserved
  have hall := prefix_frames hn (hfit k) hok (hk ▸ List.prefix_refl _)
  exact hprefix.eq_of_length_le hall.length_le

/-- **In a fair run everything arrives.** If the worker finds nothing to receive again and again, then
every message that has been sent has been given to `handle_one_msg`, whole and in order, from some
later moment on, while more and more is sent. If that ends, `handle_one_msg` ends up with everything.
The clock readings have to fit into the messages. -/
theorem stream_delivers (hn : n < 10000000) (hfair : Fair r)
    (hfit : ∀ k, ∀ t ∈ (r.state k).sent, t.toNat < 2 ^ 63 ∧ (decimal t.toNat).length < n) :
    (Drains r → ∀ j, ∀ᶠ k in atTop,
      (r.state j).sent.map (makeTestStr n) <+: (r.state k).frames) ∧
    (Quiet r → ∀ᶠ k in atTop, (r.state k).frames = (r.state k).sent.map (makeTestStr n)) :=
  ⟨handled_of_drains hn hfair hfit, handled_of_quiet hn hfair hfit⟩

/-- One message goes round, in two parts on the way to the server. -/
def oneMessage : List Event :=
  [.sendMsg 7, .tau, .clientSend (.ret 2), .tau, .clientRecv (.error Udt.EASYNCRCV),
    .serverRecv (.ret ['7', '_']), .clientSend (.ret 1), .tau, .serverRecv (.ret [':']),
    .serverRecv (.error Udt.EASYNCRCV), .serverSend (.ret 3), .clientRecv (.ret ['7', '_', ':'])]

/-- Both threads go round their loops with nothing to do. -/
def idle : List Event :=
  [.tau, .tau, .clientRecv (.error Udt.EASYNCRCV), .tau, .clientRecv (.error Udt.EASYNCRCV),
    .serverRecv (.error Udt.EASYNCRCV)]

/-- The world after `oneMessage`. -/
def oneMessageWorld : World :=
  ⟨[7], ⟨.loop, [], true, ⟨[], ⟨[5], [5], 0, 3, 1⟩, [['7', '_', ':']], [⟨5, none⟩], 0⟩⟩,
    [], .recv [], []⟩

/-- One message goes round, and then both threads are idle for ever. -/
def oneMessageForEver : (benchmark 3 fun _ => 12).Lasso where
  stem := oneMessage
  cycle := idle
  knot := oneMessageWorld
  stem_run := by decide +kernel
  cycle_run := by decide +kernel
  stem_ne := List.cons_ne_nil _ _
  cycle_ne := List.cons_ne_nil _ _

theorem eventually_idle : ∀ᶠ k in atTop, ∃ e, oneMessageForEver.run.label k = some e ∧ e ∈ idle ∧
    (oneMessageForEver.run.state k).toClient = [] ∧
    (oneMessageForEver.run.state k).toServer = [] :=
  oneMessageForEver.eventually_of_trace
    (P := fun w e => e ∈ idle ∧ w.toClient = [] ∧ w.toServer = []) (by decide +kernel)

theorem fair_oneMessageForEver : Fair oneMessageForEver.run where
  ordinary k e he o ho := by
    obtain ⟨e', he', hmem⟩ : ∃ e, oneMessageForEver.run.label k = some e ∧ e ∈ oneMessage ++ idle :=
      oneMessageForEver.forall_of_trace (P := fun _ e => e ∈ oneMessage ++ idle)
        (by decide +kernel) (by decide +kernel) k
    have hall : ∀ e ∈ oneMessage ++ idle, ∀ o, e.outcome = some o → o.Ordinary := by
      simp [oneMessage, idle, Event.outcome, Outcome.Ordinary, RecvOutcome.Ordinary,
        SendOutcome.Ordinary]
    rw [he] at he'
    exact hall e (Option.some.inj he' ▸ hmem) o ho
  clientMoves := by
    have htau := oneMessageForEver.frequently_label (l := .tau) (by decide)
    exact htau.mono fun k hk => ⟨_, hk, trivial⟩
  serverMoves := by
    have hrecv := oneMessageForEver.frequently_label (l := .serverRecv (.error Udt.EASYNCRCV))
      (by decide)
    exact hrecv.mono fun k hk => ⟨_, hk, trivial⟩
  clientSends hcalls := by
    obtain ⟨k, ⟨o, ho⟩, e, he, hk⟩ := (hcalls.and_eventually eventually_idle).exists
    cases ho.symm.trans he
    simp [idle] at hk
  serverSends hcalls := by
    obtain ⟨k, ⟨o, ho⟩, e, he, hk⟩ := (hcalls.and_eventually eventually_idle).exists
    cases ho.symm.trans he
    simp [idle] at hk
  clientRecvs hcalls := by
    obtain ⟨k, hcall, e, he, hk⟩ := (hcalls.and_eventually eventually_idle).exists
    exact absurd hk.2.1 hcall.2
  serverRecvs hcalls := by
    obtain ⟨k, hcall, e, he, hk⟩ := (hcalls.and_eventually eventually_idle).exists
    exact absurd hk.2.2 hcall.2

theorem stream_delivers_oneMessageForEver :
    Fair oneMessageForEver.run ∧ Drains oneMessageForEver.run ∧ Quiet oneMessageForEver.run ∧
    (∀ j, ∀ᶠ k in atTop, (oneMessageForEver.run.state j).sent.map (makeTestStr 3) <+:
      (oneMessageForEver.run.state k).frames) ∧
    ∀ᶠ k in atTop, (oneMessageForEver.run.state k).frames =
      (oneMessageForEver.run.state k).sent.map (makeTestStr 3) := by
  have hsent : ∀ k, (oneMessageForEver.run.state k).sent ∈ [[], [(7 : UInt64)]] := by
    intro k
    obtain ⟨-, -, hmem⟩ := oneMessageForEver.forall_of_trace
      (P := fun w _ => w.sent ∈ [[], [(7 : UInt64)]]) (by decide +kernel) (by decide +kernel) k
    exact hmem
  have hfit : ∀ k, ∀ t ∈ (oneMessageForEver.run.state k).sent,
      t.toNat < 2 ^ 63 ∧ (decimal t.toNat).length < 3 := by
    intro k t ht
    have hseven : t = 7 := by
      rcases List.mem_pair.mp (hsent k) with h | h
      · simp [h] at ht
      · simpa [h] using ht
    subst hseven
    decide +kernel
  have hquiet : Quiet oneMessageForEver.run := by
    filter_upwards [eventually_idle] with k hk t hpush
    obtain ⟨e, he, hmem, -⟩ := hk
    cases hpush.symm.trans he
    simp [idle] at hmem
  have hdrains : Drains oneMessageForEver.run := drains_of_quiet fair_oneMessageForEver hquiet
  have hdelivers := stream_delivers (by decide) fair_oneMessageForEver hfit
  exact ⟨fair_oneMessageForEver, hdrains, hquiet, hdelivers.1 hdrains, hdelivers.2 hquiet⟩

end StreamEndToEnd

end ReliableUdpBench
