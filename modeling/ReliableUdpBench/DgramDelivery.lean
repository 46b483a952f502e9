import ReliableUdpBench.Lib.Fair
import ReliableUdpBench.DgramEndToEnd

/-!
# Every datagram arrives

The end-to-end result says that nothing is lost; here is what makes it arrive. In an infinite run in
which both threads go on, no call fails for another reason than having nothing to do, and a call that
is made again and again while it could succeed does succeed, the callback is in the end given every
message that is pushed, if the worker finds nothing to receive again and again (`dgram_delivers`). It
does when pushing ends; otherwise it can go on receiving for ever, and everything stays in its queue.

The proof goes buffer by buffer: while there is always something in one, the thread behind it comes
round to the call that takes from it.
-/

namespace ReliableUdpBench

open Lib Filter

theorem MsgChannel.count_of_send {channel channel' : List Str} {msg : Str} {count : ℕ}
    (h : MsgChannel.send channel msg (.ret count) = some channel') : count = msg.length := by
  by_contra hcount
  rw [MsgChannel.send, if_neg hcount] at h
  cases h

namespace DgramEndToEnd

variable {κ : Type*} {f : Str → κ → Option κ} {init : κ}

/-- The outcome of the call of an event. -/
def Event.outcome : Event → Option Outcome
  | .client a => a.call
  | .server o => some o

/-- A step of the client's network thread. -/
def Event.OfNetwork (e : Event) : Prop := ∃ a : ClientAction, e = .client a ∧ a.msg = none

/-- A call of the worker. -/
def Event.OfServer (e : Event) : Prop := ∃ o, e = .server o

/-- What is relied on for delivery: no outcome is out of the ordinary, both threads go on, and no call
is made for ever in vain. -/
structure Fair (r : (benchmark f init).InfRun) : Prop where
  ordinary : ∀ k e, r.label k = some e → ∀ o, e.outcome = some o → o.Ordinary
  clientMoves : ∃ᶠ k in atTop, r.Takes Event.OfNetwork k
  serverMoves : ∃ᶠ k in atTop, r.Takes Event.OfServer k
  clientSends : (∃ᶠ k in atTop, ∃ o, r.label k = some (.client (.send o))) →
    ∃ᶠ k in atTop, ∃ count, r.label k = some (.client (.send (.ret count)))
  serverSends : (∃ᶠ k in atTop, ∃ o, r.label k = some (.server (.send o))) →
    ∃ᶠ k in atTop, ∃ count, r.label k = some (.server (.send (.ret count)))
  clientRecvs : (∃ᶠ k in atTop,
      (∃ o, r.label k = some (.client (.recv o))) ∧ (r.state k).toClient ≠ []) →
    ∃ᶠ k in atTop, ∃ data, r.label k = some (.client (.recv (.ret data)))
  serverRecvs : (∃ᶠ k in atTop,
      (∃ o, r.label k = some (.server (.recv o))) ∧ (r.state k).toServer ≠ []) →
    ∃ᶠ k in atTop, ∃ data, r.label k = some (.server (.recv (.ret data)))

/-- From some moment on nothing is pushed. -/
def Quiet (r : (benchmark f init).InfRun) : Prop :=
  ∀ᶠ k in atTop, ∀ msg, r.label k ≠ some (.client (.sendMsg msg))

/-- Again and again the worker finds nothing to receive. -/
def Drains (r : (benchmark f init).InfRun) : Prop :=
  ∃ᶠ k in atTop, ∃ code, r.label k = some (.server (.recv (.error code)))

/-! ### What an ordinary step can be -/

/-- What the client does in a step with an ordinary outcome. -/
inductive ClientMove (w w' : World κ) : ClientAction → Prop
  | sendMsg (msg : Str) (hw' : w' = { w with
      client := { w.client with sendMsgQueue := w.client.sendMsgQueue ++ [msg] },
      pushed := w.pushed ++ [msg] }) : ClientMove w w' (.sendMsg msg)
  | enter (hp : w.client.point = .loop) (hw' : w' = { w with client := { w.client with
      point := if w.client.sendMsgBuff.isEmpty then .grab else .send } }) : ClientMove w w' .tau
  | grab (hp : w.client.point = .grab) (hw' : w' = { w with client := { w.client with
      sendMsgBuff := w.client.sendMsgQueue, sendMsgQueue := [], point := .send } }) :
      ClientMove w w' .tau
  | sent (hp : w.client.point = .send) (hbuff : w.client.sendMsgBuff = [])
      (hw' : w' = { w with client := { w.client with point := .recv } }) : ClientMove w w' .tau
  | full (code : ErrorCode) (hp : w.client.point = .send) (hbuff : w.client.sendMsgBuff ≠ [])
      (hw' : w' = { w with client := { w.client with point := .recv } }) :
      ClientMove w w' (.send (.error code))
  | send (count : ℕ) (front : Str) (behind : List Str) (hp : w.client.point = .send)
      (hbuff : w.client.sendMsgBuff = front :: behind)
      (hw' : w' = { w with
        client := { w.client with sendMsgBuff := behind }, toServer := w.toServer ++ [front] }) :
      ClientMove w w' (.send (.ret count))
  | drained (code : ErrorCode) (hp : w.client.point = .recv)
      (hw' : w' = { w with client := { w.client with point := .loop } }) :
      ClientMove w w' (.recv (.error code))
  | recv (data : Str) (channel : List Str) (callback : κ × List Str)
      (hp : w.client.point = .recv) (hchannel : w.toClient = data :: channel)
      (hw' : w' = { w with
        client := { w.client with callback := callback }, toClient := channel }) :
      ClientMove w w' (.recv (.ret data))

/-- The flag of the client is set and its thread has not left its loop. -/
def World.ClientRuns (w : World κ) : Prop :=
  w.client.udtRunning = true ∧ w.client.point ≠ .closed

theorem clientStep_move {w w' : World κ} {a : ClientAction} (h : w.clientStep f a = some w')
    (hord : ∀ o, a.call = some o → o.Ordinary) (hruns : w.ClientRuns) : ClientMove w w' a := by
  obtain ⟨c, hc, hw⟩ := Option.bind_eq_some_iff.mp h
  cases a with
  | sendMsg msg =>
    simp only at hw
    split at hw
    · cases hw
    · cases hw
      cases hc
      exact .sendMsg msg rfl
  | tau =>
    cases hw
    have hc' : w.client.tau = some c := hc
    unfold DgramClient.Client.tau at hc'
    cases hp : w.client.point with
    | loop =>
      simp only [hp, hruns.1, if_true] at hc'
      cases hc'
      exact .enter hp (by rw [← hruns.1])
    | grab =>
      simp only [hp] at hc'
      cases hc'
      exact .grab hp rfl
    | send =>
      simp only [hp] at hc'
      split at hc'
      · next hempty =>
        cases hc'
        exact .sent hp (List.isEmpty_iff.mp hempty) rfl
      · cases hc'
    | recv => simp [hp] at hc'
    | closed => exact absurd hp hruns.2
  | send o =>
    obtain ⟨channel, hchannel, rfl⟩ := Option.map_eq_some_iff.mp hw
    simp only [DgramClient.Client.step] at hc
    split at hc
    · next front behind hp hbuff =>
      cases hc
      rw [hbuff, List.headD_cons] at hchannel
      cases o with
      | error code =>
        have hcode : code = Udt.EASYNCSND := hord _ rfl
        subst hcode
        have hpass : w.client.sendPass front behind (.error Udt.EASYNCSND) =
            { w.client with point := .recv } := by
          simp [DgramClient.Client.sendPass, DgramClient.doSendOneMsg, Dgram.doSendOneMsg]
        have hsame : channel = w.toServer := by
          rcases MsgChannel.send_cases hchannel with ⟨-, hsame⟩ | ⟨hret, -⟩
          · exact hsame
          · cases hret
        exact .full _ hp (by simp [hbuff]) (by rw [hpass, hsame])
      | ret count =>
        have hcount : count = front.length := MsgChannel.count_of_send hchannel
        subst hcount
        have hpass : w.client.sendPass front behind (.ret front.length) =
            { w.client with sendMsgBuff := behind } := by
          simp [DgramClient.Client.sendPass, DgramClient.doSendOneMsg, Dgram.doSendOneMsg]
        have hsent : channel = w.toServer ++ [front] := by
          rcases MsgChannel.send_cases hchannel with ⟨hne, -⟩ | ⟨-, hsent⟩
          · exact absurd rfl hne
          · exact hsent
        exact .send _ front behind hp hbuff (by rw [hpass, hsent])
    · cases hc
  | recv o =>
    obtain ⟨channel, hchannel, rfl⟩ := Option.map_eq_some_iff.mp hw
    simp only [DgramClient.Client.step] at hc
    split at hc
    · next hp =>
      obtain ⟨s, hs, rfl⟩ := Option.map_eq_some_iff.mp hc
      cases o with
      | error code =>
        have hcode : code = Udt.EASYNCRCV := hord _ rfl
        subst hcode
        cases hs
        have hsame : channel = w.toClient := by
          rcases MsgChannel.recv_cases hchannel with ⟨-, hsame⟩ | ⟨hdata, -⟩
          · exact hsame
          · exact absurd rfl hdata
        exact .drained _ hp (by rw [hsame]; rfl)
      | ret data =>
        have hdata : data ≠ [] := hord _ rfl
        rw [recording, DgramClient.doRecvMsg_message _ _ _ hdata] at hs
        obtain ⟨s', -, rfl⟩ := Option.map_eq_some_iff.mp hs
        refine .recv data channel s' hp ?_ ?_
        · rcases MsgChannel.recv_cases hchannel with ⟨hnil, -⟩ | ⟨-, hfront⟩
          · exact absurd hnil hdata
          · exact hfront
        · simp only [if_true, hp]
    · cases hc

theorem ClientMove.clientRuns {w w' : World κ} {a : ClientAction} (h : ClientMove w w' a)
    (hruns : w.ClientRuns) : w'.ClientRuns := by
  have hflag := hruns.1
  cases h with
  | sendMsg msg hw' => exact hw' ▸ ⟨hflag, hruns.2⟩
  | enter hp hw' =>
    rw [hw']
    refine ⟨hflag, ?_⟩
    show (if w.client.sendMsgBuff.isEmpty then DgramClient.Point.grab else .send) ≠ .closed
    split <;> simp
  | grab hp hw' => exact hw' ▸ ⟨hflag, by simp⟩
  | sent hp hbuff hw' => exact hw' ▸ ⟨hflag, by simp⟩
  | full code hp hbuff hw' => exact hw' ▸ ⟨hflag, by simp⟩
  | send count front behind hp hbuff hw' => exact hw' ▸ ⟨hflag, hruns.2⟩
  | drained code hp hw' => exact hw' ▸ ⟨hflag, by simp⟩
  | recv data channel callback hp hchannel hw' => exact hw' ▸ ⟨hflag, hruns.2⟩

/-- What the worker does in a step with an ordinary outcome. -/
inductive ServerMove (w w' : World κ) : Outcome → Prop
  | drained (code : ErrorCode) (queue : List Str) (hw : w.server = .recv queue)
      (hw' : w' = { w with server := .trySend queue }) : ServerMove w w' (.recv (.error code))
  | recv (data : Str) (queue channel : List Str) (hw : w.server = .recv queue)
      (hchannel : w.toServer = data :: channel)
      (hw' : w' = { w with server := .recv (queue ++ [data]), toServer := channel }) :
      ServerMove w w' (.recv (.ret data))
  | full (code : ErrorCode) (front : Str) (behind : List Str) (hw : w.server = .send front behind)
      (hw' : w' = { w with server := .recv (front :: behind) }) :
      ServerMove w w' (.send (.error code))
  | send (count : ℕ) (front : Str) (behind : List Str) (hw : w.server = .send front behind)
      (hw' : w' = { w with server := .trySend behind, toClient := w.toClient ++ [front] }) :
      ServerMove w w' (.send (.ret count))

theorem serverStep_move {w w' : World κ} {o : Outcome} (h : w.serverStep o = some w')
    (hord : o.Ordinary) : ServerMove w w' o := by
  obtain ⟨⟨running', server'⟩, hs, hw⟩ := Option.bind_eq_some_iff.mp h
  cases hserver : w.server with
  | recv queue =>
    rw [hserver] at hs
    cases o with
    | send r => cases hs
    | recv r =>
      obtain ⟨channel, hchannel, rfl⟩ := Option.map_eq_some_iff.mp hw
      cases r with
      | error code =>
        have hcode : code = Udt.EASYNCRCV := hord
        subst hcode
        cases hs
        have hsame : channel = w.toServer := by
          rcases MsgChannel.recv_cases hchannel with ⟨-, hsame⟩ | ⟨hdata, -⟩
          · exact hsame
          · exact absurd rfl hdata
        exact .drained _ queue hserver (by rw [hsame]; rfl)
      | ret data =>
        rcases MsgChannel.recv_cases hchannel with ⟨hnil, -⟩ | ⟨hdata, hfront⟩
        · exact absurd hnil hord
        · simp only [DgramServer.Worker.step, DgramServer.recvPass_message queue hord,
            Option.some.injEq, Prod.mk.injEq] at hs
          obtain ⟨rfl, rfl⟩ := hs
          exact .recv data queue channel hserver hfront rfl
  | send front behind =>
    rw [hserver] at hs
    cases o with
    | recv r => cases hs
    | send r =>
      obtain ⟨channel, hchannel, rfl⟩ := Option.map_eq_some_iff.mp hw
      rw [hserver] at hchannel
      cases r with
      | error code =>
        have hcode : code = Udt.EASYNCSND := hord
        subst hcode
        have hstep : DgramServer.Worker.step w.serverRunning (.send front behind)
            (.send (.error Udt.EASYNCSND)) =
              some (w.serverRunning, .recv (front :: behind)) := by
          simp [DgramServer.Worker.step, DgramServer.doSendOneMsg, Dgram.doSendOneMsg]
        rw [hstep] at hs
        cases hs
        have hsame : channel = w.toClient := by
          rcases MsgChannel.send_cases hchannel with ⟨-, hsame⟩ | ⟨hret, -⟩
          · exact hsame
          · cases hret
        exact .full _ front behind hserver (by rw [hsame])
      | ret count =>
        have hcount : count = front.length := MsgChannel.count_of_send hchannel
        subst hcount
        have hstep : DgramServer.Worker.step w.serverRunning (.send front behind)
            (.send (.ret front.length)) = some (w.serverRunning, .trySend behind) := by
          simp [DgramServer.Worker.step, DgramServer.doSendOneMsg, Dgram.doSendOneMsg]
        rw [hstep] at hs
        cases hs
        have hsent : channel = w.toClient ++ [front] := by
          rcases MsgChannel.send_cases hchannel with ⟨hne, -⟩ | ⟨-, hsent⟩
          · exact absurd rfl hne
          · exact hsent
        exact .send _ front behind hserver (by rw [hsent])
  | returned =>
    rw [hserver] at hs
    cases o <;> cases hs

/-! ### Fair runs -/

variable {r : (benchmark f init).InfRun}

theorem clientRuns (hfair : Fair r) (k : ℕ) : (r.state k).ClientRuns := by
  refine r.invariant World.ClientRuns (fun e => ∀ o, e.outcome = some o → o.Ordinary)
    ⟨rfl, by simp [benchmark, DgramClient.Client.start]⟩ hfair.ordinary ?_ k
  intro w e w' hord hruns hstep
  cases e with
  | client a => exact (clientStep_move hstep hord hruns).clientRuns hruns
  | server o =>
    have hclient : w'.client = w.client := by
      cases serverStep_move hstep (hord o rfl) with
      | drained code queue hw hw' => rw [hw']
      | recv data queue channel hw hchannel hw' => rw [hw']
      | full code front behind hw hw' => rw [hw']
      | send count front behind hw hw' => rw [hw']
    rw [World.ClientRuns, hclient]
    exact hruns

theorem client_move (hfair : Fair r) {k : ℕ} {a : ClientAction}
    (h : r.label k = some (.client a)) : ClientMove (r.state k) (r.state (k + 1)) a :=
  clientStep_move (r.step k _ h) (hfair.ordinary k _ h) (clientRuns hfair k)

theorem server_move (hfair : Fair r) {k : ℕ} {o : Outcome} (h : r.label k = some (.server o)) :
    ServerMove (r.state k) (r.state (k + 1)) o :=
  serverStep_move (r.step k _ h) (hfair.ordinary k _ h o rfl)

/-- The messages between the two threads of the client: in the channels and with the worker. -/
def World.underway (w : World κ) : ℕ :=
  w.toClient.length + w.server.msgQueueNeedSend.length + w.toServer.length

/-- What the network thread relies on is left alone by the others. -/
theorem other_client (hfair : Fair r) {k : ℕ} (h : ¬ r.Takes Event.OfNetwork k) :
    (r.state (k + 1)).client.point = (r.state k).client.point ∧
      (r.state (k + 1)).client.sendMsgBuff = (r.state k).client.sendMsgBuff ∧
      (r.state (k + 1)).underway = (r.state k).underway := by
  cases hl : r.label k with
  | none =>
    rw [r.rest k hl]
    exact ⟨rfl, rfl, rfl⟩
  | some e =>
    cases e with
    | client a =>
      have hmove := client_move hfair hl
      cases a with
      | sendMsg msg =>
        cases hmove with
        | sendMsg _ hw' =>
          rw [hw']
          exact ⟨rfl, rfl, rfl⟩
      | tau => exact absurd ⟨_, hl, _, rfl, rfl⟩ h
      | send o => exact absurd ⟨_, hl, _, rfl, rfl⟩ h
      | recv o => exact absurd ⟨_, hl, _, rfl, rfl⟩ h
    | server o =>
      cases server_move hfair hl with
      | drained code queue hw hw' =>
        rw [hw']
        exact ⟨rfl, rfl, by simp [World.underway, hw]⟩
      | recv data queue channel hw hchannel hw' =>
        rw [hw']
        refine ⟨rfl, rfl, ?_⟩
        simp only [World.underway, hw, hchannel, DgramServer.msgQueueNeedSend_recv,
          List.length_append, List.length_cons, List.length_nil]
        omega
      | full code front behind hw hw' =>
        rw [hw']
        exact ⟨rfl, rfl, by simp [World.underway, hw]⟩
      | send count front behind hw hw' =>
        rw [hw']
        refine ⟨rfl, rfl, ?_⟩
        simp only [World.underway, hw, DgramServer.msgQueueNeedSend_trySend,
          DgramServer.msgQueueNeedSend_send, List.length_append, List.length_cons, List.length_nil]
        omega

/-- The worker is left alone by the client. -/
theorem other_server (hfair : Fair r) {k : ℕ} (h : ¬ r.Takes Event.OfServer k) :
    (r.state (k + 1)).server = (r.state k).server := by
  refine r.eq_of_not_takes h World.server fun e hl hother => ?_
  cases e with
  | server o => exact absurd ⟨o, rfl⟩ hother
  | client a =>
    cases client_move hfair hl with
    | sendMsg msg hw' => rw [hw']
    | enter hp hw' => rw [hw']
    | grab hp hw' => rw [hw']
    | sent hp hbuff hw' => rw [hw']
    | full code hp hbuff hw' => rw [hw']
    | send count front behind hp hbuff hw' => rw [hw']
    | drained code hp hw' => rw [hw']
    | recv data channel callback hp hchannel hw' => rw [hw']

/-! ### Every buffer is served -/

/-- What each step of the network thread brings closer happens again and again. -/
theorem client_frequently {ρ : Type*} [PartialOrder ρ] [WellFoundedLT ρ] (hfair : Fair r)
    {target : ℕ → Prop} (rank : DgramClient.Point → List Str → ℕ → ρ)
    (hcloser : ∀ᶠ k in atTop, ∀ a : ClientAction, a.msg = none → r.label k = some (.client a) →
      ClientMove (r.state k) (r.state (k + 1)) a → target k ∨
      rank (r.state (k + 1)).client.point (r.state (k + 1)).client.sendMsgBuff
          (r.state (k + 1)).underway <
        rank (r.state k).client.point (r.state k).client.sendMsgBuff (r.state k).underway) :
    ∃ᶠ k in atTop, target k := by
  refine frequently_of_rank (fun k =>
    rank (r.state k).client.point (r.state k).client.sendMsgBuff (r.state k).underway)
    hfair.clientMoves ?_ ?_
  · filter_upwards [hcloser] with k hk hmove
    obtain ⟨e, hl, a, rfl, ha⟩ := hmove
    exact hk a ha hl (client_move hfair hl)
  · filter_upwards with k hother
    obtain ⟨hp, hbuff, hway⟩ := other_client hfair hother
    rw [hp, hbuff, hway]

/-- How far the network thread is from its receive call: the way through the loop, and in
`TrySendMsg` the messages that may still be sent. -/
def toRecv (point : DgramClient.Point) (buff : List Str) : ℕ ×ₗ ℕ :=
  match point with
  | .loop => toLex (3, 0)
  | .grab => toLex (2, 0)
  | .send => toLex (1, buff.length)
  | .recv | .closed => toLex (0, 0)

theorem client_recvs (hfair : Fair r) : ∃ᶠ k in atTop, ∃ o, r.label k = some (.client (.recv o)) := by
  refine client_frequently hfair (fun point buff _ => toRecv point buff) ?_
  filter_upwards with k a ha hl hmove
  cases hmove with
  | sendMsg msg hw' => cases ha
  | enter hp hw' =>
    right
    rw [hw', hp]
    show toRecv (if (r.state k).client.sendMsgBuff.isEmpty then .grab else .send) _ < toLex (3, 0)
    split
    · exact Prod.Lex.toLex_lt_toLex.mpr (.inl (Nat.lt_succ_self 2))
    · exact Prod.Lex.toLex_lt_toLex.mpr (.inl (Nat.lt_of_sub_eq_succ rfl))
  | grab hp hw' =>
    right
    rw [hw', hp]
    exact Prod.Lex.toLex_lt_toLex.mpr (.inl (Nat.lt_succ_self 1))
  | sent hp hbuff hw' =>
    right
    rw [hw', hp]
    exact Prod.Lex.toLex_lt_toLex.mpr (.inl Nat.zero_lt_one)
  | full code hp hbuff hw' =>
    right
    rw [hw', hp]
    exact Prod.Lex.toLex_lt_toLex.mpr (.inl Nat.zero_lt_one)
  | send count front behind hp hbuff hw' =>
    right
    rw [hw', hp, hbuff]
    exact Prod.Lex.toLex_lt_toLex.mpr (.inr ⟨rfl, Nat.lt_succ_self _⟩)
  | drained code hp hw' => exact .inl ⟨_, hl⟩
  | recv data channel callback hp hchannel hw' => exact .inl ⟨_, hl⟩

/-- What is left in the channel to the client is received. -/
theorem served_toClient (hfair : Fair r) (hne : ∀ᶠ k in atTop, (r.state k).toClient ≠ []) :
    ∃ᶠ k in atTop, (r.state (k + 1)).toClient.length < (r.state k).toClient.length := by
  refine (hfair.clientRecvs ((client_recvs hfair).and_eventually hne)).mono ?_
  rintro k ⟨data, hl⟩
  cases client_move hfair hl with
  | recv _ channel callback hp hchannel hw' =>
    rw [hw', hchannel]
    exact Nat.lt_succ_self _

theorem underway_recv {w w' : World κ} {data : Str} {channel : List Str} {callback : κ × List Str}
    (hchannel : w.toClient = data :: channel)
    (hw' : w' = { w with
      client := { w.client with callback := callback }, toClient := channel }) :
    w'.underway + 1 = w.underway := by
  rw [hw', World.underway, World.underway, hchannel, List.length_cons]
  show channel.length + w.server.msgQueueNeedSend.length + w.toServer.length + 1 = _
  omega

/-- How far a network thread with something in its buffer is from its send call. -/
def toSend : DgramClient.Point → ℕ
  | .grab => 3
  | .recv => 2
  | .loop => 1
  | .send | .closed => 0

/-- The messages under way are those that can still keep the thread in `TryRecvMsg`. -/
theorem client_sends (hfair : Fair r)
    (hne : ∀ᶠ k in atTop, (r.state k).client.sendMsgBuff ≠ []) :
    ∃ᶠ k in atTop, ∃ o, r.label k = some (.client (.send o)) := by
  refine client_frequently hfair (fun point _ underway => 4 * underway + toSend point) ?_
  filter_upwards [hne] with k hbuff a ha hl hmove
  cases hmove with
  | sendMsg msg hw' => cases ha
  | enter hp hw' =>
    right
    rw [hw', hp]
    show 4 * (r.state k).underway +
      toSend (if (r.state k).client.sendMsgBuff.isEmpty then .grab else .send) < _
    rw [if_neg (by simp [hbuff])]
    exact Nat.lt_succ_self _
  | grab hp hw' =>
    right
    rw [hw', hp]
    show 4 * (r.state k).underway + 0 < 4 * (r.state k).underway + 3
    omega
  | sent hp hempty hw' => exact absurd hempty hbuff
  | full code hp hbuff hw' => exact .inl ⟨_, hl⟩
  | send count front behind hp hbuff hw' => exact .inl ⟨_, hl⟩
  | drained code hp hw' =>
    right
    rw [hw', hp]
    exact Nat.lt_succ_self _
  | recv data channel callback hp hchannel hw' =>
    right
    have hway := underway_recv hchannel hw'
    have hp' : (r.state (k + 1)).client.point = .recv := by rw [hw', ← hp]
    rw [hp', hp]
    omega

/-- What is left in the client's buffer is sent. -/
theorem served_sendMsgBuff (hfair : Fair r)
    (hne : ∀ᶠ k in atTop, (r.state k).client.sendMsgBuff ≠ []) :
    ∃ᶠ k in atTop,
      (r.state (k + 1)).client.sendMsgBuff.length < (r.state k).client.sendMsgBuff.length := by
  refine (hfair.clientSends (client_sends hfair hne)).mono ?_
  rintro k ⟨count, hl⟩
  cases client_move hfair hl with
  | send _ front behind hp hbuff hw' =>
    rw [hw', hbuff]
    exact Nat.lt_succ_self _

/-- How far a network thread with nothing in its buffer is from `TryGrabMsg`. -/
def toGrab : DgramClient.Point → ℕ
  | .send => 3
  | .recv => 2
  | .loop => 1
  | .grab | .closed => 0

/-- `TryGrabMsg` is called. -/
def Grabs (r : (benchmark f init).InfRun) (k : ℕ) : Prop :=
  r.Takes Event.OfNetwork k ∧ (r.state k).client.point = .grab

theorem client_grabs (hfair : Fair r) : ∃ᶠ k in atTop, Grabs r k := by
  by_contra hnever
  have hnot : ∀ᶠ k in atTop, ¬ Grabs r k := not_frequently.mp hnever
  -- without `TryGrabMsg` the buffer only gets shorter
  have hshorter : ∀ᶠ k in atTop, (r.state (k + 1)).client.sendMsgBuff.length ≤
      (r.state k).client.sendMsgBuff.length := by
    filter_upwards [hnot] with k hk
    by_cases hnet : r.Takes Event.OfNetwork k
    · obtain ⟨e, hl, a, rfl, ha⟩ := hnet
      cases client_move hfair hl with
      | sendMsg msg hw' => cases ha
      | enter hp hw' => rw [hw']
      | grab hp hw' => exact absurd ⟨⟨_, hl, _, rfl, ha⟩, hp⟩ hk
      | sent hp hbuff hw' => rw [hw']
      | full code hp hbuff hw' => rw [hw']
      | send count front behind hp hbuff hw' =>
        rw [hw', hbuff]
        exact Nat.le_succ _
      | drained code hp hw' => rw [hw']
      | recv data channel callback hp hchannel hw' => rw [hw']
    · rw [(other_client hfair hnet).2.1]
  obtain ⟨N, hN⟩ :=
    eventually_const_of_le (fun k => (r.state k).client.sendMsgBuff.length) hshorter
  -- so it is empty in the end
  have hempty : (r.state N).client.sendMsgBuff = [] := by
    by_contra hbuff
    have hpos := List.length_pos_iff.mpr hbuff
    have hne : ∀ᶠ k in atTop, (r.state k).client.sendMsgBuff ≠ [] := by
      filter_upwards [eventually_ge_atTop N] with k hk
      rw [← List.length_pos_iff, hN k hk]
      exact hpos
    obtain ⟨k, hk, hlt⟩ := frequently_atTop.mp (served_sendMsgBuff hfair hne) N
    have hstill := (hN (k + 1) (by omega)).trans (hN k hk).symm
    omega
  have hbuff : ∀ᶠ k in atTop, (r.state k).client.sendMsgBuff = [] := by
    filter_upwards [eventually_ge_atTop N] with k hk
    rw [← List.length_eq_zero_iff, hN k hk, hempty]
    rfl
  apply hnever
  refine client_frequently hfair (fun point _ underway => 4 * underway + toGrab point) ?_
  filter_upwards [hbuff] with k hbuff a ha hl hmove
  cases hmove with
  | sendMsg msg hw' => cases ha
  | enter hp hw' =>
    right
    rw [hw', hp]
    show 4 * (r.state k).underway +
      toGrab (if (r.state k).client.sendMsgBuff.isEmpty then .grab else .send) < _
    rw [if_pos (by simp [hbuff])]
    exact Nat.lt_succ_self _
  | grab hp hw' => exact .inl ⟨⟨_, hl, _, rfl, ha⟩, hp⟩
  | sent hp hempty hw' =>
    right
    rw [hw', hp]
    exact Nat.lt_succ_self _
  | full code hp hne hw' => exact absurd hbuff hne
  | send count front behind hp hcons hw' =>
    rw [hbuff] at hcons
    cases hcons
  | drained code hp hw' =>
    right
    rw [hw', hp]
    exact Nat.lt_succ_self _
  | recv data channel callback hp hchannel hw' =>
    right
    have hway := underway_recv hchannel hw'
    have hp' : (r.state (k + 1)).client.point = .recv := by rw [hw', ← hp]
    rw [hp', hp]
    omega

theorem ClientMove.sendMsgQueue_nil {w w' : World κ} {a : ClientAction} (h : ClientMove w w' a)
    (ha : a.msg = none) (hgrab : w.client.point = .grab) : w'.client.sendMsgQueue = [] := by
  cases h with
  | sendMsg msg hw' => cases ha
  | grab hp hw' => rw [hw']
  | _ => simp_all

/-- What is left in the client's queue is grabbed. -/
theorem served_sendMsgQueue (hfair : Fair r)
    (hne : ∀ᶠ k in atTop, (r.state k).client.sendMsgQueue ≠ []) :
    ∃ᶠ k in atTop,
      (r.state (k + 1)).client.sendMsgQueue.length < (r.state k).client.sendMsgQueue.length := by
  refine ((client_grabs hfair).and_eventually hne).mono ?_
  rintro k ⟨⟨⟨e, hl, a, rfl, ha⟩, hgrab⟩, hqueue⟩
  rw [(client_move hfair hl).sendMsgQueue_nil ha hgrab]
  exact List.length_pos_iff.mpr hqueue

/-- How far the worker is from its receive call. -/
def serverToRecv : DgramServer.Worker → ℕ
  | .send _ behind => behind.length + 1
  | .recv _ | .returned => 0

theorem serverToRecv_trySend (queue : List Str) :
    serverToRecv (.trySend queue) = queue.length := by
  cases queue <;> rfl

theorem server_recvs (hfair : Fair r) : ∃ᶠ k in atTop, ∃ o, r.label k = some (.server (.recv o)) := by
  refine frequently_of_rank (fun k => serverToRecv (r.state k).server) hfair.serverMoves ?_ ?_
  · filter_upwards with k hmove
    obtain ⟨e, hl, o, rfl⟩ := hmove
    cases server_move hfair hl with
    | drained code queue hw hw' => exact .inl ⟨_, hl⟩
    | recv data queue channel hw hchannel hw' => exact .inl ⟨_, hl⟩
    | full code front behind hw hw' =>
      right
      rw [hw', hw]
      exact Nat.zero_lt_succ _
    | send count front behind hw hw' =>
      right
      rw [hw', hw]
      show serverToRecv (.trySend behind) < _
      rw [serverToRecv_trySend]
      exact Nat.lt_succ_self _
  · filter_upwards with k hother
    rw [other_server hfair hother]

/-- What is left in the channel to the server is received. -/
theorem served_toServer (hfair : Fair r) (hne : ∀ᶠ k in atTop, (r.state k).toServer ≠ []) :
    ∃ᶠ k in atTop, (r.state (k + 1)).toServer.length < (r.state k).toServer.length := by
  refine (hfair.serverRecvs ((server_recvs hfair).and_eventually hne)).mono ?_
  rintro k ⟨data, hl⟩
  cases server_move hfair hl with
  | recv _ queue channel hw hchannel hw' =>
    rw [hw', hchannel]
    exact Nat.lt_succ_self _

/-- A worker that has something in its queue and finds nothing to receive goes on to its send call. -/
theorem server_sends (hfair : Fair r) (hdrains : Drains r)
    (hne : ∀ᶠ k in atTop, (r.state k).server.msgQueueNeedSend ≠ []) :
    ∃ᶠ k in atTop, ∃ o, r.label k = some (.server (.send o)) := by
  refine frequently_of_region
    (fun k => ∃ front behind, (r.state k).server = .send front behind) hfair.serverMoves ?_ ?_ ?_
  · have hnext := (tendsto_add_atTop_nat 1).eventually hne
    refine (tendsto_add_atTop_nat 1).frequently ((hdrains.and_eventually hnext).mono ?_)
    rintro k ⟨⟨code, hl⟩, hqueue⟩
    cases server_move hfair hl with
    | drained _ queue hw hw' =>
      rw [hw'] at hqueue ⊢
      cases queue with
      | nil => exact absurd rfl hqueue
      | cons front behind => exact ⟨front, behind, rfl⟩
  · filter_upwards with k hregion hother
    rw [other_server hfair hother]
    exact hregion
  · filter_upwards with k hregion hmove
    obtain ⟨front, behind, hserver⟩ := hregion
    obtain ⟨e, hl, o, rfl⟩ := hmove
    cases server_move hfair hl with
    | drained code queue hw hw' =>
      rw [hserver] at hw
      cases hw
    | recv data queue channel hw hchannel hw' =>
      rw [hserver] at hw
      cases hw
    | full code front behind hw hw' => exact ⟨_, hl⟩
    | send count front behind hw hw' => exact ⟨_, hl⟩

/-- What is left with the worker is sent, if the worker finds nothing to receive again and again. -/
theorem served_server (hfair : Fair r) (hdrains : Drains r)
    (hne : ∀ᶠ k in atTop, (r.state k).server.msgQueueNeedSend ≠ []) :
    ∃ᶠ k in atTop, (r.state (k + 1)).server.msgQueueNeedSend.length <
      (r.state k).server.msgQueueNeedSend.length := by
  refine (hfair.serverSends (server_sends hfair hdrains hne)).mono ?_
  rintro k ⟨count, hl⟩
  cases server_move hfair hl with
  | send _ front behind hw hw' =>
    rw [hw', hw, DgramServer.msgQueueNeedSend_trySend]
    exact Nat.lt_succ_self _

/-! ### Everything arrives -/

/-- The messages before the worker. -/
def World.upstream (w : World κ) : ℕ :=
  w.toServer.length + w.client.sendMsgBuff.length + w.client.sendMsgQueue.length

/-- How far the worker is from finding nothing to receive. -/
def toDrain (w : World κ) : ℕ ×ₗ ℕ :=
  toLex (w.upstream,
    match w.server with
    | .recv queue => 2 * queue.length
    | .send _ behind => 2 * behind.length + 3
    | .returned => 0)

/-- When pushing ends the worker runs out of messages. -/
theorem drains_of_quiet (hfair : Fair r) (hquiet : Quiet r) : Drains r := by
  refine frequently_of_rank (fun k => toDrain (r.state k)) hfair.serverMoves ?_ ?_
  · filter_upwards with k hmove
    obtain ⟨e, hl, o, rfl⟩ := hmove
    cases server_move hfair hl with
    | drained code queue hw hw' => exact .inl ⟨code, hl⟩
    | recv data queue channel hw hchannel hw' =>
      right
      rw [hw']
      refine Prod.Lex.toLex_lt_toLex.mpr (.inl ?_)
      simp only [World.upstream, hchannel, List.length_cons]
      omega
    | full code front behind hw hw' =>
      right
      rw [hw', toDrain, toDrain, hw]
      refine Prod.Lex.toLex_lt_toLex.mpr (.inr ⟨rfl, ?_⟩)
      simp only [List.length_cons]
      omega
    | send count front behind hw hw' =>
      right
      rw [hw', toDrain, toDrain, hw]
      refine Prod.Lex.toLex_lt_toLex.mpr (.inr ⟨rfl, ?_⟩)
      cases behind with
      | nil => exact Nat.zero_lt_succ 2
      | cons front' behind' =>
        simp only [DgramServer.Worker.trySend, List.length_cons]
        omega
  · filter_upwards [hquiet] with k hk hother
    have hserver := other_server hfair hother
    rw [toDrain, toDrain, hserver, Prod.Lex.toLex_le_toLex]
    suffices h : (r.state (k + 1)).upstream ≤ (r.state k).upstream by
      rcases h.lt_or_eq with hlt | heq
      · exact .inl hlt
      · exact .inr ⟨heq, le_rfl⟩
    cases hl : r.label k with
    | none => rw [r.rest k hl]
    | some e =>
      cases e with
      | server o => exact absurd ⟨_, hl, o, rfl⟩ hother
      | client a =>
        cases client_move hfair hl with
        | sendMsg msg hw' => exact absurd hl (hk msg)
        | enter hp hw' =>
          rw [hw']
          exact le_rfl
        | grab hp hw' =>
          rw [hw']
          simp only [World.upstream, List.length_nil]
          omega
        | sent hp hbuff hw' =>
          rw [hw']
          exact le_rfl
        | full code hp hbuff hw' =>
          rw [hw']
          exact le_rfl
        | send count front behind hp hbuff hw' =>
          rw [hw']
          simp only [World.upstream, hbuff, List.length_append, List.length_cons, List.length_nil]
          omega
        | drained code hp hw' =>
          rw [hw']
          exact le_rfl
        | recv data channel callback hp hchannel hw' =>
          rw [hw']
          exact le_rfl

theorem flow (r : (benchmark f init).InfRun) (k : ℕ) :
    Relation.ReflTransGen Conduit.Flow (r.state k).conduit (r.state (k + 1)).conduit ∧
      (r.state k).conduit.Conserved := by
  obtain ⟨ls, hls⟩ := r.reachable k
  refine ⟨?_, Conduit.conserved_of_flow (run_flow hls) rfl⟩
  cases hl : r.label k with
  | none => rw [r.rest k hl]
  | some e => exact (step_flow (r.step k e hl) (grabsEmpty_of_run hls)).2

theorem pushed_of_step {w w' : World κ} {e : Event} (h : (benchmark f init).step w e = some w')
    (hpush : ∀ msg, e ≠ .client (.sendMsg msg)) : w'.pushed = w.pushed := by
  cases e with
  | client a =>
    obtain ⟨c, -, hw⟩ := Option.bind_eq_some_iff.mp h
    cases a with
    | sendMsg msg => exact absurd rfl (hpush msg)
    | tau =>
      cases hw
      rfl
    | send o =>
      obtain ⟨channel, -, rfl⟩ := Option.map_eq_some_iff.mp hw
      rfl
    | recv o =>
      obtain ⟨channel, -, rfl⟩ := Option.map_eq_some_iff.mp hw
      rfl
  | server o =>
    obtain ⟨s, -, hw⟩ := Option.bind_eq_some_iff.mp h
    cases o with
    | recv r =>
      obtain ⟨channel, -, rfl⟩ := Option.map_eq_some_iff.mp hw
      rfl
    | send r =>
      obtain ⟨channel, -, rfl⟩ := Option.map_eq_some_iff.mp hw
      rfl

/-- Whatever is pushed is delivered. -/
theorem delivered_of_drains (hfair : Fair r) (hdrains : Drains r) (j : ℕ) :
    ∀ᶠ k in atTop, (r.state j).pushed <+: (r.state k).delivered := by
  refine Conduit.eventually_at_exit (c := fun k => (r.state k).conduit) (fun k => (flow r k).1)
    (fun k => (flow r k).2) (fun i hne => ?_) j
  rcases i with _ | _ | _ | _ | _ | i
  · exact served_toClient hfair hne
  · exact served_server hfair hdrains hne
  · exact served_toServer hfair hne
  · exact served_sendMsgBuff hfair hne
  · exact served_sendMsgQueue hfair hne
  · obtain ⟨k, hk⟩ := hne.exists
    exact absurd rfl hk

/-- When pushing ends everything is delivered. -/
theorem delivered_of_quiet (hfair : Fair r) (hquiet : Quiet r) :
    ∀ᶠ k in atTop, (r.state k).delivered = (r.state k).pushed := by
  obtain ⟨M, hM⟩ := eventually_atTop.mp hquiet
  have hpushed : ∀ k ≥ M, (r.state k).pushed = (r.state M).pushed := by
    refine fun k hk => r.eq_of_steps World.pushed (fun j hj e hl => ?_) hk
    refine pushed_of_step (r.step j e hl) fun msg he => hM j hj msg ?_
    rw [hl, he]
  filter_upwards [eventually_ge_atTop M,
    delivered_of_drains hfair (drains_of_quiet hfair hquiet) M] with k hk hdelivered
  rw [← hpushed k hk] at hdelivered
  have hprefix := Conduit.Conserved.isPrefix_stage (flow r k).2
  exact hprefix.eq_of_length_le hdelivered.length_le

/-- **In a fair run everything arrives.** If the worker finds nothing to receive again and again, then
whatever has been pushed has been given to the callback from some later moment on, while more and more
is pushed. If pushing ends, that is so, and the callback ends up with everything. -/
theorem dgram_delivers (hfair : Fair r) :
    (Drains r → ∀ j, ∀ᶠ k in atTop, (r.state j).pushed <+: (r.state k).delivered) ∧
      (Quiet r → ∀ᶠ k in atTop, (r.state k).delivered = (r.state k).pushed) :=
  ⟨delivered_of_drains hfair, delivered_of_quiet hfair⟩

/-- One message goes round. -/
def oneMessage : List Event :=
  [.client (.sendMsg ['a']), .client .tau, .client .tau, .client (.send (.ret 1)), .client .tau,
    .server (.recv (.ret ['a'])), .server (.recv (.error Udt.EASYNCRCV)), .server (.send (.ret 1)),
    .client (.recv (.ret ['a'])), .client (.recv (.error Udt.EASYNCRCV))]

/-- Both threads go round their loops with nothing to do. -/
def idle : List Event :=
  [.client .tau, .client .tau, .client .tau, .client (.recv (.error Udt.EASYNCRCV)),
    .server (.recv (.error Udt.EASYNCRCV))]

/-- The world after `oneMessage`, with a callback that counts. -/
def oneMessageWorld : World ℕ := ⟨[['a']], ⟨.loop, [], [], true, (1, [['a']])⟩, [], true, .recv [], []⟩

/-- One message goes round, and then both threads are idle for ever. -/
def oneMessageForEver : (benchmark (fun _ n => some (n + 1)) 0).Lasso where
  stem := oneMessage
  cycle := idle
  knot := oneMessageWorld
  stem_run := by decide
  cycle_run := by decide
  stem_ne := List.cons_ne_nil _ _
  cycle_ne := List.cons_ne_nil _ _

theorem eventually_idle : ∀ᶠ k in atTop, ∃ e, oneMessageForEver.run.label k = some e ∧ e ∈ idle ∧
    (oneMessageForEver.run.state k).toClient = [] ∧
    (oneMessageForEver.run.state k).toServer = [] :=
  oneMessageForEver.eventually_of_trace
    (P := fun w e => e ∈ idle ∧ w.toClient = [] ∧ w.toServer = []) (by decide)

theorem fair_oneMessageForEver : Fair oneMessageForEver.run where
  ordinary k e he o ho := by
    obtain ⟨e', he', hmem⟩ : ∃ e, oneMessageForEver.run.label k = some e ∧ e ∈ oneMessage ++ idle :=
      oneMessageForEver.forall_of_trace (P := fun _ e => e ∈ oneMessage ++ idle) (by decide)
        (by decide) k
    have hall : ∀ e ∈ oneMessage ++ idle, ∀ o, e.outcome = some o → o.Ordinary := by
      simp [oneMessage, idle, Event.outcome, ClientAction.call, Outcome.Ordinary,
        RecvOutcome.Ordinary, SendOutcome.Ordinary]
    rw [he] at he'
    exact hall e (Option.some.inj he' ▸ hmem) o ho
  clientMoves := by
    have htau := oneMessageForEver.frequently_label (l := .client .tau) (by decide)
    exact htau.mono fun k hk => ⟨_, hk, .tau, rfl, rfl⟩
  serverMoves := by
    have hrecv := oneMessageForEver.frequently_label (l := .server (.recv (.error Udt.EASYNCRCV)))
      (by decide)
    exact hrecv.mono fun k hk => ⟨_, hk, _, rfl⟩
  clientSends hcalls := by
    obtain ⟨k, ⟨o, ho⟩, e, he, hk⟩ := (hcalls.and_eventually eventually_idle).exists
    cases ho.symm.trans he
    simp [idle] at hk
  serverSends hcalls := by
    obtain ⟨k, ⟨o, ho⟩, e, he, hk⟩ := (hcalls.and_eventually eventually_idle).exists
    cases ho.symm.trans he
    simp [idle] at hk
  clientRecvs hcalls := by
    obtain ⟨k, hcall, e, he, hk⟩ := (hcalls.and_eventually eventually_idle).exists
    exact absurd hk.2.1 hcall.2
  serverRecvs hcalls := by
    obtain ⟨k, hcall, e, he, hk⟩ := (hcalls.and_eventually eventually_idle).exists
    exact absurd hk.2.2 hcall.2

theorem dgram_delivers_oneMessageForEver :
    Fair oneMessageForEver.run ∧ Drains oneMessageForEver.run ∧ Quiet oneMessageForEver.run ∧
    (∀ j, ∀ᶠ k in atTop, (oneMessageForEver.run.state j).pushed <+:
      (oneMessageForEver.run.state k).delivered) ∧
    ∀ᶠ k in atTop,
      (oneMessageForEver.run.state k).delivered = (oneMessageForEver.run.state k).pushed := by
  have hquiet : Quiet oneMessageForEver.run := by
    filter_upwards [eventually_idle] with k hk msg hpush
    obtain ⟨e, he, hmem, -⟩ := hk
    cases hpush.symm.trans he
    simp [idle] at hmem
  have hdrains : Drains oneMessageForEver.run := drains_of_quiet fair_oneMessageForEver hquiet
  have hdelivers := dgram_delivers fair_oneMessageForEver
  exact ⟨fair_oneMessageForEver, hdrains, hquiet, hdelivers.1 hdrains, hdelivers.2 hquiet⟩

end DgramEndToEnd

end ReliableUdpBench
