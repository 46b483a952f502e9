import ReliableUdpBench.Lib.Producer
import ReliableUdpBench.Backlog
import ReliableUdpBench.DgramDelivery
import ReliableUdpBench.StreamDelivery

/-!
# The benchmark with its main loop

In the end-to-end model messages are pushed at any time. Here it is `main` that pushes them, as in
`Backlog.Program`: it pushes, reads the size of what waits in its client, and waits while that is
above the limit. A run of the whole is a run of the client with its `main` (`whole_backlog`), so the
bounds on the backlog hold in it.

`main` is not held back for ever (`dgram_goes_on`, `stream_goes_on`): if it waited, nothing more would
be pushed, everything pushed would arrive in the end, and the size it reads would be zero. If the
worker finds nothing to receive again and again, there is no end to the messages that come back.
-/

namespace ReliableUdpBench

open Lib Filter

namespace Backlog

/-- The steps in which `main` calls `SendMsg`. -/
def sends {ε : Type*} (action : ε → Option ClientAction) (e : ε) : Bool :=
  ((action e).bind ClientAction.msg).isSome

/-- What `main` and its client do in a step of the whole. -/
def eventOf {ε : Type*} (action : ε → Option ClientAction) : Throttle.Label ε → Option Event
  | .readSize => some .readSize
  | .checkSize => some .checkSize
  | .system e => (action e).map fun a => a.msg.elim (.network a) .push

section Whole

variable {ε χ γ : Type*} {S : System χ ε} {client : χ → γ}
  {clientStep : γ → ClientAction → Option γ} {size : γ → ℕ} {limit : ℕ}
  {action : ε → Option ClientAction}

theorem whole_hidden
    (hstep : ∀ w e w', S.step w e = some w' → (action e = none ∧ client w' = client w) ∨
      ∃ a, action e = some a ∧ clientStep (client w) a = some (client w'))
    {l : Throttle.Label ε} {p p' : Throttle.Point × χ} (hl : eventOf action l = none)
    (h : (Throttle.producing S (sends action) (fun w => size (client w)) limit).step p l = some p') :
    p'.1 = p.1 ∧ client p'.2 = client p.2 := by
  rcases Throttle.producing_cases h with
    ⟨rfl, -⟩ | ⟨seen, rfl, -⟩ | ⟨e, rfl, hsends, -⟩ | ⟨e, rfl, -, hp, he⟩
  · cases hl
  · cases hl
  · have hnone : action e = none := Option.map_eq_none_iff.mp hl
    rw [sends, hnone] at hsends
    cases hsends
  · have hnone : action e = none := Option.map_eq_none_iff.mp hl
    rcases hstep _ _ _ he with ⟨-, hclient⟩ | ⟨a, ha, -⟩
    · exact ⟨hp, hclient⟩
    · cases hnone.symm.trans ha

theorem whole_shown
    (hstep : ∀ w e w', S.step w e = some w' → (action e = none ∧ client w' = client w) ∨
      ∃ a, action e = some a ∧ clientStep (client w) a = some (client w'))
    {l : Throttle.Label ε} {m : Event} {p p' : Throttle.Point × χ} (hl : eventOf action l = some m)
    (h : (Throttle.producing S (sends action) (fun w => size (client w)) limit).step p l = some p') :
    Program.step clientStep size limit ⟨p.1, client p.2⟩ m = some ⟨p'.1, client p'.2⟩ := by
  have hclient : ∀ {w e a w'}, action e = some a → S.step w e = some w' →
      clientStep (client w) a = some (client w') := by
    intro w e a w' ha h
    rcases hstep _ _ _ h with ⟨hnone, -⟩ | ⟨a', ha', hclient⟩
    · cases ha.symm.trans hnone
    · cases ha.symm.trans ha'
      exact hclient
  rcases Throttle.producing_cases h with
    ⟨rfl, hp, rfl⟩ | ⟨seen, rfl, hp, rfl⟩ | ⟨e, rfl, hsends, hp, hp', he⟩ |
    ⟨e, rfl, hsends, hp, he⟩
  · cases hl
    rw [hp]
    rfl
  · cases hl
    rw [hp]
    rfl
  · obtain ⟨a, ha, rfl⟩ := Option.map_eq_some_iff.mp hl
    rw [sends, ha, Option.bind_some] at hsends
    rw [hp, hp']
    cases a with
    | sendMsg msg =>
      show (clientStep (client p.2) (.sendMsg msg)).map _ = _
      rw [hclient ha he]
      rfl
    | tau => cases hsends
    | send o => cases hsends
    | recv o => cases hsends
  · obtain ⟨a, ha, rfl⟩ := Option.map_eq_some_iff.mp hl
    rw [sends, ha, Option.bind_some] at hsends
    rw [hp]
    cases a with
    | sendMsg msg => cases hsends
    | tau =>
      show (clientStep (client p.2) .tau).map _ = _
      rw [hclient ha he]
      rfl
    | send o =>
      show (clientStep (client p.2) (.send o)).map _ = _
      rw [hclient ha he]
      rfl
    | recv o =>
      show (clientStep (client p.2) (.recv o)).map _ = _
      rw [hclient ha he]
      rfl

variable (client)

/-- **The whole shows as a client with its `main`**, if every other step leaves the client alone. -/
def programView
    (hstep : ∀ w e w', S.step w e = some w' → (action e = none ∧ client w' = client w) ∨
      ∃ a, action e = some a ∧ clientStep (client w) a = some (client w')) :
    (Throttle.producing S (sends action) (fun w => size (client w)) limit).View
      (program clientStep size limit (client S.init)) where
  label := eventOf action
  shows p q := q = ⟨p.1, client p.2⟩
  init := rfl
  hidden _ _ _ _ hl hq h := by rw [hq, (whole_hidden hstep hl h).1, (whole_hidden hstep hl h).2]
  shown _ _ _ _ _ hl hq h := ⟨_, hq ▸ whole_shown hstep hl h, rfl⟩

end Whole

end Backlog

namespace DgramEndToEnd

variable {κ : Type*} {f : Str → κ → Option κ} {init : κ}

/-- What the client does in an event. -/
def Event.action : Event → Option ClientAction
  | .client a => some a
  | .server _ => none

/-- Every run of `main`, which waits while more than 2 messages are in the queue, with its client and
the worker. -/
def whole (f : Str → κ → Option κ) (init : κ) :
    System (Throttle.Point × World κ) (Throttle.Label Event) :=
  Throttle.producing (benchmark f init) (Backlog.sends Event.action)
    (fun w => w.client.sendMsgQueueSize) 2

/-- Client and worker. -/
def benchmarkView (f : Str → κ → Option κ) (init : κ) : (whole f init).View (benchmark f init) :=
  Throttle.system_view

theorem label_view (r : (whole f init).InfRun) {k : ℕ} {e : Event} :
    (r.view (benchmarkView f init)).label k = some e ↔ r.label k = some (.system e) :=
  Throttle.label_view r

theorem state_view (r : (whole f init).InfRun) (k : ℕ) :
    (r.view (benchmarkView f init)).state k = (r.state k).2 := Throttle.state_view r k

theorem clientStep_client {w w' : World κ} {a : ClientAction} (h : w.clientStep f a = some w') :
    w.client.step (recording f) a = some w'.client := by
  obtain ⟨c, hc, hw⟩ := Option.bind_eq_some_iff.mp h
  rw [hc]
  cases a with
  | sendMsg msg =>
    simp only at hw
    split at hw
    · cases hw
    · cases hw
      rfl
  | tau =>
    cases hw
    rfl
  | send o =>
    obtain ⟨channel, -, rfl⟩ := Option.map_eq_some_iff.mp hw
    rfl
  | recv o =>
    obtain ⟨channel, -, rfl⟩ := Option.map_eq_some_iff.mp hw
    rfl

theorem step_client {w w' : World κ} {e : Event} (h : (benchmark f init).step w e = some w') :
    (e.action = none ∧ w'.client = w.client) ∨
    ∃ a, e.action = some a ∧ w.client.step (recording f) a = some w'.client := by
  cases e with
  | client a => exact .inr ⟨a, rfl, clientStep_client h⟩
  | server o => exact .inl ⟨rfl, (serverStep_flow h).1⟩

/-- The client with its `main`. -/
def mainView (f : Str → κ → Option κ) (init : κ) :
    (whole f init).View (Backlog.dgram (recording f) (init, [])) :=
  Backlog.programView World.client fun _ _ _ h => step_client h

/-- A run of the whole is one of the client with its `main`. -/
theorem whole_backlog {ls : List (Throttle.Label Event)} {p : Throttle.Point × World κ}
    (h : (whole f init).run ls = some p) :
    (Backlog.dgram (recording f) (init, [])).run (ls.filterMap (Backlog.eventOf Event.action)) =
      some ⟨p.1, p.2.client⟩ := by
  obtain ⟨q, hq, rfl⟩ := (mainView f init).run h
  exact hq

/-- The bounds on the backlog hold in the whole. -/
theorem whole_bounded {ls : List (Throttle.Label Event)} {p : Throttle.Point × World κ}
    (h : (whole f init).run ls = some p) :
    p.2.client.sendMsgQueue.length ≤ 3 ∧ p.2.client.sendMsgBuff.length ≤ 3 :=
  ⟨Backlog.dgram_queue_bounded (whole_backlog h), Backlog.dgram_buff_bounded (whole_backlog h)⟩

/-! ### `main` goes on -/

/-- When pushing ends the queue gets empty. -/
theorem queue_of_quiet {r : (benchmark f init).InfRun} (hfair : Fair r) (hquiet : Quiet r) :
    ∀ᶠ k in atTop, (r.state k).client.sendMsgQueue = [] := by
  filter_upwards [delivered_of_quiet hfair hquiet] with k hk
  have hconserved : (r.state k).conduit.stages.flatten = (r.state k).pushed := (flow r k).2
  have hlength := congrArg List.length hconserved
  simp only [World.conduit, hk, List.flatten_cons, List.flatten_nil, List.append_nil,
    List.length_append] at hlength
  rw [← List.length_eq_zero_iff]
  omega

/-- If pushing never ends there is no end to the messages delivered. -/
theorem tendsto_delivered {r : (benchmark f init).InfRun} (hfair : Fair r) (hdrains : Drains r)
    (hpushes : ∃ᶠ k in atTop, ∃ msg, r.label k = some (.client (.sendMsg msg))) :
    Tendsto (fun k => (r.state k).delivered.length) atTop atTop := by
  have hpushed : Tendsto (fun k => (r.state k).pushed.length) atTop atTop := by
    refine tendsto_of_frequently_lt (fun j k hjk => ?_) (hpushes.mono ?_)
    · exact (Conduit.isPrefix_entered (c := fun k => (r.state k).conduit)
        (fun k => (flow r k).1) hjk).length_le
    · rintro k ⟨msg, hl⟩
      cases client_move hfair hl with
      | sendMsg _ hw' =>
        rw [hw', List.length_append]
        exact Nat.lt_succ_self _
  refine tendsto_atTop.mpr fun m => ?_
  obtain ⟨j, hj⟩ := (hpushed.eventually_ge_atTop m).exists
  filter_upwards [delivered_of_drains hfair hdrains j] with k hk
  exact hj.trans hk.length_le

/-- **The datagram benchmark goes on for ever.** If `main` and both threads go on, `main` pushes again
and again: it does not wait for ever for the queue to get shorter. If moreover the worker finds
nothing to receive again and again, there is no end to the messages delivered. -/
theorem dgram_goes_on {r : (whole f init).InfRun}
    (hmain : ∃ᶠ k in atTop, r.Takes (Throttle.Label.OfProducer (Backlog.sends Event.action)) k)
    (hfair : Fair (r.view (benchmarkView f init))) :
    (∃ᶠ k in atTop, ∃ msg, r.label k = some (.system (.client (.sendMsg msg)))) ∧
    (Drains (r.view (benchmarkView f init)) →
      Tendsto (fun k => (r.state k).2.delivered.length) atTop atTop) := by
  have hpushes : ∃ᶠ k in atTop, ∃ msg, r.label k = some (.system (.client (.sendMsg msg))) := by
    refine (Throttle.frequently_adds r hmain fun hnever => ?_).mono ?_
    · have hquiet : Quiet (r.view (benchmarkView f init)) := by
        filter_upwards [hnever] with k hk msg hl
        cases hk _ ((label_view r).mp hl)
      filter_upwards [queue_of_quiet hfair hquiet] with k hk
      rw [state_view] at hk
      show (r.state k).2.client.sendMsgQueue.length ≤ 2
      rw [hk]
      exact Nat.zero_le 2
    · rintro k ⟨e, hl, hsends⟩
      cases e with
      | server o => cases hsends
      | client a =>
        cases a with
        | sendMsg msg => exact ⟨msg, hl⟩
        | tau => cases hsends
        | send o => cases hsends
        | recv o => cases hsends
  refine ⟨hpushes, fun hdrains => ?_⟩
  have hshown : ∃ᶠ k in atTop, ∃ msg,
      (r.view (benchmarkView f init)).label k = some (.client (.sendMsg msg)) := by
    simpa only [label_view] using hpushes
  simpa only [state_view] using tendsto_delivered hfair hdrains hshown

/-- What follows when `['a']` is pushed: it goes round. -/
def roundTripMain : List Event :=
  [.client .tau, .client .tau, .client (.send (.ret 1)), .client .tau, .server (.recv (.ret ['a'])),
    .server (.recv (.error Udt.EASYNCRCV)), .server (.send (.ret 1)),
    .client (.recv (.ret ['a'])), .client (.recv (.error Udt.EASYNCRCV))]

/-- The world after a number of messages, with a callback that counts. -/
def afterRounds (j : ℕ) : World ℕ :=
  ⟨.replicate j ['a'], .start (j, .replicate j ['a']), [], true, .recv [], []⟩

theorem runFrom_roundTripMain (j : ℕ) : (benchmark (fun _ n => some (n + 1)) 0).runFrom
    (afterRounds j) (.client (.sendMsg ['a']) :: roundTripMain) = some (afterRounds (j + 1)) := by
  rw [show afterRounds (j + 1) = ⟨.replicate j ['a'] ++ [['a']],
    .start (j + 1, .replicate j ['a'] ++ [['a']]), [], true, .recv [], []⟩ from by
      rw [afterRounds, List.replicate_succ']]
  rfl

theorem ordinary_roundTripMain : ∀ e ∈ Event.client (.sendMsg ['a']) :: roundTripMain,
    ∀ o, e.outcome = some o → o.Ordinary := by
  simp [roundTripMain, Event.outcome, ClientAction.call, Outcome.Ordinary, RecvOutcome.Ordinary,
    SendOutcome.Ordinary]

/-- A run in which the message goes round again and again, and nothing else happens, is fair. -/
theorem fair_of_roundTripMain {r : (benchmark f init).InfRun}
    (honly : ∀ k e, r.label k = some e → e ∈ .client (.sendMsg ['a']) :: roundTripMain)
    (hagain : ∀ e ∈ roundTripMain, ∃ᶠ k in atTop, r.label k = some e) : Fair r where
  ordinary k e hl := ordinary_roundTripMain e (honly k e hl)
  clientMoves := (hagain (.client .tau) (by decide)).mono fun k hk => ⟨_, hk, .tau, rfl, rfl⟩
  serverMoves :=
    (hagain (.server (.send (.ret 1))) (by decide)).mono fun k hk => ⟨_, hk, _, rfl⟩
  clientSends _ := (hagain (.client (.send (.ret 1))) (by decide)).mono fun k hk => ⟨1, hk⟩
  serverSends _ := (hagain (.server (.send (.ret 1))) (by decide)).mono fun k hk => ⟨1, hk⟩
  clientRecvs _ := (hagain (.client (.recv (.ret ['a']))) (by decide)).mono fun k hk => ⟨['a'], hk⟩
  serverRecvs _ := (hagain (.server (.recv (.ret ['a']))) (by decide)).mono fun k hk => ⟨['a'], hk⟩

/-- One message after the other goes round. -/
def roundForEver : (whole (fun _ n => some (n + 1)) 0).Spiral where
  knot j := (.push, afterRounds j)
  turn _ := Throttle.round (.client (.sendMsg ['a'])) roundTripMain
  start := rfl
  turn_run j := Throttle.runFrom_round rfl (by decide) (runFrom_roundTripMain j) (Nat.zero_le 2)
  turn_ne _ := List.cons_ne_nil _ _

theorem frequently_roundForEver {l : Throttle.Label Event}
    (hl : l ∈ Throttle.round (.client (.sendMsg ['a'])) roundTripMain) :
    ∃ᶠ k in atTop, roundForEver.run.label k = some l :=
  roundForEver.frequently_label (Frequently.of_forall fun _ => hl)

theorem fair_roundForEver : Fair (roundForEver.run.view (benchmarkView _ _)) := by
  refine fair_of_roundTripMain (fun k e hl => ?_) fun e he => ?_
  · obtain ⟨j, hmem⟩ := roundForEver.exists_label_mem ((label_view _).mp hl)
    exact Throttle.system_mem_round.mp hmem
  · have hagain := frequently_roundForEver
      (Throttle.system_mem_round.mpr (List.mem_cons_of_mem _ he))
    exact hagain.mono fun k hk => (label_view _).mpr hk

theorem dgram_goes_on_roundForEver :
    ((∃ᶠ k in atTop,
        roundForEver.run.Takes (Throttle.Label.OfProducer (Backlog.sends Event.action)) k) ∧
      Fair (roundForEver.run.view (benchmarkView _ _)) ∧
      Drains (roundForEver.run.view (benchmarkView _ _))) ∧
    (∃ᶠ k in atTop, ∃ msg, roundForEver.run.label k = some (.system (.client (.sendMsg msg)))) ∧
    Tendsto (fun k => (roundForEver.run.state k).2.delivered.length) atTop atTop := by
  have hmain : ∃ᶠ k in atTop,
      roundForEver.run.Takes (Throttle.Label.OfProducer (Backlog.sends Event.action)) k :=
    (frequently_roundForEver (l := .readSize) (by decide)).mono fun k hk => ⟨_, hk, trivial⟩
  have hdrains : Drains (roundForEver.run.view (benchmarkView _ _)) :=
    (frequently_roundForEver (by decide)).mono fun k hk =>
      ⟨Udt.EASYNCRCV, (label_view _).mpr hk⟩
  have hgoes := dgram_goes_on hmain fair_roundForEver
  exact ⟨⟨hmain, fair_roundForEver, hdrains⟩, hgoes.1, hgoes.2 hdrains⟩

end DgramEndToEnd

namespace StreamEndToEnd

variable {n : ℕ} {clock : ℕ → UInt64}

/-- What the client does in an event. -/
def Event.action (n : ℕ) : Event → Option ClientAction
  | .sendMsg t => some (.sendMsg (makeTestStr n t))
  | .tau => some .tau
  | .clientSend o => some (.send o)
  | .clientRecv o => some (.recv o)
  | .serverSend _ | .serverRecv _ => none

/-- Every run of `main`, which waits while more than 500 * 50 bytes are in the string, with its client
and the worker. -/
def whole (n : ℕ) (clock : ℕ → UInt64) :
    System (Throttle.Point × World) (Throttle.Label Event) :=
  Throttle.producing (benchmark n clock) (Backlog.sends (Event.action n))
    (fun w => w.client.sendMsgBufSize) (500 * 50)

/-- Client and worker. -/
def benchmarkView (n : ℕ) (clock : ℕ → UInt64) : (whole n clock).View (benchmark n clock) :=
  Throttle.system_view

theorem label_view (r : (whole n clock).InfRun) {k : ℕ} {e : Event} :
    (r.view (benchmarkView n clock)).label k = some e ↔ r.label k = some (.system e) :=
  Throttle.label_view r

theorem state_view (r : (whole n clock).InfRun) (k : ℕ) :
    (r.view (benchmarkView n clock)).state k = (r.state k).2 := Throttle.state_view r k

theorem clientStep_client {w w' : World} {a : ClientAction} (h : w.clientStep n clock a = some w') :
    w.client.step (some (StreamClient.recvFunc n clock)) a = some w'.client := by
  obtain ⟨c, hc, hw⟩ := Option.bind_eq_some_iff.mp h
  rw [hc]
  cases a with
  | sendMsg msg =>
    cases hw
    rfl
  | tau =>
    cases hw
    rfl
  | send o =>
    obtain ⟨channel, -, rfl⟩ := Option.map_eq_some_iff.mp hw
    rfl
  | recv o =>
    obtain ⟨channel, -, rfl⟩ := Option.map_eq_some_iff.mp hw
    rfl

theorem serverStep_client {w w' : World} {o : Outcome} (h : w.serverStep o = some w') :
    w'.client = w.client := by
  obtain ⟨s, -, hw⟩ := Option.bind_eq_some_iff.mp h
  cases o with
  | recv r =>
    obtain ⟨channel, -, rfl⟩ := Option.map_eq_some_iff.mp hw
    rfl
  | send r =>
    simp only at hw
    split at hw
    · obtain ⟨channel, -, rfl⟩ := Option.map_eq_some_iff.mp hw
      rfl
    · cases hw

theorem step_client {w w' : World} {e : Event} (h : (benchmark n clock).step w e = some w') :
    (e.action n = none ∧ w'.client = w.client) ∨
    ∃ a, e.action n = some a ∧
      w.client.step (some (StreamClient.recvFunc n clock)) a = some w'.client := by
  cases e with
  | sendMsg t =>
    change w.sendMsg n clock t = some w' at h
    obtain ⟨w₁, hw₁, rfl⟩ := Option.map_eq_some_iff.mp h
    have hclient := clientStep_client hw₁
    exact .inr ⟨_, rfl, hclient⟩
  | tau => exact .inr ⟨_, rfl, clientStep_client h⟩
  | clientSend o => exact .inr ⟨_, rfl, clientStep_client h⟩
  | clientRecv o => exact .inr ⟨_, rfl, clientStep_client h⟩
  | serverSend o => exact .inl ⟨rfl, serverStep_client h⟩
  | serverRecv o => exact .inl ⟨rfl, serverStep_client h⟩

/-- The client with its `main`. -/
def mainView (n : ℕ) (clock : ℕ → UInt64) : (whole n clock).View
    (Backlog.stream (some (StreamClient.recvFunc n clock)) StreamClient.RecvState.init) :=
  Backlog.programView World.client fun _ _ _ h => step_client h

/-- A run of the whole is one of the client with its `main`. -/
theorem whole_backlog {ls : List (Throttle.Label Event)} {p : Throttle.Point × World}
    (h : (whole n clock).run ls = some p) :
    (Backlog.stream (some (StreamClient.recvFunc n clock)) StreamClient.RecvState.init).run
      (ls.filterMap (Backlog.eventOf (Event.action n))) = some ⟨p.1, p.2.client⟩ := by
  obtain ⟨q, hq, rfl⟩ := (mainView n clock).run h
  exact hq

/-! ### `main` goes on -/

/-- The network thread only takes away from the string. -/
theorem sendMsgBuf_of_step {w w' : World} {e : Event}
    (h : (benchmark n clock).step w e = some w') (hquiet : ∀ t, e ≠ .sendMsg t)
    (hbuf : w.client.sendMsgBuf = []) : w'.client.sendMsgBuf = [] := by
  rcases step_client h with ⟨-, hclient⟩ | ⟨a, ha, hclient⟩
  · rw [hclient, hbuf]
  · cases a with
    | sendMsg msg =>
      cases e with
      | sendMsg t => exact absurd rfl (hquiet t)
      | _ => cases ha
    | tau =>
      obtain ⟨-, hbuf', -⟩ := StreamClient.tau_cases hclient
      rw [hbuf', StreamClient.Client.unsent, hbuf, List.drop_nil]
    | send o =>
      obtain ⟨-, hbuf', -⟩ := StreamClient.send_cases hclient
      rw [hbuf', hbuf]
    | recv o =>
      obtain ⟨hbuf', -⟩ := StreamClient.recv_cases hclient
      rw [hbuf', hbuf]

/-- When pushing ends everything gets sent. -/
theorem unsent_of_quiet {r : (benchmark n clock).InfRun} (hfair : Fair r)
    (hfit : ∀ k, ReadingsFit n (r.state k).sent) (hquiet : Quiet r) :
    ∀ᶠ k in atTop, (r.state k).client.unsent = [] := by
  filter_upwards [received_of_quiet hfair hfit hquiet] with k hk
  have hconserved : ((r.state k).conduit n).stages.flatten = (r.state k).bytesSent n :=
    (flow hfit k).2.2
  have hlength := congrArg List.length hconserved
  simp only [World.conduit, hk, List.flatten_cons, List.flatten_nil, List.append_nil,
    List.length_append] at hlength
  rw [← List.length_eq_zero_iff]
  omega

/-- And then, after the next receive call, the string is empty. -/
theorem sendMsgBuf_of_quiet {r : (benchmark n clock).InfRun} (hfair : Fair r)
    (hfit : ∀ k, ReadingsFit n (r.state k).sent) (hquiet : Quiet r) :
    ∀ᶠ k in atTop, (r.state k).client.sendMsgBuf = [] := by
  apply eventually_of_stays
  · refine ((client_recvs hfair).and_eventually (unsent_of_quiet hfair hfit hquiet)).mono ?_
    rintro k ⟨⟨o, hl⟩, hunsent⟩
    obtain ⟨-, htaken, -⟩ := StreamClient.recv_cases (clientStep_client (r.step k _ hl))
    rw [← StreamClient.unsent_of_taken htaken, hunsent]
  · filter_upwards [hquiet] with k hk hbuf
    cases hl : r.label k with
    | none => rw [r.rest k hl, hbuf]
    | some e =>
      refine sendMsgBuf_of_step (r.step k e hl) (fun t he => hk t ?_) hbuf
      rw [hl, he]

theorem sent_of_sendMsg {w w' : World} {t : UInt64}
    (h : (benchmark n clock).step w (.sendMsg t) = some w') : w'.sent = w.sent ++ [t] := by
  change w.sendMsg n clock t = some w' at h
  obtain ⟨w₁, -, rfl⟩ := Option.map_eq_some_iff.mp h
  rfl

/-- The clock readings are those that messages were made with. -/
theorem forall_sent (r : (benchmark n clock).InfRun) {P : UInt64 → Prop}
    (h : ∀ k t, r.label k = some (.sendMsg t) → P t) (k : ℕ) : ∀ t ∈ (r.state k).sent, P t := by
  refine r.invariant (fun w => ∀ t ∈ w.sent, P t) (fun e => ∀ t, e = .sendMsg t → P t) ?_ ?_ ?_ k
  · intro t ht
    cases ht
  · rintro k e hl t rfl
    exact h k t hl
  · intro w e w' hkind hw hstep
    by_cases hsend : ∃ t, e = .sendMsg t
    · obtain ⟨t, rfl⟩ := hsend
      intro t' ht'
      rw [sent_of_sendMsg hstep, List.mem_append, List.mem_singleton] at ht'
      rcases ht' with ht' | rfl
      · exact hw t' ht'
      · exact hkind t' rfl
    · rw [sent_of_step hstep fun t ht => hsend ⟨t, ht⟩]
      exact hw

/-- If sending never ends there is no end to the messages handled. -/
theorem tendsto_frames {r : (benchmark n clock).InfRun} (hn : n < 10000000) (hfair : Fair r)
    (hfit : ∀ k, ReadingsFit n (r.state k).sent) (hdrains : Drains r)
    (hsends : ∃ᶠ k in atTop, ∃ t, r.label k = some (.sendMsg t)) :
    Tendsto (fun k => (r.state k).frames.length) atTop atTop := by
  have hsent : Tendsto (fun k => (r.state k).sent.length) atTop atTop := by
    refine tendsto_of_frequently_lt (monotone_nat_of_le_succ fun k => ?_) (hsends.mono ?_)
    · cases hl : r.label k with
      | none => rw [r.rest k hl]
      | some e => exact (step_sent (r.step k e hl)).length_le
    · rintro k ⟨t, hl⟩
      rw [sent_of_sendMsg (r.step k _ hl), List.length_append]
      exact Nat.lt_succ_self _
  refine tendsto_atTop.mpr fun m => ?_
  obtain ⟨j, hj⟩ := (hsent.eventually_ge_atTop m).exists
  filter_upwards [handled_of_drains hn hfair hfit hdrains j] with k hk
  rw [← List.length_map (makeTestStr n)] at hj
  exact hj.trans hk.length_le

/-- **The stream benchmark goes on for ever.** If `main` and both threads go on, `main` sends again
and again: it does not wait for ever for the string to get shorter. If moreover the worker finds
nothing to receive again and again, there is no end to the messages handled. -/
theorem stream_goes_on (hn : n < 10000000) {r : (whole n clock).InfRun}
    (hmain : ∃ᶠ k in atTop, r.Takes (Throttle.Label.OfProducer (Backlog.sends (Event.action n))) k)
    (hfair : Fair (r.view (benchmarkView n clock)))
    (hfit : ∀ k, ∀ t ∈ (r.state k).2.sent, t.toNat < 2 ^ 63 ∧ (decimal t.toNat).length < n) :
    (∃ᶠ k in atTop, ∃ t, r.label k = some (.system (.sendMsg t))) ∧
    (Drains (r.view (benchmarkView n clock)) →
      Tendsto (fun k => (r.state k).2.frames.length) atTop atTop) := by
  have hreadings : ∀ k, ReadingsFit n ((r.view (benchmarkView n clock)).state k).sent := by
    intro k
    rw [state_view]
    exact hfit k
  have hsends : ∃ᶠ k in atTop, ∃ t, r.label k = some (.system (.sendMsg t)) := by
    refine (Throttle.frequently_adds r hmain fun hnever => ?_).mono ?_
    · have hquiet : Quiet (r.view (benchmarkView n clock)) := by
        filter_upwards [hnever] with k hk t hl
        cases hk _ ((label_view r).mp hl)
      filter_upwards [sendMsgBuf_of_quiet hfair hreadings hquiet] with k hk
      rw [state_view] at hk
      show (r.state k).2.client.sendMsgBuf.length ≤ 500 * 50
      rw [hk]
      exact Nat.zero_le _
    · rintro k ⟨e, hl, hsends⟩
      cases e with
      | sendMsg t => exact ⟨t, hl⟩
      | _ => cases hsends
  refine ⟨hsends, fun hdrains => ?_⟩
  have hshown : ∃ᶠ k in atTop, ∃ t,
      (r.view (benchmarkView n clock)).label k = some (.sendMsg t) := by
    simpa only [label_view] using hsends
  simpa only [state_view] using tendsto_frames hn hfair hreadings hdrains hshown

/-- What follows when the message made at 7 is sent, until it has been echoed. -/
def echo : List Event :=
  [.tau, .clientSend (.ret 3), .tau, .clientRecv (.error Udt.EASYNCRCV),
    .serverRecv (.ret ['7', '_', ':']), .serverRecv (.error Udt.EASYNCRCV), .serverSend (.ret 3),
    .tau]

/-- And then it is received. -/
def roundTripMain : List Event := echo ++ [.clientRecv (.ret ['7', '_', ':'])]

/-- The world after a number of messages. -/
def afterRounds (j : ℕ) : World :=
  ⟨.replicate j 7,
    .start (.after 3 (fun _ => 12) (List.replicate j ['7', '_', ':']).flatten), [], .recv [], []⟩

theorem runFrom_echo (ts : List UInt64) (callback : StreamClient.RecvState) :
    (benchmark 3 fun _ => 12).runFrom
        ⟨ts, ⟨.loop, ['7', '_', ':'], true, callback⟩, [], .recv [], []⟩ echo =
      some ⟨ts, ⟨.recv true, [], true, callback⟩, [], .recv [], ['7', '_', ':']⟩ := rfl

theorem runFrom_roundTripMain (j : ℕ) :
    (benchmark 3 fun _ => 12).runFrom (afterRounds j) (.sendMsg 7 :: roundTripMain) =
      some (afterRounds (j + 1)) := by
  have hmsg : makeTestStr 3 7 = ['7', '_', ':'] := by decide +kernel
  have hsend : (benchmark 3 fun _ => 12).step (afterRounds j) (.sendMsg 7) =
      some ⟨.replicate j 7 ++ [7], ⟨.loop, ['7', '_', ':'], true, (afterRounds j).client.callback⟩,
        [], .recv [], []⟩ := by
    rw [← hmsg]
    rfl
  have hafter := StreamClient.recvFunc_after (n := 3) (by decide) (fun _ => 12)
    (List.replicate j ['7', '_', ':']).flatten ['7', '_', ':']
  rw [System.runFrom, hsend, Option.bind_some, roundTripMain, System.runFrom_append, runFrom_echo,
    Option.bind_some, show (afterRounds j).client.callback = .after 3 (fun _ => 12) _ from rfl]
  show ((((StreamClient.recvFunc 3 _ ['7', '_', ':'] _).map _).map _).bind _).bind _ = _
  rw [hafter]
  simp [afterRounds, StreamClient.Client.start, ByteChannel.recv, List.replicate_succ',
    System.runFrom]

theorem afterRounds_zero : afterRounds 0 = (benchmark 3 fun _ => 12).init := by
  rw [afterRounds, List.replicate_zero, List.replicate_zero, List.flatten_nil,
    StreamClient.RecvState.after_nil]
  rfl

theorem ordinary_roundTripMain : ∀ e ∈ Event.sendMsg 7 :: roundTripMain,
    ∀ o, e.outcome = some o → o.Ordinary := by
  simp [roundTripMain, echo, Event.outcome, Outcome.Ordinary, RecvOutcome.Ordinary,
    SendOutcome.Ordinary]

/-- A run in which the message goes round again and again, and nothing else happens, is fair. -/
theorem fair_of_roundTripMain {r : (benchmark n clock).InfRun}
    (honly : ∀ k e, r.label k = some e → e ∈ .sendMsg 7 :: roundTripMain)
    (hagain : ∀ e ∈ roundTripMain, ∃ᶠ k in atTop, r.label k = some e) : Fair r where
  ordinary k e hl := ordinary_roundTripMain e (honly k e hl)
  clientMoves := (hagain .tau (by decide)).mono fun k hk => ⟨_, hk, trivial⟩
  serverMoves := (hagain (.serverSend (.ret 3)) (by decide)).mono fun k hk => ⟨_, hk, trivial⟩
  clientSends _ := (hagain (.clientSend (.ret 3)) (by decide)).mono fun k hk => ⟨3, hk⟩
  serverSends _ := (hagain (.serverSend (.ret 3)) (by decide)).mono fun k hk => ⟨3, hk⟩
  clientRecvs _ :=
    (hagain (.clientRecv (.ret ['7', '_', ':'])) (by decide)).mono fun k hk => ⟨_, hk⟩
  serverRecvs _ :=
    (hagain (.serverRecv (.ret ['7', '_', ':'])) (by decide)).mono fun k hk => ⟨_, hk⟩

/-- And only the reading 7 is sent. -/
theorem sent_of_roundTripMain {r : (benchmark n clock).InfRun}
    (honly : ∀ k e, r.label k = some e → e ∈ .sendMsg 7 :: roundTripMain) (k : ℕ) :
    ∀ t ∈ (r.state k).sent, t = 7 := by
  refine forall_sent r (fun k t hl => ?_) k
  have hall : ∀ t, Event.sendMsg t ∈ Event.sendMsg 7 :: roundTripMain → t = 7 := by
    simp [roundTripMain, echo]
  exact hall t (honly k _ hl)

/-- One message after the other goes round. -/
def roundForEver : (whole 3 fun _ => 12).Spiral where
  knot j := (.push, afterRounds j)
  turn _ := Throttle.round (.sendMsg 7) roundTripMain
  start := congrArg _ afterRounds_zero
  turn_run j := Throttle.runFrom_round rfl (by decide) (runFrom_roundTripMain j) (Nat.zero_le _)
  turn_ne _ := List.cons_ne_nil _ _

theorem frequently_roundForEver {l : Throttle.Label Event}
    (hl : l ∈ Throttle.round (.sendMsg 7) roundTripMain) :
    ∃ᶠ k in atTop, roundForEver.run.label k = some l :=
  roundForEver.frequently_label (Frequently.of_forall fun _ => hl)

theorem mem_roundForEver {k : ℕ} {e : Event}
    (hl : (roundForEver.run.view (benchmarkView _ _)).label k = some e) :
    e ∈ .sendMsg 7 :: roundTripMain := by
  obtain ⟨j, hmem⟩ := roundForEver.exists_label_mem ((label_view _).mp hl)
  exact Throttle.system_mem_round.mp hmem

theorem fair_roundForEver : Fair (roundForEver.run.view (benchmarkView _ _)) := by
  refine fair_of_roundTripMain (fun k e => mem_roundForEver) fun e he => ?_
  have hagain := frequently_roundForEver
    (Throttle.system_mem_round.mpr (List.mem_cons_of_mem _ he))
  exact hagain.mono fun k hk => (label_view _).mpr hk

theorem stream_goes_on_roundForEver :
    ((∃ᶠ k in atTop,
        roundForEver.run.Takes (Throttle.Label.OfProducer (Backlog.sends (Event.action 3))) k) ∧
      Fair (roundForEver.run.view (benchmarkView _ _)) ∧
      (∀ k, ∀ t ∈ (roundForEver.run.state k).2.sent,
        t.toNat < 2 ^ 63 ∧ (decimal t.toNat).length < 3) ∧
      Drains (roundForEver.run.view (benchmarkView _ _))) ∧
    (∃ᶠ k in atTop, ∃ t, roundForEver.run.label k = some (.system (.sendMsg t))) ∧
    Tendsto (fun k => (roundForEver.run.state k).2.frames.length) atTop atTop := by
  have hmain : ∃ᶠ k in atTop,
      roundForEver.run.Takes (Throttle.Label.OfProducer (Backlog.sends (Event.action 3))) k :=
    (frequently_roundForEver (l := .readSize) (by decide)).mono fun k hk => ⟨_, hk, trivial⟩
  have hfit : ∀ k, ∀ t ∈ (roundForEver.run.state k).2.sent,
      t.toNat < 2 ^ 63 ∧ (decimal t.toNat).length < 3 := by
    intro k t ht
    rw [← state_view] at ht
    rw [sent_of_roundTripMain (fun k e => mem_roundForEver) k t ht]
    decide +kernel
  have hdrains : Drains (roundForEver.run.view (benchmarkView _ _)) :=
    (frequently_roundForEver (by decide)).mono fun k hk =>
      ⟨Udt.EASYNCRCV, (label_view _).mpr hk⟩
  have hgoes := stream_goes_on (by decide) hmain fair_roundForEver hfit
  exact ⟨⟨hmain, fair_roundForEver, hfit, hdrains⟩, hgoes.1, hgoes.2 hdrains⟩

end StreamEndToEnd

end ReliableUdpBench
