import Mathlib.Data.Nat.Count
import ReliableUdpBench.Connections
import ReliableUdpBench.MainLoop

/-!
# Every client is served

An infinite run of a server with any number of connections, in which `Run` goes on and accept never
fails for another reason than that there is nobody: every connection that is offered is accepted, and
if the threads of a connection that has been accepted are fair, what its client pushes comes back to
it. For the datagram server all connections have to be fair (`DgramEndToEnd.all_delivered`): one send
call that fails badly, on whichever of them, locks out whoever comes later. On the stream server a
connection is served whatever the others do (`StreamEndToEnd.each_delivered`).

A connection in such a run shows as an infinite run of the benchmark by itself, where everything
arrives.
-/

namespace ReliableUdpBench

open Lib Filter

/-- The accept call has returned a socket. -/
def AcceptOutcome.isRet : AcceptOutcome → Bool
  | .error _ => false
  | .ret _ => true

/-- How many of the first accept calls return a socket. -/
def connectionsOffered (offers : ℕ → AcceptOutcome) (calls : ℕ) : ℕ :=
  Nat.count (fun c => (offers c).isRet = true) calls

theorem connectionsOffered_error {offers : ℕ → AcceptOutcome} {c : ℕ} {code : ErrorCode}
    (h : offers c = .error code) :
    connectionsOffered offers (c + 1) = connectionsOffered offers c := by
  rw [connectionsOffered, Nat.count_succ, if_neg (by rw [h]; exact Bool.false_ne_true)]
  rfl

theorem connectionsOffered_ret {offers : ℕ → AcceptOutcome} {c : ℕ} {sock : ℤ}
    (h : offers c = .ret sock) :
    connectionsOffered offers (c + 1) = connectionsOffered offers c + 1 := by
  rw [connectionsOffered, Nat.count_succ, if_pos (by rw [h]; rfl)]
  rfl

/-- A connection that is offered is accepted if there is no end to the accept calls. -/
theorem eventually_accepted {offers : ℕ → AcceptOutcome} {calls workers : ℕ → ℕ}
    (hcalls : Tendsto calls atTop atTop)
    (hworkers : ∀ k, workers k = connectionsOffered offers (calls k)) {i c : ℕ}
    (hoffered : i < connectionsOffered offers c) : ∀ᶠ k in atTop, i < workers k := by
  filter_upwards [hcalls.eventually_ge_atTop c] with k hk
  rw [hworkers k]
  exact hoffered.trans_le (Nat.count_monotone _ hk)

/-! ### The datagram server -/

namespace DgramServer

/-- `Run` is in its loop and has started a worker for each connection it was offered. -/
structure Server.Accepting (offers : ℕ → AcceptOutcome) (s : Server) : Prop where
  udtRunning : s.udtRunning = true
  runPoint : s.runPoint = .test ∨ s.runPoint = .accept
  workers : s.workers.length = connectionsOffered offers s.acceptCalls

/-- A turn of `Run` goes from the test to the accept call, or makes it. -/
theorem Server.Accepting.runTurn {offers : ℕ → AcceptOutcome} {s : Server}
    (h : s.Accepting offers) (hoffers : ∀ c code, offers c = .error code → code = Udt.EASYNCRCV) :
    (s.runTurn offers).Accepting offers ∧
      ((s.runPoint = .test ∧ (s.runTurn offers).runPoint = .accept ∧
          (s.runTurn offers).acceptCalls = s.acceptCalls) ∨
        (s.runPoint = .accept ∧ (s.runTurn offers).acceptCalls = s.acceptCalls + 1)) := by
  rcases h.runPoint with hp | hp
  · have hturn : s.runTurn offers = { s with runPoint := .accept } := by
      simp [Server.runTurn, hp, h.udtRunning]
    rw [hturn]
    exact ⟨⟨h.udtRunning, .inr rfl, h.workers⟩, .inl ⟨hp, rfl, rfl⟩⟩
  · cases ho : offers s.acceptCalls with
    | error code =>
      have hturn : s.runTurn offers =
          { s with runPoint := .test, acceptCalls := s.acceptCalls + 1 } := by
        simp [Server.runTurn, hp, ho, hoffers _ _ ho]
      rw [hturn]
      refine ⟨⟨h.udtRunning, .inl rfl, ?_⟩, .inr ⟨hp, rfl⟩⟩
      show s.workers.length = connectionsOffered offers (s.acceptCalls + 1)
      rw [connectionsOffered_error ho, h.workers]
    | ret sock =>
      have hturn : s.runTurn offers = { s with
          runPoint := .test
          acceptCalls := s.acceptCalls + 1
          accepted := s.accepted ++ [sock]
          workers := s.workers ++ [.start] } := by
        simp [Server.runTurn, hp, ho]
      rw [hturn]
      refine ⟨⟨h.udtRunning, .inl rfl, ?_⟩, .inr ⟨hp, rfl⟩⟩
      show (s.workers ++ [Worker.start]).length = connectionsOffered offers (s.acceptCalls + 1)
      rw [connectionsOffered_ret ho, List.length_append, h.workers]
      rfl

/-- How far `Run` is from its accept call. -/
def toAccept : RunPoint → ℕ
  | .test => 1
  | .accept | .left _ => 0

end DgramServer

namespace DgramEndToEnd

variable {κ : Type*} {offers : ℕ → AcceptOutcome} {fs : ℕ → Str → κ → Option κ} {inits : ℕ → κ}

/-- What is relied on for a whole server: accept only fails because there is nobody, no call on any
connection has an outcome out of the ordinary, `Run` goes on, and the connections that have been
accepted are fair. -/
structure AllFair (r : (net offers fs inits).InfRun) : Prop where
  accepts : ∀ c code, offers c = .error code → code = Udt.EASYNCRCV
  ordinary : ∀ k i e, r.label k = some (.connection i e) →
    ∀ o, e.outcome = some o → o.Ordinary
  runMoves : ∃ᶠ k in atTop, r.label k = some .run
  connections : ∀ i, (∃ k, i < (r.state k).server.workers.length) →
    Fair (r.view (connectionView offers fs inits i))

/-- An ordinary step of a connection leaves the accept loop alone. -/
theorem server_of_connection {s s' : Net κ} {i : ℕ} {e : Event}
    (h : s.step offers fs (.connection i e) = some s')
    (hord : ∀ o, e.outcome = some o → o.Ordinary) :
    s'.server.udtRunning = s.server.udtRunning ∧ s'.server.runPoint = s.server.runPoint ∧
      s'.server.acceptCalls = s.server.acceptCalls ∧
      s'.server.workers.length = s.server.workers.length := by
  obtain ⟨w, hw, rfl, -⟩ := connection_cases (s.peers i).client.callback.1 h
  have hrunning : w.serverRunning = (s.world i).serverRunning := by
    cases e with
    | client a => exact (clientStep_server hw).1
    | server o =>
      cases serverStep_move hw (hord o rfl) with
      | drained code queue hserver hw' => rw [hw']
      | recv data queue channel hserver hchannel hw' => rw [hw']
      | full code front behind hserver hw' => rw [hw']
      | send count front behind hserver hw' => rw [hw']
  exact ⟨hrunning, rfl, rfl, List.length_set⟩

variable {r : (net offers fs inits).InfRun}

theorem accepting (haccepts : ∀ c code, offers c = .error code → code = Udt.EASYNCRCV)
    (hord : ∀ k i e, r.label k = some (.connection i e) → ∀ o, e.outcome = some o → o.Ordinary)
    (k : ℕ) : (r.state k).server.Accepting offers := by
  refine r.invariant (fun s => s.server.Accepting offers)
    (fun e => ∀ i e', e = .connection i e' → ∀ o, e'.outcome = some o → o.Ordinary) ?_ ?_ ?_ k
  · exact ⟨rfl, .inl rfl, rfl⟩
  · rintro k e hl i e' rfl
    exact hord k i e' hl
  · intro s e s' hord hs hstep
    cases e with
    | run =>
      cases hstep
      exact (hs.runTurn haccepts).1
    | connection i e =>
      obtain ⟨hrunning, hpoint, hcalls, hworkers⟩ := server_of_connection hstep (hord i e rfl)
      exact ⟨hrunning.trans hs.udtRunning, hpoint ▸ hs.runPoint,
        by rw [hworkers, hcalls, hs.workers]⟩

/-- A turn of `Run` in the run. -/
theorem runTurn_cases (hfair : AllFair r) {k : ℕ} (hl : r.label k = some .run) :
    ((r.state k).server.runPoint = .test ∧ (r.state (k + 1)).server.runPoint = .accept ∧
        (r.state (k + 1)).server.acceptCalls = (r.state k).server.acceptCalls) ∨
      ((r.state k).server.runPoint = .accept ∧
        (r.state (k + 1)).server.acceptCalls = (r.state k).server.acceptCalls + 1) := by
  have hstep : some { r.state k with server := (r.state k).server.runTurn offers } =
      some (r.state (k + 1)) := r.step k _ hl
  rw [← Option.some.inj hstep]
  exact ((accepting hfair.accepts hfair.ordinary k).runTurn hfair.accepts).2

theorem other_run (hfair : AllFair r) {k : ℕ} (hl : r.label k ≠ some .run) :
    (r.state (k + 1)).server.runPoint = (r.state k).server.runPoint ∧
      (r.state (k + 1)).server.acceptCalls = (r.state k).server.acceptCalls := by
  cases he : r.label k with
  | none =>
    rw [r.rest k he]
    exact ⟨rfl, rfl⟩
  | some e =>
    cases e with
    | run => exact absurd he hl
    | connection i e =>
      obtain ⟨-, hpoint, hcalls, -⟩ :=
        server_of_connection (r.step k _ he) (hfair.ordinary k i e he)
      exact ⟨hpoint, hcalls⟩

/-- There is no end to the accept calls. -/
theorem tendsto_acceptCalls (hfair : AllFair r) :
    Tendsto (fun k => (r.state k).server.acceptCalls) atTop atTop := by
  apply tendsto_of_frequently_lt
  · refine monotone_nat_of_le_succ fun k => ?_
    by_cases hl : r.label k = some .run
    · rcases runTurn_cases hfair hl with ⟨-, -, hcalls⟩ | ⟨-, hcalls⟩ <;> omega
    · exact (other_run hfair hl).2.ge
  · refine frequently_of_rank (fun k => DgramServer.toAccept (r.state k).server.runPoint)
      hfair.runMoves ?_ ?_
    · filter_upwards with k hl
      rcases runTurn_cases hfair hl with ⟨hp, hp', -⟩ | ⟨-, hcalls⟩
      · right
        rw [hp, hp']
        exact Nat.zero_lt_one
      · left
        omega
    · filter_upwards with k hl
      rw [(other_run hfair hl).1]

theorem state_connectionView (i k : ℕ) :
    ((r.view (connectionView offers fs inits i)).state k).pushed = ((r.state k).peers i).pushed ∧
      ((r.view (connectionView offers fs inits i)).state k).delivered =
        ((r.state k).peers i).client.callback.2 := by
  obtain ⟨b, hb⟩ := r.shows_view (connectionView offers fs inits i) k
  rw [hb]
  exact ⟨rfl, rfl⟩

/-- **Every client of the datagram server is served**, if the server and all its connections are
fair: each connection that is offered is accepted, and if its worker finds nothing to receive again and
again, whatever its client pushes comes back to it; if the client ends pushing, that is so, and it gets
back everything. -/
theorem all_delivered (hfair : AllFair r) {i c : ℕ} (hoffered : i < connectionsOffered offers c) :
    (∀ᶠ k in atTop, i < (r.state k).server.workers.length) ∧
    (Drains (r.view (connectionView offers fs inits i)) → ∀ j, ∀ᶠ k in atTop,
      ((r.state j).peers i).pushed <+: ((r.state k).peers i).client.callback.2) ∧
    (Quiet (r.view (connectionView offers fs inits i)) → ∀ᶠ k in atTop,
      ((r.state k).peers i).client.callback.2 = ((r.state k).peers i).pushed) := by
  have haccepted : ∀ᶠ k in atTop, i < (r.state k).server.workers.length :=
    eventually_accepted (tendsto_acceptCalls hfair)
      (fun k => (accepting hfair.accepts hfair.ordinary k).workers) hoffered
  have hconnection := hfair.connections i haccepted.exists
  refine ⟨haccepted, fun hdrains j => ?_, fun hquiet => ?_⟩
  · filter_upwards [delivered_of_drains hconnection hdrains j] with k hk
    rwa [(state_connectionView i j).1, (state_connectionView i k).2] at hk
  · filter_upwards [delivered_of_quiet hconnection hquiet] with k hk
    rwa [(state_connectionView i k).1, (state_connectionView i k).2] at hk

/-! #### A server with one client -/

theorem setWorld_world {s : Net κ} {i : ℕ} (hi : i < s.server.workers.length) :
    s.setWorld i (s.world i) = s := by
  have hworkers : s.server.workers.set i (s.server.workers.getD i .start) = s.server.workers := by
    rw [List.getD_eq_getElem?_getD, List.getElem?_eq_getElem hi, Option.getD_some,
      List.set_getElem_self]
  simp only [Net.setWorld, Net.world, hworkers, Function.update_eq_self]

theorem setWorld_setWorld (s : Net κ) (i : ℕ) (w w' : World κ) :
    (s.setWorld i w).setWorld i w' = s.setWorld i w' := by
  simp only [Net.setWorld, List.set_set, Function.update_idem]

/-- A run of the benchmark can happen on a connection that has been accepted. -/
theorem runFrom_connection {s : Net κ} {i : ℕ} {es : List Event} {w : World κ}
    (hi : i < s.server.workers.length)
    (h : (benchmark (fs i) (inits i)).runFrom (s.world i) es = some w) :
    (net offers fs inits).runFrom s (es.map (.connection i)) = some (s.setWorld i w) := by
  induction es generalizing s with
  | nil =>
    cases h
    exact congrArg some (setWorld_world hi).symm
  | cons e es ih =>
    obtain ⟨w₁, he, hrest⟩ := Option.bind_eq_some_iff.mp h
    have hstep : s.step offers fs (.connection i e) = some (s.setWorld i w₁) := by
      cases e with
      | client a => exact congrArg (Option.map (s.setWorld i)) he
      | server o =>
        simp only [Net.step, if_pos hi]
        exact congrArg (Option.map (s.setWorld i)) he
    have hworld : (s.setWorld i w₁).world i = w₁ := world_setWorld_self s i w₁ (.inl hi)
    have htail := ih (s := s.setWorld i w₁) (by rwa [Net.setWorld, List.length_set])
      (by rwa [hworld])
    rw [setWorld_setWorld] at htail
    exact Option.bind_eq_some_iff.mpr ⟨_, hstep, htail⟩

theorem label_connectionView {i k : ℕ} {e : Event} :
    (r.view (connectionView offers fs inits i)).label k = some e ↔
      r.label k = some (.connection i e) := by
  refine (r.view_label_eq_some _).trans ?_
  show (∃ l, r.label k = some l ∧ l.at i = some e) ↔ _
  simp only [NetEvent.at_eq_some, exists_eq_right]

/-- One peer connects. -/
def onePeer : ℕ → AcceptOutcome
  | 0 => .ret 7
  | _ + 1 => .error Udt.EASYNCRCV

theorem connectionsOffered_onePeer (c : ℕ) : connectionsOffered onePeer (c + 1) = 1 := by
  induction c with
  | zero => rfl
  | succ c ih => rw [connectionsOffered_error (show onePeer (c + 1) = _ from rfl), ih]

/-- The server has accepted one connection, and `Run` is at the test of its loop. -/
def oneAccepted (calls : ℕ) : Net ℕ :=
  ⟨⟨true, .test, calls, [7], [.start]⟩, fun _ => ⟨[], .start (0, []), [], []⟩⟩

/-- The client of the net with one peer counts its messages. -/
abbrev oneNet : System (Net ℕ) NetEvent := net onePeer (fun _ _ n => some (n + 1)) fun _ => 0

/-- After a number of messages have gone round. -/
def oneKnot : ℕ → Net ℕ
  | 0 => oneNet.init
  | j + 1 => (oneAccepted (j + 1)).setWorld 0 (afterRounds j)

/-- `Run` makes an accept call, which accepts the connection or finds nobody, and from then on a
message goes round. -/
def oneTurn : ℕ → List NetEvent
  | 0 => [.run, .run]
  | _ + 1 => .run :: .run :: (.client (.sendMsg ['a']) :: roundTripMain).map (.connection 0)

/-- `Run` finds nobody. -/
theorem runTurn_onePeer (calls : ℕ) (s : Net ℕ)
    (hs : s.server = ⟨true, .test, calls + 1, [7], [.recv []]⟩) (es : List NetEvent) :
    oneNet.runFrom s (.run :: .run :: es) =
      oneNet.runFrom ⟨⟨true, .test, calls + 2, [7], [.recv []]⟩, s.peers⟩ es := by
  show oneNet.runFrom ⟨(s.server.runTurn onePeer).runTurn onePeer, s.peers⟩ es = _
  rw [hs]
  rfl

theorem runFrom_oneTurn (j : ℕ) : oneNet.runFrom (oneKnot j) (oneTurn j) = some (oneKnot (j + 1)) := by
  cases j with
  | zero =>
    have hstart : (oneAccepted 1).setWorld 0 (afterRounds 0) = oneAccepted 1 :=
      setWorld_world (s := oneAccepted 1) Nat.zero_lt_one
    show _ = some ((oneAccepted 1).setWorld 0 (afterRounds 0))
    rw [hstart]
    rfl
  | succ j =>
    have hworld : ((oneAccepted (j + 2)).setWorld 0 (afterRounds j)).world 0 = afterRounds j :=
      world_setWorld_self _ 0 _ (.inl Nat.zero_lt_one)
    have hround : oneNet.runFrom ((oneAccepted (j + 2)).setWorld 0 (afterRounds j))
        ((.client (.sendMsg ['a']) :: roundTripMain).map (.connection 0)) =
          some (((oneAccepted (j + 2)).setWorld 0 (afterRounds j)).setWorld 0 (afterRounds (j + 1))) :=
      runFrom_connection Nat.zero_lt_one (hworld ▸ runFrom_roundTripMain j)
    rw [setWorld_setWorld] at hround
    rw [oneKnot, oneTurn, runTurn_onePeer j _ rfl]
    exact hround

/-- The server accepts one connection, on which one message after the other goes round. -/
def oneForEver : oneNet.Spiral where
  knot := oneKnot
  turn := oneTurn
  start := rfl
  turn_run := runFrom_oneTurn
  turn_ne
    | 0 => List.cons_ne_nil _ _
    | _ + 1 => List.cons_ne_nil _ _

theorem mem_oneForEver {i k : ℕ} {e : Event}
    (hl : oneForEver.run.label k = some (.connection i e)) :
    i = 0 ∧ e ∈ .client (.sendMsg ['a']) :: roundTripMain := by
  obtain ⟨j, hmem⟩ := oneForEver.exists_label_mem hl
  change NetEvent.connection i e ∈ oneTurn j at hmem
  cases j with
  | zero => simp [oneTurn] at hmem
  | succ j =>
    simp only [oneTurn, List.mem_cons, reduceCtorEq, false_or] at hmem
    obtain ⟨e', he', heq⟩ := List.mem_map.mp hmem
    cases heq
    exact ⟨rfl, he'⟩

theorem frequently_oneForEver {l : NetEvent} (hl : l ∈ oneTurn 1) :
    ∃ᶠ k in atTop, oneForEver.run.label k = some l := by
  refine oneForEver.frequently_label (frequently_atTop.mpr fun j => ⟨j + 1, Nat.le_succ j, ?_⟩)
  exact hl

theorem frequently_connection {e : Event} (he : e ∈ roundTripMain) :
    ∃ᶠ k in atTop, (oneForEver.run.view (connectionView _ _ _ 0)).label k = some e := by
  have hmem : NetEvent.connection 0 e ∈ oneTurn 1 :=
    .tail _ (.tail _ (List.mem_map_of_mem (List.mem_cons_of_mem _ he)))
  exact (frequently_oneForEver hmem).mono fun k hk => label_connectionView.mpr hk

theorem fair_oneForEver :
    Fair (oneForEver.run.view (connectionView onePeer (fun _ _ n => some (n + 1)) (fun _ => 0) 0)) := by
  refine fair_of_roundTripMain (fun k e hl => ?_) fun e => frequently_connection
  exact (mem_oneForEver (label_connectionView.mp hl)).2

theorem allFair_oneForEver : AllFair oneForEver.run := by
  have haccepts : ∀ c code, onePeer c = .error code → code = Udt.EASYNCRCV := by
    intro c code hc
    cases c with
    | zero => cases hc
    | succ c => exact (AcceptOutcome.error.inj hc).symm
  have hord : ∀ k i e, oneForEver.run.label k = some (.connection i e) →
      ∀ o, e.outcome = some o → o.Ordinary :=
    fun k i e hl => ordinary_roundTripMain e (mem_oneForEver hl).2
  refine ⟨haccepts, hord, frequently_oneForEver List.mem_cons_self, fun i hi => ?_⟩
  obtain ⟨k, hk⟩ := hi
  rw [(accepting haccepts hord k).workers] at hk
  have hle : connectionsOffered onePeer (oneForEver.run.state k).server.acceptCalls ≤ 1 := by
    cases (oneForEver.run.state k).server.acceptCalls with
    | zero => exact Nat.zero_le 1
    | succ c => exact (connectionsOffered_onePeer c).le
  obtain rfl : i = 0 := by omega
  exact fair_oneForEver

theorem all_delivered_oneForEver :
    (AllFair oneForEver.run ∧ 0 < connectionsOffered onePeer 1 ∧
      Drains (oneForEver.run.view (connectionView _ _ _ 0))) ∧
    (∀ᶠ k in atTop, 0 < (oneForEver.run.state k).server.workers.length) ∧
    ∀ j, ∀ᶠ k in atTop, ((oneForEver.run.state j).peers 0).pushed <+:
      ((oneForEver.run.state k).peers 0).client.callback.2 := by
  have hdrains : Drains (oneForEver.run.view (connectionView _ _ _ 0)) :=
    (frequently_connection (by decide)).mono fun k hk => ⟨Udt.EASYNCRCV, hk⟩
  have hoffered : 0 < connectionsOffered onePeer 1 := by decide
  have hdelivered := all_delivered allFair_oneForEver hoffered
  exact ⟨⟨allFair_oneForEver, hoffered, hdrains⟩, hdelivered.1, hdelivered.2.1 hdrains⟩

end DgramEndToEnd

/-! ### The stream server -/

namespace StreamServer

/-- `Run` is in its loop and has started a worker for each connection it was offered. -/
structure Server.Accepting (offers : ℕ → AcceptOutcome) (s : Server) : Prop where
  runPoint : s.runPoint = .accept
  workers : s.workers.length = connectionsOffered offers s.acceptCalls

/-- A turn of `Run` makes the accept call. -/
theorem Server.Accepting.runTurn {offers : ℕ → AcceptOutcome} {s : Server}
    (h : s.Accepting offers) (hoffers : ∀ c code, offers c = .error code → code = Udt.EASYNCRCV) :
    (s.runTurn offers).Accepting offers ∧ (s.runTurn offers).acceptCalls = s.acceptCalls + 1 := by
  cases ho : offers s.acceptCalls with
  | error code =>
    have hturn : s.runTurn offers = { s with acceptCalls := s.acceptCalls + 1 } := by
      simp [Server.runTurn, h.runPoint, ho, hoffers _ _ ho]
    rw [hturn]
    refine ⟨⟨h.runPoint, ?_⟩, rfl⟩
    show s.workers.length = connectionsOffered offers (s.acceptCalls + 1)
    rw [connectionsOffered_error ho, h.workers]
  | ret sock =>
    have hturn : s.runTurn offers = { s with
        acceptCalls := s.acceptCalls + 1
        accepted := s.accepted ++ [sock]
        workers := s.workers ++ [.start] } := by
      simp [Server.runTurn, h.runPoint, ho]
    rw [hturn]
    refine ⟨⟨h.runPoint, ?_⟩, rfl⟩
    show (s.workers ++ [Worker.start]).length = connectionsOffered offers (s.acceptCalls + 1)
    rw [connectionsOffered_ret ho, List.length_append, h.workers]
    rfl

end StreamServer

namespace StreamEndToEnd

variable {offers : ℕ → AcceptOutcome} {ns : ℕ → ℕ} {clocks : ℕ → ℕ → UInt64}

/-- What happens on a connection leaves the accept loop alone. -/
theorem server_of_connection (offers : ℕ → AcceptOutcome) {s s' : Net} {i : ℕ} {e : Event}
    (h : s.step offers ns clocks (.connection i e) = some s') :
    s'.server.runPoint = s.server.runPoint ∧ s'.server.acceptCalls = s.server.acceptCalls ∧
      s'.server.workers.length = s.server.workers.length := by
  obtain ⟨w, -, rfl, -⟩ := connection_cases offers h
  exact ⟨rfl, rfl, List.length_set⟩

variable {r : (net offers ns clocks).InfRun}

theorem accepting (haccepts : ∀ c code, offers c = .error code → code = Udt.EASYNCRCV) (k : ℕ) :
    (r.state k).server.Accepting offers := by
  refine r.invariant (fun s => s.server.Accepting offers) (fun _ => True) ⟨rfl, rfl⟩
    (fun _ _ _ => trivial) (fun s e s' _ hs hstep => ?_) k
  cases e with
  | run =>
    cases hstep
    exact (hs.runTurn haccepts).1
  | connection i e =>
    obtain ⟨hpoint, hcalls, hworkers⟩ := server_of_connection offers hstep
    exact ⟨hpoint.trans hs.runPoint, by rw [hworkers, hcalls, hs.workers]⟩

/-- There is no end to the accept calls. -/
theorem tendsto_acceptCalls (haccepts : ∀ c code, offers c = .error code → code = Udt.EASYNCRCV)
    (hmoves : ∃ᶠ k in atTop, r.label k = some .run) :
    Tendsto (fun k => (r.state k).server.acceptCalls) atTop atTop := by
  have hrun : ∀ k, r.label k = some .run →
      (r.state (k + 1)).server.acceptCalls = (r.state k).server.acceptCalls + 1 := by
    intro k hl
    have hstep : some { r.state k with server := (r.state k).server.runTurn offers } =
        some (r.state (k + 1)) := r.step k _ hl
    rw [← Option.some.inj hstep]
    exact ((accepting haccepts k).runTurn haccepts).2
  apply tendsto_of_frequently_lt
  · refine monotone_nat_of_le_succ fun k => ?_
    cases hl : r.label k with
    | none => rw [r.rest k hl]
    | some e =>
      cases e with
      | run => exact (Nat.le_succ _).trans_eq (hrun k hl).symm
      | connection i e => exact (server_of_connection offers (r.step k _ hl)).2.1.ge
  · exact hmoves.mono fun k hl => (Nat.lt_succ_self _).trans_eq (hrun k hl).symm

theorem state_connectionView (i k : ℕ) :
    (r.view (connectionView offers ns clocks i)).state k = (r.state k).world i :=
  (r.shows_view (connectionView offers ns clocks i) k).symm

theorem setWorld_world {s : Net} {i : ℕ} (hi : i < s.server.workers.length) :
    s.setWorld i (s.world i) = s := by
  have hworkers : s.server.workers.set i (s.server.workers.getD i .start) = s.server.workers := by
    rw [List.getD_eq_getElem?_getD, List.getElem?_eq_getElem hi, Option.getD_some,
      List.set_getElem_self]
  simp only [Net.setWorld, Net.world, hworkers, Function.update_eq_self]

theorem setWorld_setWorld (s : Net) (i : ℕ) (w w' : World) :
    (s.setWorld i w).setWorld i w' = s.setWorld i w' := by
  simp only [Net.setWorld, List.set_set, Function.update_idem]

/-- A run of the benchmark can happen on a connection that has been accepted. -/
theorem runFrom_connection {s : Net} {i : ℕ} {es : List Event} {w : World}
    (hi : i < s.server.workers.length)
    (h : (benchmark (ns i) (clocks i)).runFrom (s.world i) es = some w) :
    (net offers ns clocks).runFrom s (es.map (.connection i)) = some (s.setWorld i w) := by
  induction es generalizing s with
  | nil =>
    cases h
    exact congrArg some (setWorld_world hi).symm
  | cons e es ih =>
    obtain ⟨w₁, he, hrest⟩ := Option.bind_eq_some_iff.mp h
    have hstarted : ¬(e.ofServer ∧ s.server.workers.length ≤ i) :=
      fun hwaits => Nat.not_le.mpr hi hwaits.2
    have hstep : s.step offers ns clocks (.connection i e) = some (s.setWorld i w₁) := by
      simp only [Net.step, if_neg hstarted]
      exact congrArg (Option.map (s.setWorld i)) he
    have hworld : (s.setWorld i w₁).world i = w₁ := world_setWorld_self s i w₁ (.inl hi)
    have htail := ih (s := s.setWorld i w₁) (by rwa [Net.setWorld, List.length_set])
      (by rwa [hworld])
    rw [setWorld_setWorld] at htail
    exact Option.bind_eq_some_iff.mpr ⟨_, hstep, htail⟩

theorem label_connectionView {i k : ℕ} {e : Event} :
    (r.view (connectionView offers ns clocks i)).label k = some e ↔
      r.label k = some (.connection i e) := by
  refine (r.view_label_eq_some _).trans ?_
  show (∃ l, r.label k = some l ∧ l.at i = some e) ↔ _
  simp only [NetEvent.at_eq_some, exists_eq_right]

/-- The server has accepted both connections. -/
def twoAccepted (calls : ℕ) : Net :=
  ⟨⟨.accept, calls, [7, 8], [.start, .start]⟩,
    fun _ => ⟨[], .start StreamClient.RecvState.init, [], []⟩⟩

/-- Both clients send messages of three bytes. -/
abbrev twoNet : System Net NetEvent := net DgramServer.twoPeers (fun _ => 3) fun _ _ => 12

/-- After a number of messages have gone round on the second connection. -/
def twoKnot : ℕ → Net
  | 0 => twoNet.init
  | j + 1 => (twoAccepted (j + 2)).setWorld 1 (afterRounds j)

/-- Both connections are accepted, and from then on a message goes round on the second one. -/
def twoTurn : ℕ → List NetEvent
  | 0 => [.run, .run]
  | _ + 1 => .run :: (.sendMsg 7 :: roundTripMain).map (.connection 1)

/-- `Run` finds nobody. -/
theorem runTurn_twoPeers (calls : ℕ) (s : Net)
    (hs : s.server = ⟨.accept, calls + 2, [7, 8], [.start, .recv []]⟩) (es : List NetEvent) :
    twoNet.runFrom s (.run :: es) =
      twoNet.runFrom ⟨⟨.accept, calls + 3, [7, 8], [.start, .recv []]⟩, s.peers⟩ es := by
  show twoNet.runFrom ⟨s.server.runTurn DgramServer.twoPeers, s.peers⟩ es = _
  rw [hs]
  rfl

theorem runFrom_twoTurn (j : ℕ) : twoNet.runFrom (twoKnot j) (twoTurn j) = some (twoKnot (j + 1)) := by
  cases j with
  | zero =>
    have hstart : (twoAccepted 2).setWorld 1 (afterRounds 0) = twoAccepted 2 := by
      rw [afterRounds_zero]
      exact setWorld_world (s := twoAccepted 2) Nat.one_lt_two
    show _ = some ((twoAccepted 2).setWorld 1 (afterRounds 0))
    rw [hstart]
    rfl
  | succ j =>
    have hworld : ((twoAccepted (j + 3)).setWorld 1 (afterRounds j)).world 1 = afterRounds j :=
      world_setWorld_self _ 1 _ (.inl Nat.one_lt_two)
    have hround : twoNet.runFrom ((twoAccepted (j + 3)).setWorld 1 (afterRounds j))
        ((.sendMsg 7 :: roundTripMain).map (.connection 1)) =
          some (((twoAccepted (j + 3)).setWorld 1 (afterRounds j)).setWorld 1 (afterRounds (j + 1))) :=
      runFrom_connection Nat.one_lt_two (hworld ▸ runFrom_roundTripMain j)
    rw [setWorld_setWorld] at hround
    rw [twoKnot, twoTurn, runTurn_twoPeers j _ rfl]
    exact hround

/-- The server accepts two connections. On the first nothing ever happens, on the second one message
after the other goes round. -/
def twoForEver : twoNet.Spiral where
  knot := twoKnot
  turn := twoTurn
  start := rfl
  turn_run := runFrom_twoTurn
  turn_ne
    | 0 => List.cons_ne_nil _ _
    | _ + 1 => List.cons_ne_nil _ _

theorem frequently_twoForEver {l : NetEvent} (hl : l ∈ twoTurn 1) :
    ∃ᶠ k in atTop, twoForEver.run.label k = some l := by
  refine twoForEver.frequently_label (frequently_atTop.mpr fun j => ⟨j + 1, Nat.le_succ j, ?_⟩)
  exact hl

theorem frequently_connection {e : Event} (he : e ∈ roundTripMain) :
    ∃ᶠ k in atTop, (twoForEver.run.view (connectionView _ _ _ 1)).label k = some e := by
  have hmem : NetEvent.connection 1 e ∈ twoTurn 1 :=
    .tail _ (List.mem_map_of_mem (List.mem_cons_of_mem _ he))
  exact (frequently_twoForEver hmem).mono fun k hk => label_connectionView.mpr hk

end StreamEndToEnd

end ReliableUdpBench
