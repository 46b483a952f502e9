import ReliableUdpBench.Connections

/-!
# One lost peer locks everybody else out

The workers of the datagram server share `udt_running_` with its accept loop, and a send call that
fails badly clears it. From then on the server accepts at most the connection whose accept call is
already being made. Whoever comes later can push what he likes: nothing ever comes back
(`DgramEndToEnd.lockout`). Those who are connected are served only until `Run` has left its loop: then
`main` returns, and the process ends with its workers. The accept loop of the stream server does not
depend on its workers (`StreamEndToEnd.server_and_connections_alone`).
-/

namespace ReliableUdpBench

open Lib

namespace DgramServer

/-- How many workers there can be once the flag is cleared: an accept call that is being made may
still add one. -/
def Server.seats (s : Server) : ℕ := s.workers.length + if s.runPoint = .accept then 1 else 0

/-- Once the flag is cleared it stays so, and no seat is added. -/
structure Server.Closing (seats : ℕ) (s : Server) : Prop where
  udtRunning : s.udtRunning = false
  seats_le : s.seats ≤ seats

theorem Server.Closing.runTurn {offers : ℕ → AcceptOutcome} {seats : ℕ} {s : Server}
    (h : s.Closing seats) : (s.runTurn offers).Closing seats := by
  have hseats := h.seats_le
  unfold Server.seats at hseats
  unfold Server.runTurn
  cases hp : s.runPoint with
  | test =>
    -- the test of the loop finds the flag cleared
    simp only [h.udtRunning, Bool.false_eq_true, if_false]
    refine ⟨rfl, ?_⟩
    simpa [Server.seats, hp] using hseats
  | accept =>
    rw [hp, if_pos rfl] at hseats
    cases offers s.acceptCalls with
    | error code =>
      by_cases hcode : code = Udt.EASYNCRCV
      · simp only [hcode, if_true]
        refine ⟨h.udtRunning, ?_⟩
        show s.workers.length + 0 ≤ seats
        omega
      · simp only [hcode, if_false]
        refine ⟨rfl, ?_⟩
        show s.workers.length + 0 ≤ seats
        omega
    | ret sock =>
      refine ⟨h.udtRunning, ?_⟩
      show (s.workers ++ [Worker.start]).length + 0 ≤ seats
      rw [List.length_append]
      exact hseats
  | left reason => exact h

theorem seats_worker {offers : ℕ → AcceptOutcome} {s s' : Server} {i : ℕ} {o : Outcome}
    (h : s.step offers (.worker i o) = some s') : s'.seats = s.seats := by
  simp only [Server.step, Option.bind_eq_bind, Option.bind_eq_some_iff, Option.pure_def,
    Option.some.injEq, Prod.exists] at h
  obtain ⟨w, -, running', w', -, rfl⟩ := h
  simp only [Server.seats, List.length_set]

theorem Server.Closing.step {offers : ℕ → AcceptOutcome} {seats : ℕ} {s s' : Server} {t : Turn}
    (h : s.Closing seats) (hstep : s.step offers t = some s') : s'.Closing seats := by
  cases t with
  | run =>
    cases hstep
    exact h.runTurn
  | worker i o =>
    obtain ⟨w, -, -, hgood, hbad⟩ := step_worker offers hstep
    refine ⟨?_, (seats_worker hstep).trans_le h.seats_le⟩
    by_cases hharmless : Harmless w o
    · rw [hgood hharmless, h.udtRunning]
    · exact hbad hharmless

theorem closing_of_bad {offers : ℕ → AcceptOutcome} {s s' : Server} {i : ℕ} {o : Outcome}
    {w : Worker} (hw : s.workers[i]? = some w) (hbad : ¬ Harmless w o)
    (h : s.step offers (.worker i o) = some s') : s'.Closing s.seats := by
  obtain ⟨w', hw', -, -, hclear⟩ := step_worker offers h
  obtain rfl : w = w' := Option.some.inj (hw.symm.trans hw')
  exact ⟨hclear hbad, (seats_worker h).le⟩

end DgramServer

namespace DgramEndToEnd

variable {κ : Type*} {f : Str → κ → Option κ} {offers : ℕ → AcceptOutcome}
  {fs : ℕ → Str → κ → Option κ} {inits : ℕ → κ}

/-- What a client does cannot bring anything back. -/
theorem clientStep_empty {w w' : World κ} {a : ClientAction} (h : w.clientStep f a = some w')
    (hempty : w.toClient = []) :
    w'.client.callback = w.client.callback ∧ w'.toClient = [] := by
  obtain ⟨c, hc, hw⟩ := Option.bind_eq_some_iff.mp h
  cases a with
  | sendMsg msg =>
    simp only at hw
    split at hw
    · cases hw
    · cases hw
      cases hc
      exact ⟨rfl, hempty⟩
  | tau =>
    cases hw
    exact ⟨(DgramClient.tau_cases hc).1, hempty⟩
  | send o =>
    obtain ⟨channel, -, rfl⟩ := Option.map_eq_some_iff.mp hw
    obtain ⟨front, behind, -, -, hcallback, -⟩ := DgramClient.send_cases hc
    exact ⟨hcallback, hempty⟩
  | recv o =>
    obtain ⟨channel, hchannel, rfl⟩ := Option.map_eq_some_iff.mp hw
    obtain ⟨-, -, -, r, hr, hcallback⟩ := DgramClient.recv_cases hc
    rw [hempty] at hchannel
    rcases MsgChannel.recv_cases hchannel with ⟨hdata, rfl⟩ | ⟨-, hfront⟩
    · refine ⟨hcallback.trans ?_, rfl⟩
      cases o with
      | error code =>
        rw [DgramClient.doRecvMsg_error] at hr
        cases hr
        rfl
      | ret data =>
        obtain rfl : data = [] := hdata
        rw [DgramClient.doRecvMsg_zero] at hr
        cases hr
        rfl
    · cases hfront

/-- Nothing has come back on the connections that are not accepted. -/
def Net.Waiting (inits : ℕ → κ) (s : Net κ) : Prop :=
  ∀ i ≥ s.server.workers.length,
    (s.peers i).client.callback = (inits i, []) ∧ (s.peers i).toClient = []

theorem length_workers_runTurn (s : DgramServer.Server) :
    s.workers.length ≤ (s.runTurn offers).workers.length := by
  unfold DgramServer.Server.runTurn
  split
  · split <;> exact Nat.le_refl _
  · split
    · split <;> exact Nat.le_refl _
    · rw [List.length_append]
      exact Nat.le_add_right _ _
  · exact Nat.le_refl _

theorem waiting_of_run {es : List NetEvent} {s : Net κ} (h : (net offers fs inits).run es = some s) :
    s.Waiting inits := by
  refine (net offers fs inits).reachable_induction (Net.Waiting inits) ?_ ?_ ⟨es, h⟩
  · intro i _
    exact ⟨rfl, rfl⟩
  intro s e s' hwaiting hstep i hi
  cases e with
  | run =>
    cases hstep
    exact hwaiting i ((length_workers_runTurn s.server).trans hi)
  | connection j e =>
    obtain ⟨w, hw, rfl, hself⟩ := connection_cases (inits j) hstep
    have hi' : s.server.workers.length ≤ i := by
      rwa [Net.setWorld, List.length_set] at hi
    by_cases hij : i = j
    · subst hij
      simp only [Net.setWorld, Function.update_self]
      cases e with
      | client a =>
        obtain ⟨hcallback, hempty⟩ := clientStep_empty hw (hwaiting i hi').2
        exact ⟨hcallback.trans (hwaiting i hi').1, hempty⟩
      | server o =>
        -- the worker has not been started
        simp only [net, Net.step, if_neg (Nat.not_lt.mpr hi')] at hstep
        cases hstep
    · simp only [Net.setWorld, Function.update_of_ne hij]
      exact hwaiting i hi'

/-- **A lost peer locks out whoever comes later.** Once a send call of any worker has failed badly, at
most the connections that are accepted by then and the one whose accept call is being made are ever
accepted. On every other connection, whatever the client does and for however long, nothing is ever
given to its callback, and what it pushes stays with it and in its channel. -/
theorem lockout {before after : List NetEvent} {j : ℕ} {o : Outcome} {s s' : Net κ}
    {w : DgramServer.Worker} (hbefore : (net offers fs inits).run before = some s)
    (hw : s.server.workers[j]? = some w) (hbad : ¬ DgramServer.Harmless w o)
    (h : (net offers fs inits).run (before ++ .connection j (.server o) :: after) = some s') :
    s'.server.workers.length ≤ s.server.seats ∧
    ∀ i ≥ s.server.seats,
      (s'.peers i).client.callback = (inits i, []) ∧ (s'.peers i).toClient = [] ∧
      (s'.peers i).pushed = (s'.peers i).toServer ++ (s'.peers i).client.sendMsgBuff ++
        (s'.peers i).client.sendMsgQueue := by
  have hrest : (net offers fs inits).runFrom s (.connection j (.server o) :: after) = some s' := by
    rwa [System.run, System.runFrom_append, show (net offers fs inits).runFrom _ before = some s from
      hbefore, Option.bind_some] at h
  obtain ⟨s₁, hcall, hafter⟩ := Option.bind_eq_some_iff.mp hrest
  have hcall' : s.step offers fs (.connection j (.server o)) = some s₁ := hcall
  have hclosing : s₁.server.Closing s.server.seats :=
    DgramServer.closing_of_bad hw hbad (server_shown rfl hcall')
  have hclosing' : s'.server.Closing s.server.seats := by
    refine (net offers fs inits).runFrom_invariant (fun s₁ => s₁.server.Closing s.server.seats) ?_
      hclosing hafter
    intro t e t' ht hstep
    cases he : e.turn with
    | none => exact server_hidden he hstep ▸ ht
    | some turn => exact ht.step (server_shown he hstep)
  have hworkers : s'.server.workers.length ≤ s.server.seats :=
    (Nat.le_add_right _ _).trans hclosing'.seats_le
  refine ⟨hworkers, fun i hi => ?_⟩
  obtain ⟨hcallback, hempty⟩ := waiting_of_run h i (hworkers.trans hi)
  refine ⟨hcallback, hempty, ?_⟩
  have hnone : s'.server.workers[i]? = none := List.getElem?_eq_none (hworkers.trans hi)
  have hconserved := net_conserved h i
  simpa [Conduit.Conserved, World.conduit, Net.world, World.delivered, hcallback, hempty, hnone,
    DgramServer.Worker.start] using hconserved.symm

/-- The first peer is lost before the echo; a second client pushes. -/
def peerLost : List NetEvent :=
  [.connection 0 (.client (.sendMsg ['a'])), .run, .run, .connection 0 (.client .tau),
    .connection 0 (.client .tau), .connection 0 (.client (.send (.ret 1))),
    .connection 0 (.server (.recv (.ret ['a']))),
    .connection 0 (.server (.recv (.error Udt.EASYNCRCV)))]

/-- The second client goes on. -/
def goesOn : List NetEvent :=
  [.connection 1 (.client (.sendMsg ['b'])), .run, .run, .connection 1 (.client .tau),
    .connection 1 (.client .tau), .connection 1 (.client (.send (.ret 1))),
    .connection 1 (.client .tau), .connection 1 (.client (.recv (.error Udt.EASYNCRCV)))]

theorem lockout_peerLost :
    ∃ s s' : Net Unit,
      (net DgramServer.twoPeers (fun _ _ u => some u) fun _ => ()).run peerLost = some s ∧
      s.server.workers[0]? = some (.send ['a'] []) ∧
      ¬ DgramServer.Harmless (.send ['a'] []) (.send (.error Udt.ECONNLOST)) ∧
      (net DgramServer.twoPeers (fun _ _ u => some u) fun _ => ()).run
        (peerLost ++ .connection 0 (.server (.send (.error Udt.ECONNLOST))) :: goesOn) = some s' ∧
      s'.server.workers.length ≤ s.server.seats ∧
      ∀ i ≥ s.server.seats,
        (s'.peers i).client.callback = ((), []) ∧ (s'.peers i).toClient = [] ∧
        (s'.peers i).pushed = (s'.peers i).toServer ++ (s'.peers i).client.sendMsgBuff ++
          (s'.peers i).client.sendMsgQueue := by
  have hbad : ¬ DgramServer.Harmless (.send ['a'] []) (.send (.error Udt.ECONNLOST)) := by
    intro hharmless
    rcases hharmless ['a'] [] _ rfl rfl with h | h
    · exact absurd h (by decide)
    · cases h
  have hbefore : (net DgramServer.twoPeers (fun _ _ u => some u) fun _ => ()).run peerLost =
      some _ := rfl
  have h : (net DgramServer.twoPeers (fun _ _ u => some u) fun _ => ()).run
      (peerLost ++ .connection 0 (.server (.send (.error Udt.ECONNLOST))) :: goesOn) =
        some _ := rfl
  exact ⟨_, _, hbefore, rfl, hbad, h, lockout hbefore rfl hbad h⟩

end DgramEndToEnd

end ReliableUdpBench
