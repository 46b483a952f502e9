import ReliableUdpBench.DgramServer

/-!
# The datagram server's accept loop

`Run` accepts connections for as long as `udt_running_` is set, and starts a worker thread for each.
The flag belongs to the server object, and `DoSendOneMsg` clears it on behalf of a single connection.
The loop is modelled with any number of workers running beside it, turn by turn.

As long as no send call of a worker fails badly, the accept part of the server goes through the same
states as if there were no workers (`accept_loop_isolated`). The first one that does stops the server
from accepting anything more.
-/

namespace ReliableUdpBench.DgramServer

open Lib

/-- Where `Run` is: at the test of its loop, at its accept call, or behind the loop, which it has
left because accept failed with a code, or because of the test. -/
inductive RunPoint where
  | test
  | accept
  | left (acceptError : Option ErrorCode)
  deriving DecidableEq

/-- The server: `udt_running_`, the thread of `Run`, how many accept calls it has made, the sockets
they returned, and the workers of these connections. -/
structure Server where
  udtRunning : Bool
  runPoint : RunPoint
  acceptCalls : ℕ
  accepted : List ℤ
  workers : List Worker
  deriving DecidableEq

/-- `Run` at the start of its loop. -/
def Server.start : Server := ⟨true, .test, 0, [], []⟩

/-- Whose turn it is: `Run` for one test or one accept call, or a worker for one UDT call. -/
inductive Turn where
  | run
  | worker (i : ℕ) (o : Outcome)
  deriving DecidableEq

/-- A turn of `Run`, where accept call number `i` has the outcome `offers i`. -/
def Server.runTurn (offers : ℕ → AcceptOutcome) (s : Server) : Server :=
  match s.runPoint with
  | .test => if s.udtRunning then { s with runPoint := .accept } else { s with runPoint := .left none }
  | .accept =>
    match offers s.acceptCalls with
    | .error code =>
      if code = Udt.EASYNCRCV then
        { s with runPoint := .test, acceptCalls := s.acceptCalls + 1 }
      else
        { s with
          udtRunning := false, runPoint := .left (some code), acceptCalls := s.acceptCalls + 1 }
    | .ret sock =>
      { s with
        runPoint := .test
        acceptCalls := s.acceptCalls + 1
        accepted := s.accepted ++ [sock]
        workers := s.workers ++ [.start] }
  | .left _ => s

/-- One turn of the server; a worker that is not there, or does not stand at such a call, is
refused. -/
def Server.step (offers : ℕ → AcceptOutcome) (s : Server) : Turn → Option Server
  | .run => some (s.runTurn offers)
  | .worker i o => do
    let w ← s.workers[i]?
    let (udtRunning, w') ← w.step s.udtRunning o
    return { s with udtRunning := udtRunning, workers := s.workers.set i w' }

/-- Every run of the server for a sequence of accept outcomes. -/
def server (offers : ℕ → AcceptOutcome) : System Server Turn := ⟨.start, Server.step offers⟩

/-- The loop has only been left because accept failed, with an error other than `EASYNCRCV`. -/
def Server.LeftByAccept (s : Server) : Prop :=
  ∀ reason, s.runPoint = .left reason → ∃ code, reason = some code ∧ code ≠ Udt.EASYNCRCV

/-- A send call of a worker that takes the whole message or finds the buffer full. -/
def Harmless (w : Worker) (o : Outcome) : Prop :=
  ∀ front behind r, w = .send front behind → o = .send r →
    r = .error Udt.EASYNCSND ∨ r = .ret front.length

/-- No send call of the run fails badly before the accept loop is left. -/
def HarmlessRun (offers : ℕ → AcceptOutcome) (turns : List Turn) : Prop :=
  ∀ before i o s w, before ++ [.worker i o] <+: turns → (server offers).run before = some s →
    (∀ reason, s.runPoint ≠ .left reason) → s.workers[i]? = some w → Harmless w o

/-! ### The accept part of the server -/

/-- What `Run` has done so far. -/
structure AcceptPart where
  runPoint : RunPoint
  acceptCalls : ℕ
  accepted : List ℤ

def Server.acceptPart (s : Server) : AcceptPart := ⟨s.runPoint, s.acceptCalls, s.accepted⟩

/-- The accept part after some turns of `Run` on a server without connections. -/
def acceptAlone (offers : ℕ → AcceptOutcome) : ℕ → AcceptPart
  | 0 => ⟨.test, 0, []⟩
  | n + 1 =>
    let p := acceptAlone offers n
    match p.runPoint with
    | .test => ⟨.accept, p.acceptCalls, p.accepted⟩
    | .accept =>
      match offers p.acceptCalls with
      | .error code =>
        if code = Udt.EASYNCRCV then ⟨.test, p.acceptCalls + 1, p.accepted⟩
        else ⟨.left (some code), p.acceptCalls + 1, p.accepted⟩
      | .ret sock => ⟨.test, p.acceptCalls + 1, p.accepted ++ [sock]⟩
    | .left reason => ⟨.left reason, p.acceptCalls, p.accepted⟩

/-- The turns of `Run` among the turns. -/
def runTurns (turns : List Turn) : ℕ := turns.count .run

theorem acceptAlone_left (offers : ℕ → AcceptOutcome) (n : ℕ) (reason : Option ErrorCode)
    (h : (acceptAlone offers n).runPoint = .left reason) :
    ∃ code, reason = some code ∧ code ≠ Udt.EASYNCRCV := by
  induction n with
  | zero => cases h
  | succ n ih =>
    rw [acceptAlone] at h
    cases hp : (acceptAlone offers n).runPoint with
    | test => simp [hp] at h
    | accept =>
      cases ho : offers (acceptAlone offers n).acceptCalls with
      | error code =>
        by_cases hcode : code = Udt.EASYNCRCV
        · simp [hp, ho, hcode] at h
        · simp only [hp, ho, hcode, if_false, RunPoint.left.injEq] at h
          exact ⟨code, h.symm, hcode⟩
      | ret sock => simp [hp, ho] at h
    | left reason' =>
      simp only [hp, RunPoint.left.injEq] at h
      exact ih (by rw [hp, h])

/-- A turn of a worker leaves the accept part alone, and a harmless one the flag as well. -/
theorem step_worker (offers : ℕ → AcceptOutcome) {s s' : Server} {i : ℕ} {o : Outcome}
    (h : s.step offers (.worker i o) = some s') :
    ∃ w, s.workers[i]? = some w ∧ s'.acceptPart = s.acceptPart ∧
      (Harmless w o → s'.udtRunning = s.udtRunning) ∧
      (¬Harmless w o → s'.udtRunning = false) := by
  simp only [Server.step, Option.bind_eq_bind, Option.bind_eq_some_iff, Option.pure_def,
    Option.some.injEq, Prod.exists] at h
  obtain ⟨w, hw, running', w', hstep, rfl⟩ := h
  refine ⟨w, hw, rfl, ?_⟩
  rcases step_cases hstep with
    ⟨queue, r, rfl, rfl, hrun, -⟩ | ⟨front, behind, r, rfl, rfl, hne, -, hrun⟩ |
    ⟨front, behind, rfl, rfl, -, hrun⟩
  · have hgood : Harmless (.recv queue) (.recv r) := by
      intro front behind r' hw' _
      cases hw'
    exact ⟨fun _ => hrun, fun hbad => absurd hgood hbad⟩
  · constructor
    · intro hgood
      rcases hgood front behind r rfl rfl with hfull | hwhole
      · show running' = _
        rw [hrun, if_pos hfull]
      · exact absurd hwhole hne
    · intro hbad
      have hnotFull : r ≠ .error Udt.EASYNCSND := by
        intro hfull
        apply hbad
        intro front' behind' r' _ hr'
        cases hr'
        exact .inl hfull
      show running' = _
      rw [hrun, if_neg hnotFull]
  · have hgood : Harmless (.send front behind) (.send (.ret front.length)) := by
      intro front' behind' r' hw' hr'
      cases hw'
      cases hr'
      exact .inr rfl
    exact ⟨fun _ => hrun, fun hbad => absurd hgood hbad⟩

/-- While the loop is not left the flag is set. -/
def Server.FlagKept (s : Server) : Prop := (∃ reason, s.runPoint = .left reason) ∨ s.udtRunning = true

/-- With the flag kept a turn of `Run` is what it is without connections. -/
theorem runTurn_acceptPart {offers : ℕ → AcceptOutcome} {s : Server} {n : ℕ}
    (hpart : s.acceptPart = acceptAlone offers n) (hflag : s.FlagKept) :
    (s.runTurn offers).acceptPart = acceptAlone offers (n + 1) ∧ (s.runTurn offers).FlagKept := by
  rw [acceptAlone, ← hpart]
  simp only [Server.acceptPart, Server.runTurn]
  cases hp : s.runPoint with
  | test =>
    have hrunning : s.udtRunning = true := by
      rcases hflag with ⟨reason, hleft⟩ | hrunning
      · rw [hp] at hleft
        cases hleft
      · exact hrunning
    simp [hrunning, Server.FlagKept]
  | accept =>
    have hrunning : s.udtRunning = true := by
      rcases hflag with ⟨reason, hleft⟩ | hrunning
      · rw [hp] at hleft
        cases hleft
      · exact hrunning
    cases ho : offers s.acceptCalls with
    | error code =>
      by_cases hcode : code = Udt.EASYNCRCV
      · simp [hcode, hrunning, Server.FlagKept]
      · simp [hcode, Server.FlagKept]
    | ret sock => simp [hrunning, Server.FlagKept]
  | left reason => simp [hp, Server.FlagKept]

/-- **The accept part does not depend on the connections** in a harmless run. -/
theorem acceptPart_eq_alone {offers : ℕ → AcceptOutcome} {turns : List Turn} {s : Server}
    (h : (server offers).run turns = some s) (hharmless : HarmlessRun offers turns) :
    s.acceptPart = acceptAlone offers (runTurns turns) := by
  have hinv : HarmlessRun offers turns →
      s.acceptPart = acceptAlone offers (runTurns turns) ∧ s.FlagKept := by
    refine (server offers).run_induction (fun turns s => HarmlessRun offers turns →
      s.acceptPart = acceptAlone offers (runTurns turns) ∧ s.FlagKept) ?_ ?_ h
    · intro _
      exact ⟨rfl, .inr rfl⟩
    intro turns turn s s' hs ih hstep hh
    have hbefore : HarmlessRun offers turns := by
      intro before i o t w hpre
      exact hh before i o t w (hpre.trans (List.prefix_append turns [turn]))
    obtain ⟨hpart, hflag⟩ := ih hbefore
    cases turn with
    | run =>
      cases hstep
      have hcount : runTurns (turns ++ [.run]) = runTurns turns + 1 := by simp [runTurns]
      rw [hcount]
      exact runTurn_acceptPart hpart hflag
    | worker i o =>
      have hcount : runTurns (turns ++ [.worker i o]) = runTurns turns := by simp [runTurns]
      obtain ⟨w, hw, hsame, hgood, -⟩ := step_worker offers hstep
      have hpoint : s'.runPoint = s.runPoint := congrArg AcceptPart.runPoint hsame
      rw [hcount, hsame, Server.FlagKept, hpoint]
      refine ⟨hpart, ?_⟩
      by_cases hleft : ∃ reason, s.runPoint = .left reason
      · exact .inl hleft
      · have hlive : ∀ reason, s.runPoint ≠ .left reason := by
          intro reason hr
          exact hleft ⟨reason, hr⟩
        rw [hgood (hh turns i o s w (List.prefix_refl _) hs hlive hw)]
        exact hflag
  exact (hinv hharmless).1

/-- **When connections are isolated.** In every run in which no send call of a worker fails badly
before the accept loop is left, it is left only because accept failed; and two such
runs with the same accept outcomes and as many turns of `Run` have accepted the same connections. A
send call that does fail badly while `Run` is at its test makes it leave the loop there. -/
theorem accept_loop_isolated (offers : ℕ → AcceptOutcome) :
    (∀ turns s, (server offers).run turns = some s → HarmlessRun offers turns → s.LeftByAccept) ∧
    (∀ turns₁ turns₂ s₁ s₂, (server offers).run turns₁ = some s₁ →
      (server offers).run turns₂ = some s₂ → HarmlessRun offers turns₁ →
      HarmlessRun offers turns₂ → runTurns turns₁ = runTurns turns₂ →
      s₁.accepted = s₂.accepted) ∧
    (∀ turns i o s s' w, (server offers).run turns = some s → s.runPoint = .test →
      s.workers[i]? = some w → ¬Harmless w o → s.step offers (.worker i o) = some s' →
      (s'.runTurn offers).runPoint = .left none) := by
  refine ⟨?_, ?_, ?_⟩
  · intro turns s h hharmless reason hleft
    have hpart := congrArg AcceptPart.runPoint (acceptPart_eq_alone h hharmless)
    exact acceptAlone_left offers (runTurns turns) reason (hpart.symm.trans hleft)
  · intro turns₁ turns₂ s₁ s₂ h₁ h₂ hh₁ hh₂ hcount
    have hpart₁ := congrArg AcceptPart.accepted (acceptPart_eq_alone h₁ hh₁)
    have hpart₂ := congrArg AcceptPart.accepted (acceptPart_eq_alone h₂ hh₂)
    rw [hcount] at hpart₁
    exact hpart₁.trans hpart₂.symm
  · intro turns i o s s' w _ htest hw hbad hstep
    obtain ⟨w', hw', hsame, -, hclear⟩ := step_worker offers hstep
    obtain rfl : w = w' := Option.some.inj (hw.symm.trans hw')
    have hpoint : s'.runPoint = .test := (congrArg AcceptPart.runPoint hsame).trans htest
    simp [Server.runTurn, hpoint, hclear hbad]

/-- Two peers connect. -/
def twoPeers : ℕ → AcceptOutcome
  | 0 => .ret 7
  | 1 => .ret 8
  | _ => .error Udt.EASYNCRCV

/-- The first peer sends a message and is lost before the echo. -/
def peerLost : List Turn :=
  [.run, .run, .worker 0 (.recv (.ret ['a'])), .worker 0 (.recv (.error Udt.EASYNCRCV)),
    .worker 0 (.send (.error Udt.ECONNLOST)), .run, .run]

/-- The second peer is accepted if nothing happens on the first connection, and not if its peer is
lost; in the second case the loop has been left although no accept call failed. -/
theorem accept_loop_not_isolated :
    runTurns peerLost = runTurns (List.replicate 4 .run) ∧
    ((server twoPeers).run peerLost).map (fun s => (s.runPoint, s.accepted)) =
      some (.left none, [7]) ∧
    ((server twoPeers).run (List.replicate 4 .run)).map (fun s => (s.runPoint, s.accepted)) =
      some (.test, [7, 8]) := by
  decide

end ReliableUdpBench.DgramServer
