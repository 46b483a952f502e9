import ReliableUdpBench.StreamServer
import ReliableUdpBench.DgramServer

/-!
# Fatal outcomes on a connection

The servers single out some outcomes as fatal, and the datagram server documents the failed send as
one that needs a stop. The return value gets as far as `TrySendMsg`, which returns, and the receive
errors as far as `TryRecvMsg`; `WorkThread` loops on in either server. So a worker is fail-stop on a
connection exactly if nothing fatal ever happens there.
-/

namespace ReliableUdpBench

/-- The two kinds of UDT call a worker makes. -/
inductive CallKind where
  | recv
  | send
  deriving DecidableEq

/-- A thread that makes UDT calls one after the other until it returns. -/
structure Caller (σ : Type*) where
  start : σ
  call : σ → Option CallKind
  step : σ → Outcome → Option σ

/-- What a connection has ready for each call of a thread, should it receive or should it send. -/
abbrev Transport := ℕ → RecvOutcome × SendOutcome

namespace Caller

variable {σ : Type*} (c : Caller σ) (env : Transport)

/-- The outcome of the next call; `none` if there is no next call. -/
def outcome (s : σ) (e : RecvOutcome × SendOutcome) : Option Outcome :=
  (c.call s).map fun
    | .recv => .recv e.1
    | .send => .send e.2

/-- The thread after its first `i` calls. -/
def stateAt : ℕ → σ
  | 0 => c.start
  | i + 1 => ((c.outcome (stateAt i) (env i)).bind (c.step (stateAt i))).getD (stateAt i)

/-- The outcome of call number `i`; `none` if the thread makes no such call. -/
def outcomeAt (i : ℕ) : Option Outcome := c.outcome (c.stateAt env i) (env i)

/-- After a fatal outcome there is no further call. -/
def FailStop : Prop :=
  ∀ i o, c.outcomeAt env i = some o → o.Fatal → ∀ j, i < j → c.outcomeAt env j = none

/-- No call has a fatal outcome. -/
def NeverFatal : Prop := ∀ i o, c.outcomeAt env i = some o → ¬o.Fatal

variable {c}

/-- A thread that always has a next call always makes one more. -/
theorem outcomeAt_isSome (Live : σ → Prop) (hstart : Live c.start)
    (hcall : ∀ s, Live s → (c.call s).isSome)
    (hstep : ∀ s o s', Live s → c.step s o = some s' → Live s') (i : ℕ) :
    (c.outcomeAt env i).isSome := by
  have hlive : Live (c.stateAt env i) := by
    induction i with
    | zero => exact hstart
    | succ i ih =>
      rw [stateAt]
      cases h : (c.outcome (c.stateAt env i) (env i)).bind (c.step (c.stateAt env i)) with
      | none => exact ih
      | some s' =>
        obtain ⟨o, -, ho⟩ := Option.bind_eq_some_iff.mp h
        exact hstep _ o s' ih ho
  rw [outcomeAt, outcome, Option.isSome_map]
  exact hcall _ hlive

theorem failStop_iff (Live : σ → Prop) (hstart : Live c.start)
    (hcall : ∀ s, Live s → (c.call s).isSome)
    (hstep : ∀ s o s', Live s → c.step s o = some s' → Live s') :
    c.FailStop env ↔ c.NeverFatal env := by
  constructor
  · intro h i o ho hfatal
    have hnext := outcomeAt_isSome env Live hstart hcall hstep (i + 1)
    rw [h i o ho hfatal (i + 1) (Nat.lt_succ_self i)] at hnext
    cases hnext
  · intro h i o ho hfatal
    exact absurd hfatal (h i o ho)

end Caller

/-- The call a stream worker stands at. -/
def StreamServer.Worker.call : StreamServer.Worker → Option CallKind
  | .recv _ => some .recv
  | .send _ => some .send
  | .returned => none

/-- The call a datagram worker stands at. -/
def DgramServer.Worker.call : DgramServer.Worker → Option CallKind
  | .recv _ => some .recv
  | .send _ _ => some .send
  | .returned => none

/-- A worker thread of the stream server. -/
def streamWorker : Caller StreamServer.Worker :=
  ⟨.start, StreamServer.Worker.call, StreamServer.Worker.step⟩

/-- A worker thread of the datagram server, started with some value of `udt_running_`. -/
def dgramWorker (udtRunning : Bool) : Caller (Bool × DgramServer.Worker) :=
  ⟨(udtRunning, .start), fun s => s.2.call, fun s o => s.2.step s.1 o⟩

theorem StreamServer.Worker.step_call {w w' : StreamServer.Worker} {o : Outcome}
    (h : w.step o = some w') : w'.call.isSome := by
  cases w with
  | recv buf =>
    cases o with
    | recv r =>
      simp only [StreamServer.Worker.step, Option.some.injEq] at h
      subst h
      split
      · rfl
      · unfold StreamServer.Worker.afterRecv
        split <;> rfl
    | send r => cases h
  | send buf =>
    cases o with
    | recv r => cases h
    | send r =>
      cases h
      rfl
  | returned => cases o <;> cases h

theorem DgramServer.Worker.step_call {running : Bool} {w : DgramServer.Worker} {o : Outcome}
    {s : Bool × DgramServer.Worker} (h : w.step running o = some s) : s.2.call.isSome := by
  have htry : ∀ queue, (DgramServer.Worker.trySend queue).call.isSome := by
    intro queue
    cases queue <;> rfl
  cases w with
  | recv queue =>
    cases o with
    | recv r =>
      simp only [DgramServer.Worker.step, Option.some.injEq] at h
      subst h
      show (if _ then _ else _ : DgramServer.Worker).call.isSome
      split
      · rfl
      · exact htry _
    | send r => cases h
  | send front behind =>
    rcases DgramServer.step_cases h with
      ⟨_, _, h', _⟩ | ⟨_, _, r, -, -, -, h', -⟩ | ⟨_, b, -, -, h', -⟩
    · cases h'
    · rw [h']
      rfl
    · rw [h']
      exact htry b
  | returned => cases o <;> cases h

/-- **When a worker is fail-stop.** In both servers a worker makes no call after a fatal outcome if
and only if no outcome is fatal. -/
theorem worker_failStop_iff (udtRunning : Bool) (env : Transport) :
    ((dgramWorker udtRunning).FailStop env ↔ (dgramWorker udtRunning).NeverFatal env) ∧
    (streamWorker.FailStop env ↔ streamWorker.NeverFatal env) := by
  constructor
  · exact Caller.failStop_iff env (fun s => s.2.call.isSome) rfl (fun _ h => h)
      (fun s o s' _ h => DgramServer.Worker.step_call h)
  · exact Caller.failStop_iff env (fun w => w.call.isSome) rfl (fun _ h => h)
      (fun w o w' _ h => StreamServer.Worker.step_call h)

/-- A connection that is lost from the start. -/
def lostConnection : Transport := fun _ => (.error Udt.ECONNLOST, .error Udt.ECONNLOST)

/-- On a lost connection both workers go on to a second receive call, and so on. -/
theorem worker_not_failStop :
    ¬(dgramWorker true).FailStop lostConnection ∧ ¬streamWorker.FailStop lostConnection := by
  constructor
  · intro h
    exact absurd (h 0 (.recv (.error Udt.ECONNLOST)) rfl (by decide) 1 (by decide)) (by decide)
  · intro h
    exact absurd (h 0 (.recv (.error Udt.ECONNLOST)) rfl (by decide) 1 (by decide)) (by decide)

end ReliableUdpBench
