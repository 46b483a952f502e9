import ReliableUdpBench.Lib.System
import ReliableUdpBench.Dgram

/-!
# The datagram server's worker

One worker thread serves one connection: it queues the messages it receives and sends them back from
the front of the queue until the transport has no room. All workers and the accept loop share the
server's `udt_running_`, which the send path of a worker may clear; a worker never reads it.
-/

namespace ReliableUdpBench.DgramServer

open Lib

/-! ### The functions of the worker -/

/-- `DoRecvMsg`: the message, or the empty string, and `bHaveMsgStill`. -/
def doRecvMsg : RecvOutcome → Str × Bool
  | .error code =>
    if code = Udt.EASYNCRCV then ([], false)
    else if fatalRecvCode code then ([], false)
    else ([], true)
  | .ret data => if data.length > 0 then (data, true) else ([], false)

/-- `DoSendOneMsg`. -/
abbrev doSendOneMsg := Dgram.doSendOneMsg

/-- One pass of the loop of `TryRecvMsg`: the queue, and whether there is another pass. -/
def recvPass (msgQueueNeedSend : List Str) (o : RecvOutcome) : List Str × Bool :=
  let recved := doRecvMsg o
  (if recved.1.length > 0 then msgQueueNeedSend ++ [recved.1] else msgQueueNeedSend, recved.2)

/-- `TryRecvMsg` over the outcomes of its receive calls: the queue it leaves and the outcomes it does
not use; `none` if it goes on after the last. -/
def tryRecvMsg (msgQueueNeedSend : List Str) : List RecvOutcome →
    Option (List Str × List RecvOutcome)
  | [] => none
  | o :: os =>
    let pass := recvPass msgQueueNeedSend o
    if pass.2 then tryRecvMsg pass.1 os else some (pass.1, os)

/-- The worker at its next UDT call, with `msg_queue_need_send`: the receive call of `TryRecvMsg`, the
send call of `TrySendMsg` for the front of the queue, or no call because `WorkThread` has returned. -/
inductive Worker where
  | recv (msgQueueNeedSend : List Str)
  | send (front : Str) (behind : List Str)
  | returned
  deriving DecidableEq

/-- `WorkThread` at its first call. -/
def Worker.start : Worker := .recv []

/-- `msg_queue_need_send`. -/
def Worker.msgQueueNeedSend : Worker → List Str
  | .recv queue => queue
  | .send front behind => front :: behind
  | .returned => []

/-- The loop of `TrySendMsg`: a send call for the front, or, when the queue is empty, back to
`WorkThread` and round its loop. `WorkThread` does not call `TrySendMsg` for an empty queue, which
comes to the same. -/
def Worker.trySend : List Str → Worker
  | [] => .recv []
  | front :: behind => .send front behind

/-- The worker after the call it stands at, with `udt_running_`; an outcome of another call is
refused. -/
def Worker.step (udtRunning : Bool) : Worker → Outcome → Option (Bool × Worker)
  | .recv queue, .recv o =>
    let pass := recvPass queue o
    some (udtRunning, if pass.2 then .recv pass.1 else .trySend pass.1)
  | .send front behind, .send o =>
    let sent := doSendOneMsg udtRunning front o
    -- case 0, case -1, case 1, default
    if sent.1 = 0 then some (sent.2, .recv (front :: behind))
    else if sent.1 = -1 then some (sent.2, .recv (front :: behind))
    else if sent.1 = 1 then some (sent.2, .trySend behind)
    else some (false, .recv (front :: behind))
  | _, _ => none

/-- The steps of a worker alone, with `udt_running_`. -/
def worker : System (Bool × Worker) Outcome := ⟨(true, .start), fun s o => s.2.step s.1 o⟩

/-! ### What the functions do -/

@[simp] theorem msgQueueNeedSend_recv (queue : List Str) :
    (Worker.recv queue).msgQueueNeedSend = queue := rfl
@[simp] theorem msgQueueNeedSend_send (front : Str) (behind : List Str) :
    (Worker.send front behind).msgQueueNeedSend = front :: behind := rfl

@[simp] theorem msgQueueNeedSend_trySend (queue : List Str) :
    (Worker.trySend queue).msgQueueNeedSend = queue := by
  cases queue <;> rfl

/-- A pass queues a message that is not empty and goes on after it; of the other outcomes it goes on
after the errors that are neither a lack of data nor fatal. -/
theorem recvPass_message (queue : List Str) {msg : Str} (h : msg ≠ []) :
    recvPass queue (.ret msg) = (queue ++ [msg], true) := by
  simp [recvPass, doRecvMsg, List.length_pos_iff.mpr h]

theorem recvPass_zero (queue : List Str) : recvPass queue (.ret []) = (queue, false) := by
  simp [recvPass, doRecvMsg]

theorem recvPass_error (queue : List Str) (code : ErrorCode) :
    recvPass queue (.error code) =
      (queue, !(code = Udt.EASYNCRCV || fatalRecvCode code)) := by
  by_cases h : code = Udt.EASYNCRCV
  · simp [recvPass, doRecvMsg, h]
  · cases hf : fatalRecvCode code <;> simp [recvPass, doRecvMsg, h, hf]

/-- A receive pass queues at most what was received. -/
theorem recvPass_queue (queue : List Str) (o : RecvOutcome) :
    (recvPass queue o).1 = queue ++ (if o.data = [] then [] else [o.data]) := by
  cases o with
  | error code => simp [recvPass_error, RecvOutcome.data]
  | ret data =>
    by_cases h : data = []
    · simp [h, recvPass_zero, RecvOutcome.data]
    · simp [h, recvPass_message, RecvOutcome.data]

/-- A step is a receive pass; or a send call that leaves the queue, and clears the flag unless the
buffer was full; or one that takes the front of the queue. -/
theorem step_cases {udtRunning running' : Bool} {w w' : Worker} {o : Outcome}
    (h : w.step udtRunning o = some (running', w')) :
    (∃ queue r, w = .recv queue ∧ o = .recv r ∧ running' = udtRunning ∧
      w'.msgQueueNeedSend = (recvPass queue r).1) ∨
    (∃ front behind r, w = .send front behind ∧ o = .send r ∧ r ≠ .ret front.length ∧
      w' = .recv (front :: behind) ∧
      running' = (if r = .error Udt.EASYNCSND then udtRunning else false)) ∨
    (∃ front behind, w = .send front behind ∧ o = .send (.ret front.length) ∧
      w' = .trySend behind ∧ running' = udtRunning) := by
  cases w with
  | recv queue =>
    cases o with
    | recv r =>
      simp only [Worker.step, Option.some.injEq, Prod.mk.injEq] at h
      obtain ⟨rfl, rfl⟩ := h
      refine .inl ⟨queue, r, rfl, rfl, rfl, ?_⟩
      split
      · rw [msgQueueNeedSend_recv]
      · rw [msgQueueNeedSend_trySend]
    | send r => cases h
  | send front behind =>
    cases o with
    | recv r => cases h
    | send r =>
      simp only [Worker.step] at h
      rcases Dgram.doSendOneMsg_cases udtRunning front r with
        ⟨rfl, hs⟩ | ⟨hne, hwhole, hs⟩ | ⟨rfl, hs⟩
      · simp [hs] at h
        exact .inr (.inl ⟨front, behind, _, rfl, rfl, by simp, h.2.symm, by simp [h.1]⟩)
      · simp [hs] at h
        exact .inr (.inl ⟨front, behind, r, rfl, rfl, hwhole, h.2.symm, by simp [hne, h.1]⟩)
      · simp [hs] at h
        exact .inr (.inr ⟨front, behind, rfl, rfl, h.2.symm, h.1.symm⟩)
  | returned => cases o <;> cases h

/-- The worker goes through `TryRecvMsg` call by call. -/
theorem runFrom_tryRecvMsg (udtRunning : Bool) (queue : List Str) (os : List RecvOutcome)
    {queue' : List Str} {rest : List RecvOutcome} (h : tryRecvMsg queue os = some (queue', rest)) :
    ∃ used, os = used ++ rest ∧
      worker.runFrom (udtRunning, .recv queue) (used.map .recv) =
        some (udtRunning, .trySend queue') := by
  induction os generalizing queue with
  | nil => cases h
  | cons o os ih =>
    rw [tryRecvMsg] at h
    cases hpass : (recvPass queue o).2 with
    | true =>
      simp only [hpass, if_true] at h
      obtain ⟨used, hused, hrun⟩ := ih _ h
      refine ⟨o :: used, by rw [hused]; rfl, ?_⟩
      simp [System.runFrom, worker, Worker.step, hpass]
      exact hrun
    | false =>
      simp only [hpass, Bool.false_eq_true, if_false] at h
      cases h
      exact ⟨[o], rfl, by simp [System.runFrom, worker, Worker.step, hpass]⟩

end ReliableUdpBench.DgramServer
