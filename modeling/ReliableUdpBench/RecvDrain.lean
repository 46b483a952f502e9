import ReliableUdpBench.Lib.Drain
import ReliableUdpBench.DgramClient
import ReliableUdpBench.DgramServer

/-!
# The receive loops of the datagram programs

The server and the client have a `TryRecvMsg` each, which receives until `DoRecvMsg` says that there
is no message still to come. The two copies of `DoRecvMsg` set `bHaveMsgStill` first and do not reset
it on the same exits: the server's leaves it set after an error that it does not single out, the
client's after a return of zero. Each loop stops at the first outcome that is not a message exactly
if its copy resets it there, and both do for the four errors that both single out
(`recv_drain_iff`).
-/

namespace ReliableUdpBench

open Lib

/-- The outcome is a message: a return of positive length. -/
def RecvOutcome.isMessage : RecvOutcome → Bool
  | .error _ => false
  | .ret data => !data.isEmpty

/-- The errors both copies of `DoRecvMsg` single out. -/
def RecvOutcome.singledOut : RecvOutcome → Bool
  | .error code => code = Udt.EASYNCRCV || fatalRecvCode code
  | .ret _ => false

/-- The messages before the first outcome that is not one. -/
def messagesBefore (os : List RecvOutcome) : List Str :=
  (os.takeWhile RecvOutcome.isMessage).map RecvOutcome.data

/-- The outcomes after the first one that is not a message. -/
def afterFirst (os : List RecvOutcome) : List RecvOutcome :=
  (os.dropWhile RecvOutcome.isMessage).tail

theorem eq_message_of_isMessage {o : RecvOutcome} (h : o.isMessage = true) :
    ∃ msg, msg ≠ [] ∧ o = .ret msg := by
  cases o with
  | error code => cases h
  | ret data =>
    refine ⟨data, ?_, rfl⟩
    intro hdata
    rw [hdata] at h
    cases h

theorem eq_of_not_isMessage {o : RecvOutcome} (h : o.isMessage = false) :
    o = .ret [] ∨ ∃ code, o = .error code := by
  cases o with
  | error code => exact .inr ⟨code, rfl⟩
  | ret data => cases data with
    | nil => exact .inl rfl
    | cons c cs => cases h

/-! ### The server's loop -/

namespace DgramServer

/-- `TryRecvMsg` returns right after the first outcome that is not a message, having queued exactly
the messages before it. -/
def DrainsMessages (queue : List Str) (os : List RecvOutcome) : Prop :=
  tryRecvMsg queue os = some (queue ++ messagesBefore os, afterFirst os)

/-- The server's copy of `DoRecvMsg` resets `bHaveMsgStill`. -/
def stops (o : RecvOutcome) : Bool := o.singledOut || o = .ret []

theorem tryRecvMsg_eq_drain (queue : List Str) (os : List RecvOutcome) :
    tryRecvMsg queue os = drain (fun queue o => some (recvPass queue o)) queue os := by
  induction os generalizing queue with
  | nil => rfl
  | cons o os ih =>
    rw [tryRecvMsg, drain]
    simp only [ih, Option.bind_some]

theorem foldl_queue (queue : List Str) (os : List RecvOutcome) :
    os.foldl (fun queue o => queue ++ [o.data]) queue = queue ++ os.map RecvOutcome.data := by
  induction os generalizing queue with
  | nil => simp
  | cons o os ih => simp [ih]

theorem drainsMessages_iff (queue : List Str) {os : List RecvOutcome} {o : RecvOutcome}
    (first : os.find? (fun o => !o.isMessage) = some o) :
    DrainsMessages queue os ↔ stops o = true := by
  have hitem : ∀ (queue : List Str) (o : RecvOutcome), o.isMessage = true →
      some (recvPass queue o) = some (queue ++ [o.data], true) := by
    intro queue o h
    obtain ⟨msg, hmsg, rfl⟩ := eq_message_of_isMessage h
    rw [recvPass_message queue hmsg]
    rfl
  have hother : ∀ (queue : List Str) (o : RecvOutcome), o.isMessage = false →
      ∃ queue', some (recvPass queue o) = some (queue', !stops o) ∧ id queue' = id queue := by
    intro queue o h
    refine ⟨queue, ?_, rfl⟩
    rcases eq_of_not_isMessage h with rfl | ⟨code, rfl⟩
    · rw [recvPass_zero]
      rfl
    · rw [recvPass_error]
      simp [stops, RecvOutcome.singledOut]
  rw [← stopsAtFirst_iff hitem hother (s := queue) first]
  simp only [DrainsMessages, StopsAtFirst, tryRecvMsg_eq_drain, foldl_queue, messagesBefore,
    afterFirst, id_eq, exists_eq_right]

/-- An error that the server does not single out, again and again, keeps it in `TryRecvMsg`. -/
theorem tryRecvMsg_replicate_error (queue : List Str) {code : ErrorCode}
    (h : (RecvOutcome.error code).singledOut = false) (n : ℕ) :
    tryRecvMsg queue (List.replicate n (.error code)) = none := by
  rw [tryRecvMsg_eq_drain]
  refine drain_replicate ?_ n
  rw [recvPass_error]
  simpa [RecvOutcome.singledOut] using h

end DgramServer

/-! ### The client's loop -/

namespace DgramClient

variable {κ : Type*}

/-- `TryRecvMsg` returns right after the first outcome that is not a message, having given exactly
the messages before it to the callback. -/
def DrainsMessages (f : Str → κ → κ) (udtRunning : Bool) (callback : κ)
    (os : List RecvOutcome) : Prop :=
  ∃ running', tryRecvMsg (some fun msg s => some (f msg s)) udtRunning callback os =
    some (running', (messagesBefore os).foldl (fun s msg => f msg s) callback, afterFirst os)

/-- The client's copy of `DoRecvMsg` resets `bHaveMsgStill`. -/
def stops (o : RecvOutcome) : Bool := o ≠ .ret []

/-- One pass of the loop of `TryRecvMsg`. -/
def recvPass (callbackFunc : RecvCallback κ) (s : Bool × κ) (o : RecvOutcome) :
    Option ((Bool × κ) × Bool) :=
  (doRecvMsg callbackFunc s.1 s.2 o).map fun r => (r.2, r.1)

theorem tryRecvMsg_eq_drain (callbackFunc : RecvCallback κ) (udtRunning : Bool) (callback : κ)
    (os : List RecvOutcome) :
    tryRecvMsg callbackFunc udtRunning callback os =
      (drain (recvPass callbackFunc) (udtRunning, callback) os).map
        fun r => (r.1.1, r.1.2, r.2) := by
  induction os generalizing udtRunning callback with
  | nil => rfl
  | cons o os ih =>
    rw [tryRecvMsg, drain, recvPass]
    cases doRecvMsg callbackFunc udtRunning callback o with
    | none => rfl
    | some r =>
      simp only [Option.bind_some, Option.map_some]
      split
      · exact ih r.2.1 r.2.2
      · rfl

theorem foldl_callback (f : Str → κ → κ) (s : Bool × κ) (os : List RecvOutcome) :
    (os.foldl (fun s o => (s.1, f o.data s.2)) s).2 =
      (os.map RecvOutcome.data).foldl (fun s msg => f msg s) s.2 := by
  induction os generalizing s with
  | nil => rfl
  | cons o os ih => exact ih _

theorem drainsMessages_iff (f : Str → κ → κ) (udtRunning : Bool) (callback : κ)
    {os : List RecvOutcome} {o : RecvOutcome}
    (first : os.find? (fun o => !o.isMessage) = some o) :
    DrainsMessages f udtRunning callback os ↔ stops o = true := by
  have hitem : ∀ (s : Bool × κ) (o : RecvOutcome), o.isMessage = true →
      recvPass (some fun msg s => some (f msg s)) s o = some ((s.1, f o.data s.2), true) := by
    intro s o h
    obtain ⟨msg, hmsg, rfl⟩ := eq_message_of_isMessage h
    rw [recvPass, doRecvMsg_message _ _ _ hmsg]
    rfl
  have hother : ∀ (s : Bool × κ) (o : RecvOutcome), o.isMessage = false →
      ∃ s', recvPass (some fun msg s => some (f msg s)) s o = some (s', !stops o) ∧
        s'.2 = s.2 := by
    intro s o h
    rcases eq_of_not_isMessage h with rfl | ⟨code, rfl⟩
    · exact ⟨s, by rw [recvPass, doRecvMsg_zero]; rfl, rfl⟩
    · rw [recvPass, doRecvMsg_error]
      exact ⟨_, rfl, rfl⟩
  rw [← stopsAtFirst_iff hitem hother (s := (udtRunning, callback)) first]
  simp [DrainsMessages, StopsAtFirst, tryRecvMsg_eq_drain, foldl_callback, messagesBefore,
    afterFirst]

/-- A return of zero, again and again, keeps the client in `TryRecvMsg`. -/
theorem tryRecvMsg_replicate_zero (callbackFunc : RecvCallback κ) (udtRunning : Bool)
    (callback : κ) (n : ℕ) :
    tryRecvMsg callbackFunc udtRunning callback (List.replicate n (.ret [])) = none := by
  rw [tryRecvMsg_eq_drain, drain_replicate ?_ n]
  · rfl
  · rw [recvPass, doRecvMsg_zero]
    rfl

end DgramClient

/-! ### Both loops -/

/-- **Where the receive loops stop.** For outcomes that are not all messages, let `o` be the first
that is none. The server's loop stops there if and only if `o` is a return of zero or one of the four
errors that are singled out, the client's if and only if `o` is an error; so both do if and only if
it is one of the four errors. -/
theorem recv_drain_iff {κ : Type*} (queue : List Str) (f : Str → κ → κ) (udtRunning : Bool)
    (callback : κ) {os : List RecvOutcome} {o : RecvOutcome}
    (first : os.find? (fun o => !o.isMessage) = some o) :
    (DgramServer.DrainsMessages queue os ↔ o = .ret [] ∨ o.singledOut = true) ∧
    (DgramClient.DrainsMessages f udtRunning callback os ↔ o ≠ .ret []) ∧
    (DgramServer.DrainsMessages queue os ∧ DgramClient.DrainsMessages f udtRunning callback os ↔
      o.singledOut = true) := by
  have hserver : DgramServer.DrainsMessages queue os ↔ o = .ret [] ∨ o.singledOut = true := by
    rw [DgramServer.drainsMessages_iff queue first]
    simp [DgramServer.stops, or_comm]
  have hclient : DgramClient.DrainsMessages f udtRunning callback os ↔ o ≠ .ret [] := by
    rw [DgramClient.drainsMessages_iff f udtRunning callback first]
    simp [DgramClient.stops]
  refine ⟨hserver, hclient, ?_⟩
  rw [hserver, hclient]
  constructor
  · intro ⟨hstop, hne⟩
    rcases hstop with hzero | h
    · exact absurd hzero hne
    · exact h
  · intro h
    refine ⟨.inr h, ?_⟩
    intro hzero
    rw [hzero] at h
    cases h

/-- Two messages and then no more data: both loops stop. -/
theorem recv_drain_iff_noData :
    [RecvOutcome.ret ['a'], .ret ['b'], .error Udt.EASYNCRCV, .ret ['c']].find?
      (fun o => !o.isMessage) = some (.error Udt.EASYNCRCV) ∧
    (DgramServer.DrainsMessages []
        [.ret ['a'], .ret ['b'], .error Udt.EASYNCRCV, .ret ['c']] ↔
      RecvOutcome.error Udt.EASYNCRCV = .ret [] ∨
        (RecvOutcome.error Udt.EASYNCRCV).singledOut = true) ∧
    (DgramClient.DrainsMessages (fun msg log => log ++ [msg]) true ([] : List Str)
        [.ret ['a'], .ret ['b'], .error Udt.EASYNCRCV, .ret ['c']] ↔
      RecvOutcome.error Udt.EASYNCRCV ≠ .ret []) ∧
    (DgramServer.DrainsMessages [] [.ret ['a'], .ret ['b'], .error Udt.EASYNCRCV, .ret ['c']] ∧
        DgramClient.DrainsMessages (fun msg log => log ++ [msg]) true ([] : List Str)
          [.ret ['a'], .ret ['b'], .error Udt.EASYNCRCV, .ret ['c']] ↔
      (RecvOutcome.error Udt.EASYNCRCV).singledOut = true) :=
  ⟨by decide, recv_drain_iff [] (fun msg log => log ++ [msg]) true [] (by decide)⟩

/-- The server goes on after the error 2002, and the client after a return of zero. -/
theorem recv_loops_do_not_stop :
    (DgramServer.tryRecvMsg [] [.error 2002, .ret ['a']] = none ∧
      ¬DgramServer.DrainsMessages [] [.error 2002, .ret ['a']]) ∧
    (DgramClient.tryRecvMsg (some fun msg log => some (log ++ [msg])) true ([] : List Str)
        [.ret [], .ret ['a']] = none ∧
      ¬DgramClient.DrainsMessages (fun msg log => log ++ [msg]) true ([] : List Str)
        [.ret [], .ret ['a']]) := by
  refine ⟨⟨by decide, ?_⟩, ⟨by decide, ?_⟩⟩
  · show ¬(_ = _)
    decide
  · intro h
    obtain ⟨running', h⟩ := h
    revert h
    cases running' <;> decide

end ReliableUdpBench
