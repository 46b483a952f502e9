import ReliableUdpBench.Lib.System
import ReliableUdpBench.Dgram

/-!
# The datagram client

The main thread pushes messages into a queue that it shares with the network thread. The network
thread grabs the whole queue when it has nothing left to send, sends from the front until the
transport has no room, and then receives until there is nothing more, giving each message to the
callback.

The client is modelled action by action: a push, a UDT call with everything the network thread does
up to its next shared access or call, or a step of the network thread without a call.
-/

namespace ReliableUdpBench.DgramClient

open Lib

variable {κ : Type*}

/-! ### The functions of the network thread -/

/-- `DoSendOneMsg`. -/
abbrev doSendOneMsg := Dgram.doSendOneMsg

/-- `DoRecvMsg`: `bHaveMsgStill`, `udt_running_` and the state of the callback after it. -/
def doRecvMsg (callbackFunc : RecvCallback κ) (udtRunning : Bool) (callback : κ) :
    RecvOutcome → Option (Bool × Bool × κ)
  | .error code =>
    if code = Udt.EASYNCRCV then some (false, udtRunning, callback)
    else if fatalRecvCode code then some (false, false, callback)
    else some (false, udtRunning, callback)
  | .ret data =>
    if data.length > 0 then
      match callbackFunc with
      | some f => (f data callback).map fun callback' => (true, udtRunning, callback')
      | none => some (true, udtRunning, callback)
    else some (true, udtRunning, callback)

/-- `TryRecvMsg` over the outcomes of its receive calls: `udt_running_`, the state of the callback
and the outcomes it does not use; `none` if it goes on after the last. -/
def tryRecvMsg (callbackFunc : RecvCallback κ) (udtRunning : Bool) (callback : κ) :
    List RecvOutcome → Option (Bool × κ × List RecvOutcome)
  | [] => none
  | o :: os =>
    (doRecvMsg callbackFunc udtRunning callback o).bind fun r =>
      if r.1 then tryRecvMsg callbackFunc r.2.1 r.2.2 os else some (r.2.1, r.2.2, os)

/-- Where the network thread is: at the test of the loop of `Run`, at `TryGrabMsg`, in the loop of
`TrySendMsg`, in the loop of `TryRecvMsg`, or behind the loop of `Run`. -/
inductive Point where
  | loop
  | grab
  | send
  | recv
  | closed
  deriving DecidableEq

/-- The client: the network thread, the two queues, `udt_running_` and the state of the callback. -/
structure Client (κ : Type*) where
  point : Point
  sendMsgQueue : List Str
  sendMsgBuff : List Str
  udtRunning : Bool
  callback : κ
  deriving DecidableEq

/-- The client when `Run` gets to its loop. -/
def Client.start (callback : κ) : Client κ := ⟨.loop, [], [], true, callback⟩

/-- `SendMsgQueueSize`. -/
def Client.sendMsgQueueSize (c : Client κ) : ℕ := ThreadsafeQueue.size c.sendMsgQueue

/-- A step of the network thread without a call. -/
def Client.tau (c : Client κ) : Option (Client κ) :=
  match c.point with
  | .loop =>
    if c.udtRunning then
      some { c with point := if c.sendMsgBuff.isEmpty then .grab else .send }
    else some { c with point := .closed }
  | .grab =>
    let grabbed := ThreadsafeQueue.grabAll c.sendMsgQueue
    some { c with sendMsgBuff := grabbed.1, sendMsgQueue := grabbed.2, point := .send }
  | .send => if c.sendMsgBuff.isEmpty then some { c with point := .recv } else none
  | .recv => none
  | .closed => none

/-- One pass of the loop of `TrySendMsg` for the front of the buffer. -/
def Client.sendPass (c : Client κ) (front : Str) (behind : List Str) (o : SendOutcome) : Client κ :=
  let sent := doSendOneMsg c.udtRunning front o
  -- case 0, case -1, case 1, default
  if sent.1 = 0 then { c with udtRunning := sent.2, point := .recv }
  else if sent.1 = -1 then { c with udtRunning := sent.2, point := .recv }
  else if sent.1 = 1 then { c with udtRunning := sent.2, sendMsgBuff := behind }
  else { c with udtRunning := false, point := .recv }

/-- The client after an action; one that cannot happen is refused. -/
def Client.step (callbackFunc : RecvCallback κ) (c : Client κ) :
    ClientAction → Option (Client κ)
  | .sendMsg msg => some { c with sendMsgQueue := ThreadsafeQueue.push c.sendMsgQueue msg }
  | .tau => c.tau
  | .send o =>
    match c.point, c.sendMsgBuff with
    | .send, front :: behind => some (c.sendPass front behind o)
    | _, _ => none
  | .recv o =>
    match c.point with
    | .recv =>
      (doRecvMsg callbackFunc c.udtRunning c.callback o).map fun r =>
        { c with
          udtRunning := r.2.1, callback := r.2.2, point := if r.1 then .recv else .loop }
    | _ => none

/-- The steps of a client alone. -/
def client (callbackFunc : RecvCallback κ) (callback : κ) : System (Client κ) ClientAction :=
  ⟨.start callback, Client.step callbackFunc⟩

/-! ### What the functions do -/

/-- A receive call ends the loop with every error, and goes on after every other outcome, which is
given to the callback if it is not empty. -/
theorem doRecvMsg_error (callbackFunc : RecvCallback κ) (udtRunning : Bool) (callback : κ)
    (code : ErrorCode) :
    doRecvMsg callbackFunc udtRunning callback (.error code) =
      some (false, if fatalRecvCode code then false else udtRunning, callback) := by
  by_cases h : code = Udt.EASYNCRCV
  · subst h
    rfl
  · cases hf : fatalRecvCode code <;> simp [doRecvMsg, h, hf]

theorem doRecvMsg_zero (callbackFunc : RecvCallback κ) (udtRunning : Bool) (callback : κ) :
    doRecvMsg callbackFunc udtRunning callback (.ret []) = some (true, udtRunning, callback) := by
  simp [doRecvMsg]

theorem doRecvMsg_message (f : Str → κ → Option κ) (udtRunning : Bool) (callback : κ) {msg : Str}
    (h : msg ≠ []) :
    doRecvMsg (some f) udtRunning callback (.ret msg) =
      (f msg callback).map fun callback' => (true, udtRunning, callback') := by
  simp [doRecvMsg, List.length_pos_iff.mpr h]

/-- The guard of `Run`: the buffer is empty when the thread is at `TryGrabMsg`. -/
def Client.GrabsEmpty (c : Client κ) : Prop := c.point = .grab → c.sendMsgBuff = []

theorem grabsEmpty_of_point {c : Client κ} (h : c.point ≠ .grab) : c.GrabsEmpty := by
  intro hgrab
  exact absurd hgrab h

/-- A step without a call leaves both queues and the callback, or moves the whole queue into the
buffer. -/
theorem tau_cases {c c' : Client κ} (h : c.tau = some c') :
    c'.callback = c.callback ∧ c'.GrabsEmpty ∧
    ((c'.sendMsgBuff = c.sendMsgBuff ∧ c'.sendMsgQueue = c.sendMsgQueue) ∨
      (c.point = .grab ∧ c'.sendMsgBuff = c.sendMsgQueue ∧ c'.sendMsgQueue = [])) := by
  unfold Client.tau at h
  cases hp : c.point with
  | loop =>
    simp only [hp] at h
    split at h
    · cases h
      refine ⟨rfl, ?_, .inl ⟨rfl, rfl⟩⟩
      cases c.sendMsgBuff <;> simp [Client.GrabsEmpty]
    · cases h
      exact ⟨rfl, by simp [Client.GrabsEmpty], .inl ⟨rfl, rfl⟩⟩
  | grab =>
    simp only [hp] at h
    cases h
    exact ⟨rfl, by simp [Client.GrabsEmpty], .inr ⟨rfl, rfl, rfl⟩⟩
  | send =>
    simp only [hp] at h
    split at h
    · cases h
      exact ⟨rfl, by simp [Client.GrabsEmpty], .inl ⟨rfl, rfl⟩⟩
    · cases h
  | recv => simp [hp] at h
  | closed => simp [hp] at h

/-- A send call leaves the buffer, or takes its front if the transport took the whole message. -/
theorem send_cases {callbackFunc : RecvCallback κ} {c c' : Client κ} {o : SendOutcome}
    (h : c.step callbackFunc (.send o) = some c') :
    ∃ front behind, c.sendMsgBuff = front :: behind ∧ c'.sendMsgQueue = c.sendMsgQueue ∧
      c'.callback = c.callback ∧ c'.point ≠ .grab ∧
      ((o ≠ .ret front.length ∧ c'.sendMsgBuff = front :: behind) ∨
        (o = .ret front.length ∧ c'.sendMsgBuff = behind)) := by
  simp only [Client.step] at h
  split at h
  · next front behind hp hb =>
    cases h
    refine ⟨front, behind, hb, ?_⟩
    rcases Dgram.doSendOneMsg_cases c.udtRunning front o with ⟨rfl, hs⟩ | ⟨-, hne, hs⟩ | ⟨rfl, hs⟩
    · simp [Client.sendPass, hs, hb]
    · simp [Client.sendPass, hs, hb, hne]
    · simp [Client.sendPass, hs, hp]
  · cases h

/-- A receive call leaves both queues. -/
theorem recv_cases {callbackFunc : RecvCallback κ} {c c' : Client κ} {o : RecvOutcome}
    (h : c.step callbackFunc (.recv o) = some c') :
    c'.sendMsgQueue = c.sendMsgQueue ∧ c'.sendMsgBuff = c.sendMsgBuff ∧ c'.point ≠ .grab ∧
      ∃ r, doRecvMsg callbackFunc c.udtRunning c.callback o = some r ∧ c'.callback = r.2.2 := by
  simp only [Client.step] at h
  split at h
  · obtain ⟨r, hr, rfl⟩ := Option.map_eq_some_iff.mp h
    refine ⟨rfl, rfl, ?_, r, hr, rfl⟩
    show (if r.1 then Point.recv else Point.loop) ≠ .grab
    split <;> simp
  · cases h

/-- The network thread goes through `TryRecvMsg` call by call. -/
theorem runFrom_tryRecvMsg (callbackFunc : RecvCallback κ) (init : κ) (c : Client κ)
    (os : List RecvOutcome) {udtRunning : Bool} {callback : κ} {rest : List RecvOutcome}
    (hp : c.point = .recv)
    (h : tryRecvMsg callbackFunc c.udtRunning c.callback os = some (udtRunning, callback, rest)) :
    ∃ used, os = used ++ rest ∧
      (client callbackFunc init).runFrom c (used.map .recv) =
        some { c with udtRunning := udtRunning, callback := callback, point := .loop } := by
  induction os generalizing c with
  | nil => cases h
  | cons o os ih =>
    obtain ⟨r, hr, hrest⟩ := Option.bind_eq_some_iff.mp h
    cases hstill : r.1 with
    | true =>
      simp only [hstill, if_true] at hrest
      obtain ⟨used, hused, hrun⟩ :=
        ih { c with udtRunning := r.2.1, callback := r.2.2, point := .recv } rfl hrest
      refine ⟨o :: used, by rw [hused]; rfl, ?_⟩
      simp only [List.map_cons, System.runFrom, client, Client.step, hp, hr, Option.map_some,
        Option.bind_some, hstill, if_true]
      exact hrun
    | false =>
      simp only [hstill, Bool.false_eq_true, if_false] at hrest
      cases hrest
      refine ⟨[o], rfl, ?_⟩
      simp [System.runFrom, client, Client.step, hp, hr, hstill]

end ReliableUdpBench.DgramClient
