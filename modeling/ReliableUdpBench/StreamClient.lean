import ReliableUdpBench.Lib.System
import ReliableUdpBench.Udt

/-!
# The stream client

The main thread appends messages to a string that it shares with the network thread. Twice in each
iteration of its loop the network thread offers the whole string to `UDT::send`, erases what was
taken from its front, and receives once. The main thread can append between the send call and the
erasure, which are therefore separate actions here. `send_msg_buf_` has no lock: that each append, each
send call and each erasure is one action is an assumption about how its accesses interleave.

What the transport has not yet been given is the string without the part that is to be erased
(`Client.unsent`).
-/

namespace ReliableUdpBench.StreamClient

open Lib

variable {κ : Type*}

/-! ### The functions of the network thread -/

/-- `DoSendMsg`: the actual send length, and `udt_running_` after it. -/
def doSendMsg (udtRunning : Bool) : SendOutcome → ℤ × Bool
  | .error code => if code = Udt.EASYNCSND then (0, udtRunning) else (0, false)
  | .ret sendRet => (sendRet, udtRunning)

/-- `DoRecvMsg`: `udt_running_` and the state of the callback after it. -/
def doRecvMsg (callbackFunc : RecvCallback κ) (udtRunning : Bool) (callback : κ) :
    RecvOutcome → Option (Bool × κ)
  | .error code =>
    if code = Udt.EASYNCRCV then some (udtRunning, callback)
    else if fatalRecvCode code then some (false, callback)
    else some (udtRunning, callback)
  | .ret data =>
    if data.length > 0 then
      match callbackFunc with
      | some f => (f data callback).map fun callback' => (udtRunning, callback')
      | none => some (udtRunning, callback)
    else some (udtRunning, callback)

/-- Where the network thread is: at the test of the loop of `Run`; in the first or the second
`TrySendMsg`, before its send call or before the erasure; in the first or the second `TryRecvMsg`; or
behind the loop. -/
inductive Point where
  | loop
  | send (second : Bool)
  | erase (second : Bool) (sendLen : ℤ)
  | recv (second : Bool)
  | closed
  deriving DecidableEq

/-- The client: the network thread, `send_msg_buf_`, `udt_running_` and the state of the callback. -/
structure Client (κ : Type*) where
  point : Point
  sendMsgBuf : Str
  udtRunning : Bool
  callback : κ
  deriving DecidableEq

/-- The client when `Run` gets to its loop. -/
def Client.start (callback : κ) : Client κ := ⟨.loop, [], true, callback⟩

/-- `SendMsgBufSize`. -/
def Client.sendMsgBufSize (c : Client κ) : ℕ := c.sendMsgBuf.length

/-- A step of the network thread without a call. -/
def Client.tau (c : Client κ) : Option (Client κ) :=
  match c.point with
  | .loop => some { c with point := if c.udtRunning then .send false else .closed }
  | .send second => if c.sendMsgBuf.isEmpty then some { c with point := .recv second } else none
  | .erase second sendLen =>
    some { c with sendMsgBuf := c.sendMsgBuf.drop sendLen.toNat, point := .recv second }
  | .recv _ => none
  | .closed => none

/-- The client after an action; one that cannot happen is refused. -/
def Client.step (callbackFunc : RecvCallback κ) (c : Client κ) :
    ClientAction → Option (Client κ)
  | .sendMsg msg => some { c with sendMsgBuf := c.sendMsgBuf ++ msg }
  | .tau => c.tau
  | .send o =>
    match c.point with
    | .send second =>
      if c.sendMsgBuf.isEmpty then none
      else
        let sent := doSendMsg c.udtRunning o
        some { c with
          udtRunning := sent.2
          point := if sent.1 > 0 then .erase second sent.1 else .recv second }
    | _ => none
  | .recv o =>
    match c.point with
    | .recv second =>
      (doRecvMsg callbackFunc c.udtRunning c.callback o).map fun r =>
        { c with udtRunning := r.1, callback := r.2, point := if second then .loop else .send true }
    | _ => none

/-- The steps of a client alone. -/
def client (callbackFunc : RecvCallback κ) (callback : κ) : System (Client κ) ClientAction :=
  ⟨.start callback, Client.step callbackFunc⟩

/-! ### What the functions do -/

theorem doSendMsg_fst (udtRunning : Bool) (o : SendOutcome) :
    (doSendMsg udtRunning o).1 = o.count := by
  cases o with
  | error code =>
    simp only [doSendMsg, SendOutcome.count]
    split <;> rfl
  | ret k => rfl

theorem doRecvMsg_callback (f : Str → κ → Option κ) (udtRunning : Bool) (callback : κ)
    (o : RecvOutcome) {r : Bool × κ} (h : doRecvMsg (some f) udtRunning callback o = some r) :
    (o.data = [] ∧ r.2 = callback) ∨ (o.data ≠ [] ∧ f o.data callback = some r.2) := by
  cases o with
  | error code =>
    refine .inl ⟨rfl, ?_⟩
    simp only [doRecvMsg] at h
    split at h
    · cases h
      rfl
    · split at h <;> cases h <;> rfl
  | ret data =>
    cases data with
    | nil =>
      cases h
      exact .inl ⟨rfl, rfl⟩
    | cons c cs =>
      obtain ⟨callback', hf, rfl⟩ := Option.map_eq_some_iff.mp h
      exact .inr ⟨by simp [RecvOutcome.data], hf⟩

/-- The number of bytes at the front of the string that the transport has already taken. -/
def Client.taken (c : Client κ) : ℕ :=
  match c.point with
  | .erase _ sendLen => sendLen.toNat
  | _ => 0

/-- The bytes the transport has not taken yet. -/
def Client.unsent (c : Client κ) : Str := c.sendMsgBuf.drop c.taken

/-- What has been taken is still there to be erased. -/
def Client.TakenFits (c : Client κ) : Prop := c.taken ≤ c.sendMsgBuf.length

theorem takenFits_of_taken {c : Client κ} (h : c.taken = 0) : c.TakenFits := by
  rw [Client.TakenFits, h]
  exact Nat.zero_le _

theorem unsent_of_taken {c : Client κ} (h : c.taken = 0) : c.unsent = c.sendMsgBuf := by
  rw [Client.unsent, h, List.drop_zero]

/-- `SendMsg` appends; what has been taken stays in front. -/
theorem sendMsg_cases {callbackFunc : RecvCallback κ} {c c' : Client κ} {msg : Str}
    (h : c.step callbackFunc (.sendMsg msg) = some c') :
    c'.callback = c.callback ∧ c'.sendMsgBuf = c.sendMsgBuf ++ msg ∧ c'.taken = c.taken := by
  cases h
  exact ⟨rfl, rfl, rfl⟩

/-- A step without a call erases what was taken, or there is nothing to be erased. -/
theorem tau_cases {c c' : Client κ} (h : c.tau = some c') :
    c'.callback = c.callback ∧ c'.sendMsgBuf = c.unsent ∧ c'.taken = 0 := by
  unfold Client.tau at h
  cases hp : c.point with
  | loop =>
    simp only [hp] at h
    cases h
    refine ⟨rfl, by simp [Client.unsent, Client.taken, hp], ?_⟩
    cases c.udtRunning <;> simp [Client.taken]
  | send second =>
    simp only [hp] at h
    split at h
    · cases h
      simp [Client.unsent, Client.taken, hp]
    · cases h
  | erase second sendLen =>
    simp only [hp] at h
    cases h
    simp [Client.unsent, Client.taken, hp]
  | recv second => simp [hp] at h
  | closed => simp [hp] at h

/-- A send call leaves the string, and what the transport takes is then to be erased. -/
theorem send_cases {callbackFunc : RecvCallback κ} {c c' : Client κ} {o : SendOutcome}
    (h : c.step callbackFunc (.send o) = some c') :
    c'.callback = c.callback ∧ c'.sendMsgBuf = c.sendMsgBuf ∧ c.taken = 0 ∧ c'.taken = o.count := by
  simp only [Client.step] at h
  split at h
  · next second hp =>
    split at h
    · cases h
    · cases h
      refine ⟨rfl, rfl, by simp [Client.taken, hp], ?_⟩
      rw [doSendMsg_fst]
      rcases Nat.eq_zero_or_pos o.count with hzero | hpos
      · simp [Client.taken, hzero]
      · simp [Client.taken, hpos]
  · cases h

/-- A receive call leaves the string, of which nothing is to be erased. -/
theorem recv_cases {callbackFunc : RecvCallback κ} {c c' : Client κ} {o : RecvOutcome}
    (h : c.step callbackFunc (.recv o) = some c') :
    c'.sendMsgBuf = c.sendMsgBuf ∧ c.taken = 0 ∧ c'.taken = 0 ∧
      ∃ r, doRecvMsg callbackFunc c.udtRunning c.callback o = some r ∧ c'.callback = r.2 := by
  simp only [Client.step] at h
  split at h
  · next second hp =>
    obtain ⟨r, hr, rfl⟩ := Option.map_eq_some_iff.mp h
    refine ⟨rfl, by simp [Client.taken, hp], ?_, r, hr, rfl⟩
    cases second <;> simp [Client.taken]
  · cases h

end ReliableUdpBench.StreamClient
