import ReliableUdpBench.Udt

/-!
# What the datagram client and server share

The message queue between two threads, and the function that sends one message, which the client and
the server have in the same words.
-/

namespace ReliableUdpBench

/-! ### `threadsafe_queue` -/

namespace ThreadsafeQueue

variable {α : Type*}

/-- `push`. -/
def push (dataQueue : List α) (newValue : α) : List α := dataQueue ++ [newValue]

/-- `size`. -/
def size (dataQueue : List α) : ℕ := dataQueue.length

/-- `grab_all`: what it returns and what it leaves, after the swap with an empty queue. -/
def grabAll (dataQueue : List α) : List α × List α := (dataQueue, [])

end ThreadsafeQueue

/-! ### `DoSendOneMsg` -/

namespace Dgram

/-- `DoSendOneMsg`: its return value and `udt_running_` after it. 0 means the send buffer is full, 1
that the message was sent, -1 a bad error. -/
def doSendOneMsg (udtRunning : Bool) (msg : Str) : SendOutcome → ℤ × Bool
  | .error code => if code = Udt.EASYNCSND then (0, udtRunning) else (-1, false)
  | .ret sendRet => if sendRet ≠ msg.length then (-1, false) else (1, udtRunning)

/-- Nothing is sent and the flag is kept, or nothing is sent and it is cleared, or the whole message
is sent. -/
theorem doSendOneMsg_cases (udtRunning : Bool) (msg : Str) (o : SendOutcome) :
    (o = .error Udt.EASYNCSND ∧ doSendOneMsg udtRunning msg o = (0, udtRunning)) ∨
    (o ≠ .error Udt.EASYNCSND ∧ o ≠ .ret msg.length ∧ doSendOneMsg udtRunning msg o = (-1, false)) ∨
    (o = .ret msg.length ∧ doSendOneMsg udtRunning msg o = (1, udtRunning)) := by
  cases o with
  | error code =>
    by_cases h : code = Udt.EASYNCSND
    · simp [doSendOneMsg, h]
    · simp [doSendOneMsg, h]
  | ret k =>
    by_cases h : k = msg.length
    · simp [doSendOneMsg, h]
    · simp [doSendOneMsg, h]

end Dgram

end ReliableUdpBench
