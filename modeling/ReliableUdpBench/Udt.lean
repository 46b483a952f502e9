import Mathlib.Tactic

/-!
# What the programs see of UDT

The four programs use UDT through non-blocking calls. A receive call fails with an error code or
returns the bytes it put into the buffer; a send call fails with an error code or returns how many
bytes of its buffer the transport took. Everything else about UDT is left to the environment: the
programs are modelled for every sequence of these outcomes.

The clients give what they receive to a callback and take what they send from another thread; the
module also has the types of that side.
-/

namespace ReliableUdpBench

/-- A `std::string`: its characters. -/
abbrev Str := List Char

/-- What `CUDTException::getErrorCode` returns. -/
abbrev ErrorCode := ℤ

namespace Udt

def ECONNLOST : ErrorCode := 2001
def EINVPARAM : ErrorCode := 5003
def EINVSOCK : ErrorCode := 5004
def EASYNCSND : ErrorCode := 6001
def EASYNCRCV : ErrorCode := 6002

end Udt

/-- What `UDT::recv` or `UDT::recvmsg` does: `UDT::ERROR` with the code of the last error, or the
bytes it delivers, whose number is the return value. -/
inductive RecvOutcome where
  | error (code : ErrorCode)
  | ret (data : Str)
  deriving DecidableEq

/-- What `UDT::send` or `UDT::sendmsg` does: `UDT::ERROR` with the code of the last error, or the
number of bytes of the buffer it took, from the front. -/
inductive SendOutcome where
  | error (code : ErrorCode)
  | ret (count : ℕ)
  deriving DecidableEq

/-- The outcome of one receive or send call on a socket. -/
inductive Outcome where
  | recv (o : RecvOutcome)
  | send (o : SendOutcome)
  deriving DecidableEq

/-- What `UDT::accept` does: `UDT::INVALID_SOCK` with the code of the last error, or a socket. -/
inductive AcceptOutcome where
  | error (code : ErrorCode)
  | ret (sock : ℤ)
  deriving DecidableEq

/-- The receive errors the programs single out as fatal. -/
def fatalRecvCode (code : ErrorCode) : Bool :=
  Udt.EINVPARAM = code || Udt.ECONNLOST = code || Udt.EINVSOCK = code

/-- A receive outcome the programs single out as fatal. -/
def RecvOutcome.Fatal : RecvOutcome → Prop
  | .error code => fatalRecvCode code = true
  | .ret _ => False

instance : DecidablePred RecvOutcome.Fatal
  | .error _ => inferInstanceAs (Decidable (_ = _))
  | .ret _ => .isFalse id

/-- Every send error but a full buffer is fatal. -/
def SendOutcome.Fatal : SendOutcome → Prop
  | .error code => code ≠ Udt.EASYNCSND
  | .ret _ => False

instance : DecidablePred SendOutcome.Fatal
  | .error _ => inferInstanceAs (Decidable (_ ≠ _))
  | .ret _ => .isFalse id

/-- An outcome the programs single out as fatal. -/
def Outcome.Fatal : Outcome → Prop
  | .recv o => o.Fatal
  | .send o => o.Fatal

instance : DecidablePred Outcome.Fatal
  | .recv o => inferInstanceAs (Decidable o.Fatal)
  | .send o => inferInstanceAs (Decidable o.Fatal)

/-- A receive call finds nothing to do, or hands something over. -/
def RecvOutcome.Ordinary : RecvOutcome → Prop
  | .error code => code = Udt.EASYNCRCV
  | .ret data => data ≠ []

/-- A send call finds no room, or takes something. -/
def SendOutcome.Ordinary : SendOutcome → Prop
  | .error code => code = Udt.EASYNCSND
  | .ret count => 0 < count

/-- The outcome of a call with which nothing is wrong. -/
def Outcome.Ordinary : Outcome → Prop
  | .recv o => o.Ordinary
  | .send o => o.Ordinary

/-! ### What a client's user sees of it -/

/-- `recv_callback_func_` on its own state: not set, or a function that may fail to return. -/
abbrev RecvCallback (κ : Type*) := Option (Str → κ → Option κ)

/-- What happens in a client: `SendMsg` in the main thread, a step of the network thread without a
UDT call, or one with. -/
inductive ClientAction where
  | sendMsg (msg : Str)
  | tau
  | send (o : SendOutcome)
  | recv (o : RecvOutcome)
  deriving DecidableEq

/-- The UDT call of an action. -/
def ClientAction.call : ClientAction → Option Outcome
  | .send o => some (.send o)
  | .recv o => some (.recv o)
  | .sendMsg _ | .tau => none

/-- The message that an action pushes. -/
def ClientAction.msg : ClientAction → Option Str
  | .sendMsg msg => some msg
  | .tau | .send _ | .recv _ => none

/-! ### The bytes of an outcome -/

/-- The bytes a receive call delivered. -/
def RecvOutcome.data : RecvOutcome → Str
  | .error _ => []
  | .ret data => data

/-- The number of bytes a send call took. -/
def SendOutcome.count : SendOutcome → ℕ
  | .error _ => 0
  | .ret count => count

end ReliableUdpBench
