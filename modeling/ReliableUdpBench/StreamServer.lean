import ReliableUdpBench.Lib.System
import ReliableUdpBench.Lib.Conduit
import ReliableUdpBench.Udt

/-!
# The stream server's worker

One worker thread serves one connection: it appends what it receives to a string, offers the string
to `UDT::send`, and erases what `DoSendMsg` says was sent. The worker is modelled between its UDT
calls: a step is the outcome of the call it stands at together with everything it does up to the
next one.

`DoSendMsg` is documented to return the size that has been sent. It returns 0 when the transport
took only a part of the string, so that this part stays in the string and is sent again. The echo is
intact exactly in the runs in which no send takes a part (`echo_intact_iff`).
-/

namespace ReliableUdpBench.StreamServer

open Lib

/-! ### The functions of the worker -/

/-- `DoRecvMsg`: the bytes, or the empty string. The branch for fatal errors is empty. -/
def doRecvMsg : RecvOutcome → Str
  | .error code =>
    if code = Udt.EASYNCRCV then []
    else if fatalRecvCode code then [] else []
  | .ret data => if data.length > 0 then data else []

/-- `DoSendMsg`: the size that has been sent, or 0 on any error and on a partial send. -/
def doSendMsg (msg : Str) : SendOutcome → ℤ
  | .error code => if code = Udt.EASYNCSND then 0 else 0
  | .ret sendRet => if sendRet ≠ msg.length then 0 else sendRet

/-- `TryRecvMsg` over the outcomes of its receive calls: the string it leaves and the outcomes it
does not use; `none` if it goes on after the last. -/
def tryRecvMsg (msgBufNeedSend : Str) : List RecvOutcome → Option (Str × List RecvOutcome)
  | [] => none
  | o :: os =>
    let recvedMsg := doRecvMsg o
    if recvedMsg.length > 0 then tryRecvMsg (msgBufNeedSend ++ recvedMsg) os
    else some (msgBufNeedSend, os)

/-- What `TrySendMsg` leaves of the string after its send call. -/
def trySendMsg (msgBufNeedSend : Str) (o : SendOutcome) : Str :=
  let sendRet := doSendMsg msgBufNeedSend o
  if sendRet > 0 then msgBufNeedSend.drop sendRet.toNat else msgBufNeedSend

/-- The worker at its next UDT call, with `msg_buf_need_send`: the receive call of `TryRecvMsg`, the
send call of `TrySendMsg`, or no call because `WorkThread` has returned. -/
inductive Worker where
  | recv (msgBufNeedSend : Str)
  | send (msgBufNeedSend : Str)
  | returned
  deriving DecidableEq

/-- `WorkThread` at its first call. -/
def Worker.start : Worker := .recv []

/-- `msg_buf_need_send`. -/
def Worker.msgBufNeedSend : Worker → Str
  | .recv buf => buf
  | .send buf => buf
  | .returned => []

/-- `WorkThread` after `TryRecvMsg`: on to `TrySendMsg`, or round the loop. -/
def Worker.afterRecv (buf : Str) : Worker := if buf.length > 0 then .send buf else .recv buf

/-- The worker after the call it stands at; an outcome of another call is refused. -/
def Worker.step : Worker → Outcome → Option Worker
  | .recv buf, .recv o =>
    let recvedMsg := doRecvMsg o
    some (if recvedMsg.length > 0 then .recv (buf ++ recvedMsg) else .afterRecv buf)
  | .send buf, .send o => some (.recv (trySendMsg buf o))
  | _, _ => none

/-- The steps of a worker alone. -/
def worker : System Worker Outcome := ⟨.start, Worker.step⟩

/-! ### What the functions do -/

theorem doRecvMsg_eq (o : RecvOutcome) : doRecvMsg o = o.data := by
  cases o with
  | error code => simp [doRecvMsg, RecvOutcome.data]
  | ret data => cases data <;> simp [doRecvMsg, RecvOutcome.data]

theorem trySendMsg_error (buf : Str) (code : ErrorCode) : trySendMsg buf (.error code) = buf := by
  simp [trySendMsg, doSendMsg]

theorem trySendMsg_full {buf : Str} : trySendMsg buf (.ret buf.length) = [] := by
  cases buf <;> simp [trySendMsg, doSendMsg]

/-- A partial send leaves the string as it was. -/
theorem trySendMsg_part {buf : Str} {k : ℕ} (h : k ≠ buf.length) :
    trySendMsg buf (.ret k) = buf := by
  simp [trySendMsg, doSendMsg, h]

/-- A send that takes nothing or the whole string leaves exactly what it does not take. -/
theorem trySendMsg_whole {buf : Str} {o : SendOutcome}
    (h : o.count = 0 ∨ o.count = buf.length) :
    (trySendMsg buf o = buf ∧ buf.take o.count = []) ∨
      (trySendMsg buf o = [] ∧ buf.take o.count = buf) := by
  cases o with
  | error code => exact .inl ⟨trySendMsg_error buf code, List.take_zero⟩
  | ret k =>
    by_cases hk : k = buf.length
    · subst hk
      exact .inr ⟨trySendMsg_full, List.take_length⟩
    · obtain rfl : k = 0 := h.resolve_right hk
      exact .inl ⟨trySendMsg_part hk, List.take_zero⟩

@[simp] theorem msgBufNeedSend_recv (buf : Str) : (Worker.recv buf).msgBufNeedSend = buf := rfl

@[simp] theorem msgBufNeedSend_afterRecv (buf : Str) : (Worker.afterRecv buf).msgBufNeedSend = buf := by
  unfold Worker.afterRecv
  split <;> rfl

/-- A step receives, and then the string grows by what was received, or it sends. -/
theorem step_cases {w w' : Worker} {o : Outcome} (h : w.step o = some w') :
    (∃ r, o = .recv r ∧ w = .recv w.msgBufNeedSend ∧
      w'.msgBufNeedSend = w.msgBufNeedSend ++ r.data) ∨
    (∃ r, o = .send r ∧ w = .send w.msgBufNeedSend ∧
      w' = .recv (trySendMsg w.msgBufNeedSend r)) := by
  cases w with
  | recv buf =>
    cases o with
    | recv r =>
      refine .inl ⟨r, rfl, rfl, ?_⟩
      simp only [Worker.step, Option.some.injEq] at h
      subst h
      rw [doRecvMsg_eq]
      cases hd : r.data with
      | nil => simp
      | cons c cs => simp
    | send r => cases h
  | send buf =>
    cases o with
    | recv r => cases h
    | send r => exact .inr ⟨r, rfl, rfl, (Option.some.inj h).symm⟩
  | returned => cases o <;> cases h

/-- The worker goes through `TryRecvMsg` call by call. -/
theorem runFrom_tryRecvMsg (buf : Str) (os : List RecvOutcome) {buf' : Str}
    {rest : List RecvOutcome} (h : tryRecvMsg buf os = some (buf', rest)) :
    ∃ used, os = used ++ rest ∧
      worker.runFrom (.recv buf) (used.map .recv) = some (.afterRecv buf') := by
  induction os generalizing buf with
  | nil => cases h
  | cons o os ih =>
    rw [tryRecvMsg] at h
    by_cases hlen : (doRecvMsg o).length > 0
    · simp only [hlen, if_true] at h
      obtain ⟨used, hused, hrun⟩ := ih (buf ++ doRecvMsg o) h
      refine ⟨o :: used, by rw [hused]; rfl, ?_⟩
      simp [System.runFrom, worker, Worker.step, hlen]
      exact hrun
    · simp only [hlen, if_false] at h
      cases h
      exact ⟨[o], rfl, by simp [System.runFrom, worker, Worker.step, hlen]⟩

/-! ### The echo of one connection -/

/-- A non-blocking stream send: an error, or at least one byte and at most the whole buffer. -/
def Takes (buf : Str) : SendOutcome → Prop
  | .error _ => True
  | .ret k => 1 ≤ k ∧ k ≤ buf.length

instance (buf : Str) : DecidablePred (Takes buf)
  | .error _ => .isTrue trivial
  | .ret _ => inferInstanceAs (Decidable (_ ∧ _))

/-- A worker with the bytes its connection has delivered and those the transport has accepted. -/
structure Echo where
  worker : Worker
  received : Str
  accepted : Str
  deriving DecidableEq

/-- One call of the worker. A send call that takes `k` bytes takes the first `k` of the string. -/
def Echo.step (s : Echo) : Outcome → Option Echo
  | .recv r =>
    (s.worker.step (.recv r)).map fun w => ⟨w, s.received ++ r.data, s.accepted⟩
  | .send r =>
    if Takes s.worker.msgBufNeedSend r then
      (s.worker.step (.send r)).map fun w =>
        ⟨w, s.received, s.accepted ++ s.worker.msgBufNeedSend.take r.count⟩
    else none

/-- Every run of one connection. -/
def echo : System Echo Outcome := ⟨⟨.start, [], []⟩, Echo.step⟩

/-- What the transport has accepted and what is still to be sent make up what was received. -/
def Echo.Intact (s : Echo) : Prop :=
  s.accepted ++ s.worker.msgBufNeedSend = s.received ∧ s.accepted <+: s.received

/-- The string between the received and the accepted bytes. -/
def Echo.conduit (s : Echo) : Conduit Char := ⟨s.received, [s.accepted, s.worker.msgBufNeedSend]⟩

theorem intact_iff_conserved (s : Echo) : s.Intact ↔ s.conduit.Conserved := by
  have hflat : s.conduit.Conserved ↔ s.accepted ++ s.worker.msgBufNeedSend = s.received := by
    simp [Echo.conduit, Conduit.Conserved]
  rw [hflat, Echo.Intact]
  constructor
  · intro h
    exact h.1
  · intro h
    exact ⟨h, ⟨_, h⟩⟩

theorem echo_step_recv {s s' : Echo} {r : RecvOutcome} (h : s.step (.recv r) = some s') :
    s'.received = s.received ++ r.data ∧ s'.accepted = s.accepted ∧
      s'.worker.msgBufNeedSend = s.worker.msgBufNeedSend ++ r.data := by
  obtain ⟨w, hw, rfl⟩ := Option.map_eq_some_iff.mp h
  rcases step_cases hw with ⟨r', hr, -, hbuf⟩ | ⟨r', hr, -, -⟩
  · cases hr
    exact ⟨rfl, rfl, hbuf⟩
  · cases hr

theorem echo_step_send {s s' : Echo} {r : SendOutcome} (h : s.step (.send r) = some s') :
    Takes s.worker.msgBufNeedSend r ∧ s'.received = s.received ∧
      s'.accepted = s.accepted ++ s.worker.msgBufNeedSend.take r.count ∧
      s'.worker.msgBufNeedSend = trySendMsg s.worker.msgBufNeedSend r := by
  rw [Echo.step] at h
  by_cases htakes : Takes s.worker.msgBufNeedSend r
  · rw [if_pos htakes] at h
    obtain ⟨w, hw, rfl⟩ := Option.map_eq_some_iff.mp h
    rcases step_cases hw with ⟨r', hr, -, -⟩ | ⟨r', hr, -, hw'⟩
    · cases hr
    · cases hr
      exact ⟨htakes, rfl, rfl, by rw [hw', msgBufNeedSend_recv]⟩
  · rw [if_neg htakes] at h
    cases h

/-- A send call that does not take a part. -/
def Whole (buf : Str) : SendOutcome → Prop
  | .error _ => True
  | .ret k => k = buf.length

/-- A step without a partial send moves data along the conduit. -/
theorem echo_step_flow {s s' : Echo} {o : Outcome} (h : s.step o = some s')
    (hwhole : ∀ r, o = .send r → Whole s.worker.msgBufNeedSend r) :
    Relation.ReflTransGen Conduit.Flow s.conduit s'.conduit := by
  cases o with
  | recv r =>
    obtain ⟨hrecv, hacc, hbuf⟩ := echo_step_recv h
    rw [Echo.conduit, Echo.conduit, hrecv, hacc, hbuf]
    exact .single (.enter s.received r.data s.worker.msgBufNeedSend [s.accepted])
  | send r =>
    obtain ⟨-, hrecv, hacc, hbuf⟩ := echo_step_send h
    rw [Echo.conduit, Echo.conduit, hrecv, hacc, hbuf]
    cases r with
    | error code =>
      rw [trySendMsg_error]
      simpa [SendOutcome.count] using Relation.ReflTransGen.refl
    | ret k =>
      obtain rfl : k = s.worker.msgBufNeedSend.length := hwhole _ rfl
      rw [trySendMsg_full, SendOutcome.count, List.take_length]
      simpa using Relation.ReflTransGen.single
        (Conduit.flow_exit s.received s.accepted s.worker.msgBufNeedSend [] [])

/-- A send call that keeps the echo intact takes everything or nothing. -/
theorem whole_of_intact {s s' : Echo} {r : SendOutcome} (h : s.step (.send r) = some s')
    (hs : s.Intact) (hs' : s'.Intact) : Whole s.worker.msgBufNeedSend r := by
  obtain ⟨htakes, hrecv, hacc, hbuf⟩ := echo_step_send h
  cases r with
  | error code => trivial
  | ret k =>
    by_contra hne
    have hlen := congrArg List.length (hs'.1.trans (hrecv.trans hs.1.symm))
    rw [hacc, hbuf, trySendMsg_part hne] at hlen
    simp only [SendOutcome.count, List.length_append, List.length_take] at hlen
    have h1 := htakes.1
    have h2 := htakes.2
    omega

/-- No send call of the run takes a part of the string. -/
def WholeSends (ls : List Outcome) : Prop :=
  ∀ before r s, before ++ [.send r] <+: ls → echo.run before = some s →
    Whole s.worker.msgBufNeedSend r

theorem conserved_of_wholeSends {ls : List Outcome} {s : Echo} (h : echo.run ls = some s)
    (hwhole : WholeSends ls) : s.conduit.Conserved := by
  have hflow : WholeSends ls →
      Relation.ReflTransGen Conduit.Flow echo.init.conduit s.conduit := by
    refine echo.run_induction (fun ls s => WholeSends ls →
      Relation.ReflTransGen Conduit.Flow echo.init.conduit s.conduit) ?_ ?_ h
    · intro _
      exact .refl
    intro ls o s s' hs ih hstep hw
    have hbefore : WholeSends ls := by
      intro before r t hpre
      exact hw before r t (hpre.trans (List.prefix_append ls [o]))
    apply (ih hbefore).trans
    apply echo_step_flow hstep
    intro r ho
    subst ho
    exact hw ls r s (List.prefix_refl _) hs
  exact Conduit.conserved_of_flow (hflow hwhole) rfl

/-- **When the echo is intact.** In every run of a connection the echo is intact after every step if
and only if no send call takes a part of the string. -/
theorem echo_intact_iff {ls : List Outcome} {s : Echo} (h : echo.run ls = some s) :
    (∀ before t, before <+: ls → echo.run before = some t → t.Intact) ↔ WholeSends ls := by
  constructor
  · intro hintact before r t hpre ht
    obtain ⟨after, rfl⟩ := hpre
    obtain ⟨t', ht'⟩ := echo.run_prefix h
    obtain ⟨t₀, ht₀, hstep⟩ := echo.run_snoc_eq_some.mp ht'
    obtain rfl : t = t₀ := Option.some.inj (ht.symm.trans ht₀)
    have hpre := List.prefix_append (before ++ [.send r]) after
    exact whole_of_intact hstep
      (hintact before t ((List.prefix_append before _).trans hpre) ht)
      (hintact _ t' hpre ht')
  · intro hwhole before t hpre ht
    apply (intact_iff_conserved t).mpr
    apply conserved_of_wholeSends ht
    intro b r t' hb
    exact hwhole b r t' (hb.trans hpre)

/-- Two bytes arrive, the transport takes one of them, and then both. -/
def partialRun : List Outcome :=
  [.recv (.ret ['a', 'b']), .recv (.error Udt.EASYNCRCV), .send (.ret 1),
    .recv (.error Udt.EASYNCRCV), .send (.ret 2)]

theorem echo_intact_iff_partialRun :
    (∀ before t, before <+: partialRun → echo.run before = some t → t.Intact) ↔
      WholeSends partialRun :=
  echo_intact_iff (s := ⟨.recv [], ['a', 'b'], ['a', 'a', 'b']⟩) (by decide)

/-- After a partial send the byte it took is sent again: the peer gets `aab` for `ab`. -/
theorem echo_not_intact :
    echo.run partialRun = some ⟨.recv [], ['a', 'b'], ['a', 'a', 'b']⟩ ∧
      ¬(⟨.recv [], ['a', 'b'], ['a', 'a', 'b']⟩ : Echo).Intact := by
  refine ⟨by decide, ?_⟩
  intro h
  have hconserved := h.1
  revert hconserved
  decide

end ReliableUdpBench.StreamServer
