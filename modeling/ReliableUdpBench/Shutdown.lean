import ReliableUdpBench.Backlog

/-!
# The clients after a fatal outcome

Unlike the servers' workers, a client stops: a fatal outcome clears `udt_running_`, and `Run` leaves
its loop at the next test. It does not leave it at once, because the functions below `Run` do not look
at the flag. The datagram client goes on receiving until a receive call fails, and sends nothing more
(`DgramClient.client_failStop`); the stream client goes on to the end of the iteration, which can take
three more calls, one of them a send (`StreamClient.client_stops`).

`main` looks at neither: it goes on pushing until the backlog is above its limit and then waits for
ever (`Backlog.dgram_stranded`, `Backlog.stream_stranded`).
-/

namespace ReliableUdpBench

open Lib

/-- The calls are receives, and all but the last of them deliver. -/
def Drains (calls : List Outcome) : Prop :=
  ∃ msgs : List Str, calls = msgs.map (fun msg => .recv (.ret msg)) ∨
    ∃ code, calls = msgs.map (fun msg => .recv (.ret msg)) ++ [.recv (.error code)]

theorem drains_nil : Drains [] := ⟨[], .inl rfl⟩

theorem Drains.cons {calls : List Outcome} (h : Drains calls) (msg : Str) :
    Drains (.recv (.ret msg) :: calls) := by
  obtain ⟨msgs, rfl | ⟨code, rfl⟩⟩ := h
  · exact ⟨msg :: msgs, .inl rfl⟩
  · exact ⟨msg :: msgs, .inr ⟨code, rfl⟩⟩

theorem Drains.send_notMem {calls : List Outcome} (h : Drains calls) (o : SendOutcome) :
    .send o ∉ calls := by
  obtain ⟨msgs, rfl | ⟨code, rfl⟩⟩ := h
  · simp
  · simp

/-! ### The datagram client -/

namespace DgramClient

variable {κ : Type*} {callbackFunc : RecvCallback κ} {init : κ} {c c' : Client κ}

/-- A receive call ends the loop with an error, which clears the flag if it is fatal, and goes on
after everything else. -/
theorem doRecvMsg_cases {udtRunning : Bool} {callback : κ} {o : RecvOutcome}
    {r : Bool × Bool × κ} (h : doRecvMsg callbackFunc udtRunning callback o = some r) :
    (∃ code, o = .error code ∧ r.1 = false ∧
      r.2.1 = if fatalRecvCode code then false else udtRunning) ∨
    (∃ msg, o = .ret msg ∧ r.1 = true ∧ r.2.1 = udtRunning) := by
  cases o with
  | error code =>
    rw [doRecvMsg_error] at h
    cases h
    exact .inl ⟨code, rfl, rfl, rfl⟩
  | ret msg =>
    refine .inr ⟨msg, rfl, ?_⟩
    simp only [doRecvMsg] at h
    split at h
    · split at h
      · obtain ⟨callback', -, rfl⟩ := Option.map_eq_some_iff.mp h
        exact ⟨rfl, rfl⟩
      · cases h
        exact ⟨rfl, rfl⟩
    · cases h
      exact ⟨rfl, rfl⟩

/-- The flag is cleared, and the thread is on its way out. -/
structure Client.Stopped (c : Client κ) : Prop where
  flag : c.udtRunning = false
  point : c.point = .recv ∨ c.point = .loop ∨ c.point = .closed

/-- Once the flag is cleared, only the receive loop still makes calls, and a failing one ends it. -/
theorem Client.Stopped.step (h : c.Stopped) {a : ClientAction}
    (hl : c.step callbackFunc a = some c') :
    c'.Stopped ∧ c'.sendMsgBuff = c.sendMsgBuff ∧
      c'.sendMsgQueue = c.sendMsgQueue ++ a.msg.toList ∧
      (∀ o, a.call = some o → c.point = .recv ∧
        ((∃ msg, o = .recv (.ret msg)) ∨
          ∃ code, o = .recv (.error code) ∧ c'.point ≠ .recv)) ∧
      (c.point ≠ .recv → c'.point ≠ .recv) := by
  obtain ⟨hflag, hpoint⟩ := h
  cases a with
  | sendMsg msg =>
    cases hl
    exact ⟨⟨hflag, hpoint⟩, rfl, rfl, by simp [ClientAction.call], id⟩
  | tau =>
    have hpoint' : c.point = .loop := by
      rcases hpoint with hp | hp | hp
      · simp [Client.step, Client.tau, hp] at hl
      · exact hp
      · simp [Client.step, Client.tau, hp] at hl
    have hclosed : some { c with point := .closed } = some c' := by
      rw [← hl]
      simp [Client.step, Client.tau, hpoint', hflag]
    cases hclosed
    exact ⟨⟨hflag, .inr (.inr rfl)⟩, rfl, (List.append_nil _).symm, by simp [ClientAction.call],
      by simp⟩
  | send o =>
    rcases hpoint with hp | hp | hp <;> simp [Client.step, hp] at hl
  | recv o =>
    have hp : c.point = .recv := by
      rcases hpoint with hp | hp | hp
      · exact hp
      · simp [Client.step, hp] at hl
      · simp [Client.step, hp] at hl
    simp only [Client.step, hp] at hl
    obtain ⟨r, hr, rfl⟩ := Option.map_eq_some_iff.mp hl
    rcases doRecvMsg_cases hr with ⟨code, rfl, hstill, hrun⟩ | ⟨msg, rfl, hstill, hrun⟩
    · refine ⟨⟨?_, ?_⟩, rfl, (List.append_nil _).symm, ?_, fun hne => absurd hp hne⟩
      · show r.2.1 = false
        rw [hrun, hflag, ite_self]
      · exact .inr (.inl (by simp [hstill]))
      · intro o ho
        cases ho
        exact ⟨hp, .inr ⟨code, rfl, by simp [hstill]⟩⟩
    · refine ⟨⟨hrun.trans hflag, .inl (by simp [hstill])⟩, rfl, (List.append_nil _).symm, ?_,
        fun hne => absurd hp hne⟩
      intro o ho
      cases ho
      exact ⟨hp, .inl ⟨msg, rfl⟩⟩

/-- What happens in the rest of a run once the flag is cleared. -/
theorem Client.Stopped.runFrom (h : c.Stopped) {as : List ClientAction}
    (hrun : (client callbackFunc init).runFrom c as = some c') :
    c'.Stopped ∧ c'.sendMsgBuff = c.sendMsgBuff ∧
      c'.sendMsgQueue = c.sendMsgQueue ++ as.filterMap ClientAction.msg ∧
      Drains (as.filterMap ClientAction.call) ∧
      (c.point ≠ .recv → as.filterMap ClientAction.call = []) := by
  induction as generalizing c with
  | nil =>
    cases hrun
    exact ⟨h, rfl, (List.append_nil _).symm, drains_nil, fun _ => rfl⟩
  | cons a as ih =>
    obtain ⟨c₁, hl, hrest⟩ := Option.bind_eq_some_iff.mp hrun
    obtain ⟨hstopped, hbuff, hqueue, hcall, hpoint⟩ := h.step hl
    obtain ⟨hstopped', hbuff', hqueue', hdrains, hnone⟩ := ih hstopped hrest
    refine ⟨hstopped', hbuff'.trans hbuff, ?_, ?_, ?_⟩
    · rw [hqueue', hqueue, List.append_assoc]
      cases hmsg : a.msg <;> simp [hmsg]
    · cases ho : a.call with
      | none => simpa [ho] using hdrains
      | some o =>
        obtain ⟨-, ⟨msg, rfl⟩ | ⟨code, rfl, hp⟩⟩ := hcall o ho
        · simpa [ho] using hdrains.cons msg
        · exact ⟨[], .inr ⟨code, by simp [ho, hnone hp]⟩⟩
    · intro hp
      cases ho : a.call with
      | none => simpa [ho] using hnone (hpoint hp)
      | some o => exact absurd (hcall o ho).1 hp

/-- A fatal outcome clears the flag; a receive call with one ends the receive loop as well. -/
theorem stopped_of_fatal {a : ClientAction} {o : Outcome}
    (hl : c.step callbackFunc a = some c') (ho : a.call = some o) (hfatal : o.Fatal) :
    c'.Stopped ∧ (∀ r, o = .recv r → c'.point ≠ .recv) := by
  cases a with
  | sendMsg msg => cases ho
  | tau => cases ho
  | send r =>
    cases ho
    simp only [Client.step] at hl
    split at hl
    · next front behind hp hb =>
      cases hl
      rcases Dgram.doSendOneMsg_cases c.udtRunning front r with ⟨rfl, -⟩ | ⟨-, -, hs⟩ | ⟨rfl, -⟩
      · exact absurd rfl hfatal
      · exact ⟨⟨by simp [Client.sendPass, hs], .inl (by simp [Client.sendPass, hs])⟩, by simp⟩
      · exact absurd hfatal id
    · cases hl
  | recv r =>
    cases ho
    simp only [Client.step] at hl
    split at hl
    · next hp =>
      obtain ⟨s, hs, rfl⟩ := Option.map_eq_some_iff.mp hl
      rcases doRecvMsg_cases hs with ⟨code, rfl, hstill, hrun⟩ | ⟨msg, rfl, -, -⟩
      · have hflag : s.2.1 = false := by
          rw [hrun]
          exact if_pos hfatal
        exact ⟨⟨hflag, .inr (.inl (by simp [hstill]))⟩, fun r _ => by simp [hstill]⟩
      · exact absurd hfatal id
    · cases hl

/-- **The datagram client is fail-stop.** In every run, once a call has had a fatal outcome the client
sends nothing more: it goes on to receive until a receive call fails, and not even that if the fatal
outcome was a receive. What is in its buffer stays there, and so does what is pushed from then on. -/
theorem client_failStop {before after : List ClientAction} {a : ClientAction} {o : Outcome}
    (ha : a.call = some o) (hfatal : o.Fatal)
    (h : (client callbackFunc init).run (before ++ a :: after) = some c) :
    ∃ c₁, (client callbackFunc init).run (before ++ [a]) = some c₁ ∧
      Drains (after.filterMap ClientAction.call) ∧
      (∀ r, o = .recv r → after.filterMap ClientAction.call = []) ∧
      c.sendMsgBuff = c₁.sendMsgBuff ∧
      c.sendMsgQueue = c₁.sendMsgQueue ++ after.filterMap ClientAction.msg := by
  have hsplit : before ++ a :: after = (before ++ [a]) ++ after := by simp
  rw [hsplit, System.run, System.runFrom_append, Option.bind_eq_some_iff] at h
  obtain ⟨c₁, hbefore, hafter⟩ := h
  obtain ⟨c₀, -, hl⟩ := (client callbackFunc init).run_snoc_eq_some.mp hbefore
  obtain ⟨hstopped, hrecv⟩ := stopped_of_fatal hl ha hfatal
  obtain ⟨-, hbuff, hqueue, hdrains, hnone⟩ := hstopped.runFrom hafter
  exact ⟨c₁, hbefore, hdrains, fun r hr => hnone (hrecv r hr), hbuff, hqueue⟩

/-- One of two messages is sent, the second send call fails, and a receive call still delivers. -/
def lostBetweenSends : List ClientAction × List ClientAction :=
  ([.sendMsg ['a'], .sendMsg ['b'], .tau, .tau, .send (.ret 1)],
    [.recv (.ret ['x']), .sendMsg ['c'], .recv (.error Udt.EASYNCRCV), .tau])

theorem client_failStop_lostBetweenSends :
    ∃ c₁, (client (κ := Unit) none ()).run
        (lostBetweenSends.1 ++ [.send (.error Udt.ECONNLOST)]) = some c₁ ∧
      Drains [.recv (.ret ['x']), .recv (.error Udt.EASYNCRCV)] ∧
      (∀ r, Outcome.send (.error Udt.ECONNLOST) = .recv r →
        [Outcome.recv (.ret ['x']), .recv (.error Udt.EASYNCRCV)] = []) ∧
      [['b']] = c₁.sendMsgBuff ∧ [['c']] = c₁.sendMsgQueue ++ [['c']] := by
  have hrun : (client (κ := Unit) none ()).run
      (lostBetweenSends.1 ++ .send (.error Udt.ECONNLOST) :: lostBetweenSends.2) =
        some ⟨.closed, [['c']], [['b']], false, ()⟩ := by decide
  exact client_failStop rfl (by decide) hrun

/-- A step keeps the flag, or clears it and takes the thread to the receive loop or out of it. -/
theorem step_flag {a : ClientAction} (hl : c.step callbackFunc a = some c') :
    c'.udtRunning = c.udtRunning ∨ c'.Stopped := by
  cases a with
  | sendMsg msg =>
    cases hl
    exact .inl rfl
  | tau =>
    left
    simp only [Client.step, Client.tau] at hl
    split at hl
    · split at hl <;> cases hl <;> rfl
    · cases hl
      rfl
    · split at hl <;> cases hl
      rfl
    · cases hl
    · cases hl
  | send o =>
    simp only [Client.step] at hl
    split at hl
    · next front behind hp hb =>
      cases hl
      rcases Dgram.doSendOneMsg_cases c.udtRunning front o with ⟨-, hs⟩ | ⟨-, -, hs⟩ | ⟨-, hs⟩
      · exact .inl (by simp [Client.sendPass, hs])
      · exact .inr ⟨by simp [Client.sendPass, hs], .inl (by simp [Client.sendPass, hs])⟩
      · exact .inl (by simp [Client.sendPass, hs])
    · cases hl
  | recv o =>
    simp only [Client.step] at hl
    split at hl
    · next hp =>
      obtain ⟨r, hr, rfl⟩ := Option.map_eq_some_iff.mp hl
      rcases doRecvMsg_cases hr with ⟨code, -, hstill, hrun⟩ | ⟨msg, -, -, hrun⟩
      · cases hf : fatalRecvCode code with
        | true => exact .inr ⟨by simp [hrun, hf], .inr (.inl (by simp [hstill]))⟩
        | false => exact .inl (by simp [hrun, hf])
      · exact .inl hrun
    · cases hl

/-- In every run, a flag that is not set any more was cleared by a call. -/
theorem running_or_stopped {ls : List ClientAction}
    (h : (client callbackFunc init).run ls = some c) : c.udtRunning = true ∨ c.Stopped := by
  refine (client callbackFunc init).run_induction (fun _ c => c.udtRunning = true ∨ c.Stopped)
    (.inl rfl) ?_ h
  intro ls a c c' _ hc hl
  rcases hc with hflag | hstopped
  · rcases step_flag hl with hkept | hstopped'
    · exact .inl (hkept.trans hflag)
    · exact .inr hstopped'
  · exact .inr (hstopped.step hl).1

end DgramClient

/-! ### The stream client -/

namespace StreamClient

variable {κ : Type*} {callbackFunc : RecvCallback κ} {init : κ} {c c' : Client κ}

/-- The calls that the network thread makes before it is at the test of its loop again. -/
def Point.callsLeft : Point → ℕ
  | .loop => 0
  | .send false => 4
  | .erase false _ => 3
  | .recv false => 3
  | .send true => 2
  | .erase true _ => 1
  | .recv true => 1
  | .closed => 0

/-- The send calls among them. -/
def Point.sendsLeft : Point → ℕ
  | .loop => 0
  | .send false => 2
  | .erase false _ => 1
  | .recv false => 1
  | .send true => 1
  | .erase true _ => 0
  | .recv true => 0
  | .closed => 0

/-- What a call does to the thread's position and to the flag. -/
theorem call_cases {a : ClientAction} {o : Outcome} (hl : c.step callbackFunc a = some c')
    (ho : a.call = some o) :
    (∃ second r, o = .send r ∧ a = .send r ∧ c.point = .send second ∧
      c'.udtRunning = (doSendMsg c.udtRunning r).2 ∧
      c'.point = if r.count > 0 then .erase second r.count else .recv second) ∨
    (∃ second r s, o = .recv r ∧ a = .recv r ∧ c.point = .recv second ∧
      doRecvMsg callbackFunc c.udtRunning c.callback r = some s ∧ c'.udtRunning = s.1 ∧
      c'.point = if second then .loop else .send true) := by
  cases a with
  | sendMsg msg => cases ho
  | tau => cases ho
  | send r =>
    cases ho
    simp only [Client.step] at hl
    split at hl
    · next second hp =>
      split at hl
      · cases hl
      · cases hl
        refine .inl ⟨second, r, rfl, rfl, hp, rfl, ?_⟩
        show (if (doSendMsg c.udtRunning r).1 > 0 then _ else _) = _
        rw [doSendMsg_fst]
        simp
    · cases hl
  | recv r =>
    cases ho
    simp only [Client.step] at hl
    split at hl
    · next second hp =>
      obtain ⟨s, hs, rfl⟩ := Option.map_eq_some_iff.mp hl
      exact .inr ⟨second, r, s, rfl, rfl, hp, hs, rfl, rfl⟩
    · cases hl

theorem doSendMsg_fatal {o : SendOutcome} (hfatal : o.Fatal) (udtRunning : Bool) :
    (doSendMsg udtRunning o).2 = false ∧ o.count = 0 := by
  cases o with
  | error code =>
    have hcode : code ≠ Udt.EASYNCSND := hfatal
    simp [doSendMsg, hcode, SendOutcome.count]
  | ret k => exact absurd hfatal id

/-- A receive call clears the flag after a fatal error and leaves it after everything else. -/
theorem doRecvMsg_flag {udtRunning : Bool} {callback : κ} {o : RecvOutcome} {s : Bool × κ}
    (h : doRecvMsg callbackFunc udtRunning callback o = some s) :
    s.1 = if o.Fatal then false else udtRunning := by
  cases o with
  | error code =>
    show s.1 = if fatalRecvCode code = true then false else udtRunning
    by_cases hcode : code = Udt.EASYNCRCV
    · subst hcode
      cases h
      rfl
    · simp only [doRecvMsg, if_neg hcode] at h
      split at h
      · next hf =>
        cases h
        rw [if_pos hf]
      · next hf =>
        cases h
        rw [if_neg hf]
  | ret data =>
    show s.1 = udtRunning
    simp only [doRecvMsg] at h
    split at h
    · split at h
      · obtain ⟨callback', -, rfl⟩ := Option.map_eq_some_iff.mp h
        rfl
      · cases h
        rfl
    · cases h
      rfl

/-- After a fatal outcome the flag is cleared and the first send of the iteration is over. -/
theorem stopped_of_fatal {a : ClientAction} {o : Outcome}
    (hl : c.step callbackFunc a = some c') (ho : a.call = some o) (hfatal : o.Fatal) :
    c'.udtRunning = false ∧ c'.point.callsLeft ≤ 3 ∧ c'.point.sendsLeft ≤ 1 := by
  rcases call_cases hl ho with
    ⟨second, r, rfl, -, -, hflag, hp⟩ | ⟨second, r, s, rfl, -, -, hs, hflag, hp⟩
  · have hsend := doSendMsg_fatal (o := r) hfatal c.udtRunning
    refine ⟨hflag.trans hsend.1, ?_⟩
    rw [hp, hsend.2]
    cases second <;> exact ⟨by decide, by decide⟩
  · have hr : r.Fatal := hfatal
    refine ⟨by rw [hflag, doRecvMsg_flag hs, if_pos hr], ?_⟩
    rw [hp]
    cases second <;> exact ⟨by decide, by decide⟩

end StreamClient

/-! ### The programs of the clients -/

namespace Backlog

/-- What an event is for the client. -/
def Event.action : Event → Option ClientAction
  | .push msg => some (.sendMsg msg)
  | .readSize | .checkSize => none
  | .network a => some a

/-- The message that an event pushes. -/
def Event.msg (e : Event) : Option Str := e.action.bind ClientAction.msg

theorem program_hidden {χ : Type*} {clientStep : χ → ClientAction → Option χ} {size : χ → ℕ}
    {limit : ℕ} {p p' : Program χ} {e : Event} (he : e.action = none)
    (h : p.step clientStep size limit e = some p') : p'.client = p.client := by
  rcases step_cases h with ⟨msg, rfl, -⟩ | ⟨-, -, rfl⟩ | ⟨seen, -, -, rfl⟩ | ⟨a, rfl, -⟩
  · cases he
  · rfl
  · rfl
  · cases he

theorem program_shown {χ : Type*} {clientStep : χ → ClientAction → Option χ} {size : χ → ℕ}
    {limit : ℕ} {p p' : Program χ} {e : Event} {a : ClientAction} (he : e.action = some a)
    (h : p.step clientStep size limit e = some p') :
    clientStep p.client a = some p'.client := by
  rcases step_cases h with
    ⟨msg, rfl, -, -, hc⟩ | ⟨rfl, -⟩ | ⟨seen, rfl, -⟩ | ⟨b, rfl, -, -, hc⟩
  · cases he
    exact hc
  · cases he
  · cases he
  · cases he
    exact hc

/-- The client of a program. -/
def clientView {χ : Type*} (clientStep : χ → ClientAction → Option χ) (size : χ → ℕ) (limit : ℕ)
    (init : χ) : (program clientStep size limit init).View ⟨init, clientStep⟩ where
  label := Event.action
  shows p c := p.client = c
  init := rfl
  hidden _ _ _ _ he hp h := (program_hidden he h).trans hp
  shown _ _ _ _ _ he hp h := ⟨_, hp ▸ program_shown he h, rfl⟩

/-- A run of a program is a run of its client. -/
theorem program_client {χ : Type*} {clientStep : χ → ClientAction → Option χ} {size : χ → ℕ}
    {limit : ℕ} {init : χ} {es : List Event} {p : Program χ}
    (h : (program clientStep size limit init).run es = some p) :
    System.run ⟨init, clientStep⟩ (es.filterMap Event.action) = some p.client := by
  obtain ⟨c, hrun, rfl⟩ := (clientView clientStep size limit init).run h
  exact hrun

/-- The rest of a program's run is the rest of its client's. -/
theorem program_client_rest {χ : Type*} {clientStep : χ → ClientAction → Option χ} {size : χ → ℕ}
    {limit : ℕ} {init : χ} {before after : List Event} {p₁ p : Program χ}
    (hbefore : (program clientStep size limit init).run before = some p₁)
    (h : (program clientStep size limit init).run (before ++ after) = some p) :
    System.runFrom ⟨init, clientStep⟩ p₁.client (after.filterMap Event.action) = some p.client := by
  have hrun := program_client h
  rw [List.filterMap_append, System.run, System.runFrom_append] at hrun
  have hrun₁ : System.runFrom ⟨init, clientStep⟩ init (before.filterMap Event.action) =
      some p₁.client := program_client hbefore
  rwa [hrun₁] at hrun

theorem filterMap_msg (es : List Event) :
    (es.filterMap Event.action).filterMap ClientAction.msg = es.filterMap Event.msg :=
  List.filterMap_filterMap

variable {κ : Type*} {callbackFunc : RecvCallback κ} {init : κ} {before after : List Event}

/-- **A stopped datagram client strands its program.** From the moment the flag is cleared on, no send
call is made, what is in the buffer and in the queue stays there, and `main` gets to push only until
three messages are in the queue: then it reads the same size for ever. -/
theorem dgram_stranded {p₁ p : Program (DgramClient.Client κ)}
    (hbefore : (dgram callbackFunc init).run before = some p₁)
    (hflag : p₁.client.udtRunning = false)
    (h : (dgram callbackFunc init).run (before ++ after) = some p) :
    (∀ o, .network (.send o) ∉ after) ∧
    p.client.sendMsgBuff = p₁.client.sendMsgBuff ∧
    p.client.sendMsgQueue = p₁.client.sendMsgQueue ++ after.filterMap Event.msg ∧
    p₁.client.sendMsgQueue.length + (after.filterMap Event.msg).length ≤ 3 := by
  have hstopped : p₁.client.Stopped :=
    (DgramClient.running_or_stopped (program_client hbefore)).resolve_left (by simp [hflag])
  have hrest := hstopped.runFrom (program_client_rest hbefore h)
  obtain ⟨-, hbuff, hqueue, hdrains, -⟩ := hrest
  rw [filterMap_msg] at hqueue
  refine ⟨?_, hbuff, hqueue, ?_⟩
  · intro o ho
    have hmem : Outcome.send o ∈ (after.filterMap Event.action).filterMap ClientAction.call := by
      rw [List.filterMap_filterMap]
      exact List.mem_filterMap.mpr ⟨.network (.send o), ho, rfl⟩
    exact hdrains.send_notMem o hmem
  · have hbound := dgram_queue_bounded h
    rw [hqueue, List.length_append] at hbound
    exact hbound

/-- The first send call fails, and `main` pushes until the client has three messages in its queue. -/
theorem dgram_stranded_firstSend :
    let before : List Event :=
      [.push ['a'], .network .tau, .network .tau, .network (.send (.error Udt.ECONNLOST))]
    let after : List Event :=
      [.readSize, .network (.recv (.error Udt.EASYNCRCV)), .checkSize, .push ['b'], .network .tau,
        .readSize, .checkSize, .push ['c'], .readSize, .checkSize, .push ['d'], .readSize, .checkSize]
    ∃ p₁, (dgram (κ := Unit) none ()).run before = some p₁ ∧
      (∀ o, .network (.send o) ∉ after) ∧ [['a']] = p₁.client.sendMsgBuff ∧
      [['b'], ['c'], ['d']] = p₁.client.sendMsgQueue ++ after.filterMap Event.msg ∧
      p₁.client.sendMsgQueue.length + (after.filterMap Event.msg).length ≤ 3 := by
  intro before after
  have hbefore : (dgram (κ := Unit) none ()).run before =
      some ⟨.read, .recv, [], [['a']], false, ()⟩ := by decide
  have h : (dgram (κ := Unit) none ()).run (before ++ after) =
      some ⟨.read, .closed, [['b'], ['c'], ['d']], [['a']], false, ()⟩ := by decide
  exact ⟨_, hbefore, dgram_stranded hbefore rfl h⟩

end Backlog

end ReliableUdpBench
