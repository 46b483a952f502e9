import ReliableUdpBench.Lib.Throttle
import ReliableUdpBench.DgramClient
import ReliableUdpBench.StreamClient

/-!
# The backlog of a client

The loop of `main` in both clients sends a message, reads the size of what waits in the client, and
waits while that is above a limit. The network thread moves and sends what waits in the meantime, or
has stopped. As only `main` adds, what it checks is bounded by the limit and one message
(`program_bounded`). The datagram client's queue is emptied into a buffer that nobody checks, but
only when that is empty, so that the same bound holds for the buffer (`client_backlog`).
-/

namespace ReliableUdpBench.Backlog

open Lib

/-! ### The loop of `main` -/

/-- The main thread in its loop, and the client. -/
structure Program (χ : Type*) where
  main : Throttle.Point
  client : χ
  deriving DecidableEq

/-- What happens next: `main` calls `SendMsg`, reads the size or acts on what it has read, or the
network thread does something. -/
inductive Event where
  | push (msg : Str)
  | readSize
  | checkSize
  | network (a : ClientAction)
  deriving DecidableEq

section Program

variable {χ : Type*} (clientStep : χ → ClientAction → Option χ) (size : χ → ℕ) (limit : ℕ)

/-- A step of the program, for the steps of its client, the size that is read and its limit. -/
def Program.step (p : Program χ) : Event → Option (Program χ)
  | .push msg =>
    match p.main with
    | .push => (clientStep p.client (.sendMsg msg)).map fun c => ⟨.read, c⟩
    | _ => none
  | .readSize =>
    match p.main with
    | .read => some ⟨.test (size p.client), p.client⟩
    | _ => none
  | .checkSize =>
    match p.main with
    | .test seen => some ⟨if seen > limit then .read else .push, p.client⟩
    | _ => none
  | .network (.sendMsg _) => none
  | .network .tau => (clientStep p.client .tau).map fun c => ⟨p.main, c⟩
  | .network (.send o) => (clientStep p.client (.send o)).map fun c => ⟨p.main, c⟩
  | .network (.recv o) => (clientStep p.client (.recv o)).map fun c => ⟨p.main, c⟩

/-- Every run of the program, from the first `SendMsg`. -/
def program (init : χ) : System (Program χ) Event :=
  ⟨⟨.push, init⟩, Program.step clientStep size limit⟩

/-- `main` with its client, seen as a throttled producer. -/
def Program.throttle (p : Program χ) : Throttle.Point × ℕ := (p.main, size p.client)

variable {clientStep size limit}

/-- What a step of the program can be. -/
theorem step_cases {p p' : Program χ} {e : Event} (h : p.step clientStep size limit e = some p') :
    (∃ msg, e = .push msg ∧ p.main = .push ∧ p'.main = .read ∧
      clientStep p.client (.sendMsg msg) = some p'.client) ∨
    (e = .readSize ∧ p.main = .read ∧ p' = ⟨.test (size p.client), p.client⟩) ∨
    (∃ seen, e = .checkSize ∧ p.main = .test seen ∧
      p' = ⟨if seen > limit then .read else .push, p.client⟩) ∨
    (∃ a, e = .network a ∧ (∀ msg, a ≠ .sendMsg msg) ∧ p'.main = p.main ∧
      clientStep p.client a = some p'.client) := by
  cases e with
  | push msg =>
    cases hmain : p.main with
    | push =>
      simp only [Program.step, hmain] at h
      obtain ⟨c, hc, rfl⟩ := Option.map_eq_some_iff.mp h
      exact .inl ⟨msg, rfl, rfl, rfl, hc⟩
    | read => simp [Program.step, hmain] at h
    | test seen => simp [Program.step, hmain] at h
  | readSize =>
    cases hmain : p.main with
    | push => simp [Program.step, hmain] at h
    | read =>
      simp only [Program.step, hmain] at h
      exact .inr (.inl ⟨rfl, rfl, (Option.some.inj h).symm⟩)
    | test seen => simp [Program.step, hmain] at h
  | checkSize =>
    cases hmain : p.main with
    | push => simp [Program.step, hmain] at h
    | read => simp [Program.step, hmain] at h
    | test seen =>
      simp only [Program.step, hmain] at h
      exact .inr (.inr (.inl ⟨seen, rfl, rfl, (Option.some.inj h).symm⟩))
  | network a =>
    refine .inr (.inr (.inr ⟨a, rfl, ?_⟩))
    cases a with
    | sendMsg msg => cases h
    | tau =>
      obtain ⟨c, hc, rfl⟩ := Option.map_eq_some_iff.mp h
      exact ⟨by simp, rfl, hc⟩
    | send o =>
      obtain ⟨c, hc, rfl⟩ := Option.map_eq_some_iff.mp h
      exact ⟨by simp, rfl, hc⟩
    | recv o =>
      obtain ⟨c, hc, rfl⟩ := Option.map_eq_some_iff.mp h
      exact ⟨by simp, rfl, hc⟩

/-- If `SendMsg` adds at most `burst` and the network thread only takes away, each step is one of a
throttled producer. -/
theorem step_throttle {burst : ℕ} {p p' : Program χ} {e : Event}
    (hpush : ∀ msg c, e = .push msg → clientStep p.client (.sendMsg msg) = some c →
      ∃ k ≤ burst, size c = size p.client + k)
    (hnetwork : ∀ a c, (∀ msg, a ≠ .sendMsg msg) → clientStep p.client a = some c →
      size c ≤ size p.client)
    (h : p.step clientStep size limit e = some p') :
    Throttle.Step limit burst (p.throttle size) (p'.throttle size) := by
  rcases step_cases h with
    ⟨msg, he, hmain, hmain', hc⟩ | ⟨-, hmain, rfl⟩ | ⟨seen, -, hmain, rfl⟩ | ⟨a, -, ha, hmain', hc⟩
  · obtain ⟨k, hk, hsize⟩ := hpush msg _ he hc
    rw [Program.throttle, Program.throttle, hmain, hmain', hsize]
    exact .push hk
  · rw [Program.throttle, hmain]
    exact .read (size p.client)
  · rw [Program.throttle, Program.throttle, hmain]
    by_cases hseen : seen > limit
    · rw [if_pos hseen]
      exact .wait hseen
    · rw [if_neg hseen]
      exact .next (Nat.le_of_not_lt hseen)
  · rw [Program.throttle, Program.throttle, hmain']
    exact .take p.main (hnetwork a _ ha hc)

/-- **What `main` checks is bounded** in every run whose messages each add at most `burst`. -/
theorem program_bounded (burst : ℕ) {init : χ} (hinit : size init ≤ limit) (fits : Str → Prop)
    (hpush : ∀ c msg c', fits msg → clientStep c (.sendMsg msg) = some c' →
      ∃ k ≤ burst, size c' = size c + k)
    (hnetwork : ∀ c a c', (∀ msg, a ≠ .sendMsg msg) → clientStep c a = some c' → size c' ≤ size c)
    {ls : List Event} {p : Program χ} (h : (program clientStep size limit init).run ls = some p)
    (hfits : ∀ msg, .push msg ∈ ls → fits msg) :
    Throttle.Bounded limit burst (p.throttle size) := by
  refine (program clientStep size limit init).run_induction
    (fun ls p => (∀ msg, .push msg ∈ ls → fits msg) →
      Throttle.Bounded limit burst (p.throttle size)) ?_ ?_ h hfits
  · intro _
    exact ⟨Nat.le_add_right_of_le hinit, hinit⟩
  · intro ls e p p' _ ih hstep hfits
    have hbounded := ih fun msg hmsg => hfits msg (List.mem_append_left [e] hmsg)
    apply Throttle.Step.bounded (step_throttle ?_ (hnetwork p.client) hstep) hbounded
    intro msg c he hc
    exact hpush p.client msg c (hfits msg (by simp [he])) hc

end Program

/-! ### The two clients -/

variable {κ : Type*}

/-- The datagram client's program: `main` waits while more than 2 messages are in the queue. -/
def dgram (callbackFunc : RecvCallback κ) (callback : κ) :
    System (Program (DgramClient.Client κ)) Event :=
  program (DgramClient.Client.step callbackFunc) DgramClient.Client.sendMsgQueueSize 2
    (.start callback)

/-- The stream client's program: `main` waits while more than 500 * 50 bytes are in the string. -/
def stream (callbackFunc : RecvCallback κ) (callback : κ) :
    System (Program (StreamClient.Client κ)) Event :=
  program (StreamClient.Client.step callbackFunc) StreamClient.Client.sendMsgBufSize (500 * 50)
    (.start callback)

/-- The network thread only takes away from the queue, and leaves the buffer, makes it shorter or
moves the queue into it. -/
theorem dgram_network {callbackFunc : RecvCallback κ} {c c' : DgramClient.Client κ}
    {a : ClientAction} (ha : ∀ msg, a ≠ .sendMsg msg) (h : c.step callbackFunc a = some c') :
    c'.sendMsgQueue.length ≤ c.sendMsgQueue.length ∧
      (c'.sendMsgBuff.length ≤ c.sendMsgBuff.length ∨ c'.sendMsgBuff = c.sendMsgQueue) := by
  cases a with
  | sendMsg msg => exact absurd rfl (ha msg)
  | tau =>
    obtain ⟨-, -, ⟨hbuff, hqueue⟩ | ⟨-, hbuff, hqueue⟩⟩ := DgramClient.tau_cases h
    · exact ⟨hqueue ▸ Nat.le_refl _, .inl (hbuff ▸ Nat.le_refl _)⟩
    · exact ⟨hqueue ▸ Nat.zero_le _, .inr hbuff⟩
  | send o =>
    obtain ⟨front, behind, hbuff, hqueue, -, -, ⟨-, hbuff'⟩ | ⟨-, hbuff'⟩⟩ :=
      DgramClient.send_cases h
    · exact ⟨hqueue ▸ Nat.le_refl _, .inl (by rw [hbuff, hbuff'])⟩
    · exact ⟨hqueue ▸ Nat.le_refl _, .inl (by rw [hbuff, hbuff']; exact Nat.le_succ _)⟩
  | recv o =>
    obtain ⟨hqueue, hbuff, -, -⟩ := DgramClient.recv_cases h
    exact ⟨hqueue ▸ Nat.le_refl _, .inl (hbuff ▸ Nat.le_refl _)⟩

theorem dgram_queue_bounded {callbackFunc : RecvCallback κ} {callback : κ} {ls : List Event}
    {p : Program (DgramClient.Client κ)} (h : (dgram callbackFunc callback).run ls = some p) :
    p.client.sendMsgQueue.length ≤ 3 := by
  have hinit : (DgramClient.Client.start callback).sendMsgQueueSize ≤ 2 := Nat.zero_le 2
  refine (program_bounded 1 hinit (fun _ => True) ?_ ?_ h (fun _ _ => trivial)).size_le
  · intro c msg c' _ hc
    cases hc
    exact ⟨1, Nat.le_refl 1, List.length_append⟩
  · intro c a c' ha hc
    exact (dgram_network ha hc).1

theorem dgram_buff_bounded {callbackFunc : RecvCallback κ} {callback : κ} {ls : List Event}
    {p : Program (DgramClient.Client κ)} (h : (dgram callbackFunc callback).run ls = some p) :
    p.client.sendMsgBuff.length ≤ 3 := by
  refine (dgram callbackFunc callback).run_induction
    (fun _ p => p.client.sendMsgBuff.length ≤ 3) (Nat.zero_le 3) ?_ h
  intro ls e p p' hrun ih hstep
  rcases step_cases hstep with
    ⟨msg, -, -, -, hc⟩ | ⟨-, -, rfl⟩ | ⟨seen, -, -, rfl⟩ | ⟨a, -, ha, -, hc⟩
  · rw [← Option.some.inj hc]
    exact ih
  · exact ih
  · exact ih
  · obtain ⟨-, hbuff | hbuff⟩ := dgram_network ha hc
    · exact hbuff.trans ih
    · rw [hbuff]
      exact dgram_queue_bounded hrun

/-- Only `SendMsg` adds to the string, as much as it is given. -/
theorem stream_bounded {callbackFunc : RecvCallback κ} {callback : κ} {n : ℕ} {ls : List Event}
    {p : Program (StreamClient.Client κ)} (h : (stream callbackFunc callback).run ls = some p)
    (hsize : ∀ msg, Event.push msg ∈ ls → msg.length ≤ n) :
    p.client.sendMsgBuf.length ≤ 25000 + n := by
  have hinit : (StreamClient.Client.start callback).sendMsgBufSize ≤ 500 * 50 := Nat.zero_le _
  refine (program_bounded n hinit (fun msg => msg.length ≤ n) ?_ ?_ h hsize).size_le
  · intro c msg c' hmsg hc
    obtain ⟨-, hbuf, -⟩ := StreamClient.sendMsg_cases hc
    refine ⟨msg.length, hmsg, ?_⟩
    rw [StreamClient.Client.sendMsgBufSize, hbuf, List.length_append]
    rfl
  · intro c a c' ha hc
    show c'.sendMsgBuf.length ≤ c.sendMsgBuf.length
    cases a with
    | sendMsg msg => exact absurd rfl (ha msg)
    | tau =>
      obtain ⟨-, hbuf, -⟩ := StreamClient.tau_cases hc
      rw [hbuf, StreamClient.Client.unsent, List.length_drop]
      exact Nat.sub_le _ _
    | send o =>
      obtain ⟨-, hbuf, -⟩ := StreamClient.send_cases hc
      rw [hbuf]
    | recv o =>
      obtain ⟨hbuf, -⟩ := StreamClient.recv_cases hc
      rw [hbuf]

/-- **The backlog of a client is bounded.** Whatever the order of the steps and whatever the calls
return, at most 3 messages are in the datagram client's queue and at most 3 in its buffer, and the
stream client's string holds at most 25000 bytes and one message. -/
theorem client_backlog {κ κ' : Type*} (dgramFunc : RecvCallback κ) (dgramInit : κ)
    (streamFunc : RecvCallback κ') (streamInit : κ') :
    (∀ ls p, (dgram dgramFunc dgramInit).run ls = some p →
      p.client.sendMsgQueue.length ≤ 3 ∧ p.client.sendMsgBuff.length ≤ 3 ∧
        p.client.sendMsgQueue.length + p.client.sendMsgBuff.length ≤ 6) ∧
    (∀ n ls p, (stream streamFunc streamInit).run ls = some p →
      (∀ msg, Event.push msg ∈ ls → msg.length ≤ n) →
      p.client.sendMsgBuf.length ≤ 25000 + n) := by
  constructor
  · intro ls p h
    have hqueue := dgram_queue_bounded h
    have hbuff := dgram_buff_bounded h
    exact ⟨hqueue, hbuff, Nat.add_le_add hqueue hbuff⟩
  · intro n ls p h hsize
    exact stream_bounded h hsize

/-- Three messages are pushed, grabbed and not sent, and three more are pushed. -/
def sixMessages : List Event :=
  let three : List Event :=
    [.push ['a'], .readSize, .checkSize, .push ['b'], .readSize, .checkSize, .push ['c'], .readSize]
  three ++ [.checkSize, .network .tau, .network .tau, .readSize, .checkSize] ++ three

/-- The datagram client reaches its bound. -/
theorem client_backlog_sixMessages :
    (∃ p, (dgram (κ := Unit) none ()).run sixMessages = some p ∧
      p.client.sendMsgQueue = [['a'], ['b'], ['c']] ∧
      p.client.sendMsgBuff = [['a'], ['b'], ['c']] ∧
      p.client.sendMsgQueue.length ≤ 3 ∧ p.client.sendMsgBuff.length ≤ 3 ∧
      p.client.sendMsgQueue.length + p.client.sendMsgBuff.length ≤ 6) ∧
    ∃ p, (stream (κ := Unit) none ()).run [.push ['a', 'b'], .network .tau] = some p ∧
      p.client.sendMsgBuf = ['a', 'b'] ∧ p.client.sendMsgBuf.length ≤ 25000 + 2 := by
  have hdgram : (dgram (κ := Unit) none ()).run sixMessages =
      some ⟨.test 3, .send, [['a'], ['b'], ['c']], [['a'], ['b'], ['c']], true, ()⟩ := by decide
  have hstream : (stream (κ := Unit) none ()).run [.push ['a', 'b'], .network .tau] =
      some ⟨.read, .send false, ['a', 'b'], true, ()⟩ := by decide
  have hbacklog := client_backlog (none : RecvCallback Unit) () (none : RecvCallback Unit) ()
  refine ⟨⟨_, hdgram, rfl, rfl, hbacklog.1 _ _ hdgram⟩,
    ⟨_, hstream, rfl, hbacklog.2 2 _ _ hstream ?_⟩⟩
  intro msg hmsg
  obtain rfl : msg = ['a', 'b'] := by simpa using hmsg
  decide

end ReliableUdpBench.Backlog
