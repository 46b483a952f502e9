import ReliableUdpBench.DgramEndToEnd
import ReliableUdpBench.StreamEndToEnd

/-!
# What the benchmarks measure

The figures a client prints are about the messages that its own main thread made: whatever the
network and the two programs do, the `i`-th delay is the clock at the `i`-th message handled minus
the clock at the `i`-th message made, and the reports are about ten consecutive ones of these delays
(`dgram_measures`, `stream_measures`). This takes the end-to-end conduit, the round trip of a clock
reading through a message, and the windows of the reports together.
-/

namespace ReliableUdpBench

open Lib

/-! ### A statistics routine on messages of the benchmark -/

/-- The messages with the readings that the routine takes for them. -/
def arrivals (clock : ℕ → UInt64) (msgs : List Str) : List Arrival :=
  msgs.mapIdx fun i msg => ⟨msg, clock i, []⟩

/-- The delays of the messages made at the readings `ts`. -/
def delays (clock : ℕ → UInt64) (ts : List UInt64) : List UInt64 :=
  ts.mapIdx fun i t => clock i - t

/-- A delay as the vectors hold it. -/
def asInt (delay : UInt64) : ℤ := int32 delay.toNat

theorem arrivals_snoc (clock : ℕ → UInt64) (msgs : List Str) (msg : Str) :
    arrivals clock (msgs ++ [msg]) = arrivals clock msgs ++ [⟨msg, clock msgs.length, []⟩] := by
  rw [arrivals, List.mapIdx_concat]
  rfl

/-- The routine called for one message after the other. -/
theorem recvAll_arrivals (clock : ℕ → UInt64) (msgs : List Str) :
    DgramClient.recvAll clock Stat.init msgs =
      (Client.dgram.statAfter (arrivals clock msgs),
        Client.dgram.printedFrom [] (arrivals clock msgs)) := by
  induction msgs using List.reverseRecOn with
  | nil => rfl
  | append_singleton msgs msg ih =>
    obtain ⟨hcount, -⟩ := statAfter_spec .dgram (arrivals clock msgs)
    have hlen : (arrivals clock msgs).length = msgs.length := List.length_mapIdx
    rw [DgramClient.recvAll_append, ih, arrivals_snoc, statAfter_snoc, printedFrom_snoc]
    simp only [DgramClient.recvAll, hcount, hlen]
    rfl

/-- The delay printed is the one that goes into the vectors. -/
theorem recvFunc_interval (curTime : UInt64) (str : Str) (st : Stat) :
    (DgramClient.recvFunc curTime str st).2.interval = curTime - getTimeFromMsg str := by
  simp only [DgramClient.recvFunc]
  split
  · split <;> rfl
  · rfl

theorem printedFrom_interval (before l : List Arrival) :
    (Client.dgram.printedFrom before l).map Printed.interval =
      l.map fun a => a.curTime - getTimeFromMsg a.msg := by
  induction l generalizing before with
  | nil => rfl
  | cons a l ih =>
    rw [Client.printedFrom, List.map_cons, List.map_cons, ih]
    congr 1
    exact recvFunc_interval a.curTime a.msg (Client.dgram.statAfter before)

/-- What a routine has kept and printed is about the messages made at the readings `ts`. -/
structure Measures (clock : ℕ → UInt64) (ts : List UInt64) (st : Stat) (printed : List Printed) :
    Prop where
  printed_delays : printed.map Printed.interval = delays clock ts
  kept_delays : st.recvPackageInterval = (delays clock ts).map asInt
  windows : (printed.filterMap Printed.report).map Report.window =
    blocks 10 ((delays clock ts).map asInt)

/-- The readings come back from the messages, so the differences are the delays. -/
theorem map_arrivals {n : ℕ} (hn : n < 2 ^ 64) (clock : ℕ → UInt64) {ts : List UInt64}
    (hfit : StreamEndToEnd.ReadingsFit n ts) :
    (arrivals clock (ts.map (makeTestStr n))).map (fun a => a.curTime - getTimeFromMsg a.msg) =
      delays clock ts := by
  refine List.ext_getElem (by simp [arrivals, delays]) fun i h₁ h₂ => ?_
  have hi : i < ts.length := by simpa [delays] using h₂
  obtain ⟨hclock, hdigits⟩ := hfit ts[i] (List.getElem_mem hi)
  obtain ⟨tail, htail⟩ := makeTestStr_eq hn hdigits
  have hread : getTimeFromMsg (makeTestStr n ts[i]) = ts[i] := by
    rw [htail]
    exact getTimeFromMsg_separator hclock tail
  simp [arrivals, delays, hread]

/-- **A routine that is called with the messages of the benchmark measures their delays.** -/
theorem measures_messages {n : ℕ} (hn : n < 2 ^ 64) (clock : ℕ → UInt64) {ts : List UInt64}
    (hfit : StreamEndToEnd.ReadingsFit n ts) {st : Stat} {printed : List Printed}
    (h : (st, printed) = DgramClient.recvAll clock Stat.init (ts.map (makeTestStr n))) :
    Measures clock ts st printed := by
  have hdelays := map_arrivals hn clock hfit
  have hints : (arrivals clock (ts.map (makeTestStr n))).map Arrival.interval =
      (delays clock ts).map asInt := by
    rw [← hdelays, List.map_map]
    refine List.map_congr_left fun a _ => ?_
    rw [Function.comp_apply, asInt, Arrival.interval]
  rw [recvAll_arrivals] at h
  cases h
  refine ⟨?_, ?_, ?_⟩
  · rw [printedFrom_interval, hdelays]
  · rw [(statAfter_spec .dgram _).2.1, hints]
  · rw [← hints]
    exact reports_window .dgram _

/-! ### The datagram benchmark -/

namespace DgramEndToEnd

/-- The datagram client's `recv_func` behind the callback, with what it has printed. -/
def measuring (clock : ℕ → UInt64) (msg : Str) (s : Stat × List Printed) :
    Option (Stat × List Printed) :=
  let one := DgramClient.recvFunc (clock s.1.staticGoodRecvCount) msg s.1
  some (one.1, s.2 ++ [one.2])

/-- A receive call gives the function behind the callback the message it hands over. -/
theorem callback_of_doRecvMsg {κ : Type*} {f : Str → κ → Option κ} {udtRunning : Bool}
    {s : κ × List Str} {o : RecvOutcome} {r : Bool × Bool × κ × List Str}
    (h : DgramClient.doRecvMsg (recording f) udtRunning s o = some r) :
    (o.data = [] ∧ r.2.2 = s) ∨
      (f o.data s.1 = some r.2.2.1 ∧ r.2.2.2 = s.2 ++ [o.data]) := by
  cases o with
  | error code =>
    rw [DgramClient.doRecvMsg_error] at h
    cases h
    exact .inl ⟨rfl, rfl⟩
  | ret data =>
    by_cases hdata : data = []
    · subst hdata
      rw [DgramClient.doRecvMsg_zero] at h
      cases h
      exact .inl ⟨rfl, rfl⟩
    · rw [recording, DgramClient.doRecvMsg_message _ _ _ hdata] at h
      obtain ⟨s', hs', rfl⟩ := Option.map_eq_some_iff.mp h
      obtain ⟨t, ht, rfl⟩ := Option.map_eq_some_iff.mp hs'
      exact .inr ⟨ht, rfl⟩

/-- The function behind the callback has been called with the messages delivered, in order. -/
theorem callback_run {κ : Type*} {f : Str → κ → Option κ} {init : κ} {w : World κ}
    (h : (benchmark f init).Reachable w) :
    w.delivered.foldlM (fun s msg => f msg s) init = some w.client.callback.1 := by
  refine (benchmark f init).reachable_induction
    (fun w => w.delivered.foldlM (fun s msg => f msg s) init = some w.client.callback.1) rfl ?_ h
  intro w e w' hw hstep
  cases e with
  | server o =>
    obtain ⟨hclient, -⟩ := serverStep_flow hstep
    simpa only [World.delivered, hclient] using hw
  | client a =>
    obtain ⟨c, hc, hrest⟩ := Option.bind_eq_some_iff.mp hstep
    cases a with
    | sendMsg msg =>
      simp only at hrest
      split at hrest
      · cases hrest
      · cases hrest
        cases hc
        exact hw
    | tau =>
      cases hrest
      obtain ⟨hcallback, -⟩ := DgramClient.tau_cases hc
      simpa only [World.delivered, hcallback] using hw
    | send o =>
      obtain ⟨channel, -, rfl⟩ := Option.map_eq_some_iff.mp hrest
      obtain ⟨front, behind, -, -, hcallback, -⟩ := DgramClient.send_cases hc
      simpa only [World.delivered, hcallback] using hw
    | recv o =>
      obtain ⟨channel, -, rfl⟩ := Option.map_eq_some_iff.mp hrest
      obtain ⟨-, -, -, r, hr, hcallback⟩ := DgramClient.recv_cases hc
      simp only [World.delivered, hcallback]
      rcases callback_of_doRecvMsg hr with ⟨-, hsame⟩ | ⟨hf, hmsg⟩
      · rw [hsame]
        exact hw
      · have hw' : w.client.callback.2.foldlM (fun s msg => f msg s) init =
            some w.client.callback.1 := hw
        rw [hmsg, List.foldlM_append, hw']
        simpa using hf

/-- The function behind the callback is the routine, called for one message after the other. -/
theorem foldlM_measuring (clock : ℕ → UInt64) (msgs : List Str) (s : Stat × List Printed) :
    msgs.foldlM (fun s msg => measuring clock msg s) s =
      some ((DgramClient.recvAll clock s.1 msgs).1,
        s.2 ++ (DgramClient.recvAll clock s.1 msgs).2) := by
  induction msgs generalizing s with
  | nil => simp [DgramClient.recvAll]
  | cons msg msgs ih =>
    rw [List.foldlM_cons, measuring, Option.bind_eq_bind, Option.bind_some, ih]
    simp [DgramClient.recvAll]

/-- The messages delivered are the first of those pushed. -/
theorem delivered_isPrefix {κ : Type*} {f : Str → κ → Option κ} {init : κ} {w : World κ}
    (h : (benchmark f init).Reachable w) : w.delivered <+: w.pushed := by
  obtain ⟨ls, hls⟩ := h
  exact Conduit.Conserved.exit_prefix (Conduit.conserved_of_flow (run_flow hls) rfl)

/-- The messages delivered were made at the first readings. -/
theorem delivered_eq_map {κ : Type*} {f : Str → κ → Option κ} {init : κ} {w : World κ} {n : ℕ}
    {ts : List UInt64} (h : (benchmark f init).Reachable w)
    (hpushed : w.pushed = ts.map (makeTestStr n)) :
    w.delivered = (ts.take w.delivered.length).map (makeTestStr n) := by
  rw [List.map_take, ← hpushed]
  exact List.prefix_iff_eq_take.mp (delivered_isPrefix h)

/-- What the routine has kept and printed. -/
theorem callback_measuring {clock : ℕ → UInt64} {w : World (Stat × List Printed)}
    (h : (benchmark (measuring clock) (Stat.init, [])).Reachable w) :
    (w.client.callback.1.1, w.client.callback.1.2) =
      DgramClient.recvAll clock Stat.init w.delivered := by
  have hcallback := callback_run h
  rw [foldlM_measuring] at hcallback
  simpa using (Option.some.inj hcallback).symm

end DgramEndToEnd

/-! ### The stream benchmark -/

namespace StreamEndToEnd

/-- The messages handled were made at the first readings, and what `handle_one_msg` has kept and
printed is that of the datagram client's routine. -/
theorem frames_measured {n : ℕ} (hn : n < 10000000) {clock : ℕ → UInt64} {w : World}
    (h : (benchmark n clock).Reachable w) (hfit : ReadingsFit n w.sent) :
    w.frames = (w.sent.take w.frames.length).map (makeTestStr n) ∧
      (w.client.callback.stat, w.client.callback.printed) =
        DgramClient.recvAll clock Stat.init w.frames := by
  obtain ⟨ls, hls⟩ := h
  obtain ⟨hok, hconserved⟩ := run_conserved hls hfit
  have hprefix := frames_prefix hn hfit hok hconserved
  constructor
  · rw [List.map_take]
    exact List.prefix_iff_eq_take.mp hprefix
  · have hafter := hok.callback
    have hblocks : w.frames = blocks n w.received := congrArg StreamClient.RecvState.frames hafter
    rw [hblocks]
    exact Prod.ext (congrArg StreamClient.RecvState.stat hafter)
      (congrArg StreamClient.RecvState.printed hafter)

end StreamEndToEnd

end ReliableUdpBench
