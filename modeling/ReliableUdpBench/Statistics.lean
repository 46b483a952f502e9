import Mathlib.Data.List.Induction
import ReliableUdpBench.Lib.Blocks
import ReliableUdpBench.TestUtil

/-!
# The clients' delay statistics

Each client keeps the delays of its messages in two vectors, one of all messages and one that is
cleared at every tenth, and prints a report at every tenth message. The stream client does this in
`handle_one_msg`, the datagram client in its `recv_func`; the static variables of either are a
`Stat`. The two routines are written down separately, as the two sources have them, and are the
same function (`handleOneMsg_eq_recvFunc`).

`report_windows` says what a report is about: the tenth, twentieth, ... message triggers it, and its
window is exactly the ten messages since the one before.
-/

namespace ReliableUdpBench

open Lib

/-- The vectors and static variables of a statistics routine. `static_good_recv_count` is a `size_t`
and cannot wrap: it is the number of elements of `recv_package_interval_`, which are an `int` each. -/
structure Stat where
  recvPackageInterval : List ℤ
  recvPackageInterval10 : List ℤ
  staticLastRefreshTime : UInt64
  staticRecvedBytes : UInt64
  staticGoodRecvCount : ℕ
  deriving DecidableEq

/-- The variables before the first message. -/
def Stat.init : Stat := ⟨[], [], 0, 0, 0⟩

/-- A printed throughput: the bytes and the elapsed time it is made of, and its tenths. -/
structure Throughput where
  bytes : UInt64
  elapsed : UInt64
  tenths : UInt64
  deriving DecidableEq

/-- A printed report, with what the figures were computed from: the two vectors at that moment and
the divisor of the total average. -/
structure Report where
  window : List ℤ
  history : List ℤ
  divisor : ℕ
  max : Option ℤ
  average10 : ℤ
  averageTotal : ℤ
  throughput : Option Throughput
  deriving DecidableEq

/-- What the routine prints for one message: the delay, and at every tenth message a report. -/
structure Printed where
  interval : UInt64
  report : Option Report
  deriving DecidableEq

namespace StreamClient

/-- `handle_one_msg` at a clock reading; the second argument is not used. -/
def handleOneMsg (curTime : UInt64) (msg _totalRecvedStr : Str) (st : Stat) : Stat × Printed :=
  let sendTime := getTimeFromMsg msg
  let recvedBytes := st.staticRecvedBytes + UInt64.ofNat msg.length
  let goodRecvCount := st.staticGoodRecvCount + 1
  let interval := curTime - sendTime
  let interval_ := st.recvPackageInterval ++ [int32 interval.toNat]
  let interval10_ := st.recvPackageInterval10 ++ [int32 interval.toNat]
  if goodRecvCount % 10 = 0 then
    let average10 := (sum32 interval10_).tdiv 10
    let averageTotal := mixedDiv (sum32 interval_) interval_.length
    if curTime - st.staticLastRefreshTime > 10 * 1000 then
      let elapsed := curTime - st.staticLastRefreshTime
      let throughput := ⟨recvedBytes, elapsed, recvedBytes * 10 / elapsed⟩
      (⟨interval_, [], curTime, 0, goodRecvCount⟩,
        ⟨interval, some ⟨interval10_, interval_, interval_.length, interval10_.max?, average10,
          averageTotal, some throughput⟩⟩)
    else
      (⟨interval_, [], st.staticLastRefreshTime, recvedBytes, goodRecvCount⟩,
        ⟨interval, some ⟨interval10_, interval_, interval_.length, interval10_.max?, average10,
          averageTotal, none⟩⟩)
  else
    (⟨interval_, interval10_, st.staticLastRefreshTime, recvedBytes, goodRecvCount⟩,
      ⟨interval, none⟩)

end StreamClient

namespace DgramClient

/-- `recv_func` at a clock reading. -/
def recvFunc (curTime : UInt64) (str : Str) (st : Stat) : Stat × Printed :=
  let sendTime := getTimeFromMsg str
  let recvedBytes := st.staticRecvedBytes + UInt64.ofNat str.length
  let goodRecvCount := st.staticGoodRecvCount + 1
  let interval := curTime - sendTime
  let interval_ := st.recvPackageInterval ++ [int32 interval.toNat]
  let interval10_ := st.recvPackageInterval10 ++ [int32 interval.toNat]
  if goodRecvCount % 10 = 0 then
    let average10 := (sum32 interval10_).tdiv 10
    let averageTotal := mixedDiv (sum32 interval_) interval_.length
    if curTime - st.staticLastRefreshTime > 10 * 1000 then
      let elapsed := curTime - st.staticLastRefreshTime
      let throughput := ⟨recvedBytes, elapsed, recvedBytes * 10 / elapsed⟩
      (⟨interval_, [], curTime, 0, goodRecvCount⟩,
        ⟨interval, some ⟨interval10_, interval_, interval_.length, interval10_.max?, average10,
          averageTotal, some throughput⟩⟩)
    else
      (⟨interval_, [], st.staticLastRefreshTime, recvedBytes, goodRecvCount⟩,
        ⟨interval, some ⟨interval10_, interval_, interval_.length, interval10_.max?, average10,
          averageTotal, none⟩⟩)
  else
    (⟨interval_, interval10_, st.staticLastRefreshTime, recvedBytes, goodRecvCount⟩,
      ⟨interval, none⟩)

end DgramClient

/-- **The two statistics routines are one function.** -/
theorem handleOneMsg_eq_recvFunc (curTime : UInt64) (msg total : Str) (st : Stat) :
    StreamClient.handleOneMsg curTime msg total st = DgramClient.recvFunc curTime msg st := rfl

/-! ### Runs of a statistics routine -/

/-- A message the routine is called with: its bytes, the clock reading, and what the stream client
passes as its second argument. -/
structure Arrival where
  msg : Str
  curTime : UInt64
  totalRecvedStr : Str

/-- The delay as the vectors hold it: an unsigned difference narrowed to `int`. -/
def Arrival.interval (a : Arrival) : ℤ := int32 (a.curTime - getTimeFromMsg a.msg).toNat

/-- The two clients. -/
inductive Client where
  | stream
  | dgram

/-- The client's statistics routine on one message. -/
def Client.handle : Client → Arrival → Stat → Stat × Printed
  | .stream, a, st => StreamClient.handleOneMsg a.curTime a.msg a.totalRecvedStr st
  | .dgram, a, st => DgramClient.recvFunc a.curTime a.msg st

/-- The state after the messages. -/
def Client.statAfter (c : Client) (l : List Arrival) : Stat :=
  l.foldl (fun st a => (c.handle a st).1) Stat.init

/-- What is printed for the message `a` after the messages `l`. -/
def Client.printedAt (c : Client) (l : List Arrival) (a : Arrival) : Printed :=
  (c.handle a (c.statAfter l)).2

/-- What is printed for the messages `l` after the messages `before`. -/
def Client.printedFrom (c : Client) (before : List Arrival) : List Arrival → List Printed
  | [] => []
  | a :: l => c.printedAt before a :: c.printedFrom (before ++ [a]) l

/-- The reports printed for the messages, in order. -/
def Client.reports (c : Client) (l : List Arrival) : List Report :=
  (c.printedFrom [] l).filterMap Printed.report

/-! ### What one message does -/

theorem handle_eq_recvFunc (c : Client) (a : Arrival) (st : Stat) :
    c.handle a st = DgramClient.recvFunc a.curTime a.msg st := by
  cases c <;> rfl

/-- One message is counted, appended to both vectors, and at every tenth the short vector is
reported and cleared. -/
theorem handle_spec (c : Client) (a : Arrival) (st : Stat) :
    (c.handle a st).1.staticGoodRecvCount = st.staticGoodRecvCount + 1 ∧
    (c.handle a st).1.recvPackageInterval = st.recvPackageInterval ++ [a.interval] ∧
    (¬10 ∣ st.staticGoodRecvCount + 1 → (c.handle a st).2.report = none ∧
      (c.handle a st).1.recvPackageInterval10 = st.recvPackageInterval10 ++ [a.interval]) ∧
    (10 ∣ st.staticGoodRecvCount + 1 → (c.handle a st).1.recvPackageInterval10 = [] ∧
      ∃ r, (c.handle a st).2.report = some r ∧
        r.window = st.recvPackageInterval10 ++ [a.interval] ∧
        r.history = st.recvPackageInterval ++ [a.interval] ∧
        r.divisor = r.history.length ∧ r.max = r.window.max? ∧
        r.average10 = (sum32 r.window).tdiv 10 ∧
        r.averageTotal = mixedDiv (sum32 r.history) r.divisor) := by
  rw [handle_eq_recvFunc]
  simp only [DgramClient.recvFunc, Nat.dvd_iff_mod_eq_zero, Arrival.interval]
  by_cases hten : (st.staticGoodRecvCount + 1) % 10 = 0
  · simp only [if_pos hten]
    split <;> simp [hten]
  · simp [hten]

theorem statAfter_snoc (c : Client) (l : List Arrival) (a : Arrival) :
    c.statAfter (l ++ [a]) = (c.handle a (c.statAfter l)).1 := by
  simp [Client.statAfter]

theorem printedFrom_snoc (c : Client) (before l : List Arrival) (a : Arrival) :
    c.printedFrom before (l ++ [a]) =
      c.printedFrom before l ++ [c.printedAt (before ++ l) a] := by
  induction l generalizing before with
  | nil => simp [Client.printedFrom]
  | cons b l ih => simp [Client.printedFrom, ih]

theorem reports_snoc (c : Client) (l : List Arrival) (a : Arrival) :
    c.reports (l ++ [a]) = c.reports l ++ (c.printedAt l a).report.toList := by
  rw [Client.reports, printedFrom_snoc, List.filterMap_append, List.nil_append]
  cases h : (c.printedAt l a).report <;> simp [Client.reports, h]

/-! ### Windows partition the history -/

/-- The three pieces of state stay in step: the count, the vector of all delays, and the vector of
those since the last report. -/
theorem statAfter_spec (c : Client) (l : List Arrival) :
    (c.statAfter l).staticGoodRecvCount = l.length ∧
    (c.statAfter l).recvPackageInterval = l.map Arrival.interval ∧
    (c.statAfter l).recvPackageInterval10 = remainder 10 (l.map Arrival.interval) := by
  induction l using List.reverseRecOn with
  | nil => exact ⟨rfl, rfl, rfl⟩
  | append_singleton l a ih =>
    rcases ih with ⟨hcount, hall, hten⟩
    obtain ⟨h1, h2, hno, hyes⟩ := handle_spec c a (c.statAfter l)
    rw [hcount] at hno hyes
    rw [statAfter_snoc, List.map_append, List.map_singleton, remainder_snoc (by decide),
      List.length_map]
    refine ⟨by rw [h1, hcount, List.length_append, List.length_singleton], by rw [h2, hall], ?_⟩
    by_cases hdvd : 10 ∣ l.length + 1
    · rw [if_pos hdvd]
      exact (hyes hdvd).1
    · rw [if_neg hdvd, (hno hdvd).2, hten]

/-- A report comes exactly with every tenth message, and is about exactly the messages since the
last one and all messages so far. -/
theorem printedAt_report (c : Client) (l : List Arrival) (a : Arrival) :
    (¬10 ∣ l.length + 1 → (c.printedAt l a).report = none) ∧
    (10 ∣ l.length + 1 → ∃ r, (c.printedAt l a).report = some r ∧
      r.window = remainder 10 (l.map Arrival.interval) ++ [a.interval] ∧
      r.history = (l ++ [a]).map Arrival.interval ∧ r.divisor = l.length + 1 ∧
      r.max = r.window.max? ∧ r.average10 = (sum32 r.window).tdiv 10 ∧
      r.averageTotal = mixedDiv (sum32 r.history) r.divisor) := by
  obtain ⟨hcount, hall, hten⟩ := statAfter_spec c l
  obtain ⟨-, -, hno, hyes⟩ := handle_spec c a (c.statAfter l)
  rw [hcount] at hno hyes
  constructor
  · intro h
    exact (hno h).1
  · intro h
    obtain ⟨-, r, hr, hw, hh, hd, hmax, h10, htotal⟩ := hyes h
    have hhistory : r.history = (l ++ [a]).map Arrival.interval := by
      rw [hh, hall, List.map_append, List.map_singleton]
    have hdivisor : r.divisor = l.length + 1 := by
      rw [hd, hhistory, List.length_map, List.length_append, List.length_singleton]
    exact ⟨r, hr, by rw [hw, hten], hhistory, hdivisor, hmax, h10, htotal⟩

/-- The windows of the reports are the consecutive blocks of ten delays. -/
theorem reports_window (c : Client) (l : List Arrival) :
    (c.reports l).map Report.window = blocks 10 (l.map Arrival.interval) := by
  induction l using List.reverseRecOn with
  | nil => rfl
  | append_singleton l a ih =>
    obtain ⟨hno, hyes⟩ := printedAt_report c l a
    rw [reports_snoc, List.map_append, ih, List.map_append, List.map_singleton,
      blocks_snoc (by decide), List.length_map]
    by_cases hdvd : 10 ∣ l.length + 1
    · obtain ⟨r, hr, hw, -⟩ := hyes hdvd
      simp [hr, hw, hdvd]
    · simp [hno hdvd, hdvd]

/-- The delays since the last report, up to a tenth message, are the last ten. -/
theorem lastTen_eq_drop {l : List Arrival} {a : Arrival} (hdvd : 10 ∣ l.length + 1) :
    remainder 10 (l.map Arrival.interval) ++ [a.interval] =
      ((l ++ [a]).map Arrival.interval).drop (l.length + 1 - 10) := by
  have hdvd' : 10 ∣ (l.map Arrival.interval).length + 1 := by rwa [List.length_map]
  rw [remainder_append_eq_drop hdvd', List.length_map, List.map_append, List.map_singleton]

/-- What is known of a report that is printed. -/
theorem report_spec {c : Client} {l : List Arrival} {a : Arrival} {r : Report}
    (hr : (c.printedAt l a).report = some r) :
    10 ∣ l.length + 1 ∧
    r.window = ((l ++ [a]).map Arrival.interval).drop (l.length + 1 - 10) ∧
    r.window.length = 10 ∧ r.history = (l ++ [a]).map Arrival.interval ∧
    r.divisor = l.length + 1 ∧ r.max = r.window.max? ∧
    r.average10 = (sum32 r.window).tdiv 10 ∧
    r.averageTotal = mixedDiv (sum32 r.history) r.divisor := by
  obtain ⟨hno, hyes⟩ := printedAt_report c l a
  by_cases hdvd : 10 ∣ l.length + 1
  · obtain ⟨r', hr', hw, hh, hd, hmax, h10, htotal⟩ := hyes hdvd
    obtain rfl : r = r' := Option.some.inj (hr.symm.trans hr')
    have hwindow := hw.trans (lastTen_eq_drop hdvd)
    have hge : 10 ≤ l.length + 1 := Nat.le_of_dvd (Nat.succ_pos _) hdvd
    have hlen : r.window.length = 10 := by
      rw [hwindow, List.length_drop, List.length_map, List.length_append, List.length_singleton]
      omega
    exact ⟨hdvd, hwindow, hlen, hh, hd, hmax, h10, htotal⟩
  · rw [hno hdvd] at hr
    cases hr

theorem exists_max_of_length {l : List ℤ} (h : l.length = 10) :
    ∃ m, l.max? = some m ∧ m ∈ l ∧ ∀ x ∈ l, x ≤ m := by
  obtain ⟨x, hx⟩ := List.exists_mem_of_length_pos (show 0 < l.length by omega)
  obtain ⟨m, hm⟩ := Option.isSome_iff_exists.mp (List.isSome_max?_of_mem hx)
  exact ⟨m, hm, List.max?_mem hm, List.max?_le_iff hm |>.mp le_rfl⟩

/-- **Report windows partition the history.** After any messages, in either client, the windows of
the reports are the consecutive tens of delays and the short vector holds the rest; the next message
is reported exactly if it is a tenth one, and then the report is about the last ten delays and about
all of them, none of its figures being taken of an empty vector. -/
theorem report_windows (c : Client) (l : List Arrival) :
    (c.statAfter l).staticGoodRecvCount = l.length ∧
    (c.statAfter l).recvPackageInterval = l.map Arrival.interval ∧
    (c.statAfter l).recvPackageInterval10.length = l.length % 10 ∧
    (c.reports l).map Report.window = blocks 10 (l.map Arrival.interval) ∧
    ((c.reports l).map Report.window).flatten ++ (c.statAfter l).recvPackageInterval10 =
      l.map Arrival.interval ∧
    ∀ a, ((c.printedAt l a).report.isSome ↔ 10 ∣ l.length + 1) ∧
      ∀ r, (c.printedAt l a).report = some r →
        r.window = ((l ++ [a]).map Arrival.interval).drop (l.length + 1 - 10) ∧
        r.window.length = 10 ∧
        r.history = (l ++ [a]).map Arrival.interval ∧
        r.divisor = l.length + 1 ∧ r.divisor ≠ 0 ∧
        r.averageTotal = mixedDiv (sum32 r.history) r.divisor ∧
        ∃ m, r.max = some m ∧ m ∈ r.window ∧ ∀ x ∈ r.window, x ≤ m := by
  obtain ⟨hcount, hall, hten⟩ := statAfter_spec c l
  refine ⟨hcount, hall, by rw [hten, length_remainder, List.length_map], reports_window c l, ?_, ?_⟩
  · rw [reports_window, hten, blocks_flatten_append_remainder]
  · intro a
    constructor
    · constructor
      · intro hsome
        obtain ⟨r, hr⟩ := Option.isSome_iff_exists.mp hsome
        exact (report_spec hr).1
      · intro hdvd
        obtain ⟨r, hr, -⟩ := (printedAt_report c l a).2 hdvd
        rw [hr]
        rfl
    · intro r hr
      obtain ⟨-, hwindow, hlen, hh, hd, hmax, -, htotal⟩ := report_spec hr
      rw [hmax]
      exact ⟨hwindow, hlen, hh, hd, by omega, htotal, exists_max_of_length hlen⟩

end ReliableUdpBench
