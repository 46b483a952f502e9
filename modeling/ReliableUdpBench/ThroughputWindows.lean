import ReliableUdpBench.Lib.Windows
import ReliableUdpBench.Statistics

/-!
# The bytes behind the throughput figures

`static_recved_bytes` grows with every message and is set back when a throughput is printed. That
happens at a tenth message, if the unsigned time since the last such message is above ten seconds;
otherwise the ten messages are carried over. So the printed figures cut the messages into windows,
each of one or more rounds of ten, and the figures' byte counts are the sizes of the windows.

The elapsed time is a 64-bit difference and can be anything when the clock is set back, but a figure
is printed, and the division made, only if it is above `10 * 1000`.
-/

namespace ReliableUdpBench

open Lib

/-- The total size of the messages. -/
def size (l : List Arrival) : ℕ := (l.map fun a => a.msg.length).sum

/-- The throughput printed for a message, if there is one. -/
def Printed.throughput (p : Printed) : Option Throughput := p.report.bind Report.throughput

/-- The throughputs printed for the messages, in order. -/
def Client.throughputs (c : Client) (l : List Arrival) : List Throughput :=
  (c.printedFrom [] l).filterMap Printed.throughput

/-- The state after one more message, and the messages cut after it if a throughput is printed. -/
def Client.cut (c : Client) (s : Stat × Windows Arrival) (a : Arrival) : Stat × Windows Arrival :=
  ((c.handle a s.1).1, s.2.add (c.handle a s.1).2.throughput.isSome a)

/-- The messages, cut after each one for which a throughput is printed. -/
def Client.windows (c : Client) (l : List Arrival) : Windows Arrival :=
  (l.foldl c.cut (Stat.init, .empty)).2

@[simp] theorem size_snoc (l : List Arrival) (a : Arrival) :
    size (l ++ [a]) = size l + a.msg.length := by
  simp [size]

theorem throughputs_snoc (c : Client) (l : List Arrival) (a : Arrival) :
    c.throughputs (l ++ [a]) = c.throughputs l ++ (c.printedAt l a).throughput.toList := by
  rw [Client.throughputs, printedFrom_snoc, List.filterMap_append, List.nil_append]
  cases h : (c.printedAt l a).throughput <;> simp [Client.throughputs, h]

theorem foldl_cut_fst (c : Client) (l : List Arrival) (s : Stat × Windows Arrival) :
    (l.foldl c.cut s).1 = l.foldl (fun st a => (c.handle a st).1) s.1 := by
  induction l generalizing s with
  | nil => rfl
  | cons a l ih => exact ih (c.cut s a)

theorem windows_snoc (c : Client) (l : List Arrival) (a : Arrival) :
    c.windows (l ++ [a]) = (c.windows l).add (c.printedAt l a).throughput.isSome a := by
  rw [Client.windows, List.foldl_append, List.foldl_cons, List.foldl_nil, Client.cut,
    foldl_cut_fst]
  rfl

/-! ### What one message does -/

/-- The message is a tenth one, and more than ten seconds after the last refresh. -/
def Refreshes (st : Stat) (a : Arrival) : Prop :=
  10 ∣ st.staticGoodRecvCount + 1 ∧ 10 * 1000 < a.curTime - st.staticLastRefreshTime

/-- The throughput printed at a refresh. -/
def Stat.throughputAt (st : Stat) (a : Arrival) : Throughput where
  bytes := st.staticRecvedBytes + UInt64.ofNat a.msg.length
  elapsed := a.curTime - st.staticLastRefreshTime
  tenths := (st.staticRecvedBytes + UInt64.ofNat a.msg.length) * 10 /
    (a.curTime - st.staticLastRefreshTime)

/-- At a refresh the bytes up to and including the message are printed, and counting starts
again. -/
theorem handle_of_refreshes (c : Client) {st : Stat} {a : Arrival} (h : Refreshes st a) :
    (c.handle a st).2.throughput = some (st.throughputAt a) ∧
    (c.handle a st).1.staticRecvedBytes = 0 ∧
    (c.handle a st).1.staticLastRefreshTime = a.curTime := by
  rw [handle_eq_recvFunc]
  simp only [DgramClient.recvFunc, if_pos (Nat.mod_eq_zero_of_dvd h.1), gt_iff_lt, if_pos h.2]
  exact ⟨rfl, trivial, trivial⟩

/-- Otherwise the message is added to the count. -/
theorem handle_of_not_refreshes (c : Client) {st : Stat} {a : Arrival} (h : ¬Refreshes st a) :
    (c.handle a st).2.throughput = none ∧
    (c.handle a st).1.staticRecvedBytes = st.staticRecvedBytes + UInt64.ofNat a.msg.length ∧
    (c.handle a st).1.staticLastRefreshTime = st.staticLastRefreshTime := by
  rw [handle_eq_recvFunc]
  simp only [DgramClient.recvFunc]
  by_cases hten : (st.staticGoodRecvCount + 1) % 10 = 0
  · have htime : ¬a.curTime - st.staticLastRefreshTime > 10 * 1000 := by
      intro htime
      exact h ⟨Nat.dvd_of_mod_eq_zero hten, htime⟩
    simp only [if_pos hten, if_neg htime]
    exact ⟨rfl, trivial, trivial⟩
  · simp only [if_neg hten]
    exact ⟨rfl, trivial, trivial⟩

/-- A throughput is printed exactly at a refresh. -/
theorem throughput_eq_some_iff (c : Client) (st : Stat) (a : Arrival) (t : Throughput) :
    (c.handle a st).2.throughput = some t ↔ Refreshes st a ∧ t = st.throughputAt a := by
  by_cases h : Refreshes st a
  · rw [(handle_of_refreshes c h).1]
    constructor
    · intro ht
      exact ⟨h, (Option.some.inj ht).symm⟩
    · rintro ⟨-, rfl⟩
      rfl
  · rw [(handle_of_not_refreshes c h).1]
    constructor
    · intro ht
      cases ht
    · rintro ⟨h', -⟩
      exact absurd h' h

/-! ### What a run does -/

/-- What the variables and the figures printed have to do with the windows. The counts are taken
modulo `2 ^ 64`. -/
structure Accounted (st : Stat) (w : Windows Arrival) (figures : List Throughput) : Prop where
  count : st.staticGoodRecvCount = w.items.length
  pending : st.staticRecvedBytes = UInt64.ofNat (size w.pending)
  closed : figures.map Throughput.bytes = w.closed.map fun b => UInt64.ofNat (size b)
  rounds : ∀ b ∈ w.closed, b ≠ [] ∧ 10 ∣ b.length
  refreshed : st.staticLastRefreshTime = (w.closed.flatten.getLast?.map Arrival.curTime).getD 0

/-- Closed windows of whole rounds leave the pending messages out of round by as much as all
messages. -/
theorem Accounted.dvd_length_pending {st : Stat} {w : Windows Arrival} {figures : List Throughput}
    (h : Accounted st w figures) (hten : 10 ∣ st.staticGoodRecvCount + 1) :
    10 ∣ w.pending.length + 1 := by
  have hclosed : 10 ∣ w.closed.flatten.length := by
    rw [List.length_flatten]
    apply List.dvd_sum
    intro n hn
    obtain ⟨b, hb, rfl⟩ := List.mem_map.mp hn
    exact (h.rounds b hb).2
  rw [h.count, Windows.items, List.length_append, Nat.add_assoc] at hten
  exact (Nat.dvd_add_right hclosed).mp hten

/-- **One message keeps the accounts.** -/
theorem Accounted.handle {st : Stat} {w : Windows Arrival} {figures : List Throughput}
    (h : Accounted st w figures) (c : Client) (a : Arrival) :
    Accounted (c.handle a st).1 (w.add (c.handle a st).2.throughput.isSome a)
      (figures ++ (c.handle a st).2.throughput.toList) := by
  have hcount : (c.handle a st).1.staticGoodRecvCount =
      (w.add (c.handle a st).2.throughput.isSome a).items.length := by
    rw [(handle_spec c a st).1, h.count, Windows.items_add, List.length_append,
      List.length_singleton]
  have hbytes : st.staticRecvedBytes + UInt64.ofNat a.msg.length =
      UInt64.ofNat (size (w.pending ++ [a])) := by
    rw [h.pending, size_snoc, UInt64.ofNat_add]
  by_cases hr : Refreshes st a
  · obtain ⟨hfigure, hzero, htime⟩ := handle_of_refreshes c hr
    rw [hfigure, Option.isSome_some, Windows.add_true] at hcount ⊢
    refine ⟨hcount, hzero, ?_, ?_, by simp [htime]⟩
    · show (figures ++ [st.throughputAt a]).map Throughput.bytes =
        (w.closed ++ [w.pending ++ [a]]).map fun b => UInt64.ofNat (size b)
      rw [List.map_append, List.map_append, h.closed, List.map_singleton, List.map_singleton,
        ← hbytes]
      rfl
    · intro b hb
      rcases List.mem_append.mp hb with hb | hb
      · exact h.rounds b hb
      · rw [List.mem_singleton.mp hb, List.length_append, List.length_singleton]
        exact ⟨by simp, h.dvd_length_pending hr.1⟩
  · obtain ⟨hnone, hadd, htime⟩ := handle_of_not_refreshes c hr
    rw [hnone, Option.isSome_none, Windows.add_false] at hcount ⊢
    refine ⟨hcount, hadd.trans hbytes, ?_, h.rounds, htime.trans h.refreshed⟩
    rw [Option.toList_none, List.append_nil]
    exact h.closed

theorem accounted (c : Client) (l : List Arrival) :
    Accounted (c.statAfter l) (c.windows l) (c.throughputs l) := by
  induction l using List.reverseRecOn with
  | nil => exact ⟨rfl, rfl, rfl, nofun, rfl⟩
  | append_singleton l a ih =>
    rw [statAfter_snoc, windows_snoc, throughputs_snoc]
    exact ih.handle c a

theorem items_windows (c : Client) (l : List Arrival) : (c.windows l).items = l := by
  induction l using List.reverseRecOn with
  | nil => rfl
  | append_singleton l a ih => rw [windows_snoc, Windows.items_add, ih]

/-! ### Totals that a word can hold -/

theorem size_le_of_isPrefix {l₁ l₂ : List Arrival} (h : l₁ <+: l₂) : size l₁ ≤ size l₂ := by
  rcases h with ⟨l, rfl⟩
  simp [size]

/-- The sizes of the windows and of the pending messages are the size of everything. -/
theorem size_windows (c : Client) (l : List Arrival) :
    ((c.windows l).closed.map size).sum + size (c.windows l).pending = size l := by
  have h := Windows.sum_weight (fun a : Arrival => a.msg.length) (c.windows l)
  rwa [items_windows] at h

theorem toNat_ofNat_size {l : List Arrival} {n : ℕ} (hle : size l ≤ n) (hn : n < 2 ^ 64) :
    (UInt64.ofNat (size l)).toNat = size l :=
  UInt64.toNat_ofNat_of_lt' (hle.trans_lt hn)

theorem toNat_staticRecvedBytes {c : Client} {l : List Arrival} (h : size l < 2 ^ 64) :
    (c.statAfter l).staticRecvedBytes.toNat = size (c.windows l).pending := by
  have hsize := size_windows c l
  rw [(accounted c l).pending, toNat_ofNat_size (by omega) h]

theorem toNat_bytes_throughputs {c : Client} {l : List Arrival} (h : size l < 2 ^ 64) :
    ((c.throughputs l).map fun t => t.bytes.toNat) = (c.windows l).closed.map size := by
  have hbytes := congrArg (List.map UInt64.toNat) (accounted c l).closed
  rw [List.map_map, List.map_map] at hbytes
  refine hbytes.trans (List.map_congr_left ?_)
  intro b hb
  have hle : size b ≤ ((c.windows l).closed.map size).sum :=
    List.le_sum_of_mem (List.mem_map_of_mem hb)
  have hsize := size_windows c l
  exact toNat_ofNat_size (by omega) h

/-- A throughput that is printed is the size of its window over the elapsed time, with a divisor
above ten seconds. -/
theorem printed_throughput_spec {c : Client} {before : List Arrival} {a : Arrival} {t : Throughput}
    (htotal : 10 * size (before ++ [a]) < 2 ^ 64) (ht : (c.printedAt before a).throughput = some t) :
    t.elapsed = a.curTime - (c.statAfter before).staticLastRefreshTime ∧
    10 * 1000 < t.elapsed.toNat ∧
    t.bytes.toNat = size ((c.windows before).pending ++ [a]) ∧
    t.tenths.toNat = t.bytes.toNat * 10 / t.elapsed.toNat := by
  obtain ⟨hr, ht'⟩ := (throughput_eq_some_iff c _ a t).mp ht
  have hle : size ((c.windows before).pending ++ [a]) ≤ size (before ++ [a]) := by
    have hsize := size_windows c before
    rw [size_snoc, size_snoc]
    omega
  have helapsed : t.elapsed = a.curTime - (c.statAfter before).staticLastRefreshTime := by
    rw [ht']
    rfl
  have hbytes : t.bytes.toNat = size ((c.windows before).pending ++ [a]) := by
    rw [ht']
    show ((c.statAfter before).staticRecvedBytes + UInt64.ofNat a.msg.length).toNat = _
    rw [(accounted c before).pending, ← UInt64.ofNat_add, ← size_snoc]
    exact toNat_ofNat_size hle (by omega)
  have htenths : t.tenths = t.bytes * 10 / t.elapsed := by
    rw [ht']
    rfl
  -- the product does not wrap around, as the totals are below a tenth of what a word holds
  have hproduct : (t.bytes * 10).toNat = t.bytes.toNat * 10 := by
    rw [UInt64.toNat_mul]
    exact Nat.mod_eq_of_lt (by show _ * 10 < _; omega)
  refine ⟨helapsed, ?_, hbytes, ?_⟩
  · rw [helapsed]
    exact UInt64.lt_iff_toNat_lt.mp hr.2
  · rw [htenths, UInt64.toNat_div, hproduct]

/-- **Throughput byte accounting.** In either client, and whatever the clock readings: the printed
throughputs cut the messages into windows of whole rounds, and their byte counts are the sizes of
the windows, so that with `static_recved_bytes` they add up to the size of all messages. Every
division made is by the unsigned time since the last refresh, which is then above ten seconds. -/
theorem throughput_accounting (c : Client) (l : List Arrival) (htotal : 10 * size l < 2 ^ 64) :
    (c.windows l).items = l ∧
    (∀ b ∈ (c.windows l).closed, b ≠ [] ∧ 10 ∣ b.length) ∧
    ((c.throughputs l).map fun t => t.bytes.toNat) = (c.windows l).closed.map size ∧
    (c.statAfter l).staticRecvedBytes.toNat = size (c.windows l).pending ∧
    ((c.throughputs l).map fun t => t.bytes.toNat).sum + (c.statAfter l).staticRecvedBytes.toNat =
      size l ∧
    ∀ before a, before ++ [a] <+: l → ∀ t, (c.printedAt before a).throughput = some t →
      t.elapsed = a.curTime - (c.statAfter before).staticLastRefreshTime ∧
      10 * 1000 < t.elapsed.toNat ∧
      t.bytes.toNat = size ((c.windows before).pending ++ [a]) ∧
      t.tenths.toNat = t.bytes.toNat * 10 / t.elapsed.toNat := by
  have hbytes : ((c.throughputs l).map fun t => t.bytes.toNat) = (c.windows l).closed.map size :=
    toNat_bytes_throughputs (by omega)
  have hpending : (c.statAfter l).staticRecvedBytes.toNat = size (c.windows l).pending :=
    toNat_staticRecvedBytes (by omega)
  refine ⟨items_windows c l, (accounted c l).rounds, hbytes, hpending, ?_, ?_⟩
  · rw [hbytes, hpending, size_windows]
  · intro before a hprefix t ht
    have hle := size_le_of_isPrefix hprefix
    exact printed_throughput_spec (by omega) ht

/-- Ten messages of two bytes at a clock reading of twenty seconds: the only figure is about all
of them. -/
theorem throughput_accounting_tenMessages :
    (Client.stream.throughputs (List.replicate 10 ⟨['5', '_'], 20000, []⟩)).length = 1 ∧
    ((Client.stream.throughputs (List.replicate 10 ⟨['5', '_'], 20000, []⟩)).map
      fun t => t.bytes.toNat).sum +
      (Client.stream.statAfter (List.replicate 10 ⟨['5', '_'], 20000, []⟩)).staticRecvedBytes.toNat =
      size (List.replicate 10 ⟨['5', '_'], 20000, []⟩) := by
  have h := throughput_accounting .stream (List.replicate 10 ⟨['5', '_'], 20000, []⟩)
    (by decide)
  exact ⟨by decide +kernel, h.2.2.2.2.1⟩

end ReliableUdpBench
