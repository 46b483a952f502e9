import ReliableUdpBench.Measurement

/-!
# The clock

`iclock64` turns the time of day into milliseconds in an unsigned 64-bit number. It rounds down, so
that the difference of two readings is less than a millisecond off (`delay_error`). A message of 14
bytes or more has room for a reading until the year 2286 (`readingsFit`). With the end-to-end results,
each delay that a client prints is the time between making its message and handling it, to the
millisecond (`dgram_delays`, `stream_delays`).
-/

namespace ReliableUdpBench

open Lib

/-! ### `iclock64` -/

/-- What `gettimeofday` fills in. -/
structure Timeval where
  sec : ℤ
  usec : ℤ
  usec_nonneg : 0 ≤ usec
  usec_lt : usec < 1000000

/-- `iclock64`, for the time of day it reads. -/
def iclock64 (time : Timeval) : UInt64 :=
  UInt64.ofInt time.sec * 1000 + UInt64.ofInt (time.usec.tdiv 1000)

/-- The time in microseconds. -/
def Timeval.micros (time : Timeval) : ℤ := time.sec * 1000000 + time.usec

/-- A time from 1970 on and before November 2286. -/
def Timeval.Current (time : Timeval) : Prop := 0 ≤ time.sec ∧ time.sec < 10 ^ 10

instance (time : Timeval) : Decidable time.Current := inferInstanceAs (Decidable (_ ∧ _))

theorem toNat_ofInt {x : ℤ} (h0 : 0 ≤ x) (h : x < 2 ^ 64) : ((UInt64.ofInt x).toNat : ℤ) = x := by
  rw [UInt64.ofInt, UInt64.toNat_ofNat']
  omega

/-- **The clock is the time in milliseconds, rounded down.** -/
theorem toNat_iclock64 {time : Timeval} (h : time.Current) :
    ((iclock64 time).toNat : ℤ) = time.micros / 1000 := by
  obtain ⟨h0, h1⟩ := h
  have husec := time.usec_nonneg
  have husec' := time.usec_lt
  have hdiv : time.usec.tdiv 1000 = time.usec / 1000 := Int.tdiv_eq_ediv_of_nonneg husec
  have hsec := toNat_ofInt h0 (by omega)
  have hmilli := toNat_ofInt (x := time.usec / 1000) (by omega) (by omega)
  rw [iclock64, Timeval.micros, hdiv, UInt64.toNat_add, UInt64.toNat_mul,
    show (1000 : UInt64).toNat = 1000 from rfl]
  omega

/-- **A delay is less than a millisecond off.** -/
theorem delay_error {made handled : Timeval} (hmade : made.Current) (hhandled : handled.Current)
    (hle : made.micros ≤ handled.micros) :
    |1000 * ((iclock64 handled - iclock64 made).toNat : ℤ) - (handled.micros - made.micros)| <
      1000 := by
  have hm := toNat_iclock64 hmade
  have hh := toNat_iclock64 hhandled
  have hle' : iclock64 made ≤ iclock64 handled := by
    rw [UInt64.le_iff_toNat_le]
    omega
  rw [UInt64.toNat_sub_of_le _ _ hle', abs_lt]
  rw [UInt64.le_iff_toNat_le] at hle'
  omega

/-- Readings until the year 2286 have at most 13 digits. -/
theorem readingsFit {n : ℕ} (hn : 14 ≤ n) {times : List Timeval}
    (htimes : ∀ time ∈ times, time.Current) :
    StreamEndToEnd.ReadingsFit n (times.map iclock64) := by
  intro t ht
  obtain ⟨time, htime, rfl⟩ := List.mem_map.mp ht
  have hcurrent := htimes time htime
  have hclock := toNat_iclock64 hcurrent
  have hmicros : time.micros < 10 ^ 16 := by
    obtain ⟨-, h1⟩ := hcurrent
    have husec := time.usec_lt
    rw [Timeval.micros]
    omega
  have hlength : (decimal (iclock64 time).toNat).length ≤ 13 := by
    rw [length_decimal_le (by decide)]
    omega
  omega

/-! ### The delays -/

/-- A printed delay that is off by less than a millisecond, and kept as it is if it is less than 24
days. -/
def TrueDelay (made handled : Timeval) (p : Printed) (kept : Option ℤ) : Prop :=
  |1000 * (p.interval.toNat : ℤ) - (handled.micros - made.micros)| < 1000 ∧
    (handled.micros - made.micros ≤ 2147483647000 → kept = some (p.interval.toNat : ℤ))

theorem Measures.trueDelay {made : List Timeval} {handled : ℕ → Timeval} {st : Stat}
    {printed : List Printed}
    (h : Measures (fun i => iclock64 (handled i)) (made.map iclock64) st printed)
    (hmade : ∀ time ∈ made, time.Current) (hhandled : ∀ i, (handled i).Current)
    (hle : ∀ i time, made[i]? = some time → time.micros ≤ (handled i).micros) {i : ℕ} {p : Printed}
    (hp : printed[i]? = some p) :
    ∃ time, made[i]? = some time ∧ TrueDelay time (handled i) p st.recvPackageInterval[i]? := by
  have hdelay : (delays (fun i => iclock64 (handled i)) (made.map iclock64))[i]? =
      some p.interval := by
    rw [← h.printed_delays, List.getElem?_map, hp]
    rfl
  have hkept : st.recvPackageInterval[i]? = some (asInt p.interval) := by
    rw [h.kept_delays, List.getElem?_map, hdelay]
    rfl
  rw [delays, List.getElem?_mapIdx, List.getElem?_map, Option.map_map,
    Option.map_eq_some_iff] at hdelay
  obtain ⟨time, htime, hinterval⟩ := hdelay
  have herror := delay_error (hmade time (List.mem_of_getElem? htime)) (hhandled i)
    (hle i time htime)
  have hsub : iclock64 (handled i) - iclock64 time = p.interval := hinterval
  rw [hsub] at herror
  refine ⟨time, htime, herror, fun hshort => ?_⟩
  rw [hkept, asInt, int32_of_fits]
  rw [abs_lt] at herror
  constructor
  · omega
  · omega

theorem getElem?_of_take {α : Type*} {l : List α} {m i : ℕ} {a : α} (h : (l.take m)[i]? = some a) :
    l[i]? = some a := by
  rw [List.getElem?_take] at h
  split at h
  · exact h
  · cases h

/-- The last microsecond of a millisecond, and the first of the one after the next. -/
def early : Timeval := ⟨1700000000, 999, by decide, by decide⟩
def late : Timeval := ⟨1700000000, 2000, by decide, by decide⟩

/-- The message of 14 bytes made at the time `early`. -/
def earlyMessage : Str := "1700000000000_".toList

namespace DgramEndToEnd

/-- **The delays of the datagram benchmark are true.** In every reachable state, if the messages were
made with `iclock64` at the times `made` and handled at the times `handled`, no time before its
message was made, the `i`-th delay printed is the time between the two in milliseconds, less than one
off. -/
theorem dgram_delays {n : ℕ} (hn : n < 2 ^ 64) (hn14 : 14 ≤ n) {made : List Timeval}
    {handled : ℕ → Timeval} {w : World (Stat × List Printed)}
    (h : (benchmark (measuring fun i => iclock64 (handled i)) (Stat.init, [])).Reachable w)
    (hpushed : w.pushed = made.map fun time => makeTestStr n (iclock64 time))
    (hmade : ∀ time ∈ made, time.Current) (hhandled : ∀ i, (handled i).Current)
    (hle : ∀ i time, made[i]? = some time → time.micros ≤ (handled i).micros) {i : ℕ} {p : Printed}
    (hp : w.client.callback.1.2[i]? = some p) :
    ∃ time, made[i]? = some time ∧
      TrueDelay time (handled i) p w.client.callback.1.1.recvPackageInterval[i]? := by
  have hpushed' : w.pushed = (made.map iclock64).map (makeTestStr n) := by
    rw [hpushed, List.map_map]
    rfl
  have hdelivered := delivered_eq_map h hpushed'
  rw [← List.map_take] at hdelivered
  have hfit : StreamEndToEnd.ReadingsFit n ((made.take w.delivered.length).map iclock64) :=
    readingsFit hn14 fun time htime => hmade time (List.mem_of_mem_take htime)
  have hmeasures : Measures (fun i => iclock64 (handled i))
      ((made.take w.delivered.length).map iclock64) w.client.callback.1.1 w.client.callback.1.2 := by
    refine measures_messages hn _ hfit ?_
    rw [← hdelivered]
    exact callback_measuring h
  obtain ⟨time, htime, htrue⟩ := hmeasures.trueDelay
    (fun time htime => hmade time (List.mem_of_mem_take htime)) hhandled
    (fun i time htime => hle i time (getElem?_of_take htime)) hp
  exact ⟨time, getElem?_of_take htime, htrue⟩

/-- A message made at the time `early` is handled at the time `late`. -/
def earlyToLate : List Event :=
  [.client (.sendMsg earlyMessage), .client .tau, .client .tau, .client (.send (.ret 14)),
    .client .tau, .server (.recv (.ret earlyMessage)), .server (.recv (.error Udt.EASYNCRCV)),
    .server (.send (.ret 14)), .client (.recv (.ret earlyMessage))]

/-- The world after `earlyToLate`: two milliseconds are printed for 1.001. -/
def lateWorld : World (Stat × List Printed) :=
  ⟨[earlyMessage], ⟨.recv, [], [], true, ((⟨[2], [2], 0, 14, 1⟩, [⟨2, none⟩]), [earlyMessage])⟩, [],
    true, .recv [], []⟩

theorem dgram_delays_earlyToLate :
    (benchmark (measuring fun _ => iclock64 late) (Stat.init, [])).Reachable lateWorld ∧
      ∃ time, [early][0]? = some time ∧ TrueDelay time late ⟨2, none⟩ (some 2) := by
  have h : (benchmark (measuring fun _ => iclock64 late) (Stat.init, [])).Reachable lateWorld :=
    ⟨earlyToLate, by decide +kernel⟩
  have hpushed : lateWorld.pushed = [early].map fun time => makeTestStr 14 (iclock64 time) := by
    decide +kernel
  have hmade : ∀ time ∈ [early], time.Current := by
    intro time htime
    rw [List.mem_singleton.mp htime]
    decide
  have hle : ∀ (i : ℕ) (time : Timeval), [early][i]? = some time →
      time.micros ≤ late.micros := by
    intro i time htime
    rw [List.mem_singleton.mp (List.mem_of_getElem? htime)]
    decide
  exact ⟨h, dgram_delays (by decide) (by decide) h hpushed hmade (fun _ => by decide) hle
    (i := 0) rfl⟩

end DgramEndToEnd

namespace StreamEndToEnd

/-- **The delays of the stream benchmark are true**, however the bytes were cut on their way. -/
theorem stream_delays {n : ℕ} (hn : n < 10000000) (hn14 : 14 ≤ n) {made : List Timeval}
    {handled : ℕ → Timeval} {w : World}
    (h : (benchmark n fun i => iclock64 (handled i)).Reachable w)
    (hsent : w.sent = made.map iclock64)
    (hmade : ∀ time ∈ made, time.Current) (hhandled : ∀ i, (handled i).Current)
    (hle : ∀ i time, made[i]? = some time → time.micros ≤ (handled i).micros) {i : ℕ} {p : Printed}
    (hp : w.client.callback.printed[i]? = some p) :
    ∃ time, made[i]? = some time ∧
      TrueDelay time (handled i) p w.client.callback.stat.recvPackageInterval[i]? := by
  have hfit : ReadingsFit n w.sent := hsent ▸ readingsFit hn14 hmade
  have hmeasured := frames_measured hn h hfit
  have hframes := hmeasured.1
  rw [hsent, ← List.map_take] at hframes
  have hfit' : ReadingsFit n ((made.take w.frames.length).map iclock64) :=
    readingsFit hn14 fun time htime => hmade time (List.mem_of_mem_take htime)
  have hmeasures : Measures (fun i => iclock64 (handled i))
      ((made.take w.frames.length).map iclock64) w.client.callback.stat
      w.client.callback.printed := by
    refine measures_messages (by omega) _ hfit' ?_
    rw [← hframes]
    exact hmeasured.2
  obtain ⟨time, htime, htrue⟩ := hmeasures.trueDelay
    (fun time htime => hmade time (List.mem_of_mem_take htime)) hhandled
    (fun i time htime => hle i time (getElem?_of_take htime)) hp
  exact ⟨time, getElem?_of_take htime, htrue⟩

/-- A message made at the time `early` comes back in two parts and is handled at the time `late`. -/
def earlyToLate : List Event :=
  [.sendMsg (iclock64 early), .tau, .clientSend (.ret 14), .tau,
    .serverRecv (.ret earlyMessage), .serverRecv (.error Udt.EASYNCRCV),
    .serverSend (.ret 14), .clientRecv (.ret (earlyMessage.take 5)), .tau,
    .clientRecv (.ret (earlyMessage.drop 5))]

/-- The world after `earlyToLate`. -/
def lateWorld : World :=
  ⟨[iclock64 early], ⟨.loop, [], true,
    ⟨[], ⟨[2], [2], 0, 14, 1⟩, [earlyMessage], [⟨2, none⟩], 0⟩⟩, [], .recv [], []⟩

theorem stream_delays_earlyToLate :
    (benchmark 14 fun _ => iclock64 late).Reachable lateWorld ∧
      ∃ time, [early][0]? = some time ∧
        TrueDelay time late ⟨2, none⟩ (some 2) := by
  have h : (benchmark 14 fun _ => iclock64 late).Reachable lateWorld :=
    ⟨earlyToLate, by decide +kernel⟩
  have hsent : lateWorld.sent = [early].map iclock64 := rfl
  have hmade : ∀ time ∈ [early], time.Current := by
    intro time htime
    rw [List.mem_singleton.mp htime]
    decide
  have hle : ∀ (i : ℕ) (time : Timeval), [early][i]? = some time →
      time.micros ≤ late.micros := by
    intro i time htime
    rw [List.mem_singleton.mp (List.mem_of_getElem? htime)]
    decide
  exact ⟨h, stream_delays (by decide) (by decide) h hsent hmade (fun _ => by decide) hle
    (i := 0) rfl⟩

end StreamEndToEnd

end ReliableUdpBench
