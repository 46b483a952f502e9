import ReliableUdpBench.Statistics

/-!
# When the reported averages are right

A report prints two truncated averages. Both sums are taken in 32-bit accumulators; the sum of the
last ten is then divided by an `int`, the sum of all by the unsigned `size()` of a vector. The second
division is right only for sums that are not negative, and both only if the true sum fits.
-/

namespace ReliableUdpBench

open Lib

/-- Receive clock minus send clock, as a true integer. -/
def Arrival.difference (a : Arrival) : ℤ := a.curTime.toNat - (getTimeFromMsg a.msg).toNat

/-- The true sum of the last ten differences when `a` arrives after `l`. -/
def lastTenSum (l : List Arrival) (a : Arrival) : ℤ :=
  (((l ++ [a]).map Arrival.difference).drop (l.length + 1 - 10)).sum

/-- The true sum of all differences when `a` arrives after `l`. -/
def totalSum (l : List Arrival) (a : Arrival) : ℤ := ((l ++ [a]).map Arrival.difference).sum

/-- A report printed when `a` arrives after `l` has the true averages, truncated toward zero. -/
def AveragesRightAt (c : Client) (l : List Arrival) (a : Arrival) : Prop :=
  ∀ r, (c.printedAt l a).report = some r →
    r.average10 = (lastTenSum l a).tdiv 10 ∧
    r.averageTotal = (totalSum l a).tdiv (l.length + 1 : ℕ)

/-- Every report printed over the messages has the true averages. -/
def AveragesRight (c : Client) (l : List Arrival) : Prop :=
  ∀ before a, before ++ [a] <+: l → AveragesRightAt c before a

/-- If `a` is a tenth message, the last ten differences add up to an `int`, and all of them to an
`int` that is not negative. -/
def SumsInRangeAt (l : List Arrival) (a : Arrival) : Prop :=
  10 ∣ l.length + 1 → FitsInt32 (lastTenSum l a) ∧ 0 ≤ totalSum l a ∧ totalSum l a < 2 ^ 31

/-- The sums are in range at every tenth message. -/
def SumsInRange (l : List Arrival) : Prop :=
  ∀ before a, before ++ [a] <+: l → SumsInRangeAt before a

/-! ### The delay vectors hold the true differences -/

theorem int32_eq_of_fits {x y : ℤ} (h : FitsInt32 y) (j : ℤ) (hj : x = y + 2 ^ 32 * j) :
    int32 x = y := by
  obtain ⟨hf, k, hk⟩ := int32_spec x
  simp only [FitsInt32] at h hf
  omega

theorem interval_eq_difference {a : Arrival} (h : FitsInt32 a.difference) :
    a.interval = a.difference := by
  have hc := a.curTime.toNat_lt
  have hs := (getTimeFromMsg a.msg).toNat_lt
  have hsub := UInt64.toNat_sub a.curTime (getTimeFromMsg a.msg)
  rcases Nat.lt_or_ge a.curTime.toNat (getTimeFromMsg a.msg).toNat with hlt | hge
  · refine int32_eq_of_fits h (2 ^ 32) ?_
    rw [hsub, Arrival.difference]
    omega
  · refine int32_eq_of_fits h 0 ?_
    rw [hsub, Arrival.difference]
    omega

theorem map_interval_eq {l : List Arrival} (h : ∀ a ∈ l, FitsInt32 a.difference) :
    l.map Arrival.interval = l.map Arrival.difference :=
  List.map_congr_left fun a ha => interval_eq_difference (h a ha)

/-! ### One report -/

/-- The figures of a report, in terms of the true sums. -/
theorem report_figures {c : Client} {l : List Arrival} {a : Arrival}
    (h : ∀ b ∈ l ++ [a], FitsInt32 b.difference) (hdvd : 10 ∣ l.length + 1) :
    ∃ r, (c.printedAt l a).report = some r ∧
      r.average10 = (int32 (lastTenSum l a)).tdiv 10 ∧
      r.averageTotal = mixedDiv (int32 (totalSum l a)) (l.length + 1) := by
  obtain ⟨r, hr, -⟩ := (printedAt_report c l a).2 hdvd
  obtain ⟨-, hwindow, -, hh, hd, -, h10, htotal⟩ := report_spec hr
  refine ⟨r, hr, ?_, ?_⟩
  · rw [h10, sum32_eq, hwindow, map_interval_eq h, lastTenSum]
  · rw [htotal, sum32_eq, hh, map_interval_eq h, hd, totalSum]

/-- Sums in range make a right report. -/
theorem averagesRightAt_of_inRange {c : Client} {l : List Arrival} {a : Arrival}
    (h : ∀ b ∈ l ++ [a], FitsInt32 b.difference) (hrange : SumsInRangeAt l a) :
    AveragesRightAt c l a := by
  intro r hr
  by_cases hdvd : 10 ∣ l.length + 1
  · obtain ⟨hten, hpos, hlt⟩ := hrange hdvd
    obtain ⟨r', hr', h10, htotal⟩ := report_figures (c := c) h hdvd
    obtain rfl : r = r' := Option.some.inj (hr.symm.trans hr')
    refine ⟨by rw [h10, int32_of_fits hten], ?_⟩
    rw [htotal, int32_of_fits ⟨by omega, hlt⟩, mixedDiv_of_nonneg hpos hlt]
  · exact absurd (report_spec hr).1 hdvd

/-- A right report has sums in range, if the total before the last ten was. -/
theorem inRange_of_averagesRightAt {c : Client} {l : List Arrival} {a : Arrival}
    (h : ∀ b ∈ l ++ [a], FitsInt32 b.difference) (hlen : l.length + 1 < 2 ^ 32)
    (hbefore : 0 ≤ totalSum l a - lastTenSum l a ∧ totalSum l a - lastTenSum l a < 2 ^ 31)
    (hright : AveragesRightAt c l a) : SumsInRangeAt l a := by
  intro hdvd
  obtain ⟨r, hr, h10, htotal⟩ := report_figures (c := c) h hdvd
  obtain ⟨hr10, hrtotal⟩ := hright r hr
  have hten : FitsInt32 (lastTenSum l a) := (tdiv_ten_int32_eq_iff _).mp (h10.symm.trans hr10)
  refine ⟨hten, ?_⟩
  by_contra hnot
  obtain ⟨m, hm⟩ := hdvd
  rw [hm] at htotal hrtotal hlen
  simp only [FitsInt32] at hten
  exact mixedDiv_ne_of_not_int31 (by omega) hlen (by omega) (by omega) hnot
    (htotal.symm.trans hrtotal)

/-! ### Whole runs -/

theorem forall_prefix_snoc {α : Type*} {P : List α → α → Prop} {l : List α} {b : α} :
    (∀ before a, before ++ [a] <+: l ++ [b] → P before a) ↔
      (∀ before a, before ++ [a] <+: l → P before a) ∧ P l b := by
  simp only [List.prefix_concat_iff]
  constructor
  · intro h
    constructor
    · intro before a ha
      exact h before a (.inr ha)
    · exact h l b (.inl rfl)
  · intro ⟨hl, hb⟩ before a ha
    rcases ha with heq | ha
    · obtain ⟨rfl, rfl⟩ := List.append_singleton_inj.mp heq
      exact hb
    · exact hl before a ha

/-- The sum of the differences that some report has already covered. -/
def reportedSum (l : List Arrival) : ℤ := (blocks 10 (l.map Arrival.difference)).flatten.sum

theorem totalSum_eq {l : List Arrival} {a : Arrival} (h : 10 ∣ l.length + 1) :
    totalSum l a = reportedSum l + lastTenSum l a := by
  have hdvd : 10 ∣ (l.map Arrival.difference).length + 1 := by rwa [List.length_map]
  have hdrop := remainder_append_eq_drop (x := a.difference) hdvd
  have hcut := blocks_flatten_append_remainder 10 (l.map Arrival.difference)
  rw [List.length_map, ← List.map_singleton, ← List.map_append] at hdrop
  rw [totalSum, reportedSum, lastTenSum, ← hdrop, ← List.sum_append, ← List.append_assoc, hcut,
    List.map_append]

theorem reportedSum_snoc (l : List Arrival) (a : Arrival) :
    reportedSum (l ++ [a]) = if 10 ∣ l.length + 1 then totalSum l a else reportedSum l := by
  rw [reportedSum, List.map_append, List.map_singleton, blocks_snoc (by decide), List.length_map]
  split
  · rw [List.flatten_append, List.flatten_singleton, ← List.append_assoc,
      blocks_flatten_append_remainder, totalSum, List.map_append, List.map_singleton]
  · rfl

/-- Right reports have kept the sums in range, and with them what the reports have covered. -/
theorem inRange_of_averagesRight {c : Client} {l : List Arrival}
    (h : ∀ a ∈ l, FitsInt32 a.difference) (hlen : l.length < 2 ^ 32) (hright : AveragesRight c l) :
    SumsInRange l ∧ 0 ≤ reportedSum l ∧ reportedSum l < 2 ^ 31 := by
  induction l using List.reverseRecOn with
  | nil =>
    refine ⟨?_, by decide, by decide⟩
    intro before a ha
    have hlast := ha.length_le
    rw [List.length_append, List.length_singleton] at hlast
    exact absurd hlast (by simp)
  | append_singleton l a ih =>
    rw [List.length_append, List.length_singleton] at hlen
    obtain ⟨hl, ha⟩ := forall_prefix_snoc.mp hright
    have hfits : ∀ b ∈ l, FitsInt32 b.difference := by
      intro b hb
      exact h b (List.mem_append_left _ hb)
    obtain ⟨hrange, h0, h31⟩ := ih hfits (by omega) hl
    have hat : SumsInRangeAt l a := by
      intro hdvd
      have heq := totalSum_eq (a := a) hdvd
      exact inRange_of_averagesRightAt h hlen (by omega) ha hdvd
    refine ⟨forall_prefix_snoc.mpr ⟨hrange, hat⟩, ?_⟩
    rw [reportedSum_snoc]
    by_cases hdvd : 10 ∣ l.length + 1
    · rw [if_pos hdvd]
      exact (hat hdvd).2
    · rw [if_neg hdvd]
      exact ⟨h0, h31⟩

/-- **When the averages are right.** Sums that are in range at every tenth message make every
reported average the true one, in runs of any length; in runs of fewer than `2 ^ 32` messages no
others do. -/
theorem averages_right (c : Client) (l : List Arrival) (h : ∀ a ∈ l, FitsInt32 a.difference) :
    (SumsInRange l → AveragesRight c l) ∧
    (l.length < 2 ^ 32 → AveragesRight c l → SumsInRange l) := by
  constructor
  · intro hrange before a hpre
    exact averagesRightAt_of_inRange (fun b hb => h b (hpre.subset hb)) (hrange before a hpre)
  · intro hlen hright
    exact (inRange_of_averagesRight h hlen hright).1

/-- A message sent at 1 ms and received at the clock reading. -/
def sentAtOne (curTime : UInt64) : Arrival := ⟨['1', '_'], curTime, []⟩

/-- Ten such messages. -/
def tenAt (curTime : UInt64) : List Arrival :=
  List.replicate 9 (sentAtOne curTime) ++ [sentAtOne curTime]

theorem averages_right_forward :
    (SumsInRange (tenAt 5) → AveragesRight .stream (tenAt 5)) ∧
    ((tenAt 5).length < 2 ^ 32 → AveragesRight .stream (tenAt 5) → SumsInRange (tenAt 5)) :=
  averages_right .stream (tenAt 5) (by decide)

/-- A clock that stepped back one millisecond: ten differences of -1 have the average -1, and the
report says -1717986920. -/
theorem averages_wrong_backward :
    (∀ a ∈ tenAt 0, FitsInt32 a.difference) ∧
    (Client.stream.printedAt (List.replicate 9 (sentAtOne 0)) (sentAtOne 0)).report.map
      Report.averageTotal = some (-1717986920) ∧
    ¬AveragesRight .stream (tenAt 0) := by
  have hwrong : (Client.stream.printedAt (List.replicate 9 (sentAtOne 0)) (sentAtOne 0)).report.map
      Report.averageTotal = some (-1717986920) := by decide +kernel
  have htrue : (totalSum (List.replicate 9 (sentAtOne 0)) (sentAtOne 0)).tdiv (9 + 1 : ℕ) = -1 := by
    decide
  refine ⟨by decide, hwrong, ?_⟩
  intro hright
  obtain ⟨r, hr, havg⟩ := Option.map_eq_some_iff.mp hwrong
  have htotal := (hright _ (sentAtOne 0) (List.prefix_refl _) r hr).2
  rw [havg, List.length_replicate, htrue] at htotal
  exact absurd htotal (by decide)

end ReliableUdpBench
