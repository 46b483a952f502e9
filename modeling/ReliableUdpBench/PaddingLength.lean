import Mathlib.Algebra.Order.Floor.Div
import ReliableUdpBench.Lib.Chain
import ReliableUdpBench.TestUtil

/-!
# How long the padding gets

The block loop of `test_str` makes a pass while there is room for ten characters. A pass adds the
label, which is the length it means to reach, and three characters around it: ten characters while
labels have at most seven digits, and one more for every further digit. So the labels are a chain of
arithmetic progressions, and the last pass can go beyond the requested length: it does for lengths
that are closely above a label of eight or more digits (`Overshoots`).

That is the exact condition on which `test_str` misses its length, and on which `make_test_str` does
once its unsigned subtraction has not wrapped around.
-/

namespace ReliableUdpBench

open Lib

/-! ### The labels -/

/-- The label of the first pass, and the first label of `k + 7` digits for each `k` from 1 on. -/
def firstLabel : ℕ → ℕ
  | 0 => 20
  | k + 1 =>
    let first := firstLabel k
    first + (k + 10) * ((10 ^ (k + 7) - first) ⌈/⌉ (k + 10))

/-- The length is closely above a label: by less than the `k` characters that the block of a label
of `k + 7` digits has beyond ten. Such labels are `k + 10` apart. -/
def Overshoots (strLen : ℕ) : Prop :=
  ∃ k, firstLabel k ≤ strLen ∧ strLen < firstLabel (k + 1) ∧
    (strLen - firstLabel k) % (k + 10) < k

theorem le_mul_ceilDiv (x k : ℕ) : x ≤ (k + 10) * (x ⌈/⌉ (k + 10)) :=
  le_smul_ceilDiv (show 0 < k + 10 by omega)

theorem mul_ceilDiv_lt (x k : ℕ) : (k + 10) * (x ⌈/⌉ (k + 10)) < x + (k + 10) := by
  have hle := Nat.mul_div_le (x + (k + 10) - 1) (k + 10)
  rw [Nat.ceilDiv_eq_add_pred_div]
  omega

theorem firstLabel_lt (k : ℕ) : firstLabel k < 10 ^ (k + 7) := by
  induction k with
  | zero => decide
  | succ k ih =>
    have hceil := mul_ceilDiv_lt (10 ^ (k + 7) - firstLabel k) k
    have hk : k + 7 < 10 ^ (k + 7) := Nat.lt_pow_self (by decide)
    have hpow : 10 ^ (k + 1 + 7) = 10 * 10 ^ (k + 7) := by
      rw [Nat.add_right_comm, pow_succ, Nat.mul_comm]
    rw [firstLabel, hpow]
    omega

theorem le_firstLabel_succ (k : ℕ) : 10 ^ (k + 7) ≤ firstLabel (k + 1) := by
  have hceil := le_mul_ceilDiv (10 ^ (k + 7) - firstLabel k) k
  have hlt := firstLabel_lt k
  rw [firstLabel]
  omega

/-- The labels of the block loop. -/
def labels : Chain where
  first := firstLabel
  step k := k + 10
  count k := (10 ^ (k + 7) - firstLabel k) ⌈/⌉ (k + 10)
  step_pos k := by omega
  count_pos k := by
    have hlt := firstLabel_lt k
    have hceil := le_mul_ceilDiv (10 ^ (k + 7) - firstLabel k) k
    exact Nat.pos_of_mul_pos_left (show 0 < (k + 10) * _ by omega)
  first_succ k := rfl

theorem label_lt {k b : ℕ} (h : labels.Point k b) : b < 10 ^ (k + 7) := by
  rcases h with ⟨i, hi, rfl⟩
  have hlt := firstLabel_lt k
  have hmul : (k + 10) * i < 10 ^ (k + 7) - firstLabel k := by
    rw [← not_le, ← ceilDiv_le_iff_le_mul (by omega)]
    exact Nat.not_le.mpr hi
  show firstLabel k + (k + 10) * i < _
  omega

/-- A label of the `k`-th progression has `k + 7` digits, or at most seven if `k` is 0. -/
theorem length_decimal_label {k b : ℕ} (h : labels.Point k b) :
    max 10 ((decimal b).length + 3) = k + 10 := by
  have hle : (decimal b).length ≤ k + 7 := (length_decimal_le (by omega)).mpr (label_lt h)
  cases k with
  | zero => omega
  | succ k =>
    have hge : ¬(decimal b).length ≤ k + 7 := by
      rw [length_decimal_le (by omega)]
      exact Nat.not_lt.mpr ((le_firstLabel_succ k).trans h.first_le)
    omega

theorem overshoots_iff_near (strLen : ℕ) :
    Overshoots strLen ↔ ∃ k b, labels.Point k b ∧ b ≤ strLen ∧ strLen < b + k :=
  (Chain.exists_point_near_iff (c := labels) (fun k => Nat.le_add_right k 10) strLen).symm

theorem Overshoots.le {strLen : ℕ} (h : Overshoots strLen) : 10 ^ 7 ≤ strLen := by
  rcases h with ⟨k, hle, -, hmod⟩
  cases k with
  | zero => omega
  | succ k =>
    calc 10 ^ 7 ≤ 10 ^ (k + 7) := Nat.pow_le_pow_right (by decide) (by omega)
      _ ≤ firstLabel (k + 1) := le_firstLabel_succ k
      _ ≤ strLen := hle

/-- The number of digits bounds the progression. -/
theorem overshoots_iff_bounded (strLen : ℕ) :
    (∃ k < (decimal strLen).length, firstLabel k ≤ strLen ∧ strLen < firstLabel (k + 1) ∧
      (strLen - firstLabel k) % (k + 10) < k) ↔ Overshoots strLen := by
  constructor
  · rintro ⟨k, -, h⟩
    exact ⟨k, h⟩
  · rintro ⟨k, hle, hlt, hmod⟩
    refine ⟨k, ?_, hle, hlt, hmod⟩
    cases k with
    | zero => omega
    | succ k =>
      have hlen : ¬(decimal strLen).length ≤ k + 7 := by
        rw [length_decimal_le (by omega)]
        exact Nat.not_lt.mpr ((le_firstLabel_succ k).trans hle)
      omega

instance (strLen : ℕ) : Decidable (Overshoots strLen) :=
  decidable_of_iff _ (overshoots_iff_bounded strLen)

/-! ### The block loop -/

theorem length_appendBlock_of_label {k : ℕ} {str : Str} (h : labels.Point k (str.length + 10)) :
    (appendBlock str).length = str.length + (k + 10) := by
  rw [length_appendBlock, length_decimal_label h]

theorem length_le_appendBlocks (strLen : ℕ) (str : Str) :
    str.length ≤ (appendBlocks strLen str).length := by
  induction str using appendBlocks.induct strLen with
  | case1 str hroom ih =>
    rw [appendBlocks, if_pos hroom]
    rw [length_appendBlock] at ih
    omega
  | case2 str hfull => rw [appendBlocks, if_neg hfull]

/-- **The loop stays within the length exactly if the length is not closely above a label.** -/
theorem length_appendBlocks_le_iff {strLen k : ℕ} {str : Str}
    (hlabel : labels.Point k (str.length + 10)) (hle : str.length ≤ strLen) :
    (appendBlocks strLen str).length ≤ strLen ↔ ¬Overshoots strLen := by
  induction str using appendBlocks.induct strLen generalizing k with
  | case1 str hroom ih =>
    have hlen := length_appendBlock_of_label hlabel
    rw [appendBlocks, if_pos hroom]
    rcases Nat.lt_or_ge strLen (appendBlock str).length with hover | hfits
    · -- this pass goes too far, from a label that is closely below
      have hge := length_le_appendBlocks strLen (appendBlock str)
      have hnear : Overshoots strLen :=
        (overshoots_iff_near strLen).mpr ⟨k, _, hlabel, hroom, by omega⟩
      exact iff_of_false (by omega) (not_not_intro hnear)
    · obtain ⟨j, hnext⟩ := hlabel.next
      have hlabel' : labels.Point j ((appendBlock str).length + 10) := by
        rw [show (appendBlock str).length + 10 = str.length + 10 + labels.step k from by
          show _ = str.length + 10 + (k + 10)
          omega]
        exact hnext
      exact ih hlabel' hfits
  | case2 str hfull =>
    rw [appendBlocks, if_neg hfull]
    refine iff_of_true hle ?_
    intro hover
    obtain ⟨j, b, hb, hbl, hlt⟩ := (overshoots_iff_near strLen).mp hover
    -- a label below the next one is at least its step below, which leaves more than its width
    have hstep : b + (j + 10) ≤ str.length + 10 := hb.add_step_le_of_lt hlabel (by omega)
    omega

/-! ### The padding -/

theorem length_testStr_iff_of_lt {strPrefix : Str} {strLen : ℕ}
    (h : strPrefix.length + 1 < strLen) :
    (testStr strPrefix strLen).length = strLen ↔ ¬Overshoots strLen := by
  rcases Nat.lt_or_ge strLen 20 with h20 | h20
  · have hnot : ¬Overshoots strLen := by
      intro hover
      have hle := hover.le
      omega
    rw [testStr_short h h20, length_pushDigits, List.length_append, List.length_singleton]
    exact iff_of_true (by omega) hnot
  · have hlen := length_resize (strPrefix ++ [':']) 10 '='
    have hlabel : labels.Point 0 ((resize (strPrefix ++ [':']) 10 '=').length + 10) := by
      rw [hlen]
      exact labels.point_first 0
    rw [testStr_blocks h h20, length_pushDigits, ← length_appendBlocks_le_iff hlabel (by omega)]
    omega

/-- **The exact length of the padding.** `test_str` ends, for every prefix and length, with a string
of the requested length, except in the block shape for lengths closely above a label of eight or
more digits. -/
theorem testStr_length_iff (strPrefix : Str) (strLen : ℕ) :
    (testStr strPrefix strLen).length = strLen ↔
      strLen ≤ strPrefix.length + 1 ∨ ¬Overshoots strLen := by
  rcases Nat.lt_or_ge (strPrefix.length + 1) strLen with h | h
  · rw [length_testStr_iff_of_lt h]
    constructor
    · exact .inr
    · rintro (hle | hnot)
      · omega
      · exact hnot
  · rw [testStr_truncated h, List.length_take_of_le (by simpa using h)]
    exact iff_of_true rfl (.inl h)

/-- Ten million is the first label of eight digits, and its block is one character too long. -/
theorem testStr_length_tenMillion : (testStr ['_'] 10000000).length ≠ 10000000 := by
  rw [Ne, length_testStr_iff_of_lt (by decide), not_not]
  decide +kernel

/-- **The padding has the requested length**, below ten million. -/
theorem length_testStr (strPrefix : Str) {strLen : ℕ} (h : strLen < 10 ^ 7) :
    (testStr strPrefix strLen).length = strLen := by
  rcases Nat.lt_or_ge (strPrefix.length + 1) strLen with hlt | hge
  · rw [length_testStr_iff_of_lt hlt]
    intro hover
    exact Nat.not_lt.mpr hover.le h
  · rw [testStr_truncated hge, List.length_take_of_le (by simpa using hge)]

theorem le_length_testStr (strPrefix : Str) (strLen : ℕ) :
    strLen ≤ (testStr strPrefix strLen).length := by
  rcases testStr_cases strPrefix strLen with ⟨hle, heq⟩ | ⟨-, heq⟩ | ⟨-, heq⟩
  · rw [heq, List.length_take_of_le (by simpa using hle)]
  · rw [heq, length_pushDigits]
    exact Nat.le_max_right _ _
  · rw [heq, length_pushDigits]
    exact Nat.le_max_right _ _

/-! ### The messages -/

/-- Of a message with room for its clock reading, the padding decides the size. -/
theorem length_makeTestStr_iff {n : ℕ} {clock : UInt64} (hn : n < 2 ^ 64)
    (hd : (decimal clock.toNat).length ≤ n) :
    (makeTestStr n clock).length = n ↔ ¬Overshoots (n - (decimal clock.toNat).length) := by
  rw [makeTestStr_of_le hn hd, List.length_append]
  rcases Nat.lt_or_ge (clockIntervalStr.length + 1) (n - (decimal clock.toNat).length) with h | h
  · rw [← length_testStr_iff_of_lt h]
    omega
  · rw [testStr_truncated h, List.length_take_of_le (by simpa using h)]
    refine iff_of_true (by omega) ?_
    intro hover
    have hle := hover.le
    have hone : clockIntervalStr.length = 1 := rfl
    omega

/-- Without room for the clock reading the subtraction wraps around, and the message is to get a
padding of almost `2 ^ 64` characters. -/
theorem le_length_makeTestStr {n : ℕ} {clock : UInt64} (hd : n < (decimal clock.toNat).length) :
    2 ^ 64 + n ≤ (makeTestStr n clock).length := by
  have hclock := clock.toNat_lt
  have hdigits : (decimal clock.toNat).length ≤ 20 := (length_decimal_le (by decide)).mpr (by omega)
  have hpadding := le_length_testStr clockIntervalStr (uint64 (n - (decimal clock.toNat).length))
  have hwrap : uint64 (n - (decimal clock.toNat).length) =
      2 ^ 64 - ((decimal clock.toNat).length - n) := by
    rw [uint64]
    omega
  rw [makeTestStr, List.length_append]
  omega

/-- **The requested message size is honoured** exactly if the clock reading fits into it and the
padding after the reading has its exact length. -/
theorem makeTestStr_length_iff (n clock : UInt64) :
    (makeTestStr n.toNat clock).length = n.toNat ↔
      (decimal clock.toNat).length ≤ n.toNat ∧
        ¬Overshoots (n.toNat - (decimal clock.toNat).length) := by
  rcases Nat.lt_or_ge n.toNat (decimal clock.toNat).length with hd | hd
  · have hle := le_length_makeTestStr hd
    exact iff_of_false (by omega) (fun h => Nat.not_lt.mpr h.1 hd)
  · rw [length_makeTestStr_iff n.toNat_lt hd]
    constructor
    · intro h
      exact ⟨hd, h⟩
    · rintro ⟨-, h⟩
      exact h

/-- A clock reading of thirteen digits in messages of three bytes, and before a padding of ten
million. -/
theorem makeTestStr_length_threeBytes :
    (makeTestStr 3 1700000000000).length ≠ 3 ∧
    (makeTestStr 10000013 1700000000000).length ≠ 10000013 := by
  constructor
  · have hle : 2 ^ 64 + 3 ≤ (makeTestStr 3 1700000000000).length :=
      le_length_makeTestStr (by decide +kernel)
    omega
  · rw [Ne, length_makeTestStr_iff (by decide) (by decide +kernel), not_not]
    decide +kernel

theorem length_makeTestStr {n : ℕ} {clock : UInt64} (hn : n < 10 ^ 7)
    (hd : (decimal clock.toNat).length ≤ n) : (makeTestStr n clock).length = n := by
  rw [makeTestStr_of_le (by omega) hd, List.length_append, length_testStr _ (by omega)]
  omega

end ReliableUdpBench
