import Mathlib.Tactic

/-!
# Machine words: 32-bit sums and a signed sum over an unsigned count

`int32` and `uint64` are the conversions of an integer to the two machine types. `sum32` adds up in
a 32-bit accumulator that wraps around; it ends at the true sum narrowed once (`sum32_eq`).

`mixedDiv` divides a signed 32-bit number by an unsigned 64-bit count the way C does: the number is
converted to 64 unsigned bits first and the quotient narrowed afterwards. That is the true quotient
when the number is not negative (`mixedDiv_of_nonneg`) and, for counts below `2 ^ 32` that are
multiples of ten, practically never otherwise (`mixedDiv_ne_of_not_int31`).
-/

namespace ReliableUdpBench.Lib

/-- Conversion to a signed 32-bit integer. -/
def int32 (x : ℤ) : ℤ := x.bmod (2 ^ 32)

/-- Conversion to an unsigned 64-bit integer. -/
def uint64 (x : ℤ) : ℕ := (x % 2 ^ 64).toNat

/-- The value is one a signed 32-bit integer can have. -/
def FitsInt32 (x : ℤ) : Prop := -2 ^ 31 ≤ x ∧ x < 2 ^ 31

instance (x : ℤ) : Decidable (FitsInt32 x) := inferInstanceAs (Decidable (_ ∧ _))

/-- The sum in a 32-bit accumulator. -/
def sum32 (l : List ℤ) : ℤ := l.foldl (fun acc x => int32 (acc + x)) 0

/-- A signed 32-bit number divided by an unsigned 64-bit count, narrowed to 32 bits. -/
def mixedDiv (x : ℤ) (n : ℕ) : ℤ := int32 (uint64 x / n : ℕ)

/-! ### Narrowing -/

/-- Narrowing takes away a multiple of `2 ^ 32` and lands in range. -/
theorem int32_spec (x : ℤ) : FitsInt32 (int32 x) ∧ ∃ k : ℤ, x = int32 x + 2 ^ 32 * k := by
  have hr : int32 x = if x % (2 ^ 32 : ℤ) < 2 ^ 31 then x % 2 ^ 32 else x % 2 ^ 32 - 2 ^ 32 := by
    simp [int32, Int.bmod_def]
  refine ⟨?_, ?_⟩
  · rw [FitsInt32, hr]
    split <;> omega
  · rw [hr]
    split
    · exact ⟨x / 2 ^ 32, by omega⟩
    · exact ⟨x / 2 ^ 32 + 1, by omega⟩

theorem int32_of_fits {x : ℤ} (h : FitsInt32 x) : int32 x = x := by
  obtain ⟨hf, k, hk⟩ := int32_spec x
  simp only [FitsInt32] at h hf
  omega

theorem int32_int32_add (x y : ℤ) : int32 (int32 x + y) = int32 (x + y) := by
  rw [int32, int32, int32, Int.bmod_add_bmod]

theorem foldl_int32 (l : List ℤ) (acc : ℤ) :
    l.foldl (fun acc x => int32 (acc + x)) (int32 acc) = int32 (acc + l.sum) := by
  induction l generalizing acc with
  | nil => simp
  | cons x l ih =>
    rw [List.foldl_cons, int32_int32_add, ih, List.sum_cons, add_assoc]

/-- **The accumulator ends at the true sum, narrowed once.** -/
theorem sum32_eq (l : List ℤ) : sum32 l = int32 l.sum := by
  simpa [sum32, int32] using foldl_int32 l 0

/-! ### Signed division of a wrapped sum -/

theorem tmod_bounds (s : ℤ) {n : ℤ} (hn : 0 < n) :
    (0 ≤ s → 0 ≤ s.tmod n ∧ s.tmod n < n) ∧ (s < 0 → -n < s.tmod n ∧ s.tmod n ≤ 0) := by
  constructor
  · intro h
    exact ⟨Int.tmod_nonneg n h, Int.tmod_lt_of_pos s hn⟩
  · intro h
    have hneg : (-s).tmod n = -s.tmod n := Int.neg_tmod s n
    have h0 := Int.tmod_nonneg n (show 0 ≤ -s from by omega)
    have h1 := Int.tmod_lt_of_pos (-s) hn
    omega

theorem tdiv_ten_spec (x : ℤ) : x - 10 < 10 * x.tdiv 10 ∧ 10 * x.tdiv 10 < x + 10 := by
  have h := Int.mul_tdiv_add_tmod x 10
  have hb := tmod_bounds x (show (0 : ℤ) < 10 by omega)
  omega

/-- A wrapped number divided by ten gives the true quotient only if nothing was wrapped: one turn
of the accumulator moves the quotient by more than four hundred million. -/
theorem tdiv_ten_int32_eq_iff (x : ℤ) : (int32 x).tdiv 10 = x.tdiv 10 ↔ FitsInt32 x := by
  constructor
  · intro h
    obtain ⟨hf, k, hk⟩ := int32_spec x
    have hy := tdiv_ten_spec x
    have hz := tdiv_ten_spec (int32 x)
    simp only [FitsInt32] at hf ⊢
    omega
  · intro h
    rw [int32_of_fits h]

/-! ### A signed sum over an unsigned count -/

theorem uint64_of_nonneg {x : ℤ} (h0 : 0 ≤ x) (h : x < 2 ^ 64) : (uint64 x : ℤ) = x := by
  rw [uint64]
  omega

theorem uint64_of_neg {x : ℤ} (h0 : x < 0) (h : -2 ^ 64 ≤ x) : (uint64 x : ℤ) = 2 ^ 64 + x := by
  rw [uint64]
  omega

/-- **Numbers that are not negative divide as they should.** -/
theorem mixedDiv_of_nonneg {x : ℤ} (h0 : 0 ≤ x) (h : x < 2 ^ 31) (n : ℕ) :
    mixedDiv x n = x.tdiv n := by
  have hu : (uint64 x : ℤ) = x := uint64_of_nonneg h0 (by omega)
  have hle : x / (n : ℤ) ≤ x := Int.ediv_le_self _ h0
  have hge : 0 ≤ x / (n : ℤ) := Int.ediv_nonneg h0 (by omega)
  rw [mixedDiv, Int.natCast_ediv, hu, Int.tdiv_eq_ediv_of_nonneg h0]
  exact int32_of_fits ⟨by omega, by omega⟩

theorem exists_of_int32_eq {q y : ℤ} (h : int32 q = y) : ∃ j : ℤ, q = y + 2 ^ 32 * j := by
  obtain ⟨-, j, hj⟩ := int32_spec q
  exact ⟨j, by omega⟩

/-- **Everything else divides wrongly**, as long as the count is a multiple of ten below `2 ^ 32`:
agreement would make `2 ^ 32` or `2 ^ 32 - 1` a multiple of the count, and ten divides neither. -/
theorem mixedDiv_ne_of_not_int31 {s : ℤ} {m : ℕ} (hm : 0 < m) (hm32 : 10 * m < 2 ^ 32)
    (hlo : -2 ^ 31 ≤ s) (hhi : s < 2 ^ 32) (hs : ¬(0 ≤ s ∧ s < 2 ^ 31)) :
    mixedDiv (int32 s) (10 * m) ≠ s.tdiv (10 * m : ℕ) := by
  intro heq
  obtain ⟨j, hj⟩ := exists_of_int32_eq heq
  obtain ⟨hf, k, hk⟩ := int32_spec s
  simp only [FitsInt32] at hf
  -- the wrapped sum is negative, so its conversion is `2 ^ 64` more
  have hneg : int32 s < 0 := by omega
  have hu : (uint64 (int32 s) : ℤ) = 2 ^ 64 + int32 s := uint64_of_neg hneg (by omega)
  rw [Int.natCast_ediv, hu] at hj
  have hn : (0 : ℤ) < (10 * m : ℕ) := by omega
  -- both divisions with their remainders
  have hq := Int.mul_ediv_add_emod (2 ^ 64 + int32 s) (10 * m : ℕ)
  have hr0 := Int.emod_nonneg (2 ^ 64 + int32 s) hn.ne'
  have hr1 := Int.emod_lt_of_pos (2 ^ 64 + int32 s) hn
  have hy := Int.mul_tdiv_add_tmod s (10 * m : ℕ)
  have ht := tmod_bounds s hn
  rw [hj, mul_add] at hq
  have hw : ((10 * m : ℕ) : ℤ) * (2 ^ 32 * j) = 2 ^ 32 * (10 * (m * j)) := by
    push_cast
    ring
  rw [hw] at hq
  generalize (m : ℤ) * j = w at hq
  omega

end ReliableUdpBench.Lib
