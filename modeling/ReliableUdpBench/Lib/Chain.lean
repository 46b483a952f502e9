import Mathlib.Order.Monotone.Basic
import Mathlib.Tactic.Cases

/-!
# Arithmetic progressions one after the other

A chain goes up by a step that is constant for a while and then another: its `k`-th progression has
`count k` points from `first k` on, `step k` apart, and the point after its last is `first (k + 1)`.
The next point after a point of the `k`-th progression is `step k` further, whether it is in the
same progression or not, and there is no point in between (`Point.next`,
`Point.add_step_le_of_lt`).

A number is at less than `width k` above a point exactly if its remainder by the step of its
progression is below the width (`exists_point_near_iff`).
-/

namespace ReliableUdpBench.Lib

/-- Progressions one after the other. -/
structure Chain where
  first : ℕ → ℕ
  step : ℕ → ℕ
  count : ℕ → ℕ
  step_pos : ∀ k, 0 < step k
  count_pos : ∀ k, 0 < count k
  first_succ : ∀ k, first (k + 1) = first k + step k * count k

namespace Chain

variable (c : Chain)

/-- `b` is a point of the `k`-th progression. -/
def Point (k b : ℕ) : Prop := ∃ i < c.count k, b = c.first k + c.step k * i

theorem first_strictMono : StrictMono c.first := by
  apply strictMono_nat_of_lt_succ
  intro k
  rw [c.first_succ]
  exact Nat.lt_add_of_pos_right (Nat.mul_pos (c.step_pos k) (c.count_pos k))

theorem point_first (k : ℕ) : c.Point k (c.first k) := ⟨0, c.count_pos k, rfl⟩

variable {c}

theorem Point.first_le {k b : ℕ} (h : c.Point k b) : c.first k ≤ b := by
  rcases h with ⟨i, -, rfl⟩
  exact Nat.le_add_right _ _

theorem Point.add_step_le {k b : ℕ} (h : c.Point k b) : b + c.step k ≤ c.first (k + 1) := by
  rcases h with ⟨i, hi, rfl⟩
  have hle := Nat.mul_le_mul_left (c.step k) (show i + 1 ≤ c.count k from hi)
  rw [c.first_succ, Nat.add_assoc, ← Nat.mul_succ]
  exact Nat.add_le_add_left hle _

theorem Point.lt_first_succ {k b : ℕ} (h : c.Point k b) : b < c.first (k + 1) :=
  (Nat.lt_add_of_pos_right (c.step_pos k)).trans_le h.add_step_le

/-- One step further is the next point. -/
theorem Point.next {k b : ℕ} (h : c.Point k b) : ∃ j, c.Point j (b + c.step k) := by
  obtain ⟨i, hi, rfl⟩ := h
  rcases Nat.lt_or_ge (i + 1) (c.count k) with hlt | hge
  · exact ⟨k, i + 1, hlt, by rw [Nat.mul_succ, Nat.add_assoc]⟩
  · have hlast : c.count k = i + 1 := Nat.le_antisymm hge hi
    have hfirst := c.first_succ k
    rw [hlast, Nat.mul_succ, ← Nat.add_assoc] at hfirst
    exact ⟨k + 1, hfirst ▸ c.point_first (k + 1)⟩

/-- **Between a point and the next there is none.** -/
theorem Point.add_step_le_of_lt {k j a b : ℕ} (ha : c.Point k a) (hb : c.Point j b)
    (hlt : a < b) : a + c.step k ≤ b := by
  rcases Nat.lt_trichotomy k j with h | rfl | h
  · have hle : c.first (k + 1) ≤ c.first j := c.first_strictMono.monotone h
    exact ha.add_step_le.trans (hle.trans hb.first_le)
  · rcases ha with ⟨i, -, rfl⟩
    rcases hb with ⟨m, -, rfl⟩
    have him : i < m := Nat.lt_of_mul_lt_mul_left (Nat.lt_of_add_lt_add_left hlt)
    have hle := Nat.mul_le_mul_left (c.step k) (show i + 1 ≤ m from him)
    rw [Nat.add_assoc, ← Nat.mul_succ]
    exact Nat.add_le_add_left hle _
  · have hle : c.first (j + 1) ≤ c.first k := c.first_strictMono.monotone h
    have hjb := hb.lt_first_succ
    have hka := ha.first_le
    omega

/-- The last point of the progression that is not above a number. -/
theorem point_sub_mod {k p : ℕ} (hle : c.first k ≤ p) (hlt : p < c.first (k + 1)) :
    c.Point k (p - (p - c.first k) % c.step k) := by
  have hdiv := Nat.div_add_mod (p - c.first k) (c.step k)
  refine ⟨(p - c.first k) / c.step k, ?_, by omega⟩
  rw [c.first_succ] at hlt
  exact Nat.div_lt_of_lt_mul (by omega)

/-- **A number is close above a point exactly if its remainder is small.** -/
theorem exists_point_near_iff {width : ℕ → ℕ} (hwidth : ∀ k, width k ≤ c.step k) (p : ℕ) :
    (∃ k b, c.Point k b ∧ b ≤ p ∧ p < b + width k) ↔
      ∃ k, c.first k ≤ p ∧ p < c.first (k + 1) ∧ (p - c.first k) % c.step k < width k := by
  constructor
  · rintro ⟨k, b, hb, hle, hlt⟩
    have hnext := hb.add_step_le
    have hfirst := hb.first_le
    have hw := hwidth k
    refine ⟨k, by omega, by omega, ?_⟩
    obtain ⟨i, -, rfl⟩ := hb
    rw [show p - c.first k = c.step k * i + (p - (c.first k + c.step k * i)) from by omega,
      Nat.mul_add_mod, Nat.mod_eq_of_lt (by omega)]
    omega
  · rintro ⟨k, hle, hlt, hmod⟩
    have hsub := Nat.mod_le (p - c.first k) (c.step k)
    exact ⟨k, _, point_sub_mod hle hlt, by omega, by omega⟩

end Chain

end ReliableUdpBench.Lib
