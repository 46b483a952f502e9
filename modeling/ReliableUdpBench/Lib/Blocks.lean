import Mathlib.Tactic

/-!
# Cutting a sequence into blocks of one size

`blocks n s` are the consecutive whole blocks of `n` elements of `s`, `remainder n s` is what is
left after them. Together they are `s` again, and both can be computed piece by piece: what a
reader has cut off so far and what it still holds depend on the input alone, not on how the input
was divided on its way (`blocks_append`, `remainder_append`).
-/

namespace ReliableUdpBench.Lib

variable {α : Type*}

/-- The consecutive whole blocks of `n` elements. -/
def blocks (n : ℕ) (s : List α) : List (List α) :=
  (List.range (s.length / n)).map fun i => (s.drop (i * n)).take n

/-- The last `|s| mod n` elements, which fill no block. -/
def remainder (n : ℕ) (s : List α) : List α := s.drop (s.length / n * n)

theorem length_remainder (n : ℕ) (s : List α) : (remainder n s).length = s.length % n := by
  rw [remainder, List.length_drop, Nat.mod_eq_sub_div_mul]

theorem remainder_eq_drop_sub (n : ℕ) (s : List α) :
    remainder n s = s.drop (s.length - s.length % n) := by
  have h := Nat.div_add_mod s.length n
  rw [remainder, Nat.mul_comm (s.length / n) n]
  congr 1
  omega

theorem length_of_mem_blocks {n : ℕ} {s b : List α} (h : b ∈ blocks n s) : b.length = n := by
  obtain ⟨i, hi, rfl⟩ := List.mem_map.mp h
  have hlt : i + 1 ≤ s.length / n := List.mem_range.mp hi
  have hle : (i + 1) * n ≤ s.length := (Nat.mul_le_mul_right n hlt).trans (Nat.div_mul_le_self _ _)
  rw [List.length_take, List.length_drop, Nat.min_eq_left]
  rw [Nat.succ_mul] at hle
  omega

theorem blocks_of_lt {n : ℕ} {s : List α} (h : s.length < n) : blocks n s = [] := by
  rw [blocks, Nat.div_eq_of_lt h]
  rfl

@[simp] theorem blocks_nil (n : ℕ) : blocks n ([] : List α) = [] := by
  simp [blocks]

@[simp] theorem remainder_nil (n : ℕ) : remainder n ([] : List α) = [] := by
  simp [remainder]

theorem remainder_of_lt {n : ℕ} {s : List α} (h : s.length < n) : remainder n s = s := by
  rw [remainder, Nat.div_eq_of_lt h, Nat.zero_mul, List.drop_zero]

theorem blocks_of_le {n : ℕ} {s : List α} (hn : 0 < n) (h : n ≤ s.length) :
    blocks n s = s.take n :: blocks n (s.drop n) := by
  have hlen : s.length / n = (s.drop n).length / n + 1 := by
    rw [List.length_drop, ← Nat.div_eq_sub_div hn h]
  rw [blocks, hlen, List.range_succ_eq_map, List.map_cons, List.map_map, Nat.zero_mul,
    List.drop_zero, blocks]
  congr 1
  apply List.map_congr_left
  intro i _
  rw [Function.comp_apply, List.drop_drop, Nat.succ_mul, Nat.add_comm n]

theorem remainder_of_le {n : ℕ} {s : List α} (hn : 0 < n) (h : n ≤ s.length) :
    remainder n s = remainder n (s.drop n) := by
  rw [remainder, remainder, List.drop_drop, List.length_drop, Nat.div_eq_sub_div hn h,
    Nat.succ_mul, Nat.add_comm]

/-- **Nothing is lost by cutting.** -/
theorem blocks_flatten_append_remainder (n : ℕ) (s : List α) :
    (blocks n s).flatten ++ remainder n s = s := by
  rcases Nat.eq_zero_or_pos n with rfl | hn
  · simp [blocks, remainder]
  induction hk : s.length using Nat.strong_induction_on generalizing s with
  | _ k ih =>
    rcases Nat.lt_or_ge s.length n with hlt | hge
    · rw [blocks_of_lt hlt, remainder_of_lt hlt]
      rfl
    · have hrest := ih (s.drop n).length (by rw [List.length_drop]; omega) (s.drop n) rfl
      rw [blocks_of_le hn hge, remainder_of_le hn hge, List.flatten_cons, List.append_assoc, hrest,
        List.take_append_drop]

/-! ### Blocks come off a growing sequence piece by piece -/

theorem blocks_append_of_length {n : ℕ} {b : List α} (hn : 0 < n) (hb : b.length = n)
    (s : List α) : blocks n (b ++ s) = b :: blocks n s := by
  rw [blocks_of_le hn (by rw [List.length_append]; omega), List.take_left' hb, List.drop_left' hb]

theorem remainder_append_of_length {n : ℕ} {b : List α} (hn : 0 < n) (hb : b.length = n)
    (s : List α) : remainder n (b ++ s) = remainder n s := by
  rw [remainder_of_le hn (by rw [List.length_append]; omega), List.drop_left' hb]

theorem blocks_flatten_append {n : ℕ} (hn : 0 < n) {bs : List (List α)}
    (hbs : ∀ b ∈ bs, b.length = n) (s : List α) :
    blocks n (bs.flatten ++ s) = bs ++ blocks n s := by
  induction bs with
  | nil => rfl
  | cons b bs ih =>
    rw [List.flatten_cons, List.append_assoc, blocks_append_of_length hn (hbs b (by simp)),
      ih fun b' hb' => hbs b' (List.mem_cons_of_mem b hb'), List.cons_append]

theorem remainder_flatten_append {n : ℕ} (hn : 0 < n) {bs : List (List α)}
    (hbs : ∀ b ∈ bs, b.length = n) (s : List α) :
    remainder n (bs.flatten ++ s) = remainder n s := by
  induction bs with
  | nil => rfl
  | cons b bs ih =>
    rw [List.flatten_cons, List.append_assoc, remainder_append_of_length hn (hbs b (by simp)),
      ih fun b' hb' => hbs b' (List.mem_cons_of_mem b hb')]

theorem blocks_append {n : ℕ} (hn : 0 < n) (s t : List α) :
    blocks n (s ++ t) = blocks n s ++ blocks n (remainder n s ++ t) := by
  conv_lhs => rw [← blocks_flatten_append_remainder n s, List.append_assoc]
  exact blocks_flatten_append hn (fun b hb => length_of_mem_blocks hb) _

theorem remainder_append {n : ℕ} (hn : 0 < n) (s t : List α) :
    remainder n (s ++ t) = remainder n (remainder n s ++ t) := by
  conv_lhs => rw [← blocks_flatten_append_remainder n s, List.append_assoc]
  exact remainder_flatten_append hn (fun b hb => length_of_mem_blocks hb) _

/-- One more element completes a block exactly when the length becomes a multiple of its size. -/
theorem length_remainder_snoc {n : ℕ} (hn : 0 < n) (s : List α) (x : α) :
    (remainder n s ++ [x]).length ≤ n ∧
      (n ∣ s.length + 1 ↔ (remainder n s ++ [x]).length = n) := by
  have hlt := Nat.mod_lt s.length hn
  have hmod := Nat.add_mod s.length 1 n
  rw [List.length_append, length_remainder, List.length_singleton, Nat.dvd_iff_mod_eq_zero]
  refine ⟨hlt, ?_, ?_⟩
  · intro h
    by_contra hne
    rw [← Nat.mod_add_mod, Nat.mod_eq_of_lt (by omega)] at h
    omega
  · intro h
    rw [← Nat.mod_add_mod, h, Nat.mod_self]

theorem blocks_snoc {n : ℕ} (hn : 0 < n) (s : List α) (x : α) :
    blocks n (s ++ [x]) =
      if n ∣ s.length + 1 then blocks n s ++ [remainder n s ++ [x]] else blocks n s := by
  obtain ⟨hle, hiff⟩ := length_remainder_snoc hn s x
  rw [blocks_append hn]
  by_cases h : n ∣ s.length + 1
  · have hone := blocks_append_of_length hn (hiff.mp h) []
    rw [List.append_nil, blocks_nil] at hone
    rw [if_pos h, hone]
  · rw [if_neg h, blocks_of_lt (lt_of_le_of_ne hle (fun he => h (hiff.mpr he))), List.append_nil]

theorem remainder_snoc {n : ℕ} (hn : 0 < n) (s : List α) (x : α) :
    remainder n (s ++ [x]) = if n ∣ s.length + 1 then [] else remainder n s ++ [x] := by
  obtain ⟨hle, hiff⟩ := length_remainder_snoc hn s x
  rw [remainder_append hn]
  by_cases h : n ∣ s.length + 1
  · have hone := remainder_append_of_length hn (hiff.mp h) []
    rw [List.append_nil, remainder_nil] at hone
    rw [if_pos h, hone]
  · rw [if_neg h, remainder_of_lt (lt_of_le_of_ne hle (fun he => h (hiff.mpr he)))]

/-- The block that an element completes is the last `n` elements. -/
theorem remainder_append_eq_drop {n : ℕ} {s : List α} {x : α} (h : n ∣ s.length + 1) :
    remainder n s ++ [x] = (s ++ [x]).drop (s.length + 1 - n) := by
  obtain ⟨k, hk⟩ := h
  have hn : 0 < n := Nat.pos_of_ne_zero (by rintro rfl; omega)
  have hmod : s.length % n = n - 1 := by
    obtain ⟨m, rfl⟩ : ∃ m, k = m + 1 := ⟨k - 1, by cases k <;> omega⟩
    rw [Nat.mul_succ] at hk
    rw [show s.length = n * m + (n - 1) from by omega, Nat.mul_add_mod, Nat.mod_eq_of_lt (by omega)]
  have hle : n - 1 ≤ s.length := hmod ▸ Nat.mod_le s.length n
  rw [remainder_eq_drop_sub, hmod, List.drop_append_of_le_length (by omega),
    show s.length - (n - 1) = s.length + 1 - n from by omega]

/-- **Equal blocks cannot drift.** Two rows of blocks of one size of which one, with something
after it, spells the same sequence as the other: the first row is a prefix of the second. -/
theorem prefix_of_flatten_eq {n : ℕ} (hn : 0 < n) {bs cs : List (List α)} {rest : List α}
    (hbs : ∀ b ∈ bs, b.length = n) (hcs : ∀ c ∈ cs, c.length = n)
    (h : bs.flatten ++ rest = cs.flatten) : bs <+: cs := by
  have hcut := blocks_flatten_append hn hcs []
  rw [List.append_nil, ← h, blocks_flatten_append hn hbs, blocks_nil, List.append_nil] at hcut
  exact ⟨_, hcut⟩

end ReliableUdpBench.Lib
