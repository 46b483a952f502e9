import ReliableUdpBench.PaddingLayout

/-!
# Fragments of a padding

The blocks of a padding name the positions they end at, so that a piece cut out of it tells where it
was. Eighteen characters in a row are enough: one of the first ten opens a block, and eight more hold
its label (`testStr_fragment`). Neither the prefix nor the length of the padding has to be known.
-/

namespace ReliableUdpBench

variable {strPrefix : Str} {strLen : ℕ}

/-! ### The blocks -/

/-- What a block starts with: the bracket, the position it ends at, and `_`. -/
def blockLabel (b : ℕ) : Str := '(' :: decimal b ++ ['_']

theorem length_blockLabel_le {b : ℕ} (h : b < 10 ^ 7) : (blockLabel b).length ≤ 9 := by
  have hdigits : (decimal b).length ≤ 7 := (length_decimal_le (by decide)).mpr h
  rw [blockLabel, List.length_append, List.length_cons, List.length_singleton]
  omega

theorem open_not_mem_decimal (n : ℕ) : '(' ∉ decimal n := by
  intro h
  have hdigit : Char.isDigit '(' = true := Nat.isDigit_of_mem_toDigits (by decide) (by decide) h
  cases hdigit

theorem digitChar_ne_open (i : ℕ) : Nat.digitChar (i % 10) ≠ '(' := by
  have h : ∀ d < 10, Nat.digitChar d ≠ '(' := by decide
  exact h (i % 10) (Nat.mod_lt i (by decide))

/-- Only the first character of a block is a bracket that opens. -/
theorem blockChar_eq_open_iff {m k : ℕ} (hk : k < 10) :
    blockChar (10 * (m + 1)) (10 * m + k + 1) = '(' ↔ k = 0 := by
  rw [blockChar, show 10 * m + k + 1 - (10 * (m + 1) - 9) = k from by omega]
  split
  · exact iff_of_false (by decide) (by omega)
  · cases k with
    | zero => exact iff_of_true rfl rfl
    | succ k =>
      refine iff_of_false (fun h => ?_) (Nat.succ_ne_zero k)
      rw [List.cons_append, List.getD_cons_succ, List.getD_eq_getElem?_getD] at h
      cases hc : (decimal (10 * (m + 1)) ++ ['_'])[k]? with
      | none =>
        rw [hc] at h
        exact digitChar_ne_open _ h
      | some c =>
        rw [hc] at h
        have hmem : '(' ∈ decimal (10 * (m + 1)) ++ ['_'] := by
          rw [← show c = '(' from h]
          exact List.mem_of_getElem? hc
        rcases List.mem_append.mp hmem with hdigit | hlast
        · exact open_not_mem_decimal _ hdigit
        · cases List.mem_singleton.mp hlast

/-- A text starts with one label only. -/
theorem blockLabel_unique {b c : ℕ} {text : Str} (hb : blockLabel b <+: text)
    (hc : blockLabel c <+: text) : b = c := by
  have hread : ∀ {b : ℕ}, blockLabel b <+: text → text.tail.takeWhile (· ≠ '_') = decimal b := by
    rintro b ⟨rest, rfl⟩
    have hdigits : ∀ c ∈ decimal b, decide (c ≠ '_') = true := by
      intro c hmem
      rw [decide_eq_true_iff]
      rintro rfl
      exact Nat.underscore_not_in_toDigits hmem
    show (decimal b ++ ['_'] ++ rest).takeWhile (· ≠ '_') = decimal b
    rw [List.append_assoc, List.takeWhile_append_of_pos hdigits]
    show decimal b ++ List.takeWhile _ ('_' :: rest) = decimal b
    rw [List.takeWhile_cons_of_neg (by decide), List.append_nil]
  have hdecimal : decimal b = decimal c := (hread hb).symm.trans (hread hc)
  calc b = Nat.ofDigitChars 10 (decimal b) 0 := Nat.ofDigitChars_ten_toDigits.symm
    _ = Nat.ofDigitChars 10 (decimal c) 0 := by rw [hdecimal]
    _ = c := Nat.ofDigitChars_ten_toDigits

/-! ### The block area -/

/-- The padding up to the last whole ten. -/
theorem take_testStr (h9 : strPrefix.length ≤ 9) (h20 : 20 ≤ strLen) (h7 : strLen < 10 ^ 7) :
    (testStr strPrefix strLen).take (10 * (strLen / 10)) =
      (List.range' 1 (10 * (strLen / 10))).map (layoutChar strPrefix strLen) := by
  have hblocks := appendBlocks_layout (m := 1) h7 le_rfl (by omega) (resize_layout h9 strLen)
  rw [testStr_blocks (by omega) h20, hblocks, pushDigits, List.take_left']
  rw [List.length_map, List.length_range']

/-- The characters of the block area do not depend on the prefix and the length. -/
theorem getElem?_testStr (h9 : strPrefix.length ≤ 9) (h7 : strLen < 10 ^ 7) {i : ℕ} (hi : 10 ≤ i)
    (hlt : i < 10 * (strLen / 10)) :
    (testStr strPrefix strLen)[i]? = some (blockChar (10 * (i / 10 + 1)) (i + 1)) := by
  have htake := congrArg (·[i]?) (take_testStr h9 (by omega) h7)
  simp only [List.getElem?_take_of_lt hlt, List.getElem?_map, List.getElem?_range' hlt] at htake
  rw [htake, Option.map_some, layoutChar, if_neg (by omega), if_pos (by omega)]
  congr 2
  · omega
  · omega

/-- The characters of the block area where a bracket opens. -/
theorem getElem?_testStr_eq_open_iff (h9 : strPrefix.length ≤ 9) (h7 : strLen < 10 ^ 7) {i : ℕ}
    (hi : 10 ≤ i) (hlt : i < 10 * (strLen / 10)) :
    (testStr strPrefix strLen)[i]? = some '(' ↔ i % 10 = 0 := by
  have hopen := blockChar_eq_open_iff (m := i / 10) (Nat.mod_lt i (show 0 < 10 by decide))
  rw [Nat.div_add_mod] at hopen
  rw [getElem?_testStr h9 h7 hi hlt, Option.some_inj, hopen]

/-- Each block of the block area starts with its label. -/
theorem blockLabel_prefix_drop (h9 : strPrefix.length ≤ 9) (h7 : strLen < 10 ^ 7) {m : ℕ}
    (hm : 1 ≤ m) (hroom : 10 * (m + 1) ≤ strLen) :
    blockLabel (10 * (m + 1)) <+: (testStr strPrefix strLen).drop (10 * m) := by
  have hlen := length_blockLabel_le (show 10 * (m + 1) < 10 ^ 7 by omega)
  rw [List.prefix_iff_getElem?]
  intro k hk
  rw [List.getElem?_drop, getElem?_testStr h9 h7 (by omega) (by omega),
    show (10 * m + k) / 10 = m from by omega, blockChar, if_neg (by omega),
    show 10 * m + k + 1 - (10 * (m + 1) - 9) = k from by omega]
  show some ((blockLabel (10 * (m + 1))).getD k _) = some (blockLabel (10 * (m + 1)))[k]
  rw [List.getD_eq_getElem?_getD, List.getElem?_eq_getElem hk, Option.getD_some]

/-! ### Fragments -/

/-- A label that starts among the first ten characters of a fragment is whole. -/
theorem blockLabel_prefix_fragment (h9 : strPrefix.length ≤ 9) (h7 : strLen < 10 ^ 7) {i k m : ℕ}
    (hi : 10 ≤ i) (hend : i + 18 ≤ 10 * (strLen / 10)) (hk : k < 10) (hik : i + k = 10 * m) :
    blockLabel (10 * (m + 1)) <+: (((testStr strPrefix strLen).drop i).take 18).drop k := by
  have hlen := length_blockLabel_le (show 10 * (m + 1) < 10 ^ 7 by omega)
  have hlabel := blockLabel_prefix_drop h9 h7 (m := m) (by omega) (by omega)
  rw [List.drop_take, List.drop_drop, hik, List.prefix_take_iff]
  exact ⟨hlabel, by omega⟩

/-- A fragment with its place. -/
theorem eq_of_fragment {strPrefix' : Str} {strLen' i i' : ℕ} (h9 : strPrefix.length ≤ 9)
    (h9' : strPrefix'.length ≤ 9) (h7 : strLen < 10 ^ 7) (h7' : strLen' < 10 ^ 7) (hi : 10 ≤ i)
    (hi' : 10 ≤ i') (hend : i + 18 ≤ 10 * (strLen / 10)) (hend' : i' + 18 ≤ 10 * (strLen' / 10))
    (h : ((testStr strPrefix strLen).drop i).take 18 =
      ((testStr strPrefix' strLen').drop i').take 18) :
    i = i' := by
  -- the first block that opens in the fragment is at the same place of it
  obtain ⟨k, hk, hopen⟩ : ∃ k < 10, (i + k) % 10 = 0 := ⟨(10 - i % 10) % 10, by omega, by omega⟩
  have hchar := congrArg (·[k]?) h
  simp only [List.getElem?_take_of_lt (show k < 18 by omega), List.getElem?_drop] at hchar
  rw [(getElem?_testStr_eq_open_iff h9 h7 (by omega) (by omega)).mpr hopen] at hchar
  have hopen' : (i' + k) % 10 = 0 :=
    (getElem?_testStr_eq_open_iff h9' h7' (by omega) (by omega)).mp hchar.symm
  -- and the label there names the same position
  obtain ⟨m, hm⟩ : ∃ m, i + k = 10 * m := ⟨(i + k) / 10, by omega⟩
  obtain ⟨m', hm'⟩ : ∃ m', i' + k = 10 * m' := ⟨(i' + k) / 10, by omega⟩
  have hlabel := blockLabel_prefix_fragment h9 h7 hi hend hk hm
  rw [h] at hlabel
  have hsame := blockLabel_unique hlabel (blockLabel_prefix_fragment h9' h7' hi' hend' hk hm')
  omega

/-- **A fragment tells its place.** Eighteen characters in a row of the block areas of two paddings
are the same if and only if they are at the same place, whatever the prefixes and the lengths are. -/
theorem testStr_fragment {strPrefix' : Str} {strLen' i i' : ℕ} (h9 : strPrefix.length ≤ 9)
    (h9' : strPrefix'.length ≤ 9) (h7 : strLen < 10000000) (h7' : strLen' < 10000000)
    (hi : 10 ≤ i) (hi' : 10 ≤ i') (hend : i + 18 ≤ 10 * (strLen / 10))
    (hend' : i' + 18 ≤ 10 * (strLen' / 10)) :
    ((testStr strPrefix strLen).drop i).take 18 =
      ((testStr strPrefix' strLen').drop i').take 18 ↔ i = i' := by
  refine ⟨eq_of_fragment h9 h9' h7 h7' hi hi' hend hend', ?_⟩
  rintro rfl
  apply List.ext_getElem?
  intro k
  rcases Nat.lt_or_ge k 18 with hk | hk
  · rw [List.getElem?_take_of_lt hk, List.getElem?_take_of_lt hk, List.getElem?_drop,
      List.getElem?_drop, getElem?_testStr h9 h7 (by omega) (by omega),
      getElem?_testStr h9' h7' (by omega) (by omega)]
  · rw [List.getElem?_take_eq_none hk, List.getElem?_take_eq_none hk]

/-- The last eighteen characters of the blocks of a padding, and those ten before the end of another. -/
theorem testStr_fragment_fiftySixty :
    ((testStr clockIntervalStr 50).drop 32).take 18 =
      ((testStr "asdf".toList 65).drop 32).take 18 ∧
    ((testStr clockIntervalStr 50).drop 32).take 18 ≠
      ((testStr "asdf".toList 65).drop 42).take 18 := by
  constructor
  · apply (testStr_fragment (by decide) (by decide) (by decide) (by decide) (by decide) (by decide)
      (by decide) (by decide)).mpr
    rfl
  · intro hfragment
    have hoffset := (testStr_fragment (by decide) (by decide) (by decide) (by decide) (by decide)
      (by decide) (by decide) (by decide)).mp hfragment
    cases hoffset

end ReliableUdpBench
