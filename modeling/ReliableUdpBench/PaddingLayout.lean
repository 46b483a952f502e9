import ReliableUdpBench.TestUtil

/-!
# What the padding says

In the block shape every character of the padding follows from its position: ten characters for the
prefix, then blocks of ten that each name the position they end at, then digits. `layoutChar` is
that rule, and `testStr_layout` the proof that the loops of `test_str` write it, for prefixes that
fit into the first ten characters and labels that fit into their blocks.

A longer prefix does not fit: the block shape cuts it to ten characters, where the two other shapes
keep it (`testStr_keeps_iff`).
-/

namespace ReliableUdpBench

/-! ### The character at a position -/

/-- The character at position `j` of the block that ends at position `b`: `(`, the decimal digits of
`b`, `_`, last digits of positions, and `)`. -/
def blockChar (b j : ℕ) : Char :=
  if j = b then ')'
  else ('(' :: decimal b ++ ['_']).getD (j - (b - 9)) (Nat.digitChar (j % 10))

/-- The character at position `i`, counted from 1, of a padding of length `strLen`: the prefix and
its colon filled up with `=` to ten characters, blocks of ten, and last digits of positions. -/
def layoutChar (strPrefix : Str) (strLen i : ℕ) : Char :=
  if i ≤ 10 then (strPrefix ++ [':']).getD (i - 1) '='
  else if i ≤ 10 * (strLen / 10) then blockChar (10 * ((i + 9) / 10)) i
  else Nat.digitChar (i % 10)

/-- A list, and after it a filling that depends on the position. -/
theorem map_range'_getD {α : Type*} (l : List α) (g : ℕ → α) (s : ℕ) {n : ℕ} (h : l.length ≤ n) :
    (List.range' s n).map (fun j => l.getD (j - s) (g j)) =
      l ++ (List.range' (s + l.length) (n - l.length)).map g := by
  apply List.ext_getElem
  · simp only [List.length_map, List.length_range', List.length_append]
    omega
  · intro i h₁ h₂
    rw [List.length_map, List.length_range'] at h₁
    rcases Nat.lt_or_ge i l.length with hlt | hge
    · simp [hlt]
    · simp [hge, show s + l.length + (i - l.length) = s + i from by omega]

/-! ### The loops write the layout -/

theorem pushDigits_append (str opening : Str) (k : ℕ) :
    pushDigits (str ++ opening) (str.length + k) =
      str ++ (opening ++ (List.range' (str.length + 1 + opening.length)
        (k - opening.length)).map digitAt) := by
  rw [pushDigits, List.append_assoc, List.length_append, Nat.add_sub_add_left, Nat.add_right_comm]

/-- A pass writes a block. -/
theorem appendBlock_eq {str : Str} (h : str.length + 10 < 10 ^ 7) :
    appendBlock str =
      str ++ (List.range' (str.length + 1) 10).map (blockChar (str.length + 10)) := by
  have hd : (decimal (str.length + 10)).length ≤ 7 := (length_decimal_le (by decide)).mpr h
  have hlen : ('(' :: decimal (str.length + 10) ++ ['_']).length ≤ 9 := by
    simp only [List.cons_append, List.length_cons, List.length_append, List.length_nil]
    omega
  -- the last position is the closing bracket, the others follow the rule of the opening characters
  have hopen : (List.range' (str.length + 1) 9).map (blockChar (str.length + 10)) =
      (List.range' (str.length + 1) 9).map fun j =>
        ('(' :: decimal (str.length + 10) ++ ['_']).getD (j - (str.length + 1)) (digitAt j) := by
    apply List.map_congr_left
    intro j hj
    have hlt := (List.mem_range'_1.mp hj).2
    rw [blockChar, if_neg (by omega), digitAt_eq_digitChar]
    rfl
  have hclose : blockChar (str.length + 10) (str.length + 10) = ')' := if_pos rfl
  have hrange : List.range' (str.length + 1) 10 =
      List.range' (str.length + 1) 9 ++ [str.length + 10] := List.range'_1_concat
  show pushDigits (str ++ '(' :: decimal (str.length + 10) ++ ['_']) (str.length + 9) ++ [')'] = _
  rw [hrange, List.map_append, hopen, map_range'_getD _ _ _ hlen, List.map_singleton, hclose,
    List.append_assoc str, pushDigits_append, List.append_assoc]

/-- Characters that follow the rule go on with a text that follows it. -/
theorem append_of_rule {f g : ℕ → Char} {n k : ℕ} (h : ∀ i, n < i → i ≤ n + k → g i = f i) :
    (List.range' 1 n).map f ++ (List.range' (n + 1) k).map g = (List.range' 1 (n + k)).map f := by
  have hg : (List.range' (n + 1) k).map g = (List.range' (n + 1) k).map f := by
    apply List.map_congr_left
    intro i hi
    have hrange := List.mem_range'_1.mp hi
    exact h i hrange.1 (by omega)
  rw [hg, ← List.map_append, Nat.add_comm n 1, List.range'_append_1]

theorem resize_layout {strPrefix : Str} (h : strPrefix.length ≤ 9) (strLen : ℕ) :
    resize (strPrefix ++ [':']) 10 '=' = (List.range' 1 10).map (layoutChar strPrefix strLen) := by
  have hlen : (strPrefix ++ [':']).length ≤ 10 := by
    rw [List.length_append, List.length_singleton]
    omega
  have hrule : (List.range' 1 10).map (layoutChar strPrefix strLen) =
      (List.range' 1 10).map fun i => (strPrefix ++ [':']).getD (i - 1) '=' := by
    apply List.map_congr_left
    intro i hi
    have hlt := (List.mem_range'_1.mp hi).2
    show (if i ≤ 10 then _ else _) = _
    rw [if_pos (by omega)]
  rw [hrule, map_range'_getD _ (fun _ => '=') _ hlen, resize, List.take_of_length_le hlen,
    List.map_const', List.length_range']

/-- **The block loop writes the layout** up to the last whole ten: the invariant is that the string
is the layout of a multiple of ten. -/
theorem appendBlocks_layout {strPrefix str : Str} {strLen m : ℕ} (h7 : strLen < 10 ^ 7)
    (hm : 1 ≤ m) (hle : 10 * m ≤ strLen)
    (hstr : str = (List.range' 1 (10 * m)).map (layoutChar strPrefix strLen)) :
    appendBlocks strLen str =
      (List.range' 1 (10 * (strLen / 10))).map (layoutChar strPrefix strLen) := by
  induction str using appendBlocks.induct strLen generalizing m with
  | case1 str hroom ih =>
    have hlen : str.length = 10 * m := by
      rw [hstr, List.length_map, List.length_range']
    have hblock : appendBlock str =
        (List.range' 1 (10 * (m + 1))).map (layoutChar strPrefix strLen) := by
      rw [appendBlock_eq (by omega), hlen, hstr, Nat.mul_succ]
      apply append_of_rule
      intro i hgt hi
      rw [layoutChar, if_neg (by omega), if_pos (by omega)]
      congr 1
      omega
    rw [appendBlocks, if_pos hroom]
    exact ih (by omega) (by omega) hblock
  | case2 str hfull =>
    have hlen : str.length = 10 * m := by
      rw [hstr, List.length_map, List.length_range']
    rw [appendBlocks, if_neg hfull, hstr, show strLen / 10 = m from by omega]

/-- **Self-describing block layout.** With a prefix of at most nine characters and a length from 20
to below ten million, `test_str` writes at every position what its rule says. -/
theorem testStr_layout {strPrefix : Str} {strLen : ℕ} (h9 : strPrefix.length ≤ 9)
    (h20 : 20 ≤ strLen) (h7 : strLen < 10000000) :
    testStr strPrefix strLen = (List.range' 1 strLen).map (layoutChar strPrefix strLen) := by
  have hblocks := appendBlocks_layout (m := 1) h7 le_rfl (by omega) (resize_layout h9 strLen)
  rw [testStr_blocks (by omega) h20, hblocks, pushDigits, List.length_map, List.length_range']
  have hrule : ∀ i, 10 * (strLen / 10) < i →
      i ≤ 10 * (strLen / 10) + (strLen - 10 * (strLen / 10)) →
      digitAt i = layoutChar strPrefix strLen i := by
    intro i hgt _
    rw [layoutChar, if_neg (by omega), if_neg (by omega), digitAt_eq_digitChar]
  rw [append_of_rule hrule, Nat.add_sub_cancel' (by omega)]

/-- The input of the header's sample. -/
theorem testStr_layout_fortyFive :
    testStr "asdf".toList 45 = "asdf:=====(20_56789)(30_56789)(40_56789)12345".toList := by
  rw [testStr_layout (by decide) (by decide) (by decide)]
  decide +kernel

/-! ### Where the prefix stays -/

theorem isPrefix_resize {str : Str} {len : ℕ} (h : str.length ≤ len) (c : Char) :
    str <+: resize str len c := by
  rw [resize, List.take_of_length_le h]
  exact List.prefix_append _ _

/-- A prefix that does not fit into ten characters is cut, and its colon lost. -/
theorem not_isPrefix_testStr {strPrefix : Str} {strLen : ℕ} (hlong : 10 ≤ strPrefix.length)
    (h : strPrefix.length + 1 < strLen) (h20 : 20 ≤ strLen) :
    ¬strPrefix ++ [':'] <+: testStr strPrefix strLen := by
  obtain ⟨rest, heq, hcolon⟩ := testStr_blocks_eq_append h h20
  have hcut : resize (strPrefix ++ [':']) 10 '=' = (strPrefix ++ [':']).take 10 := by
    rw [resize, Nat.sub_eq_zero_of_le (by rw [List.length_append]; omega), List.replicate_zero,
      List.append_nil]
  intro hprefix
  rw [heq, hcut] at hprefix
  have hdrop : (strPrefix ++ [':']).drop 10 <+: rest := by
    apply (List.prefix_append_right_inj ((strPrefix ++ [':']).take 10)).mp
    rw [List.take_append_drop]
    exact hprefix
  have hmem : ':' ∈ (strPrefix ++ [':']).drop 10 := by
    rw [List.drop_append_of_le_length hlong]
    exact List.mem_append_right _ (List.mem_singleton_self ':')
  exact hcolon (hdrop.subset hmem)

/-- **Where the prefix is preserved.** The padding starts with the prefix and the colon, as far as
it reaches, in the truncated and the short shape and for prefixes of at most nine characters; the
block shape does not keep any other. -/
theorem testStr_keeps_iff (strPrefix : Str) (strLen : ℕ) :
    (strPrefix ++ [':']).take (min strLen (strPrefix.length + 1)) <+: testStr strPrefix strLen ↔
      strLen ≤ strPrefix.length + 1 ∨ strLen < 20 ∨ strPrefix.length ≤ 9 := by
  have hlen : (strPrefix ++ [':']).length = strPrefix.length + 1 := by
    rw [List.length_append, List.length_singleton]
  rcases Nat.lt_or_ge (strPrefix.length + 1) strLen with h | h
  · rw [Nat.min_eq_right h.le, List.take_of_length_le hlen.le]
    rcases Nat.lt_or_ge strLen 20 with h20 | h20
    · rw [testStr_short h h20]
      exact iff_of_true (List.prefix_append _ _) (.inr (.inl h20))
    · rcases Nat.lt_or_ge strPrefix.length 10 with hshort | hlong
      · obtain ⟨rest, heq, -⟩ := testStr_blocks_eq_append h h20
        have hkeeps : strPrefix ++ [':'] <+: resize (strPrefix ++ [':']) 10 '=' :=
          isPrefix_resize (by omega) '='
        rw [heq]
        exact iff_of_true (hkeeps.trans (List.prefix_append _ _)) (by omega)
      · exact iff_of_false (not_isPrefix_testStr hlong h h20) (by omega)
  · rw [Nat.min_eq_left h, testStr_truncated h]
    exact iff_of_true List.prefix_rfl (.inl h)

/-- Ten letters lose their colon. -/
theorem testStr_keeps_not_tenLetters :
    ¬("abcdefghij".toList ++ [':']).take (min 20 11) <+: testStr "abcdefghij".toList 20 := by
  have h : ¬"abcdefghij".toList ++ [':'] <+: testStr "abcdefghij".toList 20 :=
    not_isPrefix_testStr (by decide) (by decide) (by decide)
  exact h

end ReliableUdpBench
