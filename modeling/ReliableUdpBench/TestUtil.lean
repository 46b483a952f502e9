import Mathlib.Data.List.TakeWhile
import ReliableUdpBench.Lib.Words
import ReliableUdpBench.Udt

/-!
# Test messages

`testStr` pads to a length with text that shows its own offsets, `makeTestStr` puts a clock reading
in front of such a padding, and `getTimeFromMsg` reads the clock back. Both clients carry the same
copy of the three functions.
-/

namespace ReliableUdpBench

open Lib

/-- `ostr << n`: the decimal digits of an unsigned number. -/
def decimal (n : ℕ) : Str := Nat.toDigits 10 n

theorem length_decimal_le {n k : ℕ} (hk : 0 < k) : (decimal n).length ≤ k ↔ n < 10 ^ k :=
  Nat.length_toDigits_le_iff (by decide) hk

/-! ### The padding generator -/

/-- `char((i % 10) + 0x30)`. -/
def digitAt (i : ℕ) : Char := Char.ofNat (i % 10 + 0x30)

/-- The fill loop: position `i` gets the last digit of `i`, from the end of the string to `stop`. -/
def pushDigits (str : Str) (stop : ℕ) : Str :=
  str ++ (List.range' (str.length + 1) (stop - str.length)).map digitAt

/-- `str.resize(len, c)`. -/
def resize (str : Str) (len : ℕ) (c : Char) : Str :=
  str.take len ++ List.replicate (len - str.length) c

/-- One pass of the block loop: `(`, the length to reach, `_`, digits, `)`. -/
def appendBlock (str : Str) : Str :=
  let newLen := str.length + 10
  pushDigits (str ++ '(' :: decimal newLen ++ ['_']) (newLen - 1) ++ [')']

theorem length_pushDigits (str : Str) (stop : ℕ) :
    (pushDigits str stop).length = max str.length stop := by
  rw [pushDigits, List.length_append, List.length_map, List.length_range']
  omega

theorem length_resize (str : Str) (len : ℕ) (c : Char) : (resize str len c).length = len := by
  rw [resize, List.length_append, List.length_take, List.length_replicate]
  omega

/-- A pass adds ten characters, or as many as its label needs. -/
theorem length_appendBlock (str : Str) :
    (appendBlock str).length =
      str.length + max 10 ((decimal (str.length + 10)).length + 3) := by
  simp only [appendBlock, List.length_append, length_pushDigits, List.length_cons,
    List.length_nil]
  omega

/-- The block loop: a pass for as long as there is room for ten characters. -/
def appendBlocks (strLen : ℕ) (str : Str) : Str :=
  if str.length + 10 ≤ strLen then appendBlocks strLen (appendBlock str) else str
termination_by strLen - str.length
decreasing_by
  have h := length_appendBlock str
  omega

/-- `test_str`: truncated, short (below 20), or in blocks of ten. -/
def testStr (strPrefix : Str) (strLen : ℕ) : Str :=
  let str := strPrefix ++ [':']
  if str.length ≥ strLen then str.take strLen
  else if strLen < 20 then pushDigits str strLen
  else
    let str := appendBlocks strLen (resize str 10 '=')
    if str.length < strLen then pushDigits str strLen else str

/-! ### The three shapes -/

theorem pushDigits_of_le {str : Str} {stop : ℕ} (h : stop ≤ str.length) :
    pushDigits str stop = str := by
  simp [pushDigits, Nat.sub_eq_zero_of_le h]

theorem testStr_truncated {strPrefix : Str} {strLen : ℕ} (h : strLen ≤ strPrefix.length + 1) :
    testStr strPrefix strLen = (strPrefix ++ [':']).take strLen := by
  simp [testStr, h]

theorem testStr_short {strPrefix : Str} {strLen : ℕ} (h : strPrefix.length + 1 < strLen)
    (h20 : strLen < 20) : testStr strPrefix strLen = pushDigits (strPrefix ++ [':']) strLen := by
  simp [testStr, h20, Nat.not_le.mpr h]

theorem testStr_blocks {strPrefix : Str} {strLen : ℕ} (h : strPrefix.length + 1 < strLen)
    (h20 : 20 ≤ strLen) :
    testStr strPrefix strLen =
      pushDigits (appendBlocks strLen (resize (strPrefix ++ [':']) 10 '=')) strLen := by
  have hlen : ¬strLen ≤ (strPrefix ++ [':']).length := by simpa using h
  simp only [testStr, ge_iff_le, if_neg hlen, if_neg (Nat.not_lt.mpr h20)]
  by_cases hroom : (appendBlocks strLen (resize (strPrefix ++ [':']) 10 '=')).length < strLen
  · rw [if_pos hroom]
  · rw [if_neg hroom, pushDigits_of_le (Nat.not_lt.mp hroom)]

/-- Every string is padded in one of the three shapes. -/
theorem testStr_cases (strPrefix : Str) (strLen : ℕ) :
    strLen ≤ strPrefix.length + 1 ∧ testStr strPrefix strLen = (strPrefix ++ [':']).take strLen ∨
    (strPrefix.length + 1 < strLen ∧ strLen < 20) ∧
      testStr strPrefix strLen = pushDigits (strPrefix ++ [':']) strLen ∨
    20 ≤ strLen ∧ testStr strPrefix strLen =
      pushDigits (appendBlocks strLen (resize (strPrefix ++ [':']) 10 '=')) strLen := by
  rcases Nat.lt_or_ge (strPrefix.length + 1) strLen with h | h
  · rcases Nat.lt_or_ge strLen 20 with h20 | h20
    · exact .inr (.inl ⟨⟨h, h20⟩, testStr_short h h20⟩)
    · exact .inr (.inr ⟨h20, testStr_blocks h h20⟩)
  · exact .inl ⟨h, testStr_truncated h⟩

/-! ### What is added to a string contains no colon -/

theorem digitAt_eq_digitChar (i : ℕ) : digitAt i = Nat.digitChar (i % 10) := by
  have h : ∀ d < 10, Char.ofNat (d + 0x30) = Nat.digitChar d := by decide
  exact h (i % 10) (Nat.mod_lt i (by decide))

theorem digitAt_ne_colon (i : ℕ) : digitAt i ≠ ':' := by
  have h : ∀ d < 10, Nat.digitChar d ≠ ':' := by decide
  rw [digitAt_eq_digitChar]
  exact h (i % 10) (Nat.mod_lt i (by decide))

theorem colon_not_mem_decimal (n : ℕ) : ':' ∉ decimal n := by
  intro h
  have hdigit : Char.isDigit ':' = true := Nat.isDigit_of_mem_toDigits (by decide) (by decide) h
  cases hdigit

theorem pushDigits_eq_append (str : Str) (stop : ℕ) :
    ∃ rest, pushDigits str stop = str ++ rest ∧ ':' ∉ rest := by
  refine ⟨_, rfl, ?_⟩
  intro h
  obtain ⟨i, -, hi⟩ := List.mem_map.mp h
  exact digitAt_ne_colon i hi

theorem appendBlock_eq_append (str : Str) :
    ∃ rest, appendBlock str = str ++ rest ∧ ':' ∉ rest := by
  obtain ⟨digits, heq, hdigits⟩ := pushDigits_eq_append
    (str ++ '(' :: decimal (str.length + 10) ++ ['_']) (str.length + 10 - 1)
  refine ⟨'(' :: decimal (str.length + 10) ++ ['_'] ++ digits ++ [')'], ?_, ?_⟩
  · show pushDigits _ _ ++ [')'] = _
    rw [heq]
    simp
  · simp [hdigits, colon_not_mem_decimal]

theorem appendBlocks_eq_append (strLen : ℕ) (str : Str) :
    ∃ rest, appendBlocks strLen str = str ++ rest ∧ ':' ∉ rest := by
  induction str using appendBlocks.induct strLen with
  | case1 str hroom ih =>
    obtain ⟨block, hblock, hblock'⟩ := appendBlock_eq_append str
    rcases ih with ⟨rest, hrest, hrest'⟩
    refine ⟨block ++ rest, ?_, by simp [hblock', hrest']⟩
    rw [appendBlocks, if_pos hroom, hrest, hblock, List.append_assoc]
  | case2 str hfull =>
    rw [appendBlocks, if_neg hfull]
    exact ⟨[], (List.append_nil str).symm, List.not_mem_nil⟩

/-- In the block shape the first ten characters decide about the prefix. -/
theorem testStr_blocks_eq_append {strPrefix : Str} {strLen : ℕ} (h : strPrefix.length + 1 < strLen)
    (h20 : 20 ≤ strLen) :
    ∃ rest, testStr strPrefix strLen = resize (strPrefix ++ [':']) 10 '=' ++ rest ∧
      ':' ∉ rest := by
  obtain ⟨blocks, hblocks, hblocks'⟩ :=
    appendBlocks_eq_append strLen (resize (strPrefix ++ [':']) 10 '=')
  obtain ⟨tail, htail, htail'⟩ := pushDigits_eq_append
    (appendBlocks strLen (resize (strPrefix ++ [':']) 10 '=')) strLen
  refine ⟨blocks ++ tail, ?_, by simp [hblocks', htail']⟩
  rw [testStr_blocks h h20, htail, hblocks, List.append_assoc]

theorem head?_testStr (c : Char) (rest : Str) {strLen : ℕ} (h : 0 < strLen) :
    (testStr (c :: rest) strLen).head? = some c := by
  rcases Nat.lt_or_ge ((c :: rest).length + 1) strLen with hlt | hge
  · rcases Nat.lt_or_ge strLen 20 with h20 | h20
    · rw [testStr_short hlt h20]
      rfl
    · obtain ⟨tail, heq, -⟩ := testStr_blocks_eq_append hlt h20
      rw [heq]
      rfl
  · rw [testStr_truncated hge, List.head?_take, if_neg (by omega)]
    rfl

/-! ### Clock readings in messages -/

/-- `CLOCK_INTERVAL_STR`. -/
def clockIntervalStr : Str := ['_']

/-- `make_test_str` at a clock reading: the padding length is a 64-bit unsigned difference. -/
def makeTestStr (testStrSize : ℕ) (clock : UInt64) : Str :=
  let msgStr := decimal clock.toNat
  msgStr ++ testStr clockIntervalStr (uint64 (testStrSize - msgStr.length))

/-- White space before a number, as `isspace` has it. -/
def isSpace (c : Char) : Bool := c = ' ' || (9 ≤ c.toNat && c.toNat ≤ 13)

/-- `atoll`: white space, a sign, and digits up to the first other character; out of range it
stops at the ends of `long long`. -/
def atoll (s : Str) : ℤ :=
  let number (ds : Str) : ℤ := Nat.ofDigitChars 10 (ds.takeWhile Char.isDigit) 0
  let value : ℤ :=
    match s.dropWhile isSpace with
    | '-' :: ds => -number ds
    | '+' :: ds => number ds
    | ds => number ds
  max (-2 ^ 63) (min value (2 ^ 63 - 1))

/-- `get_time_from_msg`: the number before the first separator, 0 if there is none. -/
def getTimeFromMsg (msg : Str) : UInt64 :=
  match msg.findIdx? (· = '_') with
  | none => 0
  | some pos => UInt64.ofInt (atoll (msg.take pos))

/-! ### The clock reading comes back -/

theorem isSpace_of_isDigit {c : Char} (h : c.isDigit = true) : isSpace c = false := by
  have hc : 48 ≤ c.toNat := by
    simp only [Char.isDigit, Bool.and_eq_true, decide_eq_true_eq, ge_iff_le,
      UInt32.le_iff_toNat_le] at h
    exact h.1
  have hsp : c ≠ ' ' := by
    rintro rfl
    simp at hc
  simp [isSpace, hsp]
  omega

theorem atoll_decimal {n : ℕ} (h : n < 2 ^ 63) : atoll (decimal n) = n := by
  have hdigit : ∀ c ∈ decimal n, c.isDigit = true := by
    intro c hc
    exact Nat.isDigit_of_mem_toDigits (by decide) (by decide) hc
  have hvalue : Nat.ofDigitChars 10 ((decimal n).takeWhile Char.isDigit) 0 = n := by
    rw [List.takeWhile_eq_self_iff.mpr hdigit]
    exact Nat.ofDigitChars_ten_toDigits
  cases hd : decimal n with
  | nil => exact absurd hd Nat.toDigits_ne_nil
  | cons c ds =>
    have hc : c.isDigit = true := hdigit c (by rw [hd]; exact List.mem_cons_self)
    have hdrop : (c :: ds).dropWhile isSpace = c :: ds :=
      List.dropWhile_cons_of_neg (by simp [isSpace_of_isDigit hc])
    rw [hd] at hvalue
    unfold atoll
    rw [hdrop]
    split
    · rename_i heq
      cases heq
      cases hc
    · rename_i heq
      cases heq
      cases hc
    · simp only [hvalue]
      omega

/-- The padding of a message that has room for its clock reading. -/
theorem makeTestStr_of_le {n : ℕ} {clock : UInt64} (hn : n < 2 ^ 64)
    (hd : (decimal clock.toNat).length ≤ n) :
    makeTestStr n clock =
      decimal clock.toNat ++ testStr clockIntervalStr (n - (decimal clock.toNat).length) := by
  have hlen : uint64 (n - (decimal clock.toNat).length) = n - (decimal clock.toNat).length := by
    rw [uint64]
    omega
  rw [makeTestStr, hlen]

/-- A message of more characters than its clock reading has digits starts with the reading and the
separator. -/
theorem makeTestStr_eq {n : ℕ} {clock : UInt64} (hn : n < 2 ^ 64)
    (hd : (decimal clock.toNat).length < n) :
    ∃ tail, makeTestStr n clock = decimal clock.toNat ++ '_' :: tail := by
  have hhead := head?_testStr '_' [] (show 0 < n - (decimal clock.toNat).length by omega)
  obtain ⟨tail, htail⟩ := List.head?_eq_some_iff.mp hhead
  refine ⟨tail, ?_⟩
  rw [makeTestStr_of_le hn hd.le, ← htail]
  rfl

/-- What follows the first separator does not matter. -/
theorem getTimeFromMsg_separator {clock : UInt64} (hclock : clock.toNat < 2 ^ 63) (tail : Str) :
    getTimeFromMsg (decimal clock.toNat ++ '_' :: tail) = clock := by
  have hnone : (decimal clock.toNat).findIdx? (· = '_') = none := by
    apply List.findIdx?_eq_none_iff.mpr
    intro c hc
    have hne : c ≠ '_' := by
      rintro rfl
      exact Nat.underscore_not_in_toDigits hc
    simpa using hne
  have hpos : (decimal clock.toNat ++ '_' :: tail).findIdx? (· = '_') =
      some (decimal clock.toNat).length := by
    simp [List.findIdx?_append, List.findIdx?_cons, hnone]
  have hmod : ((clock.toNat : ℤ) % 2 ^ 64).toNat = clock.toNat := by omega
  rw [getTimeFromMsg, hpos]
  simp only [List.take_left, atoll_decimal hclock]
  rw [UInt64.ofInt, hmod, UInt64.ofNat_toNat]

/-- **The clock reading comes back** from every message that has room for the separator, whatever
the shape of its padding. -/
theorem clock_round_trip (n clock : UInt64) (hclock : clock.toNat < 2 ^ 63)
    (hd : (decimal clock.toNat).length < n.toNat) :
    getTimeFromMsg (makeTestStr n.toNat clock) = clock := by
  obtain ⟨tail, htail⟩ := makeTestStr_eq n.toNat_lt hd
  rw [htail]
  exact getTimeFromMsg_separator hclock tail

/-- The padding is the separator alone. -/
theorem clock_round_trip_fourteen :
    (1700000000000 : UInt64).toNat < 2 ^ 63 ∧ (decimal 1700000000000).length = 13 ∧
    getTimeFromMsg (makeTestStr 14 1700000000000) = 1700000000000 :=
  ⟨by decide, by decide +kernel, clock_round_trip 14 1700000000000 (by decide) (by decide +kernel)⟩

end ReliableUdpBench
