import ReliableUdpBench.Statistics

/-!
# The stream client's receive callback

The stream client's `recv_func` collects bytes in a static string and hands every whole message of
`test_str_size` bytes to `handle_one_msg`. What it hands on and what it keeps are the blocks and the
remainder of all bytes received so far, however they were divided into chunks
(`recvFunc_after`), so its statistics are those of the datagram client called once per block
(`recvFunc_refines_dgram`).

Clock readings are a function of the number of the message they are taken for, so that the two
clients can be given the same ones.
-/

namespace ReliableUdpBench

open Lib

namespace StreamClient

/-- The static variables behind `recv_func`: the string of bytes not yet handed on and those of
`handle_one_msg`; and what can be seen of it: the messages handed on, what was printed for them, and
how often a split was reported wrong. -/
structure RecvState where
  recvedStr : Str
  stat : Stat
  frames : List Str
  printed : List Printed
  splitErrors : ℕ
  deriving DecidableEq

/-- The variables before the first chunk. -/
def RecvState.init : RecvState := ⟨[], Stat.init, [], [], 0⟩

/-- The loop of `recv_func`; `none` is a loop that did not end. -/
def recvLoop (testStrSize : ℕ) (clock : ℕ → UInt64) : ℕ → RecvState → Option RecvState
  | 0, _ => none
  | fuel + 1, s =>
    if s.recvedStr.length ≥ testStrSize then
      let lenForCheck := s.recvedStr.length
      let msg := s.recvedStr.take testStrSize
      let recvedStr := s.recvedStr.drop testStrSize
      let splitErrors :=
        if lenForCheck - recvedStr.length ≠ testStrSize then s.splitErrors + 1 else s.splitErrors
      let handled := handleOneMsg (clock s.stat.staticGoodRecvCount) msg recvedStr s.stat
      recvLoop testStrSize clock fuel
        ⟨recvedStr, handled.1, s.frames ++ [msg], s.printed ++ [handled.2], splitErrors⟩
    else some s

/-- `recv_func` on a chunk. Every pass takes `test_str_size` bytes away, so that, unless that is
nothing, there are no more passes than bytes. -/
def recvFunc (testStrSize : ℕ) (clock : ℕ → UInt64) (str : Str) (s : RecvState) :
    Option RecvState :=
  recvLoop testStrSize clock ((s.recvedStr ++ str).length + 1)
    { s with recvedStr := s.recvedStr ++ str }

/-- `recv_func` on one chunk after the other. -/
def recvAll (testStrSize : ℕ) (clock : ℕ → UInt64) (chunks : List Str) : Option RecvState :=
  chunks.foldlM (fun s str => recvFunc testStrSize clock str s) RecvState.init

end StreamClient

namespace DgramClient

/-- The datagram client's `recv_func` on one message after the other. -/
def recvAll (clock : ℕ → UInt64) (st : Stat) : List Str → Stat × List Printed
  | [] => (st, [])
  | str :: strs =>
    let one := recvFunc (clock st.staticGoodRecvCount) str st
    let rest := recvAll clock one.1 strs
    (rest.1, one.2 :: rest.2)

theorem recvAll_append (clock : ℕ → UInt64) (st : Stat) (xs ys : List Str) :
    recvAll clock st (xs ++ ys) =
      ((recvAll clock (recvAll clock st xs).1 ys).1,
        (recvAll clock st xs).2 ++ (recvAll clock (recvAll clock st xs).1 ys).2) := by
  induction xs generalizing st with
  | nil => rfl
  | cons x xs ih => simp [recvAll, ih]

end DgramClient

namespace StreamClient

open DgramClient (recvAll_append)

/-- The loop hands on the blocks of its string and keeps the remainder. -/
theorem recvLoop_eq {n : ℕ} (hn : 0 < n) (clock : ℕ → UInt64) (fuel : ℕ) (s : RecvState)
    (hfuel : s.recvedStr.length < fuel) :
    recvLoop n clock fuel s =
      some ⟨remainder n s.recvedStr,
        (DgramClient.recvAll clock s.stat (blocks n s.recvedStr)).1,
        s.frames ++ blocks n s.recvedStr,
        s.printed ++ (DgramClient.recvAll clock s.stat (blocks n s.recvedStr)).2,
        s.splitErrors⟩ := by
  induction fuel generalizing s with
  | zero => omega
  | succ fuel ih =>
    rw [recvLoop]
    by_cases hfull : s.recvedStr.length ≥ n
    · have hsplit : s.recvedStr.length - (s.recvedStr.drop n).length = n := by
        rw [List.length_drop]
        omega
      simp only [if_pos hfull, hsplit, ne_eq, not_true_eq_false, if_false]
      rw [ih _ (by simp only [List.length_drop]; omega), blocks_of_le hn hfull,
        remainder_of_le hn hfull]
      simp [DgramClient.recvAll, handleOneMsg_eq_recvFunc]
    · have hshort := hfull
      rw [if_neg hfull, blocks_of_lt (Nat.not_le.mp hshort), remainder_of_lt (Nat.not_le.mp hshort)]
      simp [DgramClient.recvAll]

theorem recvFunc_eq {n : ℕ} (hn : 0 < n) (clock : ℕ → UInt64) (str : Str) (s : RecvState) :
    recvFunc n clock str s =
      some ⟨remainder n (s.recvedStr ++ str),
        (DgramClient.recvAll clock s.stat (blocks n (s.recvedStr ++ str))).1,
        s.frames ++ blocks n (s.recvedStr ++ str),
        s.printed ++ (DgramClient.recvAll clock s.stat (blocks n (s.recvedStr ++ str))).2,
        s.splitErrors⟩ :=
  recvLoop_eq hn clock _ { s with recvedStr := s.recvedStr ++ str } (Nat.lt_add_one _)

/-- The state that all bytes received so far determine. -/
def RecvState.after (n : ℕ) (clock : ℕ → UInt64) (bytes : Str) : RecvState :=
  ⟨remainder n bytes, (DgramClient.recvAll clock Stat.init (blocks n bytes)).1, blocks n bytes,
    (DgramClient.recvAll clock Stat.init (blocks n bytes)).2, 0⟩

theorem RecvState.after_nil (n : ℕ) (clock : ℕ → UInt64) : after n clock [] = init := by
  simp [after, init, DgramClient.recvAll]

/-- **A chunk more is just more bytes.** -/
theorem recvFunc_after {n : ℕ} (hn : 0 < n) (clock : ℕ → UInt64) (bytes str : Str) :
    recvFunc n clock str (.after n clock bytes) = some (.after n clock (bytes ++ str)) := by
  rw [recvFunc_eq hn]
  simp only [RecvState.after]
  rw [blocks_append hn bytes str, remainder_append hn bytes str, recvAll_append]

theorem foldlM_recvFunc {n : ℕ} (hn : 0 < n) (clock : ℕ → UInt64) (chunks : List Str)
    (bytes : Str) :
    chunks.foldlM (fun s str => recvFunc n clock str s) (.after n clock bytes) =
      some (.after n clock (bytes ++ chunks.flatten)) := by
  induction chunks generalizing bytes with
  | nil => simp
  | cons str chunks ih =>
    rw [List.foldlM_cons, recvFunc_after hn]
    simpa using ih (bytes ++ str)

/-- **The stream client's receive path refines the datagram client's.** However the bytes are cut
into chunks, `recv_func` returns, it hands on exactly the consecutive blocks, keeps the rest, never
reports a wrong split, and leaves the statistics and the printed lines of the datagram client's
`recv_func` called once per block. -/
theorem recvFunc_refines_dgram {n : ℕ} (hn : 1 ≤ n) (clock : ℕ → UInt64) (bytes : Str)
    (chunks : List Str) (hcut : chunks.flatten = bytes) :
    ∃ s, recvAll n clock chunks = some s ∧
      s.frames = blocks n bytes ∧
      s.recvedStr = bytes.drop (bytes.length - bytes.length % n) ∧
      s.splitErrors = 0 ∧
      (s.stat, s.printed) = DgramClient.recvAll clock Stat.init (blocks n bytes) := by
  refine ⟨.after n clock bytes, ?_, rfl, remainder_eq_drop_sub n bytes, rfl, rfl⟩
  have h := foldlM_recvFunc hn clock chunks []
  rw [RecvState.after_nil, List.nil_append, hcut] at h
  exact h

theorem recvFunc_refines_dgram_three :
    1 ≤ 3 ∧ [['1', '_'], [], ['a', '2', '_', 'b', '3']].flatten =
      ['1', '_', 'a', '2', '_', 'b', '3'] ∧
    ∃ s, recvAll 3 (fun _ => 7) [['1', '_'], [], ['a', '2', '_', 'b', '3']] = some s ∧
      s.frames = blocks 3 ['1', '_', 'a', '2', '_', 'b', '3'] ∧
      s.recvedStr = ['1', '_', 'a', '2', '_', 'b', '3'].drop (7 - 7 % 3) ∧
      s.splitErrors = 0 ∧
      (s.stat, s.printed) = DgramClient.recvAll (fun _ => 7) Stat.init
        (blocks 3 ['1', '_', 'a', '2', '_', 'b', '3']) :=
  ⟨by decide, rfl, recvFunc_refines_dgram (by decide) (fun _ => 7) _ _ rfl⟩

end StreamClient

end ReliableUdpBench
