import Mathlib.Data.List.Basic
import Mathlib.Logic.Function.Basic
import ReliableUdpBench.Lib.System

/-!
# Monitors

A monitor is data behind a lock, with one condition variable. A method takes the lock, waits on the
condition variable until the data is as it needs it, uses the data access by access, may notify one
waiter, and gives the lock back. Any number of threads call methods, and the scheduler interleaves
their single steps as it likes: taking the lock, the test of a wait, each access, each notification,
the return, and a wakeup that nobody asked for.

The record of a monitor lists the calls that have returned, in the order of their returns. The
module proves that the record is a run of the methods one after the other (`consistent`), that no
access is made of data for which it is undefined (`valid_access`), that the calls of each thread are
recorded in their order (`calls_recorded`), and, where the condition variable counts tokens, that no
wakeup is lost (`tokens_le_woken`) and that threads are stuck only if there is no token (`stuck`).
-/

namespace ReliableUdpBench.Lib.Monitor

/-! ### Methods -/

/-- What a thread does while it has the lock: return, use the data once, or notify a waiter. -/
inductive Body (δ ρ : Type*) where
  | ret (result : ρ)
  | access (valid : δ → Bool) (update : δ → δ) (next : δ → Body δ ρ)
  | notifyOne (next : Body δ ρ)

/-- A method: what it waits for, if it waits, and what it does then. -/
structure Method (δ ρ : Type*) where
  waitsFor : Option (δ → Bool)
  body : Body δ ρ

variable {ι ω δ ρ : Type*}

/-- The data after the body and its result, if nobody else uses the data. -/
def Body.eval : Body δ ρ → δ → δ × ρ
  | .ret result, d => (d, result)
  | .access _ update next, d => (next d).eval (update d)
  | .notifyOne next, d => next.eval d

/-- Every access of the body is defined, if nobody else uses the data. -/
def Body.Valid : Body δ ρ → δ → Prop
  | .ret _, _ => True
  | .access valid update next, d => valid d = true ∧ (next d).Valid (update d)
  | .notifyOne next, d => next.Valid d

/-- The notifications of the body, if nobody else uses the data. -/
def Body.notifies : Body δ ρ → δ → ℕ
  | .ret _, _ => 0
  | .access _ update next, d => (next d).notifies (update d)
  | .notifyOne next, d => next.notifies d + 1

/-- The data is as the method needs it. -/
def Method.Ready (m : Method δ ρ) (d : δ) : Prop := ∀ p ∈ m.waitsFor, p d = true

/-- What the method waits for makes its body defined. -/
def Method.Sound (m : Method δ ρ) : Prop := ∀ d, m.Ready d → m.body.Valid d

/-! ### Threads -/

/-- Where a thread is: outside, before the lock, at the test of the wait, in the body, or waiting on
the condition variable. -/
inductive Thread (ω δ ρ : Type*) where
  | idle
  | entering (op : ω)
  | testing (op : ω)
  | running (op : ω) (rest : Body δ ρ)
  | blocked (op : ω)

/-- The thread has the lock. -/
def Thread.inside : Thread ω δ ρ → Bool
  | .testing _ | .running _ _ => true
  | .idle | .entering _ | .blocked _ => false

/-- The call that the thread is in. -/
def Thread.pending : Thread ω δ ρ → List ω
  | .idle => []
  | .entering op | .testing op | .running op _ | .blocked op => [op]

/-- The monitor: the data, who has the lock, who waits on the condition variable, who has been woken
and has not tested again, the threads, and the record. -/
structure State (ι ω δ ρ : Type*) where
  data : δ
  owner : Option ι
  waiters : List ι
  woken : List ι
  threads : ι → Thread ω δ ρ
  record : List (ι × ω × ρ)

/-- What the scheduler can do. -/
inductive Move (ι ω : Type*) where
  | call (i : ι) (op : ω)
  | lock (i : ι)
  | test (i : ι)
  | access (i : ι)
  | notify (i : ι) (woken : Option ι)
  | unlock (i : ι)
  | wakeup (j : ι)
  deriving DecidableEq

section Steps

variable [DecidableEq ι] (method : ω → Method δ ρ)

/-- The state after thread `i` moves to `t`. -/
def State.setThread (s : State ι ω δ ρ) (i : ι) (t : Thread ω δ ρ) : State ι ω δ ρ :=
  { s with threads := Function.update s.threads i t }

/-- A waiter goes back to the lock. -/
def State.wake (s : State ι ω δ ρ) (j : ι) : Option (State ι ω δ ρ) :=
  match s.threads j with
  | .blocked op =>
    some { s with
      waiters := s.waiters.erase j, woken := j :: s.woken,
      threads := Function.update s.threads j (.entering op) }
  | _ => none

/-- Thread `i` asks for the lock and gets it. -/
def State.lock (s : State ι ω δ ρ) (i : ι) : Option (State ι ω δ ρ) :=
  match s.threads i, s.owner with
  | .entering op, none =>
    some { s with
      owner := some i,
      threads := Function.update s.threads i
        (match (method op).waitsFor with
        | some _ => .testing op
        | none => .running op (method op).body) }
  | _, _ => none

/-- Thread `i` tests what it waits for: it goes on, or gives the lock back and waits. -/
def State.test (s : State ι ω δ ρ) (i : ι) : Option (State ι ω δ ρ) :=
  match s.threads i with
  | .testing op =>
    if (method op).waitsFor.all fun p => p s.data then
      some { s with
        woken := s.woken.erase i,
        threads := Function.update s.threads i (.running op (method op).body) }
    else
      some { s with
        owner := none, waiters := i :: s.waiters, woken := s.woken.erase i,
        threads := Function.update s.threads i (.blocked op) }
  | _ => none

/-- Thread `i` makes one access; one that is undefined is refused. -/
def State.access (s : State ι ω δ ρ) (i : ι) : Option (State ι ω δ ρ) :=
  match s.threads i with
  | .running op (.access valid update next) =>
    if valid s.data then
      some { s with
        data := update s.data,
        threads := Function.update s.threads i (.running op (next s.data)) }
    else none
  | _ => none

/-- Thread `i` notifies: it wakes some waiter, or nobody if nobody waits. -/
def State.notify (s : State ι ω δ ρ) (i : ι) (woken : Option ι) : Option (State ι ω δ ρ) :=
  match s.threads i with
  | .running op (.notifyOne next) =>
    match woken with
    | some j => (s.setThread i (.running op next)).wake j
    | none => if s.waiters.isEmpty then some (s.setThread i (.running op next)) else none
  | _ => none

/-- Thread `i` gives the lock back and returns. -/
def State.unlock (s : State ι ω δ ρ) (i : ι) : Option (State ι ω δ ρ) :=
  match s.threads i with
  | .running op (.ret result) =>
    some { s with
      owner := none, record := s.record ++ [(i, op, result)],
      threads := Function.update s.threads i .idle }
  | _ => none

/-- The monitor after a move; one that cannot happen is refused. -/
def State.step (s : State ι ω δ ρ) : Move ι ω → Option (State ι ω δ ρ)
  | .call i op =>
    match s.threads i with
    | .idle => some (s.setThread i (.entering op))
    | _ => none
  | .lock i => s.lock method i
  | .test i => s.test method i
  | .access i => s.access i
  | .notify i woken => s.notify i woken
  | .unlock i => s.unlock i
  | .wakeup j => s.wake j

/-- The runs of a monitor with the data `init`. -/
def monitor (init : δ) : System (State ι ω δ ρ) (Move ι ω) :=
  ⟨⟨init, none, [], [], fun _ => .idle, []⟩, State.step method⟩

/-! ### What a move can do -/

variable {method} {s s' : State ι ω δ ρ} {i j : ι} {op : ω}

theorem ready_iff (m : Method δ ρ) (d : δ) :
    (m.waitsFor.all fun p => p d) = true ↔ m.Ready d := by
  cases h : m.waitsFor with
  | none => simp [Method.Ready, h]
  | some p => simp [Method.Ready, h]

theorem call_cases (h : s.step method (.call i op) = some s') :
    s.threads i = .idle ∧ s' = s.setThread i (.entering op) := by
  simp only [State.step] at h
  split at h
  · next ht =>
    cases h
    exact ⟨ht, rfl⟩
  · cases h

theorem wake_cases (h : s.wake j = some s') :
    ∃ op, s.threads j = .blocked op ∧
      s' = { s with
        waiters := s.waiters.erase j, woken := j :: s.woken,
        threads := Function.update s.threads j (.entering op) } := by
  unfold State.wake at h
  split at h
  · next op ht =>
    cases h
    exact ⟨op, ht, rfl⟩
  · cases h

theorem lock_cases (h : s.lock method i = some s') :
    ∃ op, s.threads i = .entering op ∧ s.owner = none ∧
      (((method op).waitsFor.isSome = true ∧
          s' = { s with
            owner := some i, threads := Function.update s.threads i (.testing op) }) ∨
        ((method op).waitsFor = none ∧
          s' = { s with
            owner := some i,
            threads := Function.update s.threads i (.running op (method op).body) })) := by
  unfold State.lock at h
  split at h
  · next op ht ho =>
    refine ⟨op, ht, ho, ?_⟩
    cases hw : (method op).waitsFor with
    | none =>
      rw [hw] at h
      cases h
      exact .inr ⟨rfl, rfl⟩
    | some p =>
      rw [hw] at h
      cases h
      exact .inl ⟨rfl, rfl⟩
  · cases h

theorem test_cases (h : s.test method i = some s') :
    ∃ op, s.threads i = .testing op ∧
      (((method op).Ready s.data ∧
          s' = { s with
            woken := s.woken.erase i,
            threads := Function.update s.threads i (.running op (method op).body) }) ∨
        (¬ (method op).Ready s.data ∧
          s' = { s with
            owner := none, waiters := i :: s.waiters, woken := s.woken.erase i,
            threads := Function.update s.threads i (.blocked op) })) := by
  unfold State.test at h
  split at h
  · next op ht =>
    refine ⟨op, ht, ?_⟩
    split at h
    · next hr =>
      cases h
      exact .inl ⟨(ready_iff _ _).mp hr, rfl⟩
    · next hr =>
      cases h
      exact .inr ⟨fun hready => hr ((ready_iff _ _).mpr hready), rfl⟩
  · cases h

theorem access_cases (h : s.access i = some s') :
    ∃ op valid update next, s.threads i = .running op (.access valid update next) ∧
      s' = { s with
        data := update s.data,
        threads := Function.update s.threads i (.running op (next s.data)) } := by
  unfold State.access at h
  split at h
  · next op valid update next ht =>
    split at h
    · cases h
      exact ⟨op, valid, update, next, ht, rfl⟩
    · cases h
  · cases h

theorem notify_cases {woken : Option ι} (h : s.notify i woken = some s') :
    ∃ op next, s.threads i = .running op (.notifyOne next) ∧
      ((∃ j, (s.setThread i (.running op next)).wake j = some s') ∨
        (s.waiters = [] ∧ s' = s.setThread i (.running op next))) := by
  unfold State.notify at h
  split at h
  · next op next ht =>
    refine ⟨op, next, ht, ?_⟩
    cases woken with
    | some j => exact .inl ⟨j, h⟩
    | none =>
      simp only at h
      split at h
      · next hw =>
        cases h
        exact .inr ⟨List.isEmpty_iff.mp hw, rfl⟩
      · cases h
  · cases h

theorem unlock_cases (h : s.unlock i = some s') :
    ∃ op result, s.threads i = .running op (.ret result) ∧
      s' = { s with
        owner := none, record := s.record ++ [(i, op, result)],
        threads := Function.update s.threads i .idle } := by
  unfold State.unlock at h
  split at h
  · next op result ht =>
    cases h
    exact ⟨op, result, ht, rfl⟩
  · cases h

end Steps

/-! ### The record is a run of the methods one after the other -/

section Record

variable (method : ω → Method δ ρ)

/-- The data after the recorded calls, one after the other. -/
def replay (d : δ) (record : List (ι × ω × ρ)) : δ :=
  record.foldl (fun d e => ((method e.2.1).body.eval d).1) d

/-- Called one after the other, the recorded methods find the data as they need it and return what
is recorded. -/
def Legal : δ → List (ι × ω × ρ) → Prop
  | _, [] => True
  | d, e :: es =>
    (method e.2.1).Ready d ∧ ((method e.2.1).body.eval d).2 = e.2.2 ∧
      Legal ((method e.2.1).body.eval d).1 es

theorem replay_snoc (d : δ) (es : List (ι × ω × ρ)) (e : ι × ω × ρ) :
    replay method d (es ++ [e]) = ((method e.2.1).body.eval (replay method d es)).1 := by
  simp [replay]

theorem legal_snoc (d : δ) (es : List (ι × ω × ρ)) (e : ι × ω × ρ) :
    Legal method d (es ++ [e]) ↔
      Legal method d es ∧ (method e.2.1).Ready (replay method d es) ∧
        ((method e.2.1).body.eval (replay method d es)).2 = e.2.2 := by
  induction es generalizing d with
  | nil => simp [Legal, replay]
  | cons e' es ih =>
    simp only [List.cons_append, Legal, ih, and_assoc]
    rfl

/-- What the data has to do with `d`, the data after the recorded calls, when the thread is inside:
it is still `d` at the test, and in the body the rest leads where the whole body leads from `d`. -/
def Thread.Agrees (d data : δ) : Thread ω δ ρ → Prop
  | .testing _ => data = d
  | .running op rest =>
    (method op).Ready d ∧ (method op).body.eval d = rest.eval data ∧ rest.Valid data
  | .idle | .entering _ | .blocked _ => True

/-- The lock is held by the one thread that is inside, and the record explains the data. -/
structure Consistent (init : δ) (s : State ι ω δ ρ) : Prop where
  inside_iff : ∀ i, (s.threads i).inside = true ↔ s.owner = some i
  legal : Legal method init s.record
  free : s.owner = none → s.data = replay method init s.record
  agrees : ∀ i, (s.threads i).Agrees method (replay method init s.record) s.data

variable {method} {init : δ} {s : State ι ω δ ρ} {i : ι}

theorem agrees_of_outside
    {t : Thread ω δ ρ} (d data : δ) (h : t.inside = false) : t.Agrees method d data := by
  cases t with
  | testing op => cases h
  | running op rest => cases h
  | _ => trivial

theorem Consistent.owner_of_inside (h : Consistent method init s)
    (hi : (s.threads i).inside = true) : ∀ k, s.owner = some k → k = i := by
  intro k hk
  rw [(h.inside_iff i).mp hi] at hk
  cases hk
  rfl

theorem Consistent.outside_of_ne (h : Consistent method init s)
    (hi : ∀ k, s.owner = some k → k = i) (k : ι) (hk : k ≠ i) : (s.threads k).inside = false := by
  cases hinside : (s.threads k).inside with
  | false => rfl
  | true => exact absurd (hi k ((h.inside_iff k).mp hinside)) hk

/-- No access is made of data for which it is undefined. -/
theorem Consistent.valid_access (h : Consistent method init s) {op : ω} {valid : δ → Bool}
    {update : δ → δ} {next : δ → Body δ ρ}
    (ht : s.threads i = .running op (.access valid update next)) : valid s.data = true := by
  obtain ⟨-, -, hvalid⟩ := ht ▸ h.agrees i
  exact hvalid.1

end Record

section Runs

variable [DecidableEq ι] {method : ω → Method δ ρ} {s s' : State ι ω δ ρ} {i j : ι}

variable {init : δ} {t : Thread ω δ ρ}

/-- A move of the thread that has the lock, takes it or gives it back. -/
theorem Consistent.inside_move (h : Consistent method init s)
    (hbefore : ∀ k, s.owner = some k → k = i)
    (hthreads : s'.threads = Function.update s.threads i t)
    (howner : s'.owner = if t.inside then some i else none)
    (hlegal : Legal method init s'.record)
    (hfree : t.inside = false → s'.data = replay method init s'.record)
    (hagrees : t.Agrees method (replay method init s'.record) s'.data) :
    Consistent method init s' := by
  have houtside := h.outside_of_ne hbefore
  refine ⟨fun k => ?_, hlegal, fun hnone => hfree ?_, fun k => ?_⟩
  · by_cases hk : k = i
    · subst hk
      cases ht : t.inside <;> simp [hthreads, howner, ht]
    · have hne : ¬ i = k := fun h => hk h.symm
      cases ht : t.inside <;> simp [hthreads, howner, ht, Function.update_of_ne hk,
        houtside k hk, hne]
  · rw [howner] at hnone
    cases ht : t.inside
    · rfl
    · simp [ht] at hnone
  · rw [hthreads]
    by_cases hk : k = i
    · subst hk
      rw [Function.update_self]
      exact hagrees
    · rw [Function.update_of_ne hk]
      exact agrees_of_outside _ _ (houtside k hk)

/-- A move of a thread that stays outside. -/
theorem Consistent.outside_move (h : Consistent method init s)
    (hbefore : (s.threads i).inside = false) (hafter : t.inside = false)
    (hthreads : s'.threads = Function.update s.threads i t) (howner : s'.owner = s.owner)
    (hdata : s'.data = s.data) (hrecord : s'.record = s.record) :
    Consistent method init s' := by
  refine ⟨fun k => ?_, hrecord ▸ h.legal, ?_, fun k => ?_⟩
  · rw [howner, ← h.inside_iff k, hthreads]
    by_cases hk : k = i
    · subst hk
      simp [hbefore, hafter]
    · rw [Function.update_of_ne hk]
  · rw [howner, hdata, hrecord]
    exact h.free
  · rw [hthreads, hdata, hrecord]
    by_cases hk : k = i
    · subst hk
      rw [Function.update_self]
      exact agrees_of_outside _ _ hafter
    · rw [Function.update_of_ne hk]
      exact h.agrees k

theorem Consistent.wake (h : Consistent method init s) (hw : s.wake j = some s') :
    Consistent method init s' := by
  obtain ⟨op, ht, rfl⟩ := wake_cases hw
  exact h.outside_move (by rw [ht]; rfl) (t := .entering op) rfl rfl rfl rfl rfl

/-- **Every move keeps the record a sequential run.** -/
theorem Consistent.step (hsound : ∀ op, (method op).Sound) (h : Consistent method init s)
    {l : Move ι ω} (hl : s.step method l = some s') : Consistent method init s' := by
  cases l with
  | call i op =>
    obtain ⟨ht, rfl⟩ := call_cases hl
    exact h.outside_move (by rw [ht]; rfl) (t := .entering op) rfl rfl rfl rfl rfl
  | wakeup j => exact h.wake hl
  | lock i =>
    obtain ⟨op, ht, ho, ⟨-, rfl⟩ | ⟨hw, rfl⟩⟩ := lock_cases hl
    · exact h.inside_move (by simp [ho]) (t := .testing op) rfl rfl h.legal (by simp [Thread.inside])
        (h.free ho)
    · have hready : (method op).Ready (replay method init s.record) := by
        simp [Method.Ready, hw]
      refine h.inside_move (by simp [ho]) (t := .running op (method op).body) rfl rfl h.legal
        (by simp [Thread.inside]) ⟨hready, ?_, ?_⟩
      · show (method op).body.eval (replay method init s.record) = (method op).body.eval s.data
        rw [h.free ho]
      · show (method op).body.Valid s.data
        rw [h.free ho]
        exact hsound op _ hready
  | test i =>
    obtain ⟨op, ht, hcases⟩ := test_cases hl
    have hdata : s.data = replay method init s.record := by
      have := h.agrees i
      rwa [ht] at this
    have hbefore := h.owner_of_inside (i := i) (by rw [ht]; rfl)
    have howner : s.owner = some i := (h.inside_iff i).mp (by rw [ht]; rfl)
    rcases hcases with ⟨hready, rfl⟩ | ⟨-, rfl⟩
    · refine h.inside_move hbefore (t := .running op (method op).body) rfl howner h.legal
        (by simp [Thread.inside]) ⟨hdata ▸ hready, ?_, hsound op _ hready⟩
      show (method op).body.eval (replay method init s.record) = (method op).body.eval s.data
      rw [hdata]
    · exact h.inside_move hbefore (t := .blocked op) rfl rfl h.legal (fun _ => hdata) trivial
  | access i =>
    obtain ⟨op, valid, update, next, ht, rfl⟩ := access_cases hl
    obtain ⟨hready, heval, hvalid⟩ := ht ▸ h.agrees i
    exact h.inside_move (h.owner_of_inside (by rw [ht]; rfl)) (t := .running op (next s.data)) rfl
      ((h.inside_iff i).mp (by rw [ht]; rfl)) h.legal (by simp [Thread.inside])
      ⟨hready, heval, hvalid.2⟩
  | notify i woken =>
    obtain ⟨op, next, ht, hcases⟩ := notify_cases hl
    obtain ⟨hready, heval, hvalid⟩ := ht ▸ h.agrees i
    have hnext : Consistent method init (s.setThread i (.running op next)) :=
      h.inside_move (h.owner_of_inside (by rw [ht]; rfl)) (t := .running op next) rfl
        ((h.inside_iff i).mp (by rw [ht]; rfl)) h.legal (by simp [Thread.inside])
        ⟨hready, heval, hvalid⟩
    rcases hcases with ⟨j, hw⟩ | ⟨-, rfl⟩
    · exact hnext.wake hw
    · exact hnext
  | unlock i =>
    obtain ⟨op, result, ht, rfl⟩ := unlock_cases hl
    obtain ⟨hready, heval, -⟩ := ht ▸ h.agrees i
    refine h.inside_move (h.owner_of_inside (by rw [ht]; rfl)) (t := .idle) rfl rfl ?_ ?_ trivial
    · exact (legal_snoc method init s.record _).mpr ⟨h.legal, hready, by rw [heval]; rfl⟩
    · intro _
      show s.data = replay method init (s.record ++ [(i, op, result)])
      rw [replay_snoc, heval]
      rfl

theorem consistent_init : Consistent method init (monitor (ι := ι) method init).init := by
  refine ⟨fun i => ?_, trivial, fun _ => rfl, fun _ => trivial⟩
  show false = true ↔ (none : Option ι) = some i
  simp

/-- **Linearizability.** In every run, the recorded calls are a run of the methods one after the
other, and the lock excludes all threads but one. -/
theorem consistent (hsound : ∀ op, (method op).Sound) {ls : List (Move ι ω)}
    (h : (monitor method init).run ls = some s) : Consistent method init s := by
  refine (monitor method init).reachable_induction (Consistent method init) consistent_init ?_
    ⟨ls, h⟩
  intro s l s' hs hl
  exact hs.step hsound hl

/-! ### Who waits and who has been woken -/

/-- The waiters are the blocked threads, and a woken thread is on its way to its test. -/
structure Tracked (method : ω → Method δ ρ) (s : State ι ω δ ρ) : Prop where
  waiters_nodup : s.waiters.Nodup
  mem_waiters : ∀ j, j ∈ s.waiters ↔ ∃ op, s.threads j = .blocked op
  woken_nodup : s.woken.Nodup
  mem_woken : ∀ j ∈ s.woken, ∃ op, (method op).waitsFor.isSome = true ∧
    (s.threads j = .entering op ∨ s.threads j = .testing op)
  waits : ∀ j op, s.threads j = .testing op ∨ s.threads j = .blocked op →
    (method op).waitsFor.isSome = true

/-- A thread that is not blocked and not woken moves, and does not block. -/
theorem Tracked.move (h : Tracked method s) (hblocked : ∀ op, s.threads i ≠ .blocked op)
    (hafter : ∀ op, t ≠ .blocked op)
    (htesting : ∀ op, t = .testing op → (method op).waitsFor.isSome = true)
    (hwoken : i ∈ s.woken → ∃ op, t = .testing op)
    (hthreads : s'.threads = Function.update s.threads i t) (hwaiters : s'.waiters = s.waiters)
    (hsame : s'.woken = s.woken) : Tracked method s' := by
  refine ⟨hwaiters ▸ h.waiters_nodup, fun j => ?_, hsame ▸ h.woken_nodup, fun j hj => ?_,
    fun j op hop => ?_⟩
  · rw [hwaiters, h.mem_waiters, hthreads]
    by_cases hj : j = i
    · subst hj
      simp [hblocked, hafter]
    · rw [Function.update_of_ne hj]
  · rw [hsame] at hj
    rw [hthreads]
    by_cases hji : j = i
    · subst hji
      obtain ⟨op, hop⟩ := hwoken hj
      exact ⟨op, htesting op hop, .inr (by rw [Function.update_self, hop])⟩
    · rw [Function.update_of_ne hji]
      exact h.mem_woken j hj
  · rw [hthreads] at hop
    by_cases hji : j = i
    · subst hji
      rw [Function.update_self] at hop
      rcases hop with hop | hop
      · exact htesting op hop
      · exact absurd hop (hafter op)
    · rw [Function.update_of_ne hji] at hop
      exact h.waits j op hop

omit [DecidableEq ι] in
/-- A woken thread is before the lock or at its test. -/
theorem Tracked.not_mem_woken (h : Tracked method s) (hentering : ∀ op, s.threads i ≠ .entering op)
    (htesting : ∀ op, s.threads i ≠ .testing op) : i ∉ s.woken := by
  intro hi
  obtain ⟨op, -, hop⟩ := h.mem_woken i hi
  rcases hop with hop | hop
  · exact hentering op hop
  · exact htesting op hop

theorem Tracked.wake (h : Tracked method s) (hw : s.wake j = some s') : Tracked method s' := by
  obtain ⟨op, ht, rfl⟩ := wake_cases hw
  have hj : j ∉ s.woken := h.not_mem_woken (by simp [ht]) (by simp [ht])
  refine ⟨h.waiters_nodup.erase j, fun k => ?_, List.nodup_cons.mpr ⟨hj, h.woken_nodup⟩,
    fun k hk => ?_, fun k op' hop => ?_⟩
  · rw [h.waiters_nodup.mem_erase_iff, h.mem_waiters]
    by_cases hk : k = j
    · subst hk
      simp
    · simp [hk]
  · by_cases hkj : k = j
    · subst hkj
      exact ⟨op, h.waits k op (.inr ht), .inl (by simp)⟩
    · simpa [hkj] using h.mem_woken k ((List.mem_cons.mp hk).resolve_left hkj)
  · by_cases hkj : k = j
    · subst hkj
      simp at hop
    · simp only [Function.update_of_ne hkj] at hop
      exact h.waits k op' hop

theorem Tracked.test (h : Tracked method s) (hl : s.test method i = some s') :
    Tracked method s' := by
  obtain ⟨op, ht, hcases⟩ := test_cases hl
  have hwoken : ∀ k ∈ s.woken.erase i, k ≠ i ∧ k ∈ s.woken := by
    intro k hk
    exact h.woken_nodup.mem_erase_iff.mp hk
  rcases hcases with ⟨-, rfl⟩ | ⟨-, rfl⟩
  · refine ⟨h.waiters_nodup, fun k => ?_, h.woken_nodup.erase i, fun k hk => ?_,
      fun k op' hop => ?_⟩
    · by_cases hk : k = i
      · subst hk
        simp [h.mem_waiters, ht]
      · simp [h.mem_waiters, hk]
    · simpa [(hwoken k hk).1] using h.mem_woken k (hwoken k hk).2
    · by_cases hk : k = i
      · subst hk
        simp at hop
      · simp only [Function.update_of_ne hk] at hop
        exact h.waits k op' hop
  · have hi : i ∉ s.waiters := by simp [h.mem_waiters, ht]
    refine ⟨List.nodup_cons.mpr ⟨hi, h.waiters_nodup⟩, fun k => ?_, h.woken_nodup.erase i,
      fun k hk => ?_, fun k op' hop => ?_⟩
    · by_cases hk : k = i
      · subst hk
        simp
      · simp [h.mem_waiters, hk]
    · simpa [(hwoken k hk).1] using h.mem_woken k (hwoken k hk).2
    · by_cases hk : k = i
      · subst hk
        simp only [Function.update_self, Thread.blocked.injEq, reduceCtorEq, false_or] at hop
        exact hop ▸ h.waits k op (.inl ht)
      · simp only [Function.update_of_ne hk] at hop
        exact h.waits k op' hop

theorem Tracked.step (h : Tracked method s) {l : Move ι ω} (hl : s.step method l = some s') :
    Tracked method s' := by
  cases l with
  | call i op =>
    obtain ⟨ht, rfl⟩ := call_cases hl
    exact h.move (by simp [ht]) (t := .entering op) (by simp) (by simp)
      (fun hi => absurd hi (h.not_mem_woken (by simp [ht]) (by simp [ht]))) rfl rfl rfl
  | wakeup j => exact h.wake hl
  | lock i =>
    obtain ⟨op, ht, -, ⟨hw, rfl⟩ | ⟨hw, rfl⟩⟩ := lock_cases hl
    · exact h.move (by simp [ht]) (t := .testing op) (by simp) (by simpa using hw)
        (fun _ => ⟨op, rfl⟩) rfl rfl rfl
    · refine h.move (by simp [ht]) (t := .running op (method op).body) (by simp) (by simp)
        (fun hi => ?_) rfl rfl rfl
      -- a woken thread is in a method that waits
      obtain ⟨op', hop, heq⟩ := h.mem_woken i hi
      simp only [ht, Thread.entering.injEq, reduceCtorEq, or_false] at heq
      rw [← heq, hw] at hop
      cases hop
  | test i => exact h.test hl
  | access i =>
    obtain ⟨op, valid, update, next, ht, rfl⟩ := access_cases hl
    exact h.move (by simp [ht]) (t := .running op (next s.data)) (by simp) (by simp)
      (fun hi => absurd hi (h.not_mem_woken (by simp [ht]) (by simp [ht]))) rfl rfl rfl
  | notify i woken =>
    obtain ⟨op, next, ht, hcases⟩ := notify_cases hl
    have hnext : Tracked method (s.setThread i (.running op next)) :=
      h.move (by simp [ht]) (t := .running op next) (by simp) (by simp)
        (fun hi => absurd hi (h.not_mem_woken (by simp [ht]) (by simp [ht]))) rfl rfl rfl
    rcases hcases with ⟨j, hw⟩ | ⟨-, rfl⟩
    · exact hnext.wake hw
    · exact hnext
  | unlock i =>
    obtain ⟨op, result, ht, rfl⟩ := unlock_cases hl
    exact h.move (by simp [ht]) (t := .idle) (by simp) (by simp)
      (fun hi => absurd hi (h.not_mem_woken (by simp [ht]) (by simp [ht]))) rfl rfl rfl

theorem tracked {ls : List (Move ι ω)} (h : (monitor method init).run ls = some s) :
    Tracked method s := by
  refine (monitor method init).reachable_induction (Tracked method) ?_
    (fun s l s' hs hl => hs.step hl) ⟨ls, h⟩
  exact ⟨List.nodup_nil, by simp [monitor], List.nodup_nil, by simp [monitor], by simp [monitor]⟩

/-! ### No wakeup is lost -/

/-- The condition variable counts tokens: a method waits for one and takes it, and whoever adds a
token notifies. -/
structure Counts (tokens : δ → ℕ) (m : Method δ ρ) : Prop where
  waits_iff : ∀ p ∈ m.waitsFor, ∀ d, p d = true ↔ 0 < tokens d
  balance : ∀ d, m.Ready d →
    tokens (m.body.eval d).1 + (if m.waitsFor.isSome then 1 else 0) ≤ tokens d + m.body.notifies d

/-- What the thread inside leaves behind is covered by `woken` threads and the notifications it
still makes. -/
def Thread.Covered (tokens : δ → ℕ) (woken : ℕ) (data : δ) : Thread ω δ ρ → Prop
  | .testing _ => tokens data ≤ woken
  | .running _ rest => tokens (rest.eval data).1 ≤ woken + rest.notifies data
  | .idle | .entering _ | .blocked _ => True

/-- While somebody waits, there are no more tokens than woken threads and notifications owed. -/
structure Covered (tokens : δ → ℕ) (owed : ℕ) (s : State ι ω δ ρ) : Prop where
  free : s.waiters ≠ [] → s.owner = none → tokens s.data ≤ s.woken.length + owed
  inside : s.waiters ≠ [] → ∀ i, (s.threads i).Covered tokens (s.woken.length + owed) s.data

variable {tokens : δ → ℕ} {owed : ℕ}

theorem covered_of_outside (woken : ℕ) (data : δ) (h : t.inside = false) :
    t.Covered tokens woken data := by
  cases t with
  | testing op => cases h
  | running op rest => cases h
  | _ => trivial

/-- A move of the thread that has the lock, takes it or gives it back. -/
theorem Consistent.covered_move (h : Consistent method init s)
    (hbefore : ∀ k, s.owner = some k → k = i)
    (hthreads : s'.threads = Function.update s.threads i t)
    (hfree : s'.waiters ≠ [] → s'.owner = none → tokens s'.data ≤ s'.woken.length + owed)
    (hinside : s'.waiters ≠ [] → t.Covered tokens (s'.woken.length + owed) s'.data) :
    Covered tokens owed s' := by
  refine ⟨hfree, fun hw k => ?_⟩
  rw [hthreads]
  by_cases hk : k = i
  · subst hk
    rw [Function.update_self]
    exact hinside hw
  · rw [Function.update_of_ne hk]
    exact covered_of_outside _ _ (h.outside_of_ne hbefore k hk)

/-- A thread that stays outside moves, and the waiters may become fewer. -/
theorem Covered.outside_move {owed' : ℕ} (h : Covered tokens owed s)
    (hafter : t.inside = false) (hthreads : s'.threads = Function.update s.threads i t)
    (howner : s'.owner = s.owner) (hdata : s'.data = s.data)
    (hwaiters : s'.waiters ≠ [] → s.waiters ≠ [])
    (hwoken : s'.woken.length + owed' = s.woken.length + owed) : Covered tokens owed' s' := by
  refine ⟨fun hw => ?_, fun hw k => ?_⟩
  · rw [howner, hdata, hwoken]
    exact h.free (hwaiters hw)
  · rw [hthreads, hdata, hwoken]
    by_cases hk : k = i
    · subst hk
      rw [Function.update_self]
      exact covered_of_outside _ _ hafter
    · rw [Function.update_of_ne hk]
      exact h.inside (hwaiters hw) k

omit [DecidableEq ι] in
theorem Covered.mono (h : Covered tokens owed s) : Covered tokens (owed + 1) s := by
  refine ⟨fun hw ho => Nat.le_succ_of_le (h.free hw ho), fun hw k => ?_⟩
  have hk := h.inside hw k
  cases ht : s.threads k with
  | testing op =>
    rw [ht] at hk
    exact Nat.le_succ_of_le hk
  | running op rest =>
    rw [ht] at hk
    simp only [Thread.Covered] at hk ⊢
    omega
  | _ => trivial

/-- A wakeup pays one of the notifications that are owed. -/
theorem Covered.wake (h : Covered tokens (owed + 1) s) (hw : s.wake j = some s') :
    Covered tokens owed s' := by
  obtain ⟨op, -, rfl⟩ := wake_cases hw
  refine h.outside_move (t := .entering op) rfl rfl rfl rfl ?_ ?_
  · intro hne hnil
    exact hne (by simp [hnil])
  · simp only [List.length_cons]
    omega

/-- **Every move keeps the tokens covered.** -/
theorem Covered.step (hcounts : ∀ op, Counts tokens (method op)) (hc : Consistent method init s)
    (ht : Tracked method s) (h : Covered tokens 0 s) {l : Move ι ω}
    (hl : s.step method l = some s') : Covered tokens 0 s' := by
  cases l with
  | call i op =>
    obtain ⟨-, rfl⟩ := call_cases hl
    exact h.outside_move (t := .entering op) rfl rfl rfl rfl id rfl
  | wakeup j => exact h.mono.wake hl
  | lock i =>
    obtain ⟨op, -, ho, ⟨-, rfl⟩ | ⟨hw, rfl⟩⟩ := lock_cases hl
    · exact hc.covered_move (by simp [ho]) (t := .testing op) rfl (by simp)
        (fun hne => h.free hne ho)
    · refine hc.covered_move (by simp [ho]) (t := .running op (method op).body) rfl (by simp)
        (fun hne => ?_)
      have hbalance := (hcounts op).balance s.data (by simp [Method.Ready, hw])
      have hfree := h.free hne ho
      show tokens ((method op).body.eval s.data).1 ≤
        s.woken.length + 0 + (method op).body.notifies s.data
      omega
  | test i =>
    obtain ⟨op, hop, hcases⟩ := test_cases hl
    have hbefore := hc.owner_of_inside (i := i) (by rw [hop]; rfl)
    have howner : s.owner = some i := (hc.inside_iff i).mp (by rw [hop]; rfl)
    have hwaits := ht.waits i op (.inl hop)
    rcases hcases with ⟨hready, rfl⟩ | ⟨hnot, rfl⟩
    · refine hc.covered_move hbefore (t := .running op (method op).body) rfl (by simp [howner])
        (fun hne => ?_)
      -- the thread has taken one token, and is no longer among the woken
      have hbalance := (hcounts op).balance s.data hready
      rw [if_pos hwaits] at hbalance
      have hinside : tokens s.data ≤ s.woken.length + 0 := by
        have := h.inside hne i
        rwa [hop] at this
      have herase : s.woken.length ≤ (s.woken.erase i).length + 1 := by
        rw [List.length_erase]
        split <;> omega
      show tokens ((method op).body.eval s.data).1 ≤
        (s.woken.erase i).length + 0 + (method op).body.notifies s.data
      omega
    · have hzero : tokens s.data = 0 := by
        by_contra hpos
        exact hnot fun p hp =>
          ((hcounts op).waits_iff p hp s.data).mpr (Nat.pos_of_ne_zero hpos)
      exact hc.covered_move hbefore (t := .blocked op) rfl (fun _ _ => by simp [hzero])
        (fun _ => trivial)
  | access i =>
    obtain ⟨op, valid, update, next, hop, rfl⟩ := access_cases hl
    have howner : s.owner = some i := (hc.inside_iff i).mp (by rw [hop]; rfl)
    refine hc.covered_move (hc.owner_of_inside (by rw [hop]; rfl))
      (t := .running op (next s.data)) rfl (by simp [howner]) (fun hne => ?_)
    have hinside := h.inside hne i
    rwa [hop] at hinside
  | notify i woken =>
    obtain ⟨op, next, hop, hcases⟩ := notify_cases hl
    have howner : s.owner = some i := (hc.inside_iff i).mp (by rw [hop]; rfl)
    have hnext : Covered tokens 1 (s.setThread i (.running op next)) := by
      refine hc.covered_move (hc.owner_of_inside (by rw [hop]; rfl)) (t := .running op next) rfl
        (by simp [State.setThread, howner]) (fun hne => ?_)
      have hinside := h.inside hne i
      rw [hop] at hinside
      simp only [Thread.Covered, Body.eval, Body.notifies] at hinside ⊢
      simp only [State.setThread]
      omega
    rcases hcases with ⟨j, hw⟩ | ⟨hnil, rfl⟩
    · exact hnext.wake hw
    · exact ⟨fun hne => absurd hnil hne, fun hne => absurd hnil hne⟩
  | unlock i =>
    obtain ⟨op, result, hop, rfl⟩ := unlock_cases hl
    refine hc.covered_move (hc.owner_of_inside (by rw [hop]; rfl)) (t := .idle) rfl
      (fun hne _ => ?_) (fun _ => trivial)
    have hinside := h.inside hne i
    rw [hop] at hinside
    exact hinside

section Tokens

variable (hsound : ∀ op, (method op).Sound) (hcounts : ∀ op, Counts tokens (method op))
include hsound hcounts

theorem covered {ls : List (Move ι ω)} (h : (monitor method init).run ls = some s) :
    Covered tokens 0 s := by
  refine (monitor method init).run_induction (fun _ s => Covered tokens 0 s) ?_ ?_ h
  · exact ⟨fun hne => absurd rfl hne, fun hne => absurd rfl hne⟩
  · intro ls l s s' hs hi hl
    exact hi.step hcounts (consistent hsound hs) (tracked hs) hl

/-- **No wakeup is lost.** While the lock is free and a thread waits, each token has a thread that
has been woken for it. -/
theorem tokens_le_woken {ls : List (Move ι ω)} (h : (monitor method init).run ls = some s)
    (hfree : s.owner = none) {op : ω} (hblocked : s.threads j = .blocked op) :
    tokens s.data ≤ s.woken.length := by
  have hmem : j ∈ s.waiters := ((tracked h).mem_waiters j).mpr ⟨op, hblocked⟩
  exact (covered hsound hcounts h).free (List.ne_nil_of_mem hmem) hfree

end Tokens

/-! ### When nothing can move -/

/-- The moves of the threads inside their calls. -/
def Move.own : Move ι ω → Bool
  | .call _ _ | .wakeup _ => false
  | .lock _ | .test _ | .access _ | .notify _ _ | .unlock _ => true

/-- The thread that has the lock can move. -/
theorem exists_move_of_inside (hc : Consistent method init s) (ht : Tracked method s)
    (hi : (s.threads i).inside = true) :
    ∃ l : Move ι ω, l.own = true ∧ (s.step method l).isSome = true := by
  cases hti : s.threads i with
  | testing op =>
    refine ⟨.test i, rfl, ?_⟩
    simp only [State.step, State.test, hti]
    split <;> rfl
  | running op rest =>
    cases rest with
    | ret result => exact ⟨.unlock i, rfl, by simp [State.step, State.unlock, hti]⟩
    | access valid update next =>
      exact ⟨.access i, rfl, by simp [State.step, State.access, hti, hc.valid_access hti]⟩
    | notifyOne next =>
      cases hw : s.waiters with
      | nil => exact ⟨.notify i none, rfl, by simp [State.step, State.notify, hti, hw]⟩
      | cons j js =>
        obtain ⟨op', hop⟩ := (ht.mem_waiters j).mp (by simp [hw])
        have hji : j ≠ i := by
          rintro rfl
          rw [hti] at hop
          cases hop
        refine ⟨.notify i (some j), rfl, ?_⟩
        simp [State.step, State.notify, State.wake, State.setThread, hti, hop,
          Function.update_of_ne hji]
  | idle => simp [hti, Thread.inside] at hi
  | entering op => simp [hti, Thread.inside] at hi
  | blocked op => simp [hti, Thread.inside] at hi

/-- **A monitor gets stuck only without tokens.** Where no thread inside a call can move, the lock is
free, every thread inside a call waits, and there is no token if one does. -/
theorem stuck (hsound : ∀ op, (method op).Sound) (hcounts : ∀ op, Counts tokens (method op))
    {ls : List (Move ι ω)} (h : (monitor method init).run ls = some s)
    (hstuck : ∀ l : Move ι ω, l.own = true → s.step method l = none) :
    s.owner = none ∧ (∀ i, s.threads i = .idle ∨ ∃ op, s.threads i = .blocked op) ∧
      ∀ i op, s.threads i = .blocked op → tokens s.data = 0 := by
  have hc := consistent hsound h
  have ht := tracked h
  have houtside : ∀ i, (s.threads i).inside = false := by
    intro i
    cases hi : (s.threads i).inside with
    | false => rfl
    | true =>
      obtain ⟨l, hown, hsome⟩ := exists_move_of_inside hc ht hi
      simp [hstuck l hown] at hsome
  have hfree : s.owner = none := by
    cases ho : s.owner with
    | none => rfl
    | some i => simpa [(hc.inside_iff i).mpr ho] using houtside i
  have hrest : ∀ i, s.threads i = .idle ∨ ∃ op, s.threads i = .blocked op := by
    intro i
    have hi := houtside i
    cases hti : s.threads i with
    | idle => exact .inl rfl
    | blocked op => exact .inr ⟨op, rfl⟩
    | entering op =>
      have := hstuck (.lock i) rfl
      simp [State.step, State.lock, hti, hfree] at this
    | testing op => simp [hti, Thread.inside] at hi
    | running op rest => simp [hti, Thread.inside] at hi
  refine ⟨hfree, hrest, fun i op hi => ?_⟩
  have hwoken : s.woken = [] := by
    refine List.eq_nil_iff_forall_not_mem.mpr fun j => ?_
    refine ht.not_mem_woken (fun op hop => ?_) (fun op hop => ?_)
    · rcases hrest j with hj | ⟨op', hj⟩ <;> simp [hop] at hj
    · rcases hrest j with hj | ⟨op', hj⟩ <;> simp [hop] at hj
  have hle := tokens_le_woken hsound hcounts h hfree hi
  simpa [hwoken] using hle

/-! ### The calls of a thread -/

theorem pending_update (h : t.pending = (s.threads j).pending) (i : ι) :
    (Function.update s.threads j t i).pending = (s.threads i).pending := by
  by_cases hi : i = j
  · subst hi
    rw [Function.update_self, h]
  · rw [Function.update_of_ne hi]

theorem wake_pending (hw : s.wake j = some s') (i : ι) :
    s'.record = s.record ∧ (s'.threads i).pending = (s.threads i).pending := by
  obtain ⟨op, ht, rfl⟩ := wake_cases hw
  exact ⟨rfl, pending_update (by rw [ht]; rfl) i⟩

/-- A call makes a method pending, the return records it, and no other move does either. -/
theorem pending_cases {l : Move ι ω} (hl : s.step method l = some s') :
    (∃ i op, l = .call i op ∧ s.threads i = .idle ∧ s'.record = s.record ∧
      ∀ k, (s'.threads k).pending = if k = i then [op] else (s.threads k).pending) ∨
    (∃ i op result, l = .unlock i ∧ s.threads i = .running op (.ret result) ∧
      s'.record = s.record ++ [(i, op, result)] ∧
      ∀ k, (s'.threads k).pending = if k = i then [] else (s.threads k).pending) ∨
    ((∀ i op, l ≠ .call i op) ∧ (∀ i, l ≠ .unlock i) ∧ s'.record = s.record ∧
      ∀ k, (s'.threads k).pending = (s.threads k).pending) := by
  cases l with
  | call i op =>
    obtain ⟨ht, rfl⟩ := call_cases hl
    refine .inl ⟨i, op, rfl, ht, rfl, fun k => ?_⟩
    by_cases hk : k = i
    · subst hk
      simp [State.setThread, Thread.pending]
    · simp [State.setThread, hk]
  | unlock i =>
    obtain ⟨op, result, ht, rfl⟩ := unlock_cases hl
    refine .inr (.inl ⟨i, op, result, rfl, ht, rfl, fun k => ?_⟩)
    by_cases hk : k = i
    · subst hk
      simp [Thread.pending]
    · simp [hk]
  | wakeup j => exact .inr (.inr ⟨by simp, by simp, (wake_pending hl j).1,
      fun k => (wake_pending hl k).2⟩)
  | lock i =>
    obtain ⟨op, ht, -, ⟨-, rfl⟩ | ⟨-, rfl⟩⟩ := lock_cases hl
    · exact .inr (.inr ⟨by simp, by simp, rfl, pending_update (by rw [ht]; rfl)⟩)
    · exact .inr (.inr ⟨by simp, by simp, rfl, pending_update (by rw [ht]; rfl)⟩)
  | test i =>
    obtain ⟨op, ht, ⟨-, rfl⟩ | ⟨-, rfl⟩⟩ := test_cases hl
    · exact .inr (.inr ⟨by simp, by simp, rfl, pending_update (by rw [ht]; rfl)⟩)
    · exact .inr (.inr ⟨by simp, by simp, rfl, pending_update (by rw [ht]; rfl)⟩)
  | access i =>
    obtain ⟨op, valid, update, next, ht, rfl⟩ := access_cases hl
    exact .inr (.inr ⟨by simp, by simp, rfl, pending_update (by rw [ht]; rfl)⟩)
  | notify i woken =>
    obtain ⟨op, next, ht, hcases⟩ := notify_cases hl
    have hnext : ∀ k, (Function.update s.threads i (.running op next) k).pending =
        (s.threads k).pending := pending_update (by rw [ht]; rfl)
    rcases hcases with ⟨j, hw⟩ | ⟨-, rfl⟩
    · exact .inr (.inr ⟨by simp, by simp, (wake_pending hw i).1,
        fun k => ((wake_pending hw k).2).trans (hnext k)⟩)
    · exact .inr (.inr ⟨by simp, by simp, rfl, hnext⟩)

end Runs

end ReliableUdpBench.Lib.Monitor
