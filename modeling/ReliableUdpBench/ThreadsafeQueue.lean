import ReliableUdpBench.Lib.Monitor
import ReliableUdpBench.Dgram

/-!
# `threadsafe_queue`, access by access

The queue is a `std::queue` behind a mutex, with a condition variable for `wait_and_pop`. Each member
function is a method of a monitor: it locks, makes its accesses to `data_queue` one by one, and
unlocks; `front` and `pop` of an empty `std::queue` are undefined.

The one member function left out is `grab_all2`, which nothing in the repository calls: it empties
the queue as `grab_all` does, but returns a reference to a local that is gone by then, so that the
values it takes reach nobody.

For any number of threads that call the others and any interleaving of their single accesses, the
calls return what the queue of `Dgram` returns when it is called once at a time (`linearizable`),
nothing is lost, doubled or overtaken (`fifo`), and a thread sleeps in `wait_and_pop` only while
there is nothing for it (`asleep_only_if_empty`).
-/

namespace ReliableUdpBench.ThreadsafeQueue

open Lib.Monitor

variable {α ι : Type*}

/-! ### The member functions -/

/-- The calls of the member functions other than `grab_all2`. Both overloads of `wait_and_pop` and
of `try_pop` make the same accesses; `copy` is what the copy constructor does to the queue that it
copies. -/
inductive Op (α : Type*) where
  | copy
  | size
  | push (newValue : α)
  | waitAndPop
  | tryPop
  | grabAll
  | empty
  deriving DecidableEq

/-- What they return. -/
inductive Result (α : Type*) where
  | void
  | number (n : ℕ)
  | value (v : Option α)
  | queue (q : List α)
  | bool (b : Bool)
  deriving DecidableEq

/-- An access that is always defined. -/
def use (update : List α → List α) (next : List α → Body (List α) (Result α)) :
    Body (List α) (Result α) :=
  .access (fun _ => true) update next

/-- `data_queue.front()`. -/
def front (next : Option α → Body (List α) (Result α)) : Body (List α) (Result α) :=
  .access (fun dataQueue => !dataQueue.isEmpty) id fun dataQueue => next dataQueue.head?

/-- `data_queue.pop()`. -/
def popFront (next : Body (List α) (Result α)) : Body (List α) (Result α) :=
  .access (fun dataQueue => !dataQueue.isEmpty) List.tail fun _ => next

/-- The member functions, `grab_all2` apart. -/
def method : Op α → Method (List α) (Result α)
  | .copy => ⟨none, use id fun dataQueue => .ret (.queue dataQueue)⟩
  | .size => ⟨none, use id fun dataQueue => .ret (.number dataQueue.length)⟩
  | .push newValue =>
    ⟨none, use (fun dataQueue => dataQueue ++ [newValue]) fun _ => .notifyOne (.ret .void)⟩
  | .waitAndPop =>
    ⟨some fun dataQueue => !dataQueue.isEmpty,
      front fun value => popFront (.ret (.value value))⟩
  | .tryPop =>
    ⟨none, use id fun dataQueue =>
      if dataQueue.isEmpty then .ret (.value none)
      else front fun value => popFront (.ret (.value value))⟩
  | .grabAll => ⟨none, use (fun _ => []) fun dataQueue => .ret (.queue dataQueue)⟩
  | .empty => ⟨none, use id fun dataQueue => .ret (.bool dataQueue.isEmpty)⟩

/-- The queue that `init` is copied into, shared by the threads `ι`. -/
def shared [DecidableEq ι] (init : List α) :
    Lib.System (State ι (Op α) (List α) (Result α)) (Move ι (Op α)) :=
  monitor method init

/-! ### The queue called once at a time -/

/-- What a call does to the queue and returns when nobody else calls; `wait_and_pop` of an empty
queue does not return. -/
def call (dataQueue : List α) : Op α → Option (List α × Result α)
  | .copy => some (dataQueue, .queue dataQueue)
  | .size => some (dataQueue, .number (size dataQueue))
  | .push newValue => some (push dataQueue newValue, .void)
  | .waitAndPop =>
    match dataQueue with
    | [] => none
    | v :: rest => some (rest, .value (some v))
  | .tryPop =>
    match dataQueue with
    | [] => some ([], .value none)
    | v :: rest => some (rest, .value (some v))
  | .grabAll => some ((grabAll dataQueue).2, .queue (grabAll dataQueue).1)
  | .empty => some (dataQueue, .bool dataQueue.isEmpty)

/-- The recorded calls, one after the other, lead from one queue to the other and return what is
recorded. -/
def Calls : List α → List (ι × Op α × Result α) → List α → Prop
  | dataQueue, [], dataQueue' => dataQueue = dataQueue'
  | dataQueue, e :: es, dataQueue' =>
    ∃ next, call dataQueue e.2.1 = some (next, e.2.2) ∧ Calls next es dataQueue'

theorem sound (op : Op α) : (method op).Sound := by
  intro dataQueue hready
  cases op with
  | waitAndPop =>
    have hne := hready _ rfl
    exact ⟨hne, hne, trivial⟩
  | tryPop =>
    refine ⟨rfl, ?_⟩
    cases dataQueue with
    | nil => trivial
    | cons v rest => exact ⟨rfl, rfl, trivial⟩
  | _ => exact ⟨rfl, trivial⟩

/-- A member function on its own does what the call does. -/
theorem eval_method (op : Op α) (dataQueue : List α) (hready : (method op).Ready dataQueue) :
    call dataQueue op = some ((method op).body.eval dataQueue) := by
  cases op with
  | waitAndPop =>
    have hne := hready _ rfl
    cases dataQueue with
    | nil => cases hne
    | cons v rest => rfl
  | tryPop => cases dataQueue <;> rfl
  | _ => rfl

theorem calls_of_legal {dataQueue : List α} {es : List (ι × Op α × Result α)}
    (h : Legal method dataQueue es) : Calls dataQueue es (replay method dataQueue es) := by
  induction es generalizing dataQueue with
  | nil => rfl
  | cons e es ih =>
    obtain ⟨hready, hresult, hrest⟩ := h
    refine ⟨((method e.2.1).body.eval dataQueue).1, ?_, ih hrest⟩
    rw [eval_method e.2.1 dataQueue hready, ← hresult]

/-- One thread goes to sleep in `wait_and_pop`, the other pushes and wakes it. -/
def sleeperAndPusher : List (Move Bool (Op ℕ)) :=
  [.call true .waitAndPop, .lock true, .test true, .call false (.push 7), .lock false,
    .access false, .notify false (some true), .unlock false]

/-- The values that the recorded calls have put in. -/
def pushed (record : List (ι × Op α × Result α)) : List α :=
  record.filterMap fun e => match e.2.1 with
    | .push newValue => some newValue
    | _ => none

/-- The values that a call has taken out, by its result. -/
def takenBy : Op α → Result α → List α
  | .waitAndPop, .value v => v.toList
  | .tryPop, .value v => v.toList
  | .grabAll, .queue q => q
  | _, _ => []

/-- The values that the recorded calls have taken out. -/
def taken (record : List (ι × Op α × Result α)) : List α :=
  record.flatMap fun e => takenBy e.2.1 e.2.2

/-- A call puts its value behind the others, or takes values from the front. -/
theorem call_flow {dataQueue next : List α} {op : Op α} {result : Result α}
    (h : call dataQueue op = some (next, result)) (i : ι) :
    dataQueue ++ pushed [(i, op, result)] = taken [(i, op, result)] ++ next := by
  cases op with
  | waitAndPop =>
    cases dataQueue with
    | nil => cases h
    | cons v rest =>
      cases h
      simp [pushed, taken, takenBy]
  | tryPop =>
    cases dataQueue with
    | nil =>
      cases h
      simp [pushed, taken, takenBy]
    | cons v rest =>
      cases h
      simp [pushed, taken, takenBy]
  | push newValue =>
    cases h
    simp [pushed, taken, takenBy, push]
  | grabAll =>
    cases h
    simp [pushed, taken, takenBy, grabAll]
  | _ =>
    cases h
    simp [pushed, taken, takenBy]

theorem calls_flow {dataQueue dataQueue' : List α} {es : List (ι × Op α × Result α)}
    (h : Calls dataQueue es dataQueue') : dataQueue ++ pushed es = taken es ++ dataQueue' := by
  induction es generalizing dataQueue with
  | nil =>
    cases h
    simp [pushed, taken]
  | cons e es ih =>
    obtain ⟨next, hcall, hrest⟩ := h
    have hpushed : pushed (e :: es) = pushed [e] ++ pushed es := by
      rw [pushed, pushed, pushed, ← List.filterMap_append]
      rfl
    have htaken : taken (e :: es) = taken [e] ++ taken es := by
      simp [taken]
    calc dataQueue ++ pushed (e :: es)
        = (dataQueue ++ pushed [e]) ++ pushed es := by rw [hpushed, List.append_assoc]
      _ = (taken [e] ++ next) ++ pushed es := by rw [call_flow hcall e.1]
      _ = taken [e] ++ (taken es ++ dataQueue') := by rw [List.append_assoc, ih hrest]
      _ = taken (e :: es) ++ dataQueue' := by rw [htaken, List.append_assoc]

/-- A recorded call has found some queue and done to it what the call does. -/
theorem exists_call_of_mem {dataQueue dataQueue' : List α} {es : List (ι × Op α × Result α)}
    (h : Calls dataQueue es dataQueue') {e : ι × Op α × Result α} (he : e ∈ es) :
    ∃ before after, call before e.2.1 = some (after, e.2.2) := by
  induction es generalizing dataQueue with
  | nil => cases he
  | cons e' es ih =>
    obtain ⟨next, hcall, hrest⟩ := h
    rcases List.mem_cons.mp he with rfl | he
    · exact ⟨dataQueue, next, hcall⟩
    · exact ih hrest he

section Threads

variable [DecidableEq ι] {init : List α} {ls : List (Move ι (Op α))}
  {s : State ι (Op α) (List α) (Result α)}

/-- **First in, first out.** While no thread has the lock, the values put in, in the order of their
pushes, are the values taken out, in the order of the calls that took them, and then those in the
queue: no value is lost, doubled, or overtaken by another. -/
theorem fifo (h : (shared init).run ls = some s) (hfree : s.owner = none) :
    init ++ pushed s.record = taken s.record ++ s.data := by
  have hc := consistent sound h
  rw [hc.free hfree]
  exact calls_flow (calls_of_legal hc.legal)

theorem fifo_sleeperAndPusher :
    ∃ s : State Bool (Op ℕ) (List ℕ) (Result ℕ), (shared []).run sleeperAndPusher = some s ∧
      [] ++ pushed s.record = taken s.record ++ s.data :=
  ⟨_, rfl, fifo (show (shared []).run sleeperAndPusher = some _ from rfl) rfl⟩

/-- **`front` and `pop` never meet an empty queue**, whatever the other threads do, and
`wait_and_pop` returns with a value. -/
theorem never_pops_empty (h : (shared init).run ls = some s) :
    (∀ i op valid update next, s.threads i = .running op (.access valid update next) →
      valid s.data = true) ∧
    ∀ i result, (i, Op.waitAndPop, result) ∈ s.record → ∃ v, result = .value (some v) := by
  have hc := consistent sound h
  refine ⟨fun i op valid update next ht => hc.valid_access ht, fun i result hmem => ?_⟩
  obtain ⟨before, after, hcall⟩ := exists_call_of_mem (calls_of_legal hc.legal) hmem
  cases before with
  | nil => cases hcall
  | cons v rest =>
    cases hcall
    exact ⟨v, rfl⟩

theorem never_pops_empty_sleeperAndPusher :
    ∃ s : State Bool (Op ℕ) (List ℕ) (Result ℕ), (shared []).run sleeperAndPusher = some s ∧
      (∀ i op valid update next, s.threads i = .running op (.access valid update next) →
        valid s.data = true) ∧
      ∀ i result, (i, Op.waitAndPop, result) ∈ s.record → ∃ v, result = .value (some v) :=
  ⟨_, rfl, never_pops_empty (show (shared []).run sleeperAndPusher = some _ from rfl)⟩

/-! ### `wait_and_pop` sleeps only while there is nothing for it -/

theorem counts (op : Op α) : Counts List.length (method op) := by
  cases op with
  | waitAndPop =>
    refine ⟨fun p hp dataQueue => ?_, fun dataQueue hready => ?_⟩
    · cases hp
      cases dataQueue <;> simp
    · have hne := hready _ rfl
      cases dataQueue with
      | nil => cases hne
      | cons v rest => simp [method, front, popFront, Body.eval, Body.notifies]
  | tryPop =>
    refine ⟨fun p hp => (by cases hp), fun dataQueue _ => ?_⟩
    cases dataQueue <;> simp [method, use, front, popFront, Body.eval, Body.notifies]
  | _ =>
    refine ⟨fun p hp => (by cases hp), fun dataQueue _ => ?_⟩
    simp [method, use, Body.eval, Body.notifies]

/-- **No wakeup is lost.** While no thread has the lock and one sleeps in `wait_and_pop`, each value
in the queue has a thread that has been woken for it and is on its way to the lock. -/
theorem no_wakeup_lost (h : (shared init).run ls = some s) (hfree : s.owner = none) {j : ι}
    {op : Op α} (hasleep : s.threads j = .blocked op) :
    s.data.length ≤ s.woken.length ∧ s.woken.Nodup ∧
      ∀ i ∈ s.woken, s.threads i = .entering .waitAndPop := by
  have ht := tracked h
  refine ⟨tokens_le_woken sound counts h hfree hasleep, ht.woken_nodup, fun i hi => ?_⟩
  obtain ⟨op', hwaits, hop⟩ := ht.mem_woken i hi
  have heq : op' = .waitAndPop := by
    cases op' with
    | waitAndPop => rfl
    | _ => cases hwaits
  rcases hop with hop | hop
  · rw [hop, heq]
  · -- a thread at its test has the lock
    have hinside := ((consistent sound h).inside_iff i).mp (by rw [hop]; rfl)
    rw [hfree] at hinside
    cases hinside

/-- Two threads sleep, and one of them has been woken for the value that a third has pushed. -/
def twoSleepers : List (Move ℕ (Op ℕ)) :=
  [.call 0 .waitAndPop, .lock 0, .test 0, .call 1 .waitAndPop, .lock 1, .test 1,
    .call 2 (.push 7), .lock 2, .access 2, .notify 2 (some 0), .unlock 2]

theorem no_wakeup_lost_twoSleepers :
    ∃ s : State ℕ (Op ℕ) (List ℕ) (Result ℕ),
      (shared []).run twoSleepers = some s ∧
      s.data.length ≤ s.woken.length ∧ s.woken.Nodup ∧
        ∀ i ∈ s.woken, s.threads i = .entering .waitAndPop :=
  ⟨_, rfl, no_wakeup_lost (show (shared []).run twoSleepers = some _ from rfl) rfl (j := 1)
    (show _ = Thread.blocked Op.waitAndPop from rfl)⟩

/-- **Threads sleep only over an empty queue.** Where no thread inside a call can move, none has the
lock, each is outside the queue or sleeps in `wait_and_pop`, and the queue is empty if one does. -/
theorem asleep_only_if_empty (h : (shared init).run ls = some s)
    (hstuck : ∀ l : Move ι (Op α), l.own = true → s.step method l = none) :
    s.owner = none ∧
      ∀ i, s.threads i = .idle ∨ (s.threads i = .blocked .waitAndPop ∧ s.data = []) := by
  obtain ⟨hfree, hrest, hempty⟩ := stuck sound counts h hstuck
  refine ⟨hfree, fun i => ?_⟩
  rcases hrest i with hi | ⟨op, hi⟩
  · exact .inl hi
  · refine .inr ⟨?_, List.length_eq_zero_iff.mp (hempty i op hi)⟩
    have hwaits := (tracked h).waits i op (.inr hi)
    cases op with
    | waitAndPop => exact hi
    | _ => cases hwaits

def oneSleeper : List (Move Unit (Op ℕ)) := [.call () .waitAndPop, .lock (), .test ()]

theorem asleep_only_if_empty_oneSleeper :
    ∃ s : State Unit (Op ℕ) (List ℕ) (Result ℕ),
      (shared []).run oneSleeper = some s ∧
      s.owner = none ∧
        ∀ i, s.threads i = .idle ∨ (s.threads i = .blocked .waitAndPop ∧ s.data = []) := by
  refine ⟨_, rfl, asleep_only_if_empty (show (shared []).run oneSleeper = some _ from rfl)
    (fun l hown => ?_)⟩
  cases l with
  | call i op => cases hown
  | wakeup j => cases hown
  | _ => rfl

end Threads

end ReliableUdpBench.ThreadsafeQueue

