import ReliableUdpBench.Lib.Fair
import ReliableUdpBench.Lib.Throttle

/-!
# A system with a throttled producer

Some steps of a system add to a store. The producer is the thread that takes them: it adds, reads
the size of the store, and goes on reading until what it has read is not above a limit. Without the
producer's own steps a run is one of the system (`system_view`). The producer is not held back for ever
if the rest of the system brings the size down to the limit whenever nothing more is added
(`frequently_adds`).
-/

namespace ReliableUdpBench.Lib.Throttle

open Filter

/-- What happens next: the producer reads the size or acts on what it has read, or a step of the
system. -/
inductive Label (ι : Type*) where
  | readSize
  | checkSize
  | system (l : ι)
  deriving DecidableEq

variable {σ ι : Type*} (S : System σ ι) (adds : ι → Bool) (size : σ → ℕ) (limit : ℕ)

/-- The system in which the steps that add are those of a throttled producer. -/
def producing : System (Point × σ) (Label ι) where
  init := (.push, S.init)
  step p
    | .readSize =>
      match p.1 with
      | .read => some (.test (size p.2), p.2)
      | _ => none
    | .checkSize =>
      match p.1 with
      | .test seen => some (if seen > limit then .read else .push, p.2)
      | _ => none
    | .system l =>
      if adds l then
        match p.1 with
        | .push => (S.step p.2 l).map fun s => (.read, s)
        | _ => none
      else (S.step p.2 l).map fun s => (p.1, s)

/-- The producer takes the step. -/
def Label.OfProducer (adds : ι → Bool) : Label ι → Prop
  | .readSize | .checkSize => True
  | .system l => adds l = true

/-- The step of the system. -/
def Label.step : Label ι → Option ι
  | .readSize | .checkSize => none
  | .system l => some l

@[simp] theorem Label.step_eq_some {l : Label ι} {m : ι} : l.step = some m ↔ l = .system m := by
  cases l <;> simp [Label.step]

variable {S adds size limit}

/-- What a step can be. -/
theorem producing_cases {p p' : Point × σ} {l : Label ι}
    (h : (producing S adds size limit).step p l = some p') :
    (l = .readSize ∧ p.1 = .read ∧ p' = (.test (size p.2), p.2)) ∨
    (∃ seen, l = .checkSize ∧ p.1 = .test seen ∧
      p' = (if seen > limit then .read else .push, p.2)) ∨
    (∃ m, l = .system m ∧ adds m = true ∧ p.1 = .push ∧ p'.1 = .read ∧
      S.step p.2 m = some p'.2) ∨
    (∃ m, l = .system m ∧ adds m = false ∧ p'.1 = p.1 ∧ S.step p.2 m = some p'.2) := by
  cases l with
  | readSize =>
    simp only [producing] at h
    split at h
    · next hp => exact .inl ⟨rfl, hp, (Option.some.inj h).symm⟩
    · cases h
  | checkSize =>
    simp only [producing] at h
    split at h
    · next seen hp => exact .inr (.inl ⟨seen, rfl, hp, (Option.some.inj h).symm⟩)
    · cases h
  | system m =>
    simp only [producing] at h
    cases hadds : adds m with
    | false =>
      rw [hadds] at h
      obtain ⟨s, hs, rfl⟩ := Option.map_eq_some_iff.mp h
      exact .inr (.inr (.inr ⟨m, rfl, hadds, rfl, hs⟩))
    | true =>
      rw [hadds, if_pos rfl] at h
      split at h
      · next hp =>
        obtain ⟨s, hs, rfl⟩ := Option.map_eq_some_iff.mp h
        exact .inr (.inr (.inl ⟨m, rfl, hadds, hp, rfl, hs⟩))
      · cases h

theorem step_system {p : Point} {s s' : σ} {l : ι} (hl : adds l = false)
    (h : S.step s l = some s') :
    (producing S adds size limit).step (p, s) (.system l) = some (p, s') := by
  simp only [producing, hl, Bool.false_eq_true, if_false]
  rw [h, Option.map_some]

theorem step_add {s s' : σ} {l : ι} (hl : adds l = true) (h : S.step s l = some s') :
    (producing S adds size limit).step (.push, s) (.system l) = some (.read, s') := by
  simp only [producing, hl, if_true]
  rw [h, Option.map_some]

/-- The steps that do not add go on without the producer. -/
theorem runFrom_system {p : Point} {s s' : σ} {ls : List ι} (hls : ∀ l ∈ ls, adds l = false)
    (h : S.runFrom s ls = some s') :
    (producing S adds size limit).runFrom (p, s) (ls.map .system) = some (p, s') := by
  induction ls generalizing s with
  | nil =>
    cases h
    rfl
  | cons l ls ih =>
    obtain ⟨t, ht, hrest⟩ := Option.bind_eq_some_iff.mp h
    have htail := ih (fun m hm => hls m (List.mem_cons_of_mem l hm)) hrest
    exact Option.bind_eq_some_iff.mpr ⟨(p, t), step_system (hls l List.mem_cons_self) ht, htail⟩

/-- And meanwhile the producer stays where it is. -/
theorem point_of_mem_trace {p : Point} {s s' : σ} {ls : List ι} (hls : ∀ l ∈ ls, adds l = false)
    (h : S.runFrom s ls = some s') {q : (Point × σ) × Label ι}
    (hq : q ∈ (producing S adds size limit).trace (p, s) (ls.map .system)) : q.1.1 = p := by
  induction ls generalizing s with
  | nil => cases hq
  | cons l ls ih =>
    obtain ⟨t, ht, hrest⟩ := Option.bind_eq_some_iff.mp h
    rw [List.map_cons, System.trace, step_system (hls l List.mem_cons_self) ht] at hq
    rcases List.mem_cons.mp hq with rfl | hq
    · rfl
    · exact ih (fun m hm => hls m (List.mem_cons_of_mem l hm)) hrest hq

/-- The producer adds, other steps are taken, and the producer reads the size and goes on. -/
def round (add : ι) (ls : List ι) : List (Label ι) :=
  .system add :: (ls.map .system ++ [.readSize, .checkSize])

@[simp] theorem system_mem_round {l add : ι} {ls : List ι} :
    Label.system l ∈ round add ls ↔ l ∈ add :: ls := by
  simp [round]

theorem runFrom_round {s s' : σ} {add : ι} {ls : List ι} (hadd : adds add = true)
    (hls : ∀ l ∈ ls, adds l = false) (h : S.runFrom s (add :: ls) = some s')
    (hsize : size s' ≤ limit) :
    (producing S adds size limit).runFrom (.push, s) (round add ls) = some (.push, s') := by
  obtain ⟨t, ht, hrest⟩ := Option.bind_eq_some_iff.mp h
  refine Option.bind_eq_some_iff.mpr ⟨(.read, t), step_add hadd ht, ?_⟩
  rw [System.runFrom_append, runFrom_system hls hrest]
  show some (if size s' > limit then Point.read else .push, s') = some (.push, s')
  rw [if_neg (Nat.not_lt.mpr hsize)]

/-- The size that the producer reads in a round is the one at its end. -/
theorem seen_of_mem_trace_round {s s' : σ} {add : ι} {ls : List ι} (hadd : adds add = true)
    (hls : ∀ l ∈ ls, adds l = false) (h : S.runFrom s (add :: ls) = some s')
    {q : (Point × σ) × Label ι}
    (hq : q ∈ (producing S adds size limit).trace (.push, s) (round add ls)) {seen : ℕ}
    (hseen : q.1.1 = .test seen) : seen = size s' := by
  obtain ⟨t, ht, hrest⟩ := Option.bind_eq_some_iff.mp h
  rw [round, System.trace, step_add hadd ht] at hq
  rcases List.mem_cons.mp hq with rfl | hq
  · cases hseen
  · change q ∈ (producing S adds size limit).trace (.read, t) (ls.map .system ++ _) at hq
    rw [System.trace_append _ (runFrom_system hls hrest), List.mem_append] at hq
    rcases hq with hq | hq
    · rw [point_of_mem_trace hls hrest hq] at hseen
      cases hseen
    · change q ∈ [((Point.read, s'), Label.readSize), ((Point.test (size s'), s'), .checkSize)] at hq
      rcases List.mem_pair.mp hq with rfl | rfl
      · cases hseen
      · exact (Point.test.inj hseen).symm

theorem system_hidden {p p' : Point × σ} {l : Label ι} (hl : l.step = none)
    (h : (producing S adds size limit).step p l = some p') : p'.2 = p.2 := by
  rcases producing_cases h with ⟨-, -, rfl⟩ | ⟨seen, -, -, rfl⟩ | ⟨m, rfl, -⟩ | ⟨m, rfl, -⟩
  · rfl
  · rfl
  · cases hl
  · cases hl

theorem system_shown {p p' : Point × σ} {l : Label ι} {m : ι} (hl : l.step = some m)
    (h : (producing S adds size limit).step p l = some p') : S.step p.2 m = some p'.2 := by
  rcases producing_cases h with
    ⟨rfl, -⟩ | ⟨seen, rfl, -⟩ | ⟨m', rfl, -, -, -, hs⟩ | ⟨m', rfl, -, -, hs⟩
  · cases hl
  · cases hl
  · rwa [← Option.some.inj hl]
  · rwa [← Option.some.inj hl]

/-- The system as it shows. -/
def system_view : (producing S adds size limit).View S where
  label := Label.step
  shows p s := p.2 = s
  init := rfl
  hidden _ _ _ _ hl hs h := (system_hidden hl h).trans hs
  shown _ _ _ _ _ hl hs h := ⟨_, hs ▸ system_shown hl h, rfl⟩

theorem label_view (r : (producing S adds size limit).InfRun) {k : ℕ} {l : ι} :
    (r.view system_view).label k = some l ↔ r.label k = some (.system l) := by
  refine (r.view_label_eq_some system_view).trans ?_
  show (∃ m, r.label k = some m ∧ m.step = some l) ↔ _
  simp only [Label.step_eq_some, exists_eq_right]

theorem state_view (r : (producing S adds size limit).InfRun) (k : ℕ) :
    (r.view system_view).state k = (r.state k).2 :=
  (r.shows_view system_view k).symm

/-- How far a producer that can only read `limit` or less is from adding. -/
def toPush (limit : ℕ) : Point → ℕ
  | .push => 0
  | .test seen => if seen > limit then 3 else 1
  | .read => 2

/-- **The producer adds again and again**, if it moves again and again and the size comes down to
the limit when nothing more is added. -/
theorem frequently_adds (r : (producing S adds size limit).InfRun)
    (hmoves : ∃ᶠ k in atTop, r.Takes (Label.OfProducer adds) k)
    (hdown : (∀ᶠ k in atTop, ∀ l, r.label k = some (.system l) → adds l = false) →
      ∀ᶠ k in atTop, size (r.state k).2 ≤ limit) :
    ∃ᶠ k in atTop, ∃ l, r.label k = some (.system l) ∧ adds l = true := by
  by_contra hnever
  have hquiet : ∀ᶠ k in atTop, ∀ l, r.label k = some (.system l) → adds l = false := by
    filter_upwards [not_frequently.mp hnever] with k hk l hl
    by_contra hadds
    exact hk ⟨l, hl, Bool.eq_true_of_not_eq_false hadds⟩
  apply hnever
  refine frequently_of_rank (fun k => toPush limit (r.state k).1) hmoves ?_ ?_
  · filter_upwards [hdown hquiet] with k hsize hmove
    obtain ⟨l, hl, hproducer⟩ := hmove
    rcases producing_cases (r.step k l hl) with
      ⟨-, hp, hp'⟩ | ⟨seen, -, hp, hp'⟩ | ⟨m, rfl, hadds, -⟩ | ⟨m, rfl, hadds, -⟩
    · right
      rw [hp, hp', toPush, if_neg (Nat.not_lt.mpr hsize)]
      exact Nat.lt_succ_self 1
    · right
      rw [hp, hp', toPush]
      split
      · exact Nat.lt_succ_self 2
      · exact Nat.zero_lt_one
    · exact .inl ⟨m, hl, hadds⟩
    · rw [Label.OfProducer, hadds] at hproducer
      cases hproducer
  · filter_upwards with k hother
    refine (r.eq_of_not_takes hother (fun p => toPush limit p.1) fun l hl hnot => ?_).le
    rcases producing_cases (r.step k l hl) with
      ⟨rfl, -⟩ | ⟨seen, rfl, -⟩ | ⟨m, rfl, hadds, -⟩ | ⟨m, -, -, hp, -⟩
    · exact absurd trivial hnot
    · exact absurd trivial hnot
    · exact absurd hadds hnot
    · rw [hp]

end ReliableUdpBench.Lib.Throttle
