import Mathlib.Data.Prod.Lex
import Mathlib.Order.Filter.AtTopBot.Basic
import Mathlib.Order.OrderIsoNat
import ReliableUdpBench.Lib.Conduit
import ReliableUdpBench.Lib.System

/-!
# Infinite runs

What a system does in the long run: `∀ᶠ k in atTop` is "from some moment on" and `∃ᶠ k in atTop` is
"again and again". The rules are about a rank, a value of a well-founded order read off the state. A
rank that never grows comes to rest (`eventually_const_of_le`), so what every move of a party brings
closer happens again and again if the party moves again and again (`frequently_of_rank`). A conduit
whose stages are served, each for itself, brings everything to the exit, also while more and more
enters (`Conduit.eventually_at_exit`).

In an infinite run nothing may happen between two states, so that it shows as a run of another system
if every step shows as a step or not at all (`System.InfRun.view`). Finite runs, each beginning where
the one before ends, make an infinite run (`System.Spiral`), which gives examples.
-/

namespace ReliableUdpBench.Lib

open Filter

/-! ### Ranks -/

section Rank

variable {ρ : Type*} [PartialOrder ρ] [WellFoundedLT ρ]

theorem eventually_const_of_le (rank : ℕ → ρ) (h : ∀ᶠ k in atTop, rank (k + 1) ≤ rank k) :
    ∃ N, ∀ k ≥ N, rank k = rank N := by
  obtain ⟨N, hN⟩ := eventually_atTop.mp h
  have hanti : Antitone fun k => rank (N + k) :=
    antitone_nat_of_succ_le fun k => hN (N + k) (Nat.le_add_right N k)
  obtain ⟨m, hm⟩ := WellFoundedLT.antitone_chain_condition hanti
  refine ⟨N + m, fun k hk => ?_⟩
  have hrest := hm (k - N) (by omega)
  rw [show N + (k - N) = k from by omega] at hrest
  exact hrest.symm

/-- **What every move brings closer happens again and again**, if the moves do and nobody else takes
it away again. -/
theorem frequently_of_rank {moves target : ℕ → Prop} (rank : ℕ → ρ)
    (hmoves : ∃ᶠ k in atTop, moves k)
    (hcloser : ∀ᶠ k in atTop, moves k → target k ∨ rank (k + 1) < rank k)
    (hkeep : ∀ᶠ k in atTop, ¬ moves k → rank (k + 1) ≤ rank k) : ∃ᶠ k in atTop, target k := by
  by_contra hnever
  have hnot : ∀ᶠ k in atTop, ¬ target k := not_frequently.mp hnever
  have hlt : ∀ᶠ k in atTop, moves k → rank (k + 1) < rank k := by
    filter_upwards [hcloser, hnot] with k hk hno hmove
    exact (hk hmove).resolve_left hno
  have hle : ∀ᶠ k in atTop, rank (k + 1) ≤ rank k := by
    filter_upwards [hlt, hkeep] with k hk hstay
    by_cases hmove : moves k
    · exact (hk hmove).le
    · exact hstay hmove
  obtain ⟨N, hN⟩ := eventually_const_of_le rank hle
  obtain ⟨k, hk, hmove, hstep⟩ := frequently_atTop.mp (hmoves.and_eventually hlt) N
  have hstill := (hN (k + 1) (by omega)).trans (hN k hk).symm
  exact absurd (hstep hmove) (by rw [hstill]; exact lt_irrefl _)

end Rank

/-- What comes about again and again and then stays is there from some moment on. -/
theorem eventually_of_stays {P : ℕ → Prop} (h : ∃ᶠ k in atTop, P k)
    (hstays : ∀ᶠ k in atTop, P k → P (k + 1)) : ∀ᶠ k in atTop, P k := by
  obtain ⟨N, hN⟩ := eventually_atTop.mp hstays
  obtain ⟨j, hj, hP⟩ := frequently_atTop.mp h N
  filter_upwards [eventually_ge_atTop j] with k hk
  induction k, hk using Nat.le_induction with
  | base => exact hP
  | succ k hk ih => exact hN k (hj.trans hk) ih

/-- What the next move does wherever the party has got to happens again and again, if the party gets
there and moves again and again. -/
theorem frequently_of_region (region : ℕ → Prop) {moves target : ℕ → Prop}
    (hmoves : ∃ᶠ k in atTop, moves k) (hregion : ∃ᶠ k in atTop, region k)
    (hstay : ∀ᶠ k in atTop, region k → ¬ moves k → region (k + 1))
    (hmove : ∀ᶠ k in atTop, region k → moves k → target k) : ∃ᶠ k in atTop, target k := by
  by_contra hnever
  have hnot : ∀ᶠ k in atTop, ¬ target k := not_frequently.mp hnever
  have hthere : ∀ᶠ k in atTop, region k := by
    apply eventually_of_stays hregion
    filter_upwards [hstay, hmove, hnot] with k hstay hmove hno hregion
    exact hstay hregion fun hmoves => hno (hmove hregion hmoves)
  apply hnever
  refine (hmoves.and_eventually (hthere.and hmove)).mono ?_
  rintro k ⟨hmoves, hregion, hmove⟩
  exact hmove hregion hmoves

/-- What never gets smaller and grows again and again has no bound. -/
theorem tendsto_of_frequently_lt {value : ℕ → ℕ} (hmono : Monotone value)
    (h : ∃ᶠ k in atTop, value k < value (k + 1)) : Tendsto value atTop atTop := by
  refine tendsto_atTop_atTop_of_monotone hmono fun m => ?_
  induction m with
  | zero => exact ⟨0, Nat.zero_le _⟩
  | succ m ih =>
    obtain ⟨j, hj⟩ := ih
    obtain ⟨k, hk, hlt⟩ := frequently_atTop.mp h j
    have hjk : value j ≤ value k := hmono hk
    exact ⟨k + 1, by omega⟩

/-! ### Conduits whose stages are served -/

namespace Conduit

variable {α : Type*} {c : ℕ → Conduit α}

theorem monotone_held (hflow : ∀ k, Relation.ReflTransGen Flow (c k) (c (k + 1))) (i : ℕ) :
    Monotone fun k => (c k).held i :=
  monotone_nat_of_le_succ fun k => held_le_of_flow (hflow k) i

/-- What is in a stage that is served moves on. -/
theorem exists_held_le (hflow : ∀ k, Relation.ReflTransGen Flow (c k) (c (k + 1))) {i : ℕ}
    (hserved : (∀ᶠ k in atTop, (c k).stage i ≠ []) →
      ∃ᶠ k in atTop, ((c (k + 1)).stage i).length < ((c k).stage i).length) (j : ℕ) :
    ∃ k, (c j).held (i + 1) ≤ (c k).held i := by
  by_contra hnever
  have hlt : ∀ k, (c k).held i < (c j).held (i + 1) := fun k =>
    Nat.lt_of_not_ge fun hle => hnever ⟨k, hle⟩
  have hne : ∀ᶠ k in atTop, (c k).stage i ≠ [] := by
    filter_upwards [eventually_ge_atTop j] with k hk hnil
    have hmono : (c j).held (i + 1) ≤ (c k).held (i + 1) := monotone_held hflow (i + 1) hk
    rw [held_succ i (c k), hnil] at hmono
    exact absurd hmono (Nat.not_le_of_gt (hlt k))
  -- the rank is what is still missing in the stages before it
  obtain ⟨N, hN⟩ := eventually_const_of_le (fun k => (c j).held (i + 1) - (c k).held i)
    (.of_forall fun k => Nat.sub_le_sub_left (held_le_of_flow (hflow k) i) _)
  obtain ⟨k, hk, hshrinks⟩ := frequently_atTop.mp (hserved hne) N
  have hstill : (c j).held (i + 1) - (c (k + 1)).held i = (c j).held (i + 1) - (c k).held i :=
    (hN (k + 1) (by omega)).trans (hN k hk).symm
  have hlater := held_le_of_flow (hflow k) (i + 1)
  have hltk := hlt k
  have hltk' := hlt (k + 1)
  rw [held_succ, held_succ] at hlater
  omega

theorem isPrefix_entered (hflow : ∀ k, Relation.ReflTransGen Flow (c k) (c (k + 1))) {j k : ℕ}
    (hjk : j ≤ k) : (c j).entered <+: (c k).entered := by
  induction k, hjk using Nat.le_induction with
  | base => exact List.prefix_refl _
  | succ k _ ih => exact ih.trans (isPrefix_entered_of_flow (hflow k))

/-- **A conduit whose stages are served brings everything to the exit.** If something leaves each
stage again and again while there is always something in it, then whatever has entered gets to the
exit. -/
theorem eventually_at_exit (hflow : ∀ k, Relation.ReflTransGen Flow (c k) (c (k + 1)))
    (hconserved : ∀ k, (c k).Conserved)
    (hserved : ∀ i, (∀ᶠ k in atTop, (c k).stage (i + 1) ≠ []) →
      ∃ᶠ k in atTop, ((c (k + 1)).stage (i + 1)).length < ((c k).stage (i + 1)).length) (j : ℕ) :
    ∀ᶠ k in atTop, (c j).entered <+: (c k).stage 0 := by
  have hheld : ∀ i j, ∃ k, (c j).held (i + 1) ≤ (c k).held 1 := by
    intro i
    induction i with
    | zero => exact fun j => ⟨j, Nat.le_refl _⟩
    | succ i ih =>
      intro j
      obtain ⟨k, hk⟩ := exists_held_le hflow (hserved i) j
      obtain ⟨k', hk'⟩ := ih k
      exact ⟨k', hk.trans hk'⟩
  obtain ⟨m, hm⟩ := hheld (c j).stages.length j
  filter_upwards [eventually_ge_atTop j, eventually_ge_atTop m] with k hjk hmk
  have hexit : (c k).held 1 = ((c k).stage 0).length := by
    rw [held_succ]
    exact Nat.zero_add _
  have hall : (c j).held ((c j).stages.length + 1) = (c j).entered.length := by
    rw [held_of_length_le (Nat.le_succ _), show (c j).stages.flatten = (c j).entered from
      hconserved j]
  have hlater : (c m).held 1 ≤ (c k).held 1 := monotone_held hflow 1 hmk
  refine List.prefix_of_prefix_length_le (isPrefix_entered hflow hjk) (hconserved k).isPrefix_stage ?_
  rw [← hall, ← hexit]
  exact hm.trans hlater

end Conduit

namespace System

variable {σ ι τ μ : Type*} (S : System σ ι)

/-! ### Infinite runs -/

/-- An infinite run: the states it goes through, and the labels between them, where anything happens
at all. -/
structure InfRun where
  state : ℕ → σ
  label : ℕ → Option ι
  start : state 0 = S.init
  step : ∀ k l, label k = some l → S.step (state k) l = some (state (k + 1))
  rest : ∀ k, label k = none → state (k + 1) = state k

namespace InfRun

variable {S}

theorem reachable (r : S.InfRun) (k : ℕ) : S.Reachable (r.state k) := by
  induction k with
  | zero => exact ⟨[], by rw [r.start]; rfl⟩
  | succ k ih =>
    cases hl : r.label k with
    | none => exact r.rest k hl ▸ ih
    | some l =>
      obtain ⟨ls, hls⟩ := ih
      exact ⟨ls ++ [l], S.run_snoc_eq_some.mpr ⟨r.state k, hls, r.step k l hl⟩⟩

/-- The invariant rule for infinite runs whose labels are of a kind. -/
theorem invariant (r : S.InfRun) (Inv : σ → Prop) (kind : ι → Prop) (hinit : Inv S.init)
    (hkind : ∀ k l, r.label k = some l → kind l)
    (hstep : ∀ s l s', kind l → Inv s → S.step s l = some s' → Inv s') (k : ℕ) :
    Inv (r.state k) := by
  induction k with
  | zero => exact r.start ▸ hinit
  | succ k ih =>
    cases hl : r.label k with
    | none => exact r.rest k hl ▸ ih
    | some l => exact hstep _ _ _ (hkind k l hl) ih (r.step k l hl)

/-- The run takes a step of a kind. -/
def Takes (r : S.InfRun) (kind : ι → Prop) (k : ℕ) : Prop := ∃ l, r.label k = some l ∧ kind l

/-- What the steps of other kinds leave alone. -/
theorem eq_of_not_takes {β : Type*} (r : S.InfRun) {kind : ι → Prop} {k : ℕ} (hk : ¬ r.Takes kind k)
    (value : σ → β) (hother : ∀ l, r.label k = some l → ¬ kind l →
      value (r.state (k + 1)) = value (r.state k)) :
    value (r.state (k + 1)) = value (r.state k) := by
  cases hl : r.label k with
  | none => rw [r.rest k hl]
  | some l => exact hother l hl fun hkind => hk ⟨l, hl, hkind⟩

/-- A value that no step from some moment on changes. -/
theorem eq_of_steps {β : Type*} (r : S.InfRun) (value : σ → β) {N : ℕ}
    (h : ∀ k ≥ N, ∀ l, r.label k = some l → value (r.state (k + 1)) = value (r.state k)) {k : ℕ}
    (hk : N ≤ k) : value (r.state k) = value (r.state N) := by
  induction k, hk using Nat.le_induction with
  | base => rfl
  | succ k hk ih =>
    cases hl : r.label k with
    | none => rw [r.rest k hl, ih]
    | some l => rw [h k hk l hl, ih]

/-! ### Views -/

variable {T : System τ μ}

/-- The states of `T` that an infinite run shows, one after the other. -/
def viewState (r : S.InfRun) (V : S.View T) : ℕ → τ
  | 0 => T.init
  | k + 1 =>
    match (r.label k).bind V.label with
    | none => viewState r V k
    | some m => (T.step (viewState r V k) m).getD (viewState r V k)

theorem viewState_of_none {r : S.InfRun} {V : S.View T} {k : ℕ}
    (h : (r.label k).bind V.label = none) : r.viewState V (k + 1) = r.viewState V k := by
  rw [viewState, h]

theorem viewState_of_some {r : S.InfRun} {V : S.View T} {k : ℕ} {m : μ}
    (hshows : V.shows (r.state k) (r.viewState V k)) (h : (r.label k).bind V.label = some m) :
    T.step (r.viewState V k) m = some (r.viewState V (k + 1)) ∧
      V.shows (r.state (k + 1)) (r.viewState V (k + 1)) := by
  obtain ⟨l, hl, hm⟩ := Option.bind_eq_some_iff.mp h
  obtain ⟨t, ht, hshows'⟩ := V.shown l m _ _ _ hm hshows (r.step k l hl)
  have hnext : r.viewState V (k + 1) = t := by
    rw [viewState, h]
    show (T.step (r.viewState V k) m).getD _ = t
    rw [ht, Option.getD_some]
  rw [hnext]
  exact ⟨ht, hshows'⟩

theorem shows_viewState (r : S.InfRun) (V : S.View T) (k : ℕ) :
    V.shows (r.state k) (r.viewState V k) := by
  induction k with
  | zero => exact r.start ▸ V.init
  | succ k ih =>
    cases h : (r.label k).bind V.label with
    | some m => exact (viewState_of_some ih h).2
    | none =>
      rw [viewState_of_none h]
      cases hl : r.label k with
      | none => exact r.rest k hl ▸ ih
      | some l =>
        rw [hl] at h
        exact V.hidden l _ _ _ h ih (r.step k l hl)

/-- **An infinite run shows as an infinite run.** -/
def view (r : S.InfRun) (V : S.View T) : T.InfRun where
  state := r.viewState V
  label k := (r.label k).bind V.label
  start := rfl
  step k _ h := (viewState_of_some (r.shows_viewState V k) h).1
  rest _ h := viewState_of_none h

theorem view_label_eq_some (r : S.InfRun) (V : S.View T) {k : ℕ} {m : μ} :
    (r.view V).label k = some m ↔ ∃ l, r.label k = some l ∧ V.label l = some m :=
  Option.bind_eq_some_iff

theorem shows_view (r : S.InfRun) (V : S.View T) (k : ℕ) :
    V.shows (r.state k) ((r.view V).state k) := r.shows_viewState V k

end InfRun

/-! ### Spirals -/

/-- Turns that lead from knot to knot, each with a label at least. -/
structure Spiral where
  knot : ℕ → σ
  turn : ℕ → List ι
  start : knot 0 = S.init
  turn_run : ∀ j, S.runFrom (knot j) (turn j) = some (knot (j + 1))
  turn_ne : ∀ j, turn j ≠ []

namespace Spiral

variable {S} (L : S.Spiral)

/-- The place after the next label: the turn, the state, and the labels to be read in the turn. -/
def next : ℕ × σ × List ι → ℕ × σ × List ι
  | (j, s, []) => (j, s, [])
  | (j, _, [_]) => (j + 1, L.knot (j + 1), L.turn (j + 1))
  | (j, s, l :: m :: ls) => (j, (S.step s l).getD s, m :: ls)

/-- The places on the way. -/
def spot : ℕ → ℕ × σ × List ι
  | 0 => (0, L.knot 0, L.turn 0)
  | k + 1 => L.next (spot k)

/-- The labels to be read in a turn lead to the next knot, and the rest of its trace is theirs. -/
structure OnTurn (p : ℕ × σ × List ι) : Prop where
  ne : p.2.2 ≠ []
  leads : S.runFrom p.2.1 p.2.2 = some (L.knot (p.1 + 1))
  trace : S.trace p.2.1 p.2.2 ⊆ S.trace (L.knot p.1) (L.turn p.1)

variable {L}

theorem onTurn_knot (j : ℕ) : L.OnTurn (j, L.knot j, L.turn j) :=
  ⟨L.turn_ne j, L.turn_run j, List.Subset.refl _⟩

/-- A step of a spiral is a step of the system. -/
theorem OnTurn.next {p : ℕ × σ × List ι} (h : L.OnTurn p) :
    L.OnTurn (L.next p) ∧ S.step p.2.1 (p.2.2.head h.ne) = some (L.next p).2.1 := by
  rcases p with ⟨j, s, _ | ⟨l, _ | ⟨m, ls⟩⟩⟩
  · exact absurd rfl h.ne
  · refine ⟨onTurn_knot (j + 1), ?_⟩
    obtain ⟨s', hl, hs'⟩ := Option.bind_eq_some_iff.mp h.leads
    rw [show s' = L.knot (j + 1) from Option.some.inj hs'] at hl
    exact hl
  · obtain ⟨s', hl, hrest⟩ := Option.bind_eq_some_iff.mp h.leads
    have hnext : L.next (j, s, l :: m :: ls) = (j, s', m :: ls) := by
      rw [Spiral.next, show S.step s l = some s' from hl]
      rfl
    rw [hnext]
    refine ⟨⟨List.cons_ne_nil m ls, hrest, ?_⟩, hl⟩
    have htrace := h.trace
    rw [System.trace, show S.step s l = some s' from hl] at htrace
    exact fun q hq => htrace (List.mem_cons_of_mem _ hq)

variable (L)

theorem onTurn_spot (k : ℕ) : L.OnTurn (L.spot k) := by
  induction k with
  | zero => exact onTurn_knot 0
  | succ k ih => exact ih.next.1

/-- **Turns make an infinite run.** -/
def run : S.InfRun where
  state k := (L.spot k).2.1
  label k := (L.spot k).2.2.head (L.onTurn_spot k).ne
  start := L.start
  step k l hl := by
    rw [← Option.some.inj hl]
    exact (L.onTurn_spot k).next.2
  rest k hl := by cases hl

/-- The labels of a turn are read one after the other. -/
theorem spot_add {k j : ℕ} {s : σ} {as : List ι} {b : ι} {bs : List ι}
    (hk : L.spot k = (j, s, as ++ b :: bs)) :
    ∃ s', L.spot (k + as.length) = (j, s', b :: bs) := by
  induction as generalizing k s with
  | nil => exact ⟨s, hk⟩
  | cons a as ih =>
    obtain ⟨m, ms, hms⟩ : ∃ m ms, as ++ b :: bs = m :: ms := by
      cases as with
      | nil => exact ⟨b, bs, rfl⟩
      | cons m as => exact ⟨m, as ++ b :: bs, rfl⟩
    have hnext : L.spot (k + 1) = (j, (S.step s a).getD s, as ++ b :: bs) := by
      rw [spot, hk, List.cons_append, hms]
      rfl
    obtain ⟨s', hs'⟩ := ih hnext
    rw [List.length_cons, show k + (as.length + 1) = k + 1 + as.length from by omega]
    exact ⟨s', hs'⟩

/-- Every turn begins, and not before its number. -/
theorem exists_spot (j : ℕ) : ∃ k ≥ j, L.spot k = (j, L.knot j, L.turn j) := by
  induction j with
  | zero => exact ⟨0, Nat.le_refl 0, rfl⟩
  | succ j ih =>
    obtain ⟨k, hk, hspot⟩ := ih
    rw [← List.dropLast_append_getLast (L.turn_ne j)] at hspot
    obtain ⟨s', hs'⟩ := L.spot_add hspot
    refine ⟨k + (L.turn j).dropLast.length + 1, by omega, ?_⟩
    rw [spot, hs']
    rfl

/-- **A label that is in turn after turn is read again and again.** -/
theorem frequently_label {l : ι} (h : ∃ᶠ j in atTop, l ∈ L.turn j) :
    ∃ᶠ k in atTop, L.run.label k = some l := by
  rw [frequently_atTop]
  intro N
  obtain ⟨j, hj, hl⟩ := frequently_atTop.mp h N
  obtain ⟨k, hk, hspot⟩ := L.exists_spot j
  obtain ⟨as, bs, hturn⟩ := List.append_of_mem hl
  obtain ⟨s', hs'⟩ := L.spot_add (by rw [hspot, hturn])
  refine ⟨k + as.length, by omega, ?_⟩
  show some (List.head _ _) = some l
  simp only [hs', List.head_cons]

theorem mem_trace_spot {k : ℕ} {l : ι} (hl : L.run.label k = some l) : (L.run.state k, l) ∈
    S.trace (L.knot (L.spot k).1) (L.turn (L.spot k).1) := by
  have h := L.onTurn_spot k
  apply h.trace
  obtain ⟨m, ls, hls⟩ := List.exists_cons_of_ne_nil h.ne
  have hlabel : L.run.label k = some m := by
    show some (List.head _ _) = some m
    simp only [hls, List.head_cons]
  rw [hls, System.trace, ← Option.some.inj (hlabel.symm.trans hl)]
  exact List.mem_cons_self

/-- Every label is one of a turn. -/
theorem exists_label_mem {k : ℕ} {l : ι} (hl : L.run.label k = some l) : ∃ j, l ∈ L.turn j :=
  ⟨_, S.mem_of_mem_trace (L.mem_trace_spot hl)⟩

theorem monotone_spot : Monotone fun k => (L.spot k).1 := by
  refine monotone_nat_of_le_succ fun k => ?_
  rw [spot]
  rcases L.spot k with ⟨j, s, _ | ⟨l, _ | ⟨m, ls⟩⟩⟩
  · exact Nat.le_refl j
  · exact Nat.le_succ j
  · exact Nat.le_refl j

/-- **A spiral is always where the traces of its turns are.** -/
theorem forall_of_trace {P : σ → ι → Prop}
    (hP : ∀ j, ∀ p ∈ S.trace (L.knot j) (L.turn j), P p.1 p.2) (k : ℕ) :
    ∃ l, L.run.label k = some l ∧ P (L.run.state k) l :=
  ⟨_, rfl, hP _ _ (L.mem_trace_spot rfl)⟩

/-- **In the long run a spiral is where the traces of its later turns are.** -/
theorem eventually_of_trace {P : σ → ι → Prop}
    (hP : ∀ᶠ j in atTop, ∀ p ∈ S.trace (L.knot j) (L.turn j), P p.1 p.2) :
    ∀ᶠ k in atTop, ∃ l, L.run.label k = some l ∧ P (L.run.state k) l := by
  obtain ⟨J, hJ⟩ := eventually_atTop.mp hP
  obtain ⟨N, -, hN⟩ := L.exists_spot J
  filter_upwards [eventually_ge_atTop N] with k hk
  have hround := L.monotone_spot hk
  simp only [hN] at hround
  exact ⟨_, rfl, hJ _ hround _ (L.mem_trace_spot rfl)⟩

end Spiral

/-! ### Lassos -/

/-- A stem that leads to a knot, and a cycle from there back to it. -/
structure Lasso where
  stem : List ι
  cycle : List ι
  knot : σ
  stem_run : S.run stem = some knot
  cycle_run : S.runFrom knot cycle = some knot
  stem_ne : stem ≠ []
  cycle_ne : cycle ≠ []

namespace Lasso

variable {S} (L : S.Lasso)

/-- The stem, and then the cycle for ever. -/
def spiral : S.Spiral where
  knot
    | 0 => S.init
    | _ + 1 => L.knot
  turn
    | 0 => L.stem
    | _ + 1 => L.cycle
  start := rfl
  turn_run
    | 0 => L.stem_run
    | _ + 1 => L.cycle_run
  turn_ne
    | 0 => L.stem_ne
    | _ + 1 => L.cycle_ne

/-- The infinite run of a lasso. -/
def run : S.InfRun := L.spiral.run

theorem frequently_label {l : ι} (hl : l ∈ L.cycle) :
    ∃ᶠ k in atTop, L.run.label k = some l := by
  apply L.spiral.frequently_label
  rw [frequently_atTop]
  exact fun j => ⟨j + 1, Nat.le_succ j, hl⟩

theorem forall_of_trace {P : σ → ι → Prop} (hstem : ∀ p ∈ S.trace S.init L.stem, P p.1 p.2)
    (hcycle : ∀ p ∈ S.trace L.knot L.cycle, P p.1 p.2) (k : ℕ) :
    ∃ l, L.run.label k = some l ∧ P (L.run.state k) l := by
  refine L.spiral.forall_of_trace (fun j => ?_) k
  cases j with
  | zero => exact hstem
  | succ j => exact hcycle

theorem eventually_of_trace {P : σ → ι → Prop} (hcycle : ∀ p ∈ S.trace L.knot L.cycle, P p.1 p.2) :
    ∀ᶠ k in atTop, ∃ l, L.run.label k = some l ∧ P (L.run.state k) l := by
  apply L.spiral.eventually_of_trace
  filter_upwards [eventually_ge_atTop 1] with j hj
  cases j with
  | zero => cases hj
  | succ j => exact hcycle

end Lasso

end System

end ReliableUdpBench.Lib
