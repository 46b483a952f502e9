import Mathlib.Data.Nat.Notation
import Mathlib.Logic.Relation

/-!
# Conduits: an ordered flow through a row of stages

A conduit holds what has entered it in a row of stages, the exit first. Data enters at the last
stage and moves, a leading part at a time, from the front of a stage to the end of the one before
it. Nothing else happens, so the stages read in order are always exactly what has entered
(`Conduit.conserved_of_flow`), and the exit stage is a prefix of it. What the first stages hold
together never gets less (`Conduit.held_le_of_flow`).
-/

namespace ReliableUdpBench.Lib

/-- What has entered, and the stages it is spread over, the exit first. -/
structure Conduit (α : Type*) where
  entered : List α
  stages : List (List α)

namespace Conduit

variable {α : Type*}

/-- Data enters at the last stage, or a leading part of a stage moves to the one before it. -/
inductive Flow : Conduit α → Conduit α → Prop
  | enter (e x last : List α) (before : List (List α)) :
      Flow ⟨e, before ++ [last]⟩ ⟨e ++ x, before ++ [last ++ x]⟩
  | advance (e a b c : List α) (before after : List (List α)) :
      Flow ⟨e, before ++ a :: (b ++ c) :: after⟩ ⟨e, before ++ (a ++ b) :: c :: after⟩

/-- The stages in order hold exactly what has entered. -/
def Conserved (c : Conduit α) : Prop := c.stages.flatten = c.entered

theorem Flow.conserved {c d : Conduit α} (h : Flow c d) (hc : c.Conserved) : d.Conserved := by
  cases h with
  | enter e x last before => simp_all [Conserved, ← List.append_assoc]
  | advance e a b c before after => simpa [Conserved] using hc

/-- **Conservation.** However the data flows, nothing is lost, repeated or reordered. -/
theorem conserved_of_flow {c d : Conduit α} (h : Relation.ReflTransGen Flow c d)
    (hc : c.Conserved) : d.Conserved := by
  induction h with
  | refl => exact hc
  | tail _ hstep ih => exact hstep.conserved ih

/-- The exit stage is a prefix of what has entered. -/
theorem Conserved.exit_prefix {e out : List α} {rest : List (List α)}
    (h : Conserved ⟨e, out :: rest⟩) : out <+: e :=
  ⟨rest.flatten, h⟩

/-- A leading part `b` of stage 1 leaves through the exit. -/
theorem flow_exit (e a b c : List α) (after : List (List α)) :
    Flow ⟨e, a :: (b ++ c) :: after⟩ ⟨e, (a ++ b) :: c :: after⟩ :=
  .advance e a b c [] after

/-! ### What the first stages hold -/

/-- The stage at a place, counted from the exit. -/
def stage (i : ℕ) (c : Conduit α) : List α := c.stages.getD i []

/-- How much the first `i` stages hold. -/
def held (i : ℕ) (c : Conduit α) : ℕ := (c.stages.take i).flatten.length

theorem held_succ (i : ℕ) (c : Conduit α) : c.held (i + 1) = c.held i + (c.stage i).length := by
  rw [held, List.take_add_one, List.flatten_append, List.length_append, held, stage,
    List.getD_eq_getElem?_getD]
  cases c.stages[i]? with
  | none => rfl
  | some s => simp

theorem held_of_length_le {i : ℕ} {c : Conduit α} (h : c.stages.length ≤ i) :
    c.held i = c.stages.flatten.length := by
  rw [held, List.take_of_length_le h]

/-- The data of the first stages stays there or goes on to the exit. -/
theorem Flow.held_le {c d : Conduit α} (h : Flow c d) (i : ℕ) : c.held i ≤ d.held i := by
  cases h with
  | enter e x last before =>
    simp only [held, List.take_append, List.flatten_append, List.length_append]
    cases i - before.length with
    | zero => simp
    | succ m => simp
  | advance e a b c before after =>
    simp only [held, List.take_append, List.flatten_append, List.length_append]
    rcases i - before.length with _ | _ | m
    · simp
    · simp
    · simp only [List.take_succ_cons, List.flatten_cons, List.length_append]
      omega

theorem held_le_of_flow {c d : Conduit α} (h : Relation.ReflTransGen Flow c d) (i : ℕ) :
    c.held i ≤ d.held i := by
  induction h with
  | refl => exact Nat.le_refl _
  | tail _ hstep ih => exact Nat.le_trans ih (hstep.held_le i)

theorem Flow.isPrefix_entered {c d : Conduit α} (h : Flow c d) : c.entered <+: d.entered := by
  cases h with
  | enter e x last before => exact List.prefix_append e x
  | advance e a b c before after => exact List.prefix_refl e

theorem isPrefix_entered_of_flow {c d : Conduit α} (h : Relation.ReflTransGen Flow c d) :
    c.entered <+: d.entered := by
  induction h with
  | refl => exact List.prefix_refl _
  | tail _ hstep ih => exact ih.trans hstep.isPrefix_entered

/-- The exit stage, where that is the first. -/
theorem Conserved.isPrefix_stage {c : Conduit α} (h : c.Conserved) : c.stage 0 <+: c.entered := by
  rw [← show c.stages.flatten = c.entered from h, stage]
  cases c.stages with
  | nil => exact List.prefix_refl _
  | cons out rest => exact List.prefix_append out rest.flatten

end Conduit

end ReliableUdpBench.Lib
