import Mathlib.Algebra.BigOperators.Group.List.Basic

/-!
# A log cut into windows

Items arrive one by one, and now and then an arrival closes a window; the item that closes a window
belongs to it. However the cuts are chosen, the closed windows and the items since are the log
(`items_add`), so that a counter for every window and one for the items since add up to the counter
of everything (`sum_weight`).
-/

namespace ReliableUdpBench.Lib

variable {α M : Type*}

/-- The windows closed so far, and the items since the last of them. -/
structure Windows (α : Type*) where
  closed : List (List α)
  pending : List α

namespace Windows

/-- The log before the first item. -/
def empty : Windows α := ⟨[], []⟩

/-- An item arrives, and closes a window or not. -/
def add (w : Windows α) (close : Bool) (a : α) : Windows α :=
  if close then ⟨w.closed ++ [w.pending ++ [a]], []⟩ else ⟨w.closed, w.pending ++ [a]⟩

/-- All items so far. -/
def items (w : Windows α) : List α := w.closed.flatten ++ w.pending

theorem add_true (w : Windows α) (a : α) :
    w.add true a = ⟨w.closed ++ [w.pending ++ [a]], []⟩ := rfl

theorem add_false (w : Windows α) (a : α) : w.add false a = ⟨w.closed, w.pending ++ [a]⟩ := rfl

/-- **Cutting loses nothing and counts nothing twice.** -/
theorem items_add (w : Windows α) (close : Bool) (a : α) :
    (w.add close a).items = w.items ++ [a] := by
  cases close with
  | true => simp [add_true, items]
  | false => simp [add_false, items]

/-- What the windows weigh and what is pending weighs are together the weight of everything. -/
theorem sum_weight [AddCommMonoid M] (weight : α → M) (w : Windows α) :
    (w.closed.map fun b => (b.map weight).sum).sum + (w.pending.map weight).sum =
      (w.items.map weight).sum := by
  rw [items, List.map_append, List.sum_append, List.map_flatten, List.sum_flatten, List.map_map]
  rfl

end Windows

end ReliableUdpBench.Lib
