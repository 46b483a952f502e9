import Mathlib.Data.List.TakeWhile
import Mathlib.Tactic.Cases

/-!
# Loops that drain an input

A drain loop makes a pass over one input after the other until a pass says that there is no more.
Where some inputs are items to be collected and the others are not, it is meant to stop at the first
that is not an item. It does so if and only if the pass over that one stops
(`stopsAtFirst_iff`).
-/

namespace ReliableUdpBench.Lib

variable {σ ι τ : Type*}

/-- The loop. A pass gives the state and whether there is more, or does not end; the loop gives the
state and the inputs it has not used, or does not end with the inputs it has. -/
def drain (pass : σ → ι → Option (σ × Bool)) (s : σ) : List ι → Option (σ × List ι)
  | [] => none
  | i :: is => (pass s i).bind fun r => if r.2 then drain pass r.1 is else some (r.1, is)

/-- The loop uses an input. -/
theorem drain_length {pass : σ → ι → Option (σ × Bool)} {s s' : σ} {is rest : List ι}
    (h : drain pass s is = some (s', rest)) : rest.length < is.length := by
  induction is generalizing s with
  | nil => cases h
  | cons i is ih =>
    obtain ⟨⟨t, more⟩, -, hrest⟩ := Option.bind_eq_some_iff.mp h
    cases more with
    | true => exact (ih hrest).trans (Nat.lt_succ_self _)
    | false =>
      cases hrest
      exact Nat.lt_succ_self _

/-- The same input again and again keeps the loop going if a pass over it does not change the state
and says that there is more. -/
theorem drain_replicate {pass : σ → ι → Option (σ × Bool)} {s : σ} {i : ι}
    (h : pass s i = some (s, true)) (n : ℕ) : drain pass s (List.replicate n i) = none := by
  induction n with
  | zero => rfl
  | succ n ih => simp [List.replicate_succ, drain, h, ih]

section StopsAtFirst

variable (pass : σ → ι → Option (σ × Bool)) (item : ι → Bool) (collect : σ → ι → σ) (obs : σ → τ)

/-- The loop ends right after the first input that is not an item, having collected the items before
it, as far as `obs` shows. -/
def StopsAtFirst (s : σ) (is : List ι) : Prop :=
  ∃ s', drain pass s is = some (s', (is.dropWhile item).tail) ∧
    obs s' = obs ((is.takeWhile item).foldl collect s)

variable {pass item collect obs}

/-- **A drain loop stops at the first input that is not an item if and only if its pass does.** -/
theorem stopsAtFirst_iff {stops : ι → Bool}
    (hitem : ∀ s i, item i = true → pass s i = some (collect s i, true))
    (hother : ∀ s i, item i = false → ∃ s', pass s i = some (s', !stops i) ∧ obs s' = obs s)
    {s : σ} {is : List ι} {i : ι} (first : is.find? (fun i => !item i) = some i) :
    StopsAtFirst pass item collect obs s is ↔ stops i = true := by
  induction is generalizing s with
  | nil => cases first
  | cons j is ih =>
    cases hj : item j with
    | true =>
      rw [List.find?_cons_of_neg (by simp [hj])] at first
      rw [← ih (s := collect s j) first]
      simp [StopsAtFirst, drain, hitem s j hj, hj]
    | false =>
      rw [List.find?_cons_of_pos (by simp [hj])] at first
      cases first
      obtain ⟨s', hpass, hobs⟩ := hother s i hj
      cases hstops : stops i with
      | true => simp [StopsAtFirst, drain, hpass, hobs, hstops, hj]
      | false =>
        -- the loop goes on, and can then not leave all of the inputs behind this one
        refine iff_of_false ?_ (by simp)
        rintro ⟨t, hdrain, -⟩
        simp only [drain, hpass, hstops, Option.bind_some, Bool.not_false, if_true] at hdrain
        have hlen := drain_length hdrain
        simp [hj] at hlen

end StopsAtFirst

end ReliableUdpBench.Lib
