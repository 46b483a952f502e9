import Mathlib.Data.Nat.Notation

/-!
# A producer that looks before it adds

A producer adds to a store, reads the size of the store, and goes on reading until the size it has
read is not above a limit; then it adds again. What it has read can be out of date when it acts on
it, but as everybody else only takes away, the store never holds more than the limit and one
addition (`Bounded.size_le`).
-/

namespace ReliableUdpBench.Lib.Throttle

/-- What the producer does next: add, read the size, or act on the size it has read. -/
inductive Point where
  | push
  | read
  | test (seen : ℕ)
  deriving DecidableEq

/-- A step of the producer, or of somebody who takes away. -/
inductive Step (limit burst : ℕ) : Point × ℕ → Point × ℕ → Prop
  | push {size k : ℕ} (hk : k ≤ burst) : Step limit burst (.push, size) (.read, size + k)
  | read (size : ℕ) : Step limit burst (.read, size) (.test size, size)
  | wait {seen size : ℕ} (h : limit < seen) : Step limit burst (.test seen, size) (.read, size)
  | next {seen size : ℕ} (h : seen ≤ limit) : Step limit burst (.test seen, size) (.push, size)
  | take {size size' : ℕ} (p : Point) (h : size' ≤ size) : Step limit burst (p, size) (p, size')

/-- The size that the producer relies on. -/
def Relies (limit : ℕ) : Point → ℕ → Prop
  | .push, size => size ≤ limit
  | .read, _ => True
  | .test seen, size => size ≤ seen

/-- The store is bounded, and the producer relies on nothing that can have become false. -/
structure Bounded (limit burst : ℕ) (s : Point × ℕ) : Prop where
  size_le : s.2 ≤ limit + burst
  relies : Relies limit s.1 s.2

theorem Relies.mono {limit : ℕ} {p : Point} {size size' : ℕ} (h : Relies limit p size)
    (hle : size' ≤ size) : Relies limit p size' := by
  cases p with
  | push => exact Nat.le_trans hle h
  | read => trivial
  | test seen => exact Nat.le_trans hle h

/-- **A step of the producer or of a taker keeps the bound.** -/
theorem Step.bounded {limit burst : ℕ} {s s' : Point × ℕ} (h : Step limit burst s s')
    (hs : Bounded limit burst s) : Bounded limit burst s' := by
  obtain ⟨hsize, hrelies⟩ := hs
  cases h with
  | push hk => exact ⟨Nat.add_le_add hrelies hk, trivial⟩
  | read size => exact ⟨hsize, Nat.le_refl size⟩
  | wait h => exact ⟨hsize, trivial⟩
  | next h => exact ⟨hsize, Nat.le_trans hrelies h⟩
  | take p h => exact ⟨Nat.le_trans h hsize, hrelies.mono h⟩

end ReliableUdpBench.Lib.Throttle
