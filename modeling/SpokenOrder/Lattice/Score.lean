/-!
# Scores

What the lattice asks of the numbers that rate its readings. Programs run with `Float`, where a
score may be infinite or no number at all; the comparisons below are chosen so that such scores,
too, are treated in one definite way. `Rat` gives the same operations without rounding.
-/

namespace SpokenOrder

/-- Numbers that rate readings. -/
class Score (α : Type) where
  zero : α
  one : α
  add : α → α → α
  /-- A score, counted once for each of so many words. -/
  times : α → Nat → α
  /-- The larger of two scores. What is not a number is never the larger. -/
  larger : α → α → α
  /-- Is the first score less than the second? -/
  below : α → α → Bool
  /-- Is the first score no less than the second? -/
  atLeast : α → α → Bool
  /-- Do the scores differ by less than a thousand-millionth? -/
  close : α → α → Bool

/-- Scores as floating-point numbers. Every comparison with what is not a number fails. -/
instance : Score Float where
  zero := 0
  one := 1
  add := (· + ·)
  times s n := s * Float.ofNat n
  larger s t := if s < t || s.isNaN then t else s
  below s t := s < t
  atLeast s t := t ≤ s
  close s t := (s - t).abs < 1e-9

/-- Scores as exact fractions. -/
instance : Score Rat where
  zero := 0
  one := 1
  add := (· + ·)
  times s n := s * n
  larger s t := if s < t then t else s
  below s t := s < t
  atLeast s t := t ≤ s
  close s t := (s - t).abs < 1 / 1000000000

end SpokenOrder
