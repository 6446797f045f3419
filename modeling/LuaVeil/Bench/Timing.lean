/-
# Timing

Work is done once to warm up and then, at least once, with a look at a clock
before and after.

Main statements: `least_mul_le_total` and `total_le_greatest_mul`, by which the
mean time is between the least and the greatest.
-/

namespace LuaVeil.Bench

/-- How long repeated work took. -/
structure Timing where
  iterations : Nat
  total : Nat
  least : Nat
  greatest : Nat

namespace Timing

/-- What follows from the time of one piece of work. -/
def ofTime (t : Nat) : Timing :=
  ⟨1, t, t, t⟩

/-- What follows if one more piece of work took the time `t`. -/
def add (s : Timing) (t : Nat) : Timing :=
  ⟨s.iterations + 1, s.total + t, min s.least t, max s.greatest t⟩

/-- The mean time. -/
def mean (s : Timing) : Rat :=
  mkRat s.total s.iterations

/-- What follows from the time of one piece of work and the times of some more. -/
def ofTimes (first : Nat) (more : List Nat) : Timing :=
  more.foldl add (ofTime first)

theorem least_mul_le_total_of_foldl (more : List Nat) {s : Timing}
    (h : s.least * s.iterations ≤ s.total) :
    (more.foldl add s).least * (more.foldl add s).iterations ≤ (more.foldl add s).total := by
  induction more generalizing s with
  | nil => exact h
  | cons t more ih =>
    refine ih ?_
    have h1 := Nat.mul_le_mul_right s.iterations (Nat.min_le_left s.least t)
    have h2 := Nat.min_le_right s.least t
    simp only [add, Nat.mul_add, Nat.mul_one]
    omega

theorem total_le_greatest_mul_of_foldl (more : List Nat) {s : Timing}
    (h : s.total ≤ s.greatest * s.iterations) :
    (more.foldl add s).total ≤ (more.foldl add s).greatest * (more.foldl add s).iterations := by
  induction more generalizing s with
  | nil => exact h
  | cons t more ih =>
    refine ih ?_
    have h1 := Nat.mul_le_mul_right s.iterations (Nat.le_max_left s.greatest t)
    have h2 := Nat.le_max_right s.greatest t
    simp only [add, Nat.mul_add, Nat.mul_one]
    omega

/-- The mean time is at least the least. -/
theorem least_mul_le_total (first : Nat) (more : List Nat) :
    (ofTimes first more).least * (ofTimes first more).iterations ≤ (ofTimes first more).total :=
  least_mul_le_total_of_foldl more (by simp [ofTime])

/-- The mean time is at most the greatest. -/
theorem total_le_greatest_mul (first : Nat) (more : List Nat) :
    (ofTimes first more).total ≤ (ofTimes first more).greatest * (ofTimes first more).iterations :=
  total_le_greatest_mul_of_foldl more (by simp [ofTime])

end Timing

/-- The time that work takes by a clock. -/
def timed [Monad m] (clock : m Nat) (work : m Unit) : m Nat := do
  let start ← clock
  work
  let stop ← clock
  return stop - start

/-- Do work once, and then as often as is said, but at least once, while looking at a clock. -/
def timeRuns [Monad m] (clock : m Nat) (work : m Unit) (iterations : Nat) : m Timing := do
  work
  let first ← timed clock work
  let more ← (List.replicate (iterations - 1) ()).mapM fun _ => timed clock work
  return .ofTimes first more

end LuaVeil.Bench
