/-
# Opaque predicates never fail

Each form of a predicate compares a remainder of a polynomial in `n` with a number. The remainder
only depends on that of `n`, so that finitely many cases decide for all integers. Division
rounded toward zero leaves another remainder than division rounded down where the dividend is
negative, but none of the forms can tell: two of them say that nothing is left, and the dividends of
the other two are never negative.

Main statements:

* `accepts_fmod`, `accepts_tmod`, the forms are true of all integers under both divisions;
* `predicates_hold`, they are also true as words of 64 bits and as floating-point numbers, wherever
  these are exact, and so they are at all arguments of guards.
-/
import LuaVeil.Proofs.Number.Doubles
import LuaVeil.Proofs.Veil.Snippets
import Mathlib.Data.Int.ModEq
import Mathlib.Tactic.IntervalCases

namespace LuaVeil.PredicateForm

/-! ## Forms as comparisons -/

/-- The square of the argument. -/
def square : Term .product :=
  .apply .mul (.tight .argument) .argument

/-- The number that is divided, as Lua computes it. -/
def polynomial : PredicateForm → Term .sum
  | evenProduct => .apply .add (.tight square) (.tight .argument)
  | cubeDifference => .apply .sub (.tight (.apply .mul square .argument)) (.tight .argument)
  | squareRemainder => .tight square
  | scaledSquare =>
    .apply .add
      (.tight (.apply .mul (.apply .mul (.tight (.numeral 7)) .argument) .argument))
      (.tight (.numeral 6))

/-- The number with which the remainder is compared, and whether it is to be that number. -/
def verdict : PredicateForm → Bool × Nat
  | evenProduct => (true, 0)
  | cubeDifference => (true, 0)
  | squareRemainder => (false, 2)
  | scaledSquare => (true, 6)

variable (f : PredicateForm)

theorem divisor_pos : 0 < f.divisor := by
  cases f <;> decide

/-- What a form says of its argument. -/
def comparison : Comparison where
  left :=
    .tight (.remainder (.tight (.bracketed f.polynomial)) f.divisor.toNat
      (Int.lt_toNat.2 f.divisor_pos))
  equal := f.verdict.1
  right := .tight (.tight (.numeral f.verdict.2))

theorem body_eq : f.body = "return ".toList ++ f.comparison.text := by
  cases f <;> decide +kernel

theorem isTrue_exact (mod : Int → Int → Int) (n : Int) :
    f.comparison.isTrue (.exact mod) n = f.accepts (mod (f.dividend n) f.divisor) := by
  cases f <;> rfl

theorem isTrue_words (n : Int64) : f.comparison.isTrue .words n = f.holds n := by
  cases f <;> rfl

/-! ## Remainders -/

/-- The remainder of the dividend depends on that of the argument only. -/
theorem emod_dividend (n : Int) :
    f.dividend (n % f.divisor) % f.divisor = f.dividend n % f.divisor := by
  have h : n % f.divisor ≡ n [ZMOD f.divisor] := Int.mod_modEq n _
  cases f with
  | evenProduct => exact (h.mul h).add h
  | cubeDifference => exact ((h.mul h).mul h).sub h
  | squareRemainder => exact h.mul h
  | scaledSquare => exact (((Int.ModEq.refl 7).mul h).mul h).add_right 6

theorem accepts_emod (n : Int) : f.accepts (f.dividend n % f.divisor) = true := by
  have hresidue : ∀ r, 0 ≤ r → r < f.divisor → f.accepts (f.dividend r % f.divisor) = true := by
    intro r hr hlt
    cases f <;> simp only [divisor] at hlt <;> interval_cases r <;> rfl
  rw [← f.emod_dividend n]
  exact hresidue _ (Int.emod_nonneg n f.divisor_pos.ne') (Int.emod_lt_of_pos n f.divisor_pos)

/-- What Lua computes is true of every integer. -/
theorem accepts_fmod (n : Int) : f.accepts ((f.dividend n).fmod f.divisor) = true := by
  rw [Int.fmod_eq_emod_of_nonneg _ f.divisor_pos.le]
  exact f.accepts_emod n

/-- So it is when quotients are rounded toward zero. -/
theorem accepts_tmod (n : Int) : f.accepts ((f.dividend n).tmod f.divisor) = true := by
  have h := f.accepts_emod n
  cases f with
  | evenProduct | cubeDifference =>
    have hdvd := Int.dvd_of_emod_eq_zero (beq_iff_eq.1 h)
    exact beq_iff_eq.2 (Int.tmod_eq_zero_of_dvd hdvd)
  | squareRemainder =>
    have hnonneg : 0 ≤ squareRemainder.dividend n := mul_self_nonneg n
    rwa [Int.tmod_eq_emod_of_nonneg hnonneg]
  | scaledSquare =>
    have hnonneg : 0 ≤ scaledSquare.dividend n := by
      have hsquare := mul_self_nonneg n
      rw [dividend, mul_assoc]
      omega
    rwa [Int.tmod_eq_emod_of_nonneg hnonneg]

/-! ## Intermediate values -/

/-- Up to two million nothing overflows a word. -/
theorem fitsWord_of_natAbs_le {n : Int} (h : n.natAbs ≤ 2000000) :
    ∀ v ∈ f.comparison.values .truncated n, FitsWord v := by
  have hmod : ∀ a b : Int, 0 < b → (a.tmod b).natAbs ≤ b.natAbs := by
    intro a b hb
    rw [Int.natAbs_tmod]
    exact (Nat.mod_lt _ (by omega)).le
  have hlimit : ∀ m ∈ f.comparison.values .magnitudes 2000000, m < 2 ^ 63 := by
    cases f <;> decide
  intro v hv
  have hlt := natAbs_lt_of_magnitudes hmod hlimit h v hv
  exact ⟨by omega, by omega⟩

/-- Nothing that is computed for a positive number is negative. -/
theorem nonneg_of_mem_values {n : Int} (h : 1 ≤ n) :
    ∀ v ∈ f.comparison.values .floored n, 0 ≤ v := by
  have hsquare : 0 ≤ n * n := mul_self_nonneg n
  have hcube : n ≤ n * n * n := by nlinarith
  have hscaled : 0 ≤ 7 * n * n := by nlinarith
  have hpolynomial : ∀ v ∈ f.polynomial.values .floored n, 0 ≤ v := by
    cases f <;>
      simp [polynomial, square, Term.values, Term.value, Arithmetic.floored, Arithmetic.exact] <;>
      omega
  have hremainder : 0 ≤ (f.polynomial.value .floored n).fmod f.divisor.toNat :=
    Int.fmod_nonneg_of_pos _ (Int.natCast_pos.2 (Int.lt_toNat.2 f.divisor_pos))
  simp only [Comparison.values, comparison, Term.values, List.forall_mem_append,
    List.forall_mem_singleton]
  exact ⟨⟨⟨hpolynomial, Int.natCast_nonneg _⟩, hremainder⟩, Int.natCast_nonneg _⟩

/-- What is computed for the argument of a guard is far below `2 ^ 53`. -/
theorem fitsDouble_of_le_maxArgument {n : Int} (h : 1 ≤ n) (h' : n ≤ OpaquePredicate.maxArgument) :
    ∀ v ∈ f.comparison.values .floored n, FitsDouble v := by
  have hmod : ∀ a b : Int, 0 < b → (a.fmod b).natAbs ≤ b.natAbs := by
    intro a b hb
    have hnonneg := Int.fmod_nonneg_of_pos a hb
    have hlt := Int.fmod_lt_of_pos a hb
    omega
  have hlimit : ∀ m ∈ f.comparison.values .magnitudes OpaquePredicate.maxArgument.toNat,
      m < 2 ^ 53 := by
    cases f <;> decide
  intro v hv
  have hlt := natAbs_lt_of_magnitudes hmod hlimit (by omega) v hv
  have hnonneg := f.nonneg_of_mem_values h v hv
  exact ⟨hnonneg, by omega⟩

/-! ## Predicates in scripts -/

/--
The body of each predicate says that a comparison is true, and it is: of every integer, when Lua
computes with exact integers; of every word of 64 bits for which nothing overflows, which
are all up to two million at least; and for every number that a guard can hold as it is computed
with floating-point numbers, since nothing on the way has to be rounded.
-/
theorem predicates_hold :
    f.body = "return ".toList ++ f.comparison.text ∧
      (∀ n : Int, f.comparison.isTrue .floored n = true ∧ f.holdsFloored n = true) ∧
      (∀ n : Int64, (∀ v ∈ f.comparison.values .truncated n.toInt, FitsWord v) →
        f.holds n = true) ∧
      (∀ n : Int64, n.toInt.natAbs ≤ 2000000 →
        (∀ v ∈ f.comparison.values .truncated n.toInt, FitsWord v) ∧ f.holds n = true) ∧
      (∀ n : Int, 1 ≤ n → n ≤ OpaquePredicate.maxArgument →
        (∀ v ∈ f.comparison.values .floored n, 0 ≤ v ∧ v < 2 ^ 53) ∧
          List.Forall₂ (fun (v : Int) d => d = some (v : Rat)) (f.comparison.values .floored n)
            (f.comparison.values .doubles (Binary64.round n)) ∧
          f.comparison.isTrue .doubles (Binary64.round n) = true) ∧
      ∀ (name : Name) (s : Source), ∃ n, 1 ≤ n ∧ n ≤ OpaquePredicate.maxArgument ∧
        (OpaquePredicate.guard ⟨name, f⟩ s).1 = name ++ '(' :: Number.decimalInt n ++ [')'] := by
  have hfloored : ∀ n : Int, f.comparison.isTrue .floored n = true := fun n =>
    (f.isTrue_exact Int.fmod n).trans (f.accepts_fmod n)
  have hwords : ∀ n : Int64, (∀ v ∈ f.comparison.values .truncated n.toInt, FitsWord v) →
      f.holds n = true := by
    intro n hfits
    rw [← f.isTrue_words, represents_words.isTrue_eq biUnique_toInt rfl _ hfits]
    exact (f.isTrue_exact Int.tmod _).trans (f.accepts_tmod _)
  refine ⟨f.body_eq, fun n => ⟨hfloored n, f.accepts_fmod n⟩, hwords, ?_, ?_,
    fun name s => exists_guard_eq ⟨name, f⟩ s⟩
  · intro n hn
    have hfits := f.fitsWord_of_natAbs_le hn
    exact ⟨hfits, hwords n hfits⟩
  · intro n hlow hhigh
    have hfits := f.fitsDouble_of_le_maxArgument hlow hhigh
    have hn : FitsDouble n := ⟨by omega, by rw [OpaquePredicate.maxArgument] at hhigh; omega⟩
    refine ⟨hfits, represents_doubles.comparison_values hn.round_eq _ hfits, ?_⟩
    rw [represents_doubles.isTrue_eq biUnique_cast hn.round_eq _ hfits]
    exact hfloored n

/-- The cube of `-2 ^ 21` is the smallest word of 64 bits, and nothing overflows. -/
theorem smallest_cube_holds :
    (∀ v ∈ cubeDifference.comparison.values .truncated (-2097152), FitsWord v) ∧
      cubeDifference.holds (-2097152) = true ∧ cubeDifference.holds (-2000000) = true ∧
      cubeDifference.comparison.isTrue .doubles (Binary64.round (9999 : Int)) = true := by
  obtain ⟨-, -, hfitting, hsmall, hdoubles, -⟩ := cubeDifference.predicates_hold
  have hfits : ∀ v ∈ cubeDifference.comparison.values .truncated (-2097152), FitsWord v := by
    unfold FitsWord
    decide
  exact ⟨hfits, hfitting (-2097152) hfits, (hsmall (-2000000) (by decide)).2,
    (hdoubles 9999 (by decide) (by decide)).2.2⟩

end LuaVeil.PredicateForm
