/-
# Integers as floating-point numbers

The integers below `2 ^ 53` are numbers of the binary64 format, so rounding leaves them alone. A
quotient of two of them need not be such a number, but rounding does not carry it to the next
integer or beyond: its fraction is less than one by at least one part of the divisor, and that is
more than half a step between two numbers of the format. So the remainder that Lua computes from
the quotient, rounded down, is exact.

Main statements:

* `exists_value_ofQuotient`, the number nearest to a quotient;
* `round_natCast`, integers below `2 ^ 53` are not rounded;
* `floor_round_div`, the quotient of two of them has the same whole part when it is rounded;
* `represents_doubles`, floating-point arithmetic on such integers is exact.
-/
import LuaVeil.Number.Binary64
import LuaVeil.Proofs.Lua.Arithmetic
import Mathlib.Data.Rat.Floor
import Mathlib.Tactic.Linarith

namespace LuaVeil

namespace Binary64

/-! ## Rounding to natural numbers -/

theorem le_roundToEven (num den : Nat) : num / den ≤ roundToEven num den := by
  unfold roundToEven
  dsimp only
  split
  · exact Nat.le_refl _
  split <;> exact Nat.le_add_right _ _

/-- Rounding adds no more than one half. -/
theorem roundToEven_mul_le (num den : Nat) : 2 * (roundToEven num den * den) ≤ 2 * num + den := by
  have hdiv := Nat.div_add_mod num den
  have hcomm : num / den * den = den * (num / den) := Nat.mul_comm _ _
  unfold roundToEven
  dsimp only
  split
  · omega
  split
  · rw [Nat.add_mul]
    omega
  · rcases Nat.mod_two_eq_zero_or_one (num / den) with heven | hodd
    · rw [heven, Nat.add_zero]
      omega
    · rw [hodd, Nat.add_mul]
      omega

theorem roundToEven_one (n : Nat) : roundToEven n 1 = n := by
  simp [roundToEven, Nat.mod_one]

/-! ## The value of a number -/

/-- The value of a finite number. -/
def value? : Binary64 → Option Rat
  | finite negative mantissa exponent =>
    some ((if negative then -1 else 1) * mantissa * 2 ^ exponent)
  | infinite _ => none
  | notANumber => none

/-- The number nearest to a rational one, if it is finite. -/
def round (q : Rat) : Option Rat :=
  (ofQuotient (decide (q < 0)) q.num.natAbs q.den).value?

theorem scale_neg (num den k : Nat) : scale num den (-k) = (num * 2 ^ k, den) := by
  simp [scale]

/-- A mantissa that has become too long is halved. -/
theorem value?_of_rounded {rounded : Nat} {exponent : Int} (h : exponent < maxExponent) :
    (match if rounded = Nat.pow 2 53 then (Nat.pow 2 52, exponent + 1) else (rounded, exponent) with
      | (mantissa, exponent) =>
        if maxExponent < exponent then infinite false else finite false mantissa exponent).value? =
      some (rounded * 2 ^ exponent : Rat) := by
  split_ifs with hlong
  · dsimp only
    rw [if_neg (by omega), value?, hlong, zpow_add₀ (by norm_num)]
    norm_num
    ring
  · dsimp only
    rw [if_neg (by omega), value?]
    simp

/-- The number nearest to a quotient, in steps that are no larger than the divisor allows. -/
theorem exists_value_ofQuotient {num den : Nat} (hnum : 0 < num) (hden : 0 < den)
    (hnum' : num < 2 ^ 53) (hden' : den < 2 ^ 53) :
    ∃ k, den.log2 ≤ k ∧ (ofQuotient false num den).value? =
      some (roundToEven (num * 2 ^ k) den / 2 ^ k : Rat) := by
  have hlogNum : num.log2 < 53 := (Nat.log2_lt hnum.ne').2 hnum'
  have hlogDen : den.log2 < 53 := (Nat.log2_lt hden.ne').2 hden'
  have hlow : max ((num.log2 : Int) - den.log2 - 53) minExponent = num.log2 - den.log2 - 53 :=
    max_eq_left (by rw [minExponent]; omega)
  unfold ofQuotient
  rw [if_neg hnum.ne']
  dsimp only
  rw [hlow]
  generalize hexponent : (if Nat.pow 2 53 ≤ (scale num den (num.log2 - den.log2 - 53)).1 /
    (scale num den (num.log2 - den.log2 - 53)).2 then (num.log2 : Int) - den.log2 - 53 + 1
    else num.log2 - den.log2 - 53) = exponent
  obtain ⟨k, hk, rfl⟩ : ∃ k : Nat, den.log2 ≤ k ∧ exponent = -k := by
    refine ⟨(-exponent).toNat, ?_, ?_⟩ <;> split_ifs at hexponent <;> omega
  refine ⟨k, hk, ?_⟩
  rw [scale_neg]
  rw [value?_of_rounded (by rw [maxExponent]; omega)]
  rw [zpow_neg, zpow_natCast, div_eq_mul_inv]

/-- Rounding does not carry a quotient to the next integer. -/
theorem roundToEven_div {den k : Nat} (num : Nat) (hden : 0 < den) (hk : den.log2 ≤ k) :
    roundToEven (num * 2 ^ k) den / 2 ^ k = num / den := by
  have hstep : den < 2 * 2 ^ k := by
    calc den < 2 ^ (den.log2 + 1) := Nat.lt_log2_self
      _ ≤ 2 ^ (k + 1) := Nat.pow_le_pow_right two_pos (by omega)
      _ = 2 * 2 ^ k := by rw [Nat.pow_succ, Nat.mul_comm]
  refine Nat.div_eq_of_lt_le ?_ ?_
  · refine le_trans ?_ (le_roundToEven _ _)
    rw [Nat.le_div_iff_mul_le hden]
    calc num / den * 2 ^ k * den = num / den * den * 2 ^ k := by ring
      _ ≤ num * 2 ^ k := Nat.mul_le_mul_right _ (Nat.div_mul_le_self num den)
  · by_contra hge
    have hround := roundToEven_mul_le (num * 2 ^ k) den
    have hnext : (num + 1) * 2 ^ k ≤ roundToEven (num * 2 ^ k) den * den := by
      calc (num + 1) * 2 ^ k ≤ den * (num / den + 1) * 2 ^ k :=
            Nat.mul_le_mul_right _ (Nat.lt_mul_div_succ num hden)
        _ = (num / den + 1) * 2 ^ k * den := by ring
        _ ≤ roundToEven (num * 2 ^ k) den * den := Nat.mul_le_mul_right _ (Nat.le_of_not_lt hge)
    rw [Nat.add_mul] at hnext
    omega

/-! ## Rounding integers and their quotients -/

/-- Integers below `2 ^ 53` are not rounded. -/
theorem round_natCast {n : Nat} (h : n < 2 ^ 53) : round n = some (n : Rat) := by
  have hsign : decide ((n : Rat) < 0) = false := by simp
  rw [round, hsign, Rat.num_natCast, Int.natAbs_natCast, Rat.den_natCast]
  rcases Nat.eq_zero_or_pos n with rfl | hpos
  · simp [ofQuotient, value?]
  · obtain ⟨k, -, hvalue⟩ := exists_value_ofQuotient hpos Nat.one_pos h (by norm_num)
    have htwo : (2 ^ k : Rat) ≠ 0 := by positivity
    rw [hvalue, roundToEven_one, Nat.cast_mul, Nat.cast_pow, Nat.cast_ofNat,
      mul_div_cancel_right₀ _ htwo]

/-- A number of small numerator and denominator has the same whole part when it is rounded. -/
theorem floor_round {q : Rat} (h : 0 ≤ q) (hnum : q.num < 2 ^ 53) (hden : q.den < 2 ^ 53) :
    ∃ d, round q = some d ∧ ⌊d⌋ = ⌊q⌋ := by
  obtain ⟨num, heq⟩ := Int.eq_ofNat_of_zero_le (Rat.num_nonneg.2 h)
  have hwhole : ⌊q⌋ = (num / q.den : Nat) := by
    calc ⌊q⌋ = ⌊(q.num / q.den : Rat)⌋ := by rw [Rat.num_div_den]
      _ = q.num / q.den := Rat.floor_intCast_div_natCast _ _
      _ = (num / q.den : Nat) := by rw [heq, Int.natCast_div]
  rcases Nat.eq_zero_or_pos num with rfl | hpos
  · obtain rfl : q = 0 := Rat.num_eq_zero.1 heq
    exact ⟨0, round_natCast (n := 0) (by norm_num), rfl⟩
  · have hlt : num < 2 ^ 53 := by omega
    obtain ⟨k, hk, hvalue⟩ := exists_value_ofQuotient hpos q.den_pos hlt hden
    have hsign : decide (q < 0) = false := by simpa using h
    refine ⟨_, by rw [round, hsign, heq, Int.natAbs_natCast, hvalue], ?_⟩
    have hcast : ((2 : Rat) ^ k) = ((2 ^ k : Nat) : Rat) := by norm_num
    rw [hcast, Rat.floor_natCast_div_natCast, hwhole, ← roundToEven_div num q.den_pos hk]
    norm_cast

/-- The quotient of two integers below `2 ^ 53` has the same whole part when it is rounded. -/
theorem floor_round_div {a b : Nat} (hb : 0 < b) (ha : a < 2 ^ 53) (hb' : b < 2 ^ 53) :
    ∃ d, round (a / b) = some d ∧ ⌊d⌋ = (a / b : Nat) := by
  have hquotient : (a / b : Rat) = Rat.divInt a b := by
    rw [Rat.divInt_eq_div, Int.cast_natCast, Int.cast_natCast]
  have hnum : (a / b : Rat).num ≤ a := by
    rcases Nat.eq_zero_or_pos a with rfl | hpos
    · simp
    · rw [hquotient]
      exact Int.le_of_dvd (by omega) (Rat.num_dvd a (by omega))
  have hden : ((a / b : Rat).den : Int) ≤ b := by
    rw [hquotient]
    exact Int.le_of_dvd (by omega) (Rat.den_dvd a b)
  obtain ⟨d, hd, hfloor⟩ := floor_round (q := a / b) (by positivity) (by omega) (by omega)
  exact ⟨d, hd, hfloor.trans (by rw [Rat.floor_natCast_div_natCast]; norm_cast)⟩

end Binary64
/-! ## Arithmetic with rounding -/

/--
Floating-point numbers as Lua computes with them, as far as they are finite. Each result is rounded,
and a remainder is what is left of a number by a multiple of the divisor, the quotient rounded down.
-/
def Arithmetic.doubles : Arithmetic (Option Rat) where
  numeral k := Binary64.round k
  apply
    | .add, a, b => do Binary64.round ((← a) + (← b))
    | .sub, a, b => do Binary64.round ((← a) - (← b))
    | .mul, a, b => do Binary64.round ((← a) * (← b))
  mod a b := do
    let a ← a
    let b ← b
    if b = 0 then none
    else
      let quotient ← Binary64.round (a / b)
      let multiple ← Binary64.round (⌊quotient⌋ * b)
      Binary64.round (a - multiple)

/-- Whether an integer is one of the first `2 ^ 53`. -/
def FitsDouble (v : Int) : Prop :=
  0 ≤ v ∧ v < 2 ^ 53

theorem FitsDouble.round_eq {v : Int} (h : FitsDouble v) : Binary64.round v = some (v : Rat) := by
  obtain ⟨n, rfl⟩ := Int.eq_ofNat_of_zero_le h.1
  have hlt : n < 2 ^ 53 := by have := h.2; omega
  rw [Int.cast_natCast]
  exact Binary64.round_natCast hlt

/-- A remainder is exact even though the quotient is rounded. -/
theorem doubles_mod {a b : Nat} (hb : 0 < b) (ha : a < 2 ^ 53) (hb' : b < 2 ^ 53) :
    Arithmetic.doubles.mod (some (a : Rat)) (some (b : Rat)) = some ((a % b : Nat) : Rat) := by
  obtain ⟨quotient, hquotient, hfloor⟩ := Binary64.floor_round_div hb ha hb'
  have hle : a / b * b ≤ a := Nat.div_mul_le_self a b
  have hmultiple : ((⌊quotient⌋ : Rat) * b) = (a / b * b : Nat) := by rw [hfloor]; push_cast; rfl
  have hrest : (a : Rat) - (a / b * b : Nat) = (a % b : Nat) := by
    rw [← Nat.cast_sub hle, Nat.mod_eq_sub_div_mul]
  have hzero : (b : Rat) ≠ 0 := by positivity
  have hmod : a % b < 2 ^ 53 := lt_of_le_of_lt (Nat.mod_le a b) ha
  simp only [Arithmetic.doubles, Option.bind_eq_bind, Option.bind_some, if_neg hzero, hquotient,
    hmultiple, Binary64.round_natCast (lt_of_le_of_lt hle ha), hrest, Binary64.round_natCast hmod]

/-- Floating-point numbers compute with integers below `2 ^ 53` without an error. -/
theorem represents_doubles :
    Represents .floored .doubles FitsDouble fun v d => d = some (v : Rat) where
  numeral := by
    intro k h
    exact h.round_eq
  apply := by
    rintro o a b _ _ h rfl rfl
    cases o with
    | add => exact (congrArg Binary64.round (Int.cast_add a b).symm).trans h.round_eq
    | sub => exact (congrArg Binary64.round (Int.cast_sub a b).symm).trans h.round_eq
    | mul => exact (congrArg Binary64.round (Int.cast_mul a b).symm).trans h.round_eq
  mod := by
    rintro a _ _ divisor hpos ha hdivisor - rfl rfl
    obtain ⟨n, rfl⟩ := Int.eq_ofNat_of_zero_le ha.1
    have hn : n < 2 ^ 53 := by have := ha.2; omega
    have hdivisor' : (divisor : Int) < 2 ^ 53 := hdivisor.2
    have hmod : Arithmetic.floored.mod n (Arithmetic.floored.numeral divisor) =
        (n % divisor : Nat) :=
      Int.fmod_eq_emod_of_nonneg n (Int.natCast_nonneg divisor)
    rw [hmod]
    exact doubles_mod hpos hn (by omega)

theorem biUnique_cast : Relator.BiUnique fun (v : Int) (d : Option Rat) => d = some (v : Rat) :=
  ⟨fun _ _ _ h h' => Int.cast_inj.1 (Option.some_inj.1 (h.symm.trans h')),
    fun _ _ _ h h' => h.trans h'.symm⟩

end LuaVeil
