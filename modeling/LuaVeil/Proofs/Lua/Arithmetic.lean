/-
# Arithmetic in Lua

A term on one number `n` is made of sums, products and remainders, and of brackets around such
terms. Its rank says how tightly it holds together: the operands of an operator bind at least as
tightly as the operator, and the second one more tightly, as in the grammar of Lua.

A term has a value in each arithmetic: that of the integers, that of words of 64 bits, and that of
floating-point numbers. What a machine computes is the exact value as long as nothing that is
computed on the way is too large for it.

Main statements:

* `Represents.value`, `Represents.values`, what is computed with the numbers of a machine represents
  the exact values as long as these fit;
* `represents_words`, words of 64 bits represent integers that are not beyond them;
* `represents_magnitudes`, bounds of absolute values are computed like the values themselves.
-/
import LuaVeil.Number.Digits
import Mathlib.Algebra.Group.Nat.Defs
import Mathlib.Algebra.Ring.Int.Defs
import Mathlib.Data.List.Forall2

namespace LuaVeil

/-! ## Terms -/

/-- How tightly a term holds together. -/
inductive Rank where
  | sum
  | product
  | factor
  deriving DecidableEq

/-- The rank of the second operand of an operator: operators of one rank group to the left. -/
def Rank.tighter : Rank → Rank
  | sum => product
  | product => factor
  | factor => factor

/-- The operators of ring arithmetic. -/
inductive Operator where
  | add
  | sub
  | mul
  deriving DecidableEq

namespace Operator

def rank : Operator → Rank
  | add => .sum
  | sub => .sum
  | mul => .product

def symbol : Operator → Char
  | add => '+'
  | sub => '-'
  | mul => '*'

end Operator

/-- A term on the number `n`. Remainders are those of division by a numeral other than zero. -/
inductive Term : Rank → Type where
  | numeral (k : Nat) : Term .factor
  | argument : Term .factor
  | bracketed (t : Term .sum) : Term .factor
  | tight {r : Rank} (t : Term r.tighter) : Term r
  | apply (o : Operator) (a : Term o.rank) (b : Term o.rank.tighter) : Term o.rank
  | remainder (a : Term .product) (divisor : Nat) (h : 0 < divisor) : Term .product

/-- What Lua reads as a term. -/
def Term.text {r : Rank} : Term r → Text
  | numeral k => Number.decimal k
  | argument => ['n']
  | bracketed t => '(' :: t.text ++ [')']
  | tight t => t.text
  | apply o a b => a.text ++ ' ' :: o.symbol :: ' ' :: b.text
  | remainder a divisor _ => a.text ++ " % ".toList ++ Number.decimal divisor

/-- Two terms that are said to be equal, or to be different. -/
structure Comparison where
  left : Term .sum
  equal : Bool
  right : Term .sum

/-- What Lua reads as a comparison. -/
def Comparison.text (c : Comparison) : Text :=
  c.left.text ++ (if c.equal then " == " else " ~= ").toList ++ c.right.text

/-! ## Values -/

/-- A kind of numbers to compute with. -/
structure Arithmetic (α : Type) where
  numeral : Nat → α
  apply : Operator → α → α → α
  mod : α → α → α

namespace Term

variable {α : Type} (A : Arithmetic α) (x : α)

/-- The value of a term for the number `x`. -/
def value {r : Rank} : Term r → α
  | numeral k => A.numeral k
  | argument => x
  | bracketed t => t.value
  | tight t => t.value
  | apply o a b => A.apply o a.value b.value
  | remainder a divisor _ => A.mod a.value (A.numeral divisor)

/-- All values that are computed on the way to the value of a term, which is the last of them. -/
def values {r : Rank} : Term r → List α
  | numeral k => [A.numeral k]
  | argument => [x]
  | bracketed t => t.values
  | tight t => t.values
  | apply o a b => a.values ++ b.values ++ [A.apply o (a.value A x) (b.value A x)]
  | remainder a divisor _ =>
    a.values ++ [A.numeral divisor] ++ [A.mod (a.value A x) (A.numeral divisor)]

theorem value_mem_values {r : Rank} (t : Term r) : t.value A x ∈ t.values A x := by
  induction t with
  | numeral k => exact List.mem_singleton_self _
  | argument => exact List.mem_singleton_self _
  | bracketed t ih => exact ih
  | tight t ih => exact ih
  | apply o a b _ _ => exact List.mem_append_right _ (List.mem_singleton_self _)
  | remainder a divisor h _ => exact List.mem_append_right _ (List.mem_singleton_self _)

end Term

namespace Comparison

variable {α : Type} (A : Arithmetic α) (x : α)

def values (c : Comparison) : List α :=
  c.left.values A x ++ c.right.values A x

/-- Whether a comparison is true of the number `x`. -/
def isTrue [DecidableEq α] (c : Comparison) : Bool :=
  if c.equal then c.left.value A x == c.right.value A x else c.left.value A x != c.right.value A x

end Comparison

/-! ## Numbers that represent others -/

/--
Whether `B` computes what represents the numbers of `A`, as long as these fit. What represents a
number may be the number itself in another form, or no more than a bound of it.
-/
structure Represents {α β : Type} (A : Arithmetic α) (B : Arithmetic β) (fits : α → Prop)
    (rep : α → β → Prop) : Prop where
  numeral : ∀ k, fits (A.numeral k) → rep (A.numeral k) (B.numeral k)
  apply : ∀ o {a b : α} {a' b' : β}, fits (A.apply o a b) → rep a a' → rep b b' →
    rep (A.apply o a b) (B.apply o a' b')
  mod : ∀ {a : α} {a' d' : β} {divisor : Nat}, 0 < divisor → fits a → fits (A.numeral divisor) →
    fits (A.mod a (A.numeral divisor)) → rep a a' → rep (A.numeral divisor) d' →
      rep (A.mod a (A.numeral divisor)) (B.mod a' d')

namespace Represents

variable {α β : Type} {A : Arithmetic α} {B : Arithmetic β} {fits : α → Prop} {rep : α → β → Prop}
  {x : α} {x' : β} {r : Rank}

/-- Where all values of a term fit, its value is represented. -/
theorem value (h : Represents A B fits rep) (hx : rep x x') (t : Term r)
    (hfits : ∀ v ∈ t.values A x, fits v) : rep (t.value A x) (t.value B x') := by
  induction t with
  | numeral k => exact h.numeral k (hfits _ (List.mem_singleton_self _))
  | argument => exact hx
  | bracketed t ih => exact ih hfits
  | tight t ih => exact ih hfits
  | apply o a b iha ihb =>
    obtain ⟨hoperands, hresult⟩ := List.forall_mem_append.1 hfits
    obtain ⟨ha, hb⟩ := List.forall_mem_append.1 hoperands
    exact h.apply o (hresult _ (List.mem_singleton_self _)) (iha ha) (ihb hb)
  | remainder a divisor hpos iha =>
    obtain ⟨hoperands, hresult⟩ := List.forall_mem_append.1 hfits
    obtain ⟨ha, hdivisor⟩ := List.forall_mem_append.1 hoperands
    have hd := hdivisor _ (List.mem_singleton_self _)
    exact h.mod hpos (ha _ (a.value_mem_values A x)) hd (hresult _ (List.mem_singleton_self _))
      (iha ha) (h.numeral divisor hd)

/-- Then all that is computed on the way is represented. -/
theorem values (h : Represents A B fits rep) (hx : rep x x') (t : Term r)
    (hfits : ∀ v ∈ t.values A x, fits v) : List.Forall₂ rep (t.values A x) (t.values B x') := by
  have hvalue := h.value hx t hfits
  induction t with
  | numeral k => exact .cons hvalue .nil
  | argument => exact .cons hx .nil
  | bracketed t ih => exact ih hfits hvalue
  | tight t ih => exact ih hfits hvalue
  | apply o a b iha ihb =>
    obtain ⟨hoperands, -⟩ := List.forall_mem_append.1 hfits
    obtain ⟨ha, hb⟩ := List.forall_mem_append.1 hoperands
    have hleft := iha ha (h.value hx a ha)
    have hright := ihb hb (h.value hx b hb)
    exact List.rel_append (List.rel_append hleft hright) (.cons hvalue .nil)
  | remainder a divisor hpos iha =>
    obtain ⟨hoperands, -⟩ := List.forall_mem_append.1 hfits
    obtain ⟨ha, hdivisor⟩ := List.forall_mem_append.1 hoperands
    have hleft := iha ha (h.value hx a ha)
    have hnumeral := h.numeral divisor (hdivisor _ (List.mem_singleton_self _))
    exact List.rel_append (List.rel_append hleft (.cons hnumeral .nil)) (.cons hvalue .nil)

/-- So it is for both terms of a comparison. -/
theorem comparison_values (h : Represents A B fits rep) (hx : rep x x') (c : Comparison)
    (hfits : ∀ v ∈ c.values A x, fits v) : List.Forall₂ rep (c.values A x) (c.values B x') := by
  obtain ⟨hleft, hright⟩ := List.forall_mem_append.1 hfits
  exact List.rel_append (h.values hx c.left hleft) (h.values hx c.right hright)

/-- Where numbers and what represents them tell each other, a comparison is decided alike. -/
theorem isTrue_eq [DecidableEq α] [DecidableEq β] (h : Represents A B fits rep)
    (hunique : Relator.BiUnique rep) (hx : rep x x') (c : Comparison)
    (hfits : ∀ v ∈ c.values A x, fits v) : c.isTrue B x' = c.isTrue A x := by
  obtain ⟨hleft, hright⟩ := List.forall_mem_append.1 hfits
  have hiff := Relator.rel_eq hunique (h.value hx c.left hleft) (h.value hx c.right hright)
  have hbeq : (c.left.value B x' == c.right.value B x') = (c.left.value A x == c.right.value A x) :=
    decide_eq_decide.2 hiff.symm
  rw [Comparison.isTrue, Comparison.isTrue, bne, bne, hbeq]

end Represents

/-! ## Integers and words -/

namespace Arithmetic

/-- Integers, with the remainders of a given division. -/
def exact (mod : Int → Int → Int) : Arithmetic Int where
  numeral k := k
  apply
    | .add, a, b => a + b
    | .sub, a, b => a - b
    | .mul, a, b => a * b
  mod := mod

/-- Integers as Lua computes with them: the quotient is rounded down. -/
def floored : Arithmetic Int :=
  exact Int.fmod

/-- Integers with a quotient that is rounded toward zero. -/
def truncated : Arithmetic Int :=
  exact Int.tmod

/-- Words of 64 bits. -/
def words : Arithmetic Int64 where
  numeral k := .ofNat k
  apply
    | .add, a, b => a + b
    | .sub, a, b => a - b
    | .mul, a, b => a * b
  mod a b := a % b

/-- Bounds of absolute values. -/
def magnitudes : Arithmetic Nat where
  numeral k := k
  apply
    | .add, a, b => a + b
    | .sub, a, b => a + b
    | .mul, a, b => a * b
  mod _ b := b

end Arithmetic

/-- Whether an integer is one of the words of 64 bits. -/
def FitsWord (v : Int) : Prop :=
  -2 ^ 63 ≤ v ∧ v < 2 ^ 63

theorem FitsWord.bmod_eq {v : Int} (h : FitsWord v) : v.bmod (2 ^ 64) = v :=
  Int.bmod_eq_of_le h.1 h.2

/-- Words compute with integers as long as nothing overflows. -/
theorem represents_words :
    Represents .truncated .words FitsWord fun v w => w.toInt = v where
  numeral := by
    intro k h
    have hlt : (k : Int) < 2 ^ 63 := h.2
    exact Int64.toInt_ofNat_of_lt (by omega)
  apply := by
    rintro o _ _ a b h rfl rfl
    cases o with
    | add => exact (Int64.toInt_add a b).trans h.bmod_eq
    | sub => exact (Int64.toInt_sub a b).trans h.bmod_eq
    | mul => exact (Int64.toInt_mul a b).trans h.bmod_eq
  mod := by
    rintro _ a d divisor - - - - rfl hd
    have hmod : (a % d).toInt = a.toInt.tmod d.toInt := Int64.toInt_mod a d
    rw [hd] at hmod
    exact hmod

theorem biUnique_toInt : Relator.BiUnique fun (v : Int) (w : Int64) => w.toInt = v :=
  ⟨fun _ _ _ h h' => h.symm.trans h', fun _ _ _ h h' => Int64.toInt_inj.1 (h.trans h'.symm)⟩

/-- Bounds of operands lead to bounds of results, whichever way quotients are rounded. -/
theorem represents_magnitudes {mod : Int → Int → Int}
    (hmod : ∀ a b : Int, 0 < b → (mod a b).natAbs ≤ b.natAbs) :
    Represents (.exact mod) .magnitudes (fun _ => True) fun v m => v.natAbs ≤ m where
  numeral := fun k _ => Nat.le_of_eq (Int.natAbs_natCast k)
  apply := by
    intro o a b a' b' _ ha hb
    cases o with
    | add => exact Nat.le_trans (Int.natAbs_add_le a b) (Nat.add_le_add ha hb)
    | sub => exact Nat.le_trans (Int.natAbs_sub_le a b) (Nat.add_le_add ha hb)
    | mul => exact Nat.le_trans (Nat.le_of_eq (Int.natAbs_mul a b)) (Nat.mul_le_mul ha hb)
  mod := by
    intro a a' d' divisor hpos _ _ _ _ hd
    exact Nat.le_trans (hmod a divisor (by omega)) hd

/-- What is computed on the way stays below the greatest bound that is computed in its place. -/
theorem natAbs_lt_of_magnitudes {mod : Int → Int → Int}
    (hmod : ∀ a b : Int, 0 < b → (mod a b).natAbs ≤ b.natAbs) {c : Comparison} {bound limit : Nat}
    (hlimit : ∀ m ∈ c.values .magnitudes bound, m < limit) {x : Int} (hx : x.natAbs ≤ bound) :
    ∀ v ∈ c.values (.exact mod) x, v.natAbs < limit := by
  have hall := (represents_magnitudes hmod).comparison_values hx c fun _ _ => trivial
  generalize c.values (.exact mod) x = vs at hall ⊢
  generalize c.values .magnitudes bound = ms at hall hlimit
  induction hall with
  | nil => exact List.forall_mem_nil _
  | cons hle _ ih =>
    obtain ⟨hfirst, hrest⟩ := List.forall_mem_cons.1 hlimit
    exact List.forall_mem_cons.2 ⟨Nat.lt_of_le_of_lt hle hfirst, ih hrest⟩

end LuaVeil
