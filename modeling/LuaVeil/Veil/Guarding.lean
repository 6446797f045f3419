/-
# Guards

A guard wraps a line of statements as `if p(4127) then … end`, where `p` is a
function that is true of every integer by a rule on remainders. The functions
are the opaque predicates of four forms.

Each line that can be wrapped is wrapped with a given probability, and one of
them in any case if the probability is not zero.
-/
import LuaVeil.Lua.Line
import LuaVeil.Names.Namespace
import LuaVeil.Number.Digits

namespace LuaVeil

/-! ## Opaque predicates -/

/-- A statement on remainders that is true of every integer. -/
inductive PredicateForm where
  /-- `n * n + n` is even -/
  | evenProduct
  /-- `n * n * n - n` is divisible by three -/
  | cubeDifference
  /-- `n * n` does not leave two when divided by four -/
  | squareRemainder
  /-- `7 * n * n + 6` leaves six when divided by seven -/
  | scaledSquare
  deriving DecidableEq

namespace PredicateForm

/-- All forms. -/
def all : List PredicateForm :=
  [evenProduct, cubeDifference, squareRemainder, scaledSquare]

/-- The number that is divided. -/
def dividend (n : Int) : PredicateForm → Int
  | evenProduct => n * n + n
  | cubeDifference => n * n * n - n
  | squareRemainder => n * n
  | scaledSquare => 7 * n * n + 6

/-- The number by which it is divided. -/
def divisor : PredicateForm → Int
  | evenProduct => 2
  | cubeDifference => 3
  | squareRemainder => 4
  | scaledSquare => 7

/-- What is said about the remainder. -/
def accepts (remainder : Int) : PredicateForm → Bool
  | evenProduct => remainder == 0
  | cubeDifference => remainder == 0
  | squareRemainder => remainder != 2
  | scaledSquare => remainder == 6

/--
Whether the statement is true of a word of 64 bits. Sums, differences and products wrap, and the
remainder is that of division rounded toward zero.
-/
def holds (n : Int64) : PredicateForm → Bool
  | evenProduct => (n * n + n) % 2 == 0
  | cubeDifference => (n * n * n - n) % 3 == 0
  | squareRemainder => (n * n) % 4 != 2
  | scaledSquare => (7 * n * n + 6) % 7 == 6

/-- Whether the statement is true of `n`, by the remainder that Lua computes. -/
def holdsFloored (f : PredicateForm) (n : Int) : Bool :=
  f.accepts ((f.dividend n).fmod f.divisor)

/-- The statement in Lua. -/
def body : PredicateForm → Text
  | evenProduct => "return (n * n + n) % 2 == 0".toList
  | cubeDifference => "return (n * n * n - n) % 3 == 0".toList
  | squareRemainder => "return (n * n) % 4 ~= 2".toList
  | scaledSquare => "return (7 * n * n + 6) % 7 == 6".toList

end PredicateForm

/-- A function that is true of every integer. -/
structure OpaquePredicate where
  name : Name
  form : PredicateForm
  deriving DecidableEq

namespace OpaquePredicate

/-- A predicate of a random form with a fresh name. -/
def choose : Minting OpaquePredicate := do
  let form ← Minting.draw (Draw.pick .evenProduct PredicateForm.all)
  let name ← Minting.freshName
  return ⟨name, form⟩

/-- The declaration of a predicate. -/
def declaration (p : OpaquePredicate) : Text :=
  "local function ".toList ++ p.name ++ "(n) ".toList ++ p.form.body ++ " end".toList

/-- The largest argument of a guard. All intermediate results are exact in binary64. -/
def maxArgument : Int := 9999

/-- A call of a predicate with a random argument. -/
def guard (p : OpaquePredicate) : Draw Text :=
  (fun n => p.name ++ '(' :: Number.decimalInt n ++ [')']) <$>
    Draw.between .word 1 maxArgument

end OpaquePredicate

/-! ## Wrapping lines -/

namespace Guard

/-- The spans of a line without its indentation. -/
def dropIndent (l : Line) : List Span :=
  l.spans.modifyHead fun s =>
    if s.isCode then { s with text := s.text.drop l.indent.length } else s

/-- A line in a guard. The `end` stands before comments at the end, which would swallow it. -/
def wrap (guard : Text) (l : Line) : Line :=
  let spans := dropIndent l
  let tail := (spans.reverse.dropWhile Span.isComment).length
  let place := ((spans[tail - 1]?).map Span.stop).getD l.start
  let front := Span.codeAt (l.indent ++ "if ".toList ++ guard ++ " then ".toList) l.start
  { l with
    spans := front :: spans.take tail ++ Span.codeAt " end".toList place :: spans.drop tail }

/-- The items of a list for which a draw succeeds, in order. -/
def select (p : Probability) : List α → Draw (List α)
  | [] => pure []
  | a :: items => do
    let hit ← Draw.chance p
    let more ← select p items
    return if hit then a :: more else more

/-- Which of the lines that can be wrapped are wrapped. -/
def choose (p : Probability) (eligible : List Nat) : Draw (List Nat) := do
  let chosen ← select p eligible
  if chosen.isEmpty && !eligible.isEmpty && decide (0 < p.value) then
    (fun i => [i]) <$> Draw.pick 0 eligible
  else return chosen

end Guard

/-- Guard lines of a script by a predicate; the spans, and how many lines were guarded. -/
def guardLines (p : Probability) (predicate : OpaquePredicate) (spans : List Span) :
    Draw (List Span × Nat) := do
  let lines := splitLines spans
  let eligible := (List.range lines.length).filter (isWrappable lines)
  let chosen ← Guard.choose p eligible
  let guards ← chosen.mapM fun i => (fun guard => (i, guard)) <$> predicate.guard
  let wrapped := lines.mapIdx fun i l =>
    match guards.lookup i with
    | some guard => Guard.wrap guard l
    | none => l
  return (joinLines wrapped, chosen.length)

end LuaVeil
