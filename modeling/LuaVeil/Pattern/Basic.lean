/-
# Patterns

A pattern is a regular expression with assertions about the place in a text.
Matching follows sets of places: `reach` gives the places where a match can end
if it begins at one of some places. `occursIn` asks whether a pattern matches
anywhere in a text.
-/
import LuaVeil.Text.WordChar

namespace LuaVeil

/-- A regular expression. -/
inductive Pattern where
  /-- matches nowhere but where it begins -/
  | empty
  /-- one character of a class -/
  | one (accepts : Char → Bool)
  /-- the start of the text -/
  | textStart
  /-- the end of the text -/
  | textEnd
  /-- the start of a line -/
  | lineStart
  /-- the end of a line -/
  | lineEnd
  /-- a place between a word character and another or no character, or any other place -/
  | wordBoundary (negated : Bool)
  | sequence (first second : Pattern)
  | either (first second : Pattern)
  /-- at least `least` times, and at most `extra` times more if there is a limit -/
  | repeated (p : Pattern) (least : Nat) (extra : Option Nat)

namespace Pattern

/-- A set of places in a text: one flag for each place, from the start to the end. -/
abbrev Places := Array Bool

namespace Places

/-- The places in one set or the other. -/
def union (a b : Places) : Places :=
  Array.zipWith (· || ·) a b

/-- The places of a set that satisfy a condition. -/
def restrict (condition : Nat → Bool) (a : Places) : Places :=
  a.mapIdx fun i here => here && condition i

/-- The places after those of a set at which there is a character of a class. -/
def afterOne (text : Array Char) (accepts : Char → Bool) (a : Places) : Places :=
  (Array.range a.size).map fun i =>
    match i with
    | 0 => false
    | j + 1 => a.getD j false && (text[j]?).any accepts

/-- What a step reaches from a set in any number of steps up to `n`. -/
def closure (step : Places → Places) : Nat → Places → Places
  | 0, a => a
  | n + 1, a =>
    let b := a.union (step a)
    if b == a then a else closure step n b

end Places

/-- Whether a word character stands at `i`. -/
def isWordAt (text : Array Char) (i : Nat) : Bool :=
  (text[i]?).any Text.isWordChar

/-- Whether `i` is between a word character and another or no character. -/
def isBoundary (text : Array Char) (i : Nat) : Bool :=
  isWordAt text i != (0 < i && isWordAt text (i - 1))

/-- The places where a match can end if it begins in a set of places. -/
def reach (text : Array Char) : Pattern → Places → Places
  | empty, a => a
  | one accepts, a => a.afterOne text accepts
  | textStart, a => a.restrict (· == 0)
  | textEnd, a => a.restrict (· == text.size)
  | lineStart, a => a.restrict fun i => i == 0 || text[i - 1]? == some '\n'
  | lineEnd, a => a.restrict fun i => i == text.size || text[i]? == some '\n'
  | wordBoundary negated, a => a.restrict fun i => isBoundary text i != negated
  | sequence p q, a => reach text q (reach text p a)
  | either p q, a => (reach text p a).union (reach text q a)
  | repeated p least extra, a =>
    Places.closure (reach text p) (extra.getD (text.size + 1)) (Nat.repeat (reach text p) least a)

/-- Whether a pattern matches somewhere in a text. -/
def occursIn (p : Pattern) (t : Text) : Bool :=
  let text := t.toArray
  (reach text p (Array.replicate (text.size + 1) true)).any id

end Pattern
end LuaVeil
