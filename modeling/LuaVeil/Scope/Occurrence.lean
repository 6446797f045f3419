/-
# Occurrences and cursors

An occurrence is a token of a script with its place: the number of its span and
the byte offset in the span. Code in the holes of an interpolated string follows
the string as occurrences of their own.

A cursor stands between two occurrences. It knows what it has passed last and
what lies ahead, and it only moves forward.

Main statement: `length_advance_lt`, a step leaves fewer occurrences ahead.
-/
import LuaVeil.Lua.Hole
import LuaVeil.Lua.Line

namespace LuaVeil

/-- A token of a script that is no trivia, and where it stands. -/
structure Occurrence where
  mark : Mark
  span : Nat
  offset : Nat
  /-- whether it stands in an interpolated string; then it is no part of a statement's frame -/
  inHole : Bool
  deriving DecidableEq

/-- The text of a word or symbol. -/
def Mark.text : Mark → Text
  | word t => t
  | symbol t => t
  | number => []
  | string => []

/-- Whether a mark is a word that can name a variable. -/
def Mark.isName : Mark → Bool
  | word w => !isKeyword w
  | _ => false

/-- The occurrences in a piece of code at byte `start` of span `index`. -/
def codeOccurrences (index start : Nat) (inHole : Bool) (code : Text) : List Occurrence :=
  (tokenize code).filterMap fun t =>
    t.mark?.map fun mark => ⟨mark, index, start + t.offset, inHole⟩

/-- The occurrences in a span. -/
def Span.occurrences (index : Nat) (s : Span) : List Occurrence :=
  match s.kind with
  | .code => codeOccurrences index 0 false s.text
  | .string =>
    ⟨.string, index, 0, false⟩ ::
      (holes s.text).flatMap fun h => codeOccurrences index h.start true h.text
  | .comment => []

/-- The occurrences in a script. -/
def occurrences (spans : List Span) : List Occurrence :=
  spans.zipIdx.flatMap fun (s, i) => s.occurrences i

/-! ## Cursors -/

/-- A place between occurrences. -/
structure Cursor where
  /-- the occurrence just passed -/
  before : Option Mark
  /-- the last passed occurrence that is in no hole -/
  frame : Option Mark
  ahead : List Occurrence

namespace Cursor

/-- The place in front of some occurrences. -/
def start (ahead : List Occurrence) : Cursor :=
  ⟨none, none, ahead⟩

/-- The place after an occurrence that lies ahead of `c`, with `ahead` after it. -/
def past (c : Cursor) (o : Occurrence) (ahead : List Occurrence) : Cursor :=
  ⟨some o.mark, if o.inHole then c.frame else some o.mark, ahead⟩

/-- The place after the next occurrence. -/
def advance (c : Cursor) : Cursor :=
  match c.ahead with
  | [] => c
  | o :: ahead => c.past o ahead

/-- The place after the next `n` occurrences. -/
def advanceBy (n : Nat) (c : Cursor) : Cursor :=
  Nat.repeat advance n c

/-- The mark `n` places ahead. -/
def peek (c : Cursor) (n : Nat) : Option Mark :=
  c.ahead[n]?.map Occurrence.mark

/-- Whether one of the given symbols lies `n` places ahead. -/
def sees (c : Cursor) (n : Nat) (symbols : List String) : Bool :=
  (c.peek n).any (Mark.isSymbolOf symbols)

/-- Whether a word lies `n` places ahead. -/
def seesWord (c : Cursor) (n : Nat) : Bool :=
  match c.peek n with
  | some (.word _) => true
  | _ => false

theorem length_advance_le (c : Cursor) : c.advance.ahead.length ≤ c.ahead.length := by
  unfold advance
  split
  · exact Nat.le_refl _
  · next h => simp [past, h]

/-- A step leaves fewer occurrences ahead. -/
theorem length_advance_lt {c : Cursor} {o : Occurrence} {ahead : List Occurrence}
    (h : c.ahead = o :: ahead) : c.advance.ahead.length < c.ahead.length := by
  simp [advance, h, past]

theorem length_advanceBy_le (n : Nat) (c : Cursor) :
    (c.advanceBy n).ahead.length ≤ c.ahead.length := by
  induction n with
  | zero => exact Nat.le_refl _
  | succ n ih => exact Nat.le_trans (length_advance_le _) ih

/-- Where a symbol is seen there is an occurrence. -/
theorem exists_of_sees {c : Cursor} {symbols : List String} (h : c.sees 0 symbols = true) :
    ∃ o ahead, c.ahead = o :: ahead := by
  cases ha : c.ahead with
  | nil => simp [sees, peek, ha] at h
  | cons o ahead => exact ⟨o, ahead, rfl⟩

end Cursor
end LuaVeil
