/-
# String literals

A literal is a string that stands for fixed bytes: its content and how it is
delimited. Interpolated strings are no literals.
-/
import LuaVeil.Lua.Delimiter
import LuaVeil.Lua.Escape

namespace LuaVeil

/-- A string between delimiters. -/
structure Literal where
  delimiter : Delimiter
  content : Text
  deriving DecidableEq

namespace Literal

/-- What is left of a text when `front` characters are taken off its start and `back` off its end. -/
def inner (front back : Nat) (t : Text) : Text :=
  (t.drop front).take (t.length - front - back)

/-- The literal that is written as `t`; `none` for an interpolated string. -/
def ofText? (t : Text) : Option Literal :=
  match t with
  | [] => none
  | c :: rest =>
    if c = '"' ∨ c = '\'' then
      if rest.isEmpty then none else some ⟨.quote c, inner 1 1 t⟩
    else (longLevel? t).map fun level => ⟨.long level, inner (level + 2) (level + 2) t⟩

/-- The literal as it is written. -/
def text (l : Literal) : Text :=
  l.delimiter.enclose l.content

/-- The character that delimits a short string. -/
def quote? (l : Literal) : Option Char :=
  match l.delimiter with
  | .quote mark => some mark
  | .long _ => none

/-- A text without the line break at its start: a line feed, or a carriage return and a line feed. -/
def dropLineBreak : Text → Text
  | '\r' :: '\n' :: t => t
  | '\n' :: t => t
  | t => t

/-- The bytes that a literal stands for. -/
def bytes (l : Literal) : List UInt8 :=
  match l.delimiter with
  | .quote _ => unescape l.content
  | .long _ => Text.utf8 (dropLineBreak l.content)

end Literal
end LuaVeil
