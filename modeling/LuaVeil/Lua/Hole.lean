/-
# Holes of interpolated strings

An interpolated string stands between backticks, and its holes are the code
between unescaped braces, less the strings that are quoted in that code. `holes`
finds them by an automaton that reads one character at a time: `HoleMode` is its
state and `HoleMode.step` its step.
-/
import LuaVeil.Text.Basic

namespace LuaVeil

/-- A piece of code in an interpolated string, with its byte offset in the string. -/
structure Hole where
  start : Nat
  text : Text
  deriving DecidableEq

/-- The byte offset just past a hole. -/
def Hole.stop (h : Hole) : Nat :=
  h.start + Text.byteSize h.text

/-- What is known at a position of an interpolated string. -/
inductive HoleMode where
  /-- between holes -/
  | plain
  /-- between holes, after a backslash -/
  | plainEscape
  /-- in code with `depth` open braces; the piece that began at `start` holds `read`, newest first -/
  | code (depth start : Nat) (read : Text)
  /-- in a string quoted by `mark` in such code -/
  | quoted (depth : Nat) (mark : Char)
  /-- in such a string, after a backslash -/
  | quotedEscape (depth : Nat) (mark : Char)
  deriving DecidableEq

/-- The piece of code that begins at `start`, if it is not empty. -/
def holePieces (start : Nat) (read : Text) : List Hole :=
  if read.isEmpty then [] else [⟨start, read.reverse⟩]

namespace HoleMode

/-- The mode after the character `c` that ends before byte `after`, and the pieces it completes. -/
def step (after : Nat) (c : Char) : HoleMode → HoleMode × List Hole
  | plain =>
    if c = '\\' then (plainEscape, [])
    else if c = '{' then (code 0 after [], [])
    else (plain, [])
  | plainEscape => (plain, [])
  | code depth start read =>
    if c = '{' then (code (depth + 1) start (c :: read), [])
    else if c = '}' then
      match depth with
      | 0 => (plain, holePieces start read)
      | d + 1 => (code d start (c :: read), [])
    else if c = '"' ∨ c = '\'' then (quoted depth c, holePieces start read)
    else (code depth start (c :: read), [])
  | quoted depth mark =>
    if c = mark then (code depth after [], [])
    else if c = '\\' then (quotedEscape depth mark, [])
    else (quoted depth mark, [])
  | quotedEscape depth mark => (quoted depth mark, [])

/-- The piece that the end of the text completes. -/
def finish : HoleMode → List Hole
  | code _ start read => holePieces start read
  | _ => []

end HoleMode

/-- The holes in the rest of a string, from byte `place` on. -/
def holesFrom (mode : HoleMode) (place : Nat) : Text → List Hole
  | [] => mode.finish
  | c :: t =>
    let after := place + c.utf8Size
    let (next, found) := mode.step after c
    found ++ holesFrom next after t

/-- The holes of a text; only a text that begins with a backtick has any. -/
def holes : Text → List Hole
  | '`' :: t => holesFrom .plain 1 t
  | _ => []

end LuaVeil
