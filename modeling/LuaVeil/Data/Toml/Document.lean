/-
# TOML documents

`Toml.read` reads a document of TOML 1.0 as a record. Integers have 64 bits with
a sign, and a number is finite unless it is written as an infinity. Values are
nested less than eighty deep.
-/
import LuaVeil.Data.Toml.Scalar
import LuaVeil.Data.Toml.Table

namespace LuaVeil.Data.Toml

/-! ## Values -/

/-- How many lists and tables may enclose a value within its line. -/
def maxNesting : Nat := 79

/-- A value that encloses no others. -/
def readScalar (t : Text) : Option (Value × Text) :=
  match t with
  | 't' :: 'r' :: 'u' :: 'e' :: t => some (.bool true, t)
  | 'f' :: 'a' :: 'l' :: 's' :: 'e' :: t => some (.bool false, t)
  | '"' :: _ => (readString t).map fun (s, rest) => (.text s, rest)
  | '\'' :: _ => (readString t).map fun (s, rest) => (.text s, rest)
  | t => (readMoment t).or (readNumber t)

mutual

/--
The value at the start of a text, with `room` for lists and tables around its parts. Each step of
`fuel` pays for a part of a value.
-/
def readValue : Nat → Nat → Text → Option (Value × Text)
  | 0, _, _ => none
  | _ + 1, 0, t => if t.head? = some '[' ∨ t.head? = some '{' then none else readScalar t
  | fuel + 1, room + 1, t =>
    match t with
    | '[' :: t => (readItems fuel room t).map fun (items, rest) => (.list items, rest)
    | '{' :: t =>
      match skipSpaces t with
      | '}' :: t => some (.record [], t)
      | t => (readPairs fuel room [] t).map fun (entries, rest) =>
          (.record (finishEntries entries), rest)
    | t => readScalar t

/-- The items of a list up to its closing bracket; a comma may follow the last. -/
def readItems : Nat → Nat → Text → Option (List Value × Text)
  | 0, _, _ => none
  | fuel + 1, room, t =>
    match skipGap t with
    | ']' :: t => some ([], t)
    | t =>
      match readValue fuel room t with
      | none => none
      | some (item, t) =>
        match skipGap t with
        | ',' :: t => (readItems fuel room t).map fun (items, rest) => (item :: items, rest)
        | ']' :: t => some ([item], t)
        | _ => none

/-- The entries of a table within a line up to its closing brace, after some entries. -/
def readPairs : Nat → Nat → Entries → Text → Option (Entries × Text)
  | 0, _, _, _ => none
  | fuel + 1, room, entries, t =>
    match readKey t with
    | some (key, '=' :: t) =>
      match readValue fuel room (skipSpaces t) with
      | none => none
      | some (v, t) =>
        match entries.assign v true key, skipSpaces t with
        | some entries, ',' :: t => readPairs fuel room entries t
        | some entries, '}' :: t => some (entries, t)
        | _, _ => none
    | _ => none

end

/-! ## Documents -/

/-- A key, an equals sign and a value on a line of their own. -/
def readAssignment : Reader (List Text × Value) := fun t => do
  let (key, t) ← readKey t
  let t ← after? '=' t
  let (v, t) ← readValue (2 * t.length + 2) maxNesting (skipSpaces t)
  return ((key, v), ← afterLine? t)

/-- The path of a header after its opening brackets, up to the end of its line. -/
def readHeader (closing : Text) : Reader (List Text) := fun t => do
  let (path, t) ← readKey t
  if closing.isPrefixOf t then return (path, ← afterLine? (t.drop closing.length)) else none

/-- The lines of a document, after some entries and under the last header before them. -/
def readLines : Nat → List Text → Entries → Text → Option Entries
  | 0, _, _, _ => none
  | fuel + 1, header, entries, t =>
    match skipSpaces t with
    | [] => some entries
    | '[' :: '[' :: t => do
      let (path, t) ← readHeader [']', ']'] t
      let entries ← entries.change (Entries.openItem (path.getLastD [])) path.dropLast
      readLines fuel path entries t
    | '[' :: t => do
      let (path, t) ← readHeader [']'] t
      let entries ← entries.change (Entries.openTable (path.getLastD [])) path.dropLast
      readLines fuel path entries t
    | t =>
      match afterLine? t with
      | some t => readLines fuel header entries t
      | none => do
        let ((key, v), t) ← readAssignment t
        let entries ← entries.change (Entries.assign v true key) header
        readLines fuel header entries t

/-- A text without a byte order mark. -/
def skipMark : Text → Text
  | '\uFEFF' :: t => t
  | t => t

/-- The record that a document describes. -/
def read (t : Text) : Option Value :=
  (readLines (t.length + 1) [] [] (skipMark t)).map fun entries => .record (finishEntries entries)

end LuaVeil.Data.Toml
