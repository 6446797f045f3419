/-
# String tables

Every literal of a script moves into one table that is declared before the
script, and a reference to its slot takes its place. The literals of a table are
either written as they were, or as the numbers of their bytes, each byte changed
by a key of its literal; then a decoder function is declared before the table.

A string directly after a callee is an argument without parentheses. Its
reference gets parentheses, and must follow on the line of the callee: on a new
line they would be ambiguous.
-/
import LuaVeil.Lua.Dialect
import LuaVeil.Lua.Literal
import LuaVeil.Names.Namespace

namespace LuaVeil

/-! ## Tables -/

/-- A slot of a string table. -/
structure TableEntry where
  index : Nat
  literal : Literal
  /-- the key that changes the bytes, if they are hidden -/
  key : Option UInt8
  deriving DecidableEq

/-- A table of literals. -/
structure StringTable where
  name : Name
  /-- the name of the function that restores hidden literals -/
  decoder : Option Name
  dialect : Dialect
  entries : List TableEntry

namespace TableEntry

/-- The bytes that are stored for an entry. -/
def payload (e : TableEntry) : List UInt8 :=
  e.literal.bytes.map (· ^^^ e.key.getD 0)

/-- The expression that stands for an entry in the table. -/
def expression (decoder : Option Name) (e : TableEntry) : Text :=
  match e.key, decoder with
  | some key, some decoder =>
    let numbers := e.payload.map fun b => Number.decimal b.toNat
    decoder ++ "(\x7b".toList ++ Text.joinWith ", ".toList numbers ++ "\x7d, ".toList ++
      Number.decimal key.toNat ++ [')']
  | _, _ => e.literal.text

/-- A slot as it is declared. -/
def slot (decoder : Option Name) (e : TableEntry) : Text :=
  '[' :: Number.decimal e.index ++ "] = ".toList ++ e.expression decoder

end TableEntry

namespace StringTable

/-- The body of the decoder. Lua 5.1 has no operators on bits, so that they are computed there. -/
def decoderBody : Dialect → String
  | .luau =>
    "(b, k) local o = \x7b\x7d for i = 1, #b do o[i] = string.char(bit32.bxor(b[i], k)) end " ++
      "return table.concat(o) end"
  | .lua51 =>
    "(b, k) local o = \x7b\x7d for i = 1, #b do local x, y, r, p = b[i], k, 0, 1 " ++
      "while x > 0 or y > 0 do if x % 2 ~= y % 2 then r = r + p end " ++
      "x, y, p = (x - x % 2) / 2, (y - y % 2) / 2, p * 2 end o[i] = string.char(r) end " ++
      "return table.concat(o) end"

/-- The declaration of the decoder. -/
def decoderDeclaration (dialect : Dialect) (decoder : Name) : Text :=
  "local function ".toList ++ decoder ++ (decoderBody dialect).toList

/-- The declaration of the table, after that of the decoder if there is one. -/
def declaration (t : StringTable) : Text :=
  let front :=
    match t.decoder with
    | some decoder => decoderDeclaration t.dialect decoder ++ ['\n']
    | none => []
  front ++ "local ".toList ++ t.name ++ " = \x7b".toList ++
    Text.joinWith ", ".toList (t.entries.map (TableEntry.slot t.decoder)) ++ ['\x7d']

/-- A reference to slot `index`, in parentheses if it is the argument of a call. -/
def reference (name : Name) (index : Nat) (argument : Bool) : Text :=
  let slot := name ++ '[' :: Number.decimal index ++ [']']
  if argument then '(' :: slot ++ [')'] else slot

end StringTable

/-! ## Extraction -/

/-- Whether an expression that ends in a token can be called. -/
def Token.endsCallee (t : Token) : Bool :=
  match t.kind with
  | .word => !isKeyword t.text
  | .symbol => t.text == [')'] || t.text == [']'] || t.text == ['\x7d']
  | _ => false

/-- The tokens of a piece of code in reverse, without the trivia at its end. -/
def reverseTokens (code : Text) : List Token :=
  (tokenize code).reverse.dropWhile Token.isTrivia

/-- Whether a string right after `code` is the argument of a call; `none` if `code` is blank. -/
def endsInCallee? (code : Text) : Option Bool :=
  (reverseTokens code).head?.map Token.endsCallee

/-- The code up to the end of its last token, and the blanks after it. -/
def splitGap (code : Text) : Text × Text :=
  let front := (reverseTokens code).reverse.flatMap Token.text
  (front, code.drop front.length)

/-- A text with each line feed and carriage return replaced by a space. -/
def joinBreaks (t : Text) : Text :=
  t.map fun c => if c == '\n' || c == '\r' then ' ' else c

/--
The last spans before an argument, newest first, with the gap between callee and argument on one
line: comments in it become a space, and so do line breaks.
-/
def closeGap : List Span → List Span
  | [] => []
  | s :: spans =>
    match s.kind with
    | .string => s :: spans
    | .comment => { s with kind := .code, text := [' '] } :: closeGap spans
    | .code =>
      let (front, gap) := splitGap s.text
      let s := { s with text := front ++ joinBreaks gap }
      if front.isEmpty then s :: closeGap spans else s :: spans

/-- What has been extracted so far. -/
structure Extraction where
  /-- the replaced spans, newest first -/
  spans : List Span
  /-- the entries of the table, newest first -/
  entries : List TableEntry
  /-- whether a string here would be the argument of a call -/
  callable : Bool

namespace Extraction

/-- Nothing has been extracted. -/
def empty : Extraction :=
  ⟨[], [], false⟩

/-- Put a literal into the table, with the given key, and a reference in its place. -/
def extract (x : Extraction) (table : Name) (s : Span) (literal : Literal) (key : Option UInt8) :
    Extraction :=
  let index := x.entries.length
  let before := if x.callable then closeGap x.spans else x.spans
  let text := StringTable.reference table index x.callable
  ⟨{ s with kind := .code, text } :: before, ⟨index, literal, key⟩ :: x.entries, true⟩

/-- Go on with one more span. -/
def step (table : Name) (encrypt : Bool) (x : Extraction) (s : Span) : Draw Extraction :=
  match s.kind with
  | .code =>
    return { x with spans := s :: x.spans, callable := (endsInCallee? s.text).getD x.callable }
  | .comment => return { x with spans := s :: x.spans }
  | .string =>
    match Literal.ofText? s.text with
    | none => return { x with spans := s :: x.spans, callable := true }
    | some literal =>
      if encrypt then do
        let key ← Draw.between .byte 1 255
        return x.extract table s literal (some (UInt8.ofNat key.toNat))
      else return x.extract table s literal none

end Extraction

/-- The string table of a script, and the script with references in place of its literals. -/
def extractStrings (encrypt : Bool) (dialect : Dialect) (spans : List Span) :
    Minting (StringTable × List Span) := do
  let name ← Minting.freshName
  let x ← Minting.draw (spans.foldlM (Extraction.step name encrypt) .empty)
  let decoder ←
    if encrypt && !x.entries.isEmpty then some <$> Minting.freshName else pure none
  return (⟨name, decoder, dialect, x.entries.reverse⟩, x.spans.reverse)

end LuaVeil
