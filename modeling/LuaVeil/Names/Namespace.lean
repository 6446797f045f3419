/-
# Namespaces and fresh names

A namespace knows every name in use during a run, so that no new name captures
an old one. A mint is a namespace with a source of random words; names and
random numbers of a run are taken from one mint, in order.

`freshName` is a name that was free and is now taken. It tries sixteen names of
four letters, then sixteen of five, and so on; a name longer than all names in
use is free, so the search ends.
-/
import LuaVeil.Lua.Hole
import LuaVeil.Lua.Span
import LuaVeil.Names.Reserved
import LuaVeil.Random.Draw

namespace LuaVeil

/-! ## Namespaces -/

/-- The names in use during a run, beside the reserved ones. -/
structure Namespace where
  reserved : Reserved
  taken : List Name

/-- The words of a piece of code. -/
def codeWords (code : Text) : List Name :=
  ((tokenize code).filter fun t => t.kind == .word).map Token.text

/-- The words of a span: those of its code, or of the code in its holes. -/
def Span.words (s : Span) : List Name :=
  match s.kind with
  | .code => codeWords s.text
  | .string => (holes s.text).flatMap fun h => codeWords h.text
  | .comment => []

namespace Namespace

/-- The namespace of a script: every word of its code is taken. -/
def ofSpans (reserved : Reserved) (spans : List Span) : Namespace :=
  ⟨reserved, spans.flatMap Span.words⟩

/-- Whether nobody has a name. -/
def isAvailable (n : Namespace) (name : Name) : Bool :=
  !n.reserved.contains name && !n.taken.contains name

/-- The namespace in which a name is taken too. -/
def take (n : Namespace) (name : Name) : Namespace :=
  { n with taken := name :: n.taken }

/-- The namespace after a name is taken, if it was available. -/
def claim? (n : Namespace) (name : Name) : Option Namespace :=
  if n.isAvailable name then some (n.take name) else none

/-- The names that are not available. -/
def unavailable (n : Namespace) : List Name :=
  n.reserved.names ++ n.taken

/-- The length of the longest name that is not available. -/
def longest (n : Namespace) : Nat :=
  n.unavailable.foldl (fun longest name => max longest name.length) 0

end Namespace

/-! ## Mints -/

/-- A namespace and a source of random words. -/
structure Mint where
  names : Namespace
  source : Source

/-- A computation that takes names and random numbers from a mint. -/
abbrev Minting (α : Type) := StateM Mint α

namespace Minting

theorem pure_apply (a : α) (m : Mint) : (pure a : Minting α) m = (a, m) := rfl

theorem bind_apply (x : Minting α) (f : α → Minting β) (m : Mint) :
    (x >>= f) m = f (x m).1 (x m).2 := rfl

/-- A draw from the source of the mint. -/
def draw (d : Draw α) : Minting α := fun m =>
  let (a, source) := d m.source
  (a, { m with source })

/-- Take a name if it is available; whether it was. -/
def claim (name : Name) : Minting Bool := fun m =>
  match m.names.claim? name with
  | some names => (true, { m with names })
  | none => (false, m)

/-- The letters of generated names. -/
def letters : List Char :=
  "abcdefghijklmnopqrstuvwxyzABCDEFGHIJKLMNOPQRSTUVWXYZ".toList

/-- Some characters of an alphabet, each drawn on its own. -/
def drawChars (alphabet : List Char) : Nat → Draw Text
  | 0 => pure []
  | n + 1 => do
    let c ← Draw.pick 'a' alphabet
    let more ← drawChars alphabet n
    return c :: more

/-- An underscore and `length` letters. -/
def drawName (length : Nat) : Draw Name :=
  ('_' :: ·) <$> drawChars letters length

/-- A name of `length` letters that was available and is now taken, within some tries. -/
def tryNames (length : Nat) : Nat → Minting (Option Name)
  | 0 => pure none
  | tries + 1 => do
    let name ← draw (drawName length)
    if ← claim name then return some name
    tryNames length tries

/-- How many names of one length are tried. -/
def triesPerLength : Nat := 16

/-- A fresh name of at least `length` letters. Past `longest`, every name is free. -/
def freshNameFrom (longest length : Nat) : Minting Name :=
  if longest ≤ length then do
    let name ← draw (drawName length)
    modify fun m => { m with names := m.names.take name }
    return name
  else do
    match ← tryNames length triesPerLength with
    | some name => return name
    | none => freshNameFrom longest (length + 1)
termination_by longest - length

/-- A name that was available and is now taken. -/
def freshName : Minting Name := do
  let m ← get
  freshNameFrom m.names.longest 4

end Minting
end LuaVeil
