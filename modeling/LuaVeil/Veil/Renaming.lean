/-
# Renaming

Every local variable of a script gets a new name, in the order of first
declarations. The strength decides what the names look like:

* low: numerals in base 36 that begin with a letter, in order;
* medium: hexadecimal numerals after `_0x`, from a random start and with random
  steps between one and seven;
* high: twelve letters and digits that look alike, each drawn on its own.

Candidates that are not available are passed over. Of candidates in order there
are always enough, so that the search among as many as there are unavailable
names, and one more, finds one. Look-alike names are finitely many: when they
are used up, renaming fails. They are given up after `lookAlikePatience` draws,
in which a single free name would be missed once in `e ^ 64` times.
-/
import LuaVeil.Names.Namespace
import LuaVeil.Number.Digits
import LuaVeil.Scope.Resolution

namespace LuaVeil

/-- How hard new names are to read. -/
inductive Strength where
  | low
  | medium
  | high
  deriving DecidableEq

/-- The name of a strength. -/
def Strength.name : Strength → Text
  | low => "low".toList
  | medium => "medium".toList
  | high => "high".toList

/-- A variable and its new name. -/
structure Binding where
  declared : Name
  generated : Name
  deriving DecidableEq

/-! ## Candidates -/

/--
The number at place `i` among those of at least as many digits as `unit` whose numeral in base 36
begins with a letter; `unit` is a power of 36.
-/
def letterLedFrom (unit i : Nat) : Nat :=
  if _ : i < 26 * unit ∨ unit = 0 then 10 * unit + i
  else letterLedFrom (36 * unit) (i - 26 * unit)
termination_by i
decreasing_by omega

/-- The number at place `i` among those whose numeral in base 36 begins with a letter. -/
def letterLed (i : Nat) : Nat :=
  letterLedFrom 1 i

/-- Where the search for names goes on. -/
inductive Candidates where
  /-- at a place among the numerals that begin with a letter -/
  | numerals (place : Nat)
  /-- at a number after `_0x` -/
  | hexadecimal (number : Nat)
  | lookAlikes
  deriving DecidableEq

namespace Candidates

/-- Where the search for names of a strength begins. -/
def start : Strength → Draw Candidates
  | .low => pure (numerals 0)
  | .medium => (fun n => hexadecimal n.toNat) <$> Draw.between .long 0x100 0xFFF
  | .high => pure lookAlikes

/-- How many characters a look-alike name has after its first. -/
def lookAlikeTail : Nat := 11

/-- The next candidate, and where the search goes on after it. -/
def next : Candidates → Draw (Name × Candidates)
  | numerals place => pure (Number.digits 36 (letterLed place), numerals (place + 1))
  | hexadecimal number => do
    let step ← Draw.between .long 1 7
    return ("_0x".toList ++ Number.digits 16 number, hexadecimal (number + step.toNat))
  | lookAlikes => do
    let first ← Draw.pick 'l' ['l', 'I']
    let rest ← Minting.drawChars ['l', 'I', '1'] lookAlikeTail
    return (first :: rest, lookAlikes)

/-- How many look-alike names there are. -/
def lookAlikeCount : Nat := 2 * Nat.pow 3 lookAlikeTail

/-- How many look-alike names are drawn in search of a free one. -/
def lookAlikePatience : Nat := 64 * lookAlikeCount

/-- Among how many candidates a free one is searched. -/
def patience (names : Namespace) : Candidates → Nat
  | lookAlikes => lookAlikePatience
  | _ => names.unavailable.length + 1

/-- The first of some candidates that is available and is now taken. -/
def claimWithin : Nat → Candidates → Minting (Option (Name × Candidates))
  | 0, _ => pure none
  | tries + 1, c => do
    let (name, c) ← Minting.draw c.next
    if ← Minting.claim name then return some (name, c)
    claimWithin tries c

/-- A candidate that was available and is now taken. -/
def claim (c : Candidates) : Minting (Option (Name × Candidates)) := do
  let m ← get
  claimWithin (c.patience m.names) c

/-- New names for some variables. -/
def bindAll (c : Candidates) : List Name → Minting (Option (List Binding))
  | [] => pure (some [])
  | declared :: names => do
    match ← c.claim with
    | none => return none
    | some (generated, c) =>
      let more ← bindAll c names
      return more.map (⟨declared, generated⟩ :: ·)

end Candidates

/-! ## Replacing names -/

/-- The new name of a variable; other names stay. -/
def newName (bindings : List Binding) (name : Name) : Name :=
  match bindings.find? fun b => b.declared == name with
  | some b => b.generated
  | none => name

/-- A text from byte `place` on, with the names at some sites replaced. The sites are in order. -/
def splice (rename : Name → Name) (place : Nat) : List Occurrence → Text → Text
  | [], t => t
  | o :: sites, t =>
    let name := o.mark.text
    let (before, rest) := Text.splitAtByte (o.offset - place) t
    before ++ rename name ++
      splice rename (o.offset + Text.byteSize name) sites (rest.drop name.length)

/-- The spans of a script with the names at some sites replaced. -/
def renameSites (rename : Name → Name) (sites : List Occurrence) (spans : List Span) : List Span :=
  spans.mapIdx fun i s =>
    { s with text := splice rename 0 (sites.filter fun o => o.span == i) s.text }

/--
Rename the local variables of a script; `none` if there are not enough names. A script without
local variables takes nothing from the mint.
-/
def renameLocals (strength : Strength) (spans : List Span) :
    Minting (Option (List Span × List Binding)) := do
  let m ← get
  let found := resolve m.names.reserved (occurrences spans)
  if found.declared.isEmpty then return some (spans, [])
  let start ← Minting.draw (Candidates.start strength)
  let bindings? ← start.bindAll found.declared
  return bindings?.map fun bindings => (renameSites (newName bindings) found.sites spans, bindings)

end LuaVeil
