/-
# Decoys

A decoy is a statement without effect, made from a template in which `{name}`
stands for a fresh name and `{n}` for a random number. Decoys are put on lines
of their own where a statement may begin, indented like the line that follows.
-/
import LuaVeil.Lua.Line
import LuaVeil.Names.Namespace
import LuaVeil.Number.Digits

namespace LuaVeil

namespace Decoy

/-- What stands for a fresh name in a template. -/
def nameHole : Text := "\x7bname\x7d".toList

/-- What stands for a random number in a template. -/
def numberHole : Text := "\x7bn\x7d".toList

/-- The largest random number of a decoy. -/
def maxNumber : Int := 65535

/-- A template with the same fresh name in all its places for a name. -/
def fillName (template : Text) : Minting Text := do
  if Text.occursIn nameHole template then
    let name ← Minting.freshName
    return Text.replaceAll nameHole name template
  else return template

/-- A template with the same random number in all its places for a number. -/
def fillNumber (template : Text) : Minting Text := do
  if Text.occursIn numberHole template then
    let n ← Minting.draw (Draw.between .word 1 maxNumber)
    return Text.replaceAll numberHole (Number.decimalInt n) template
  else return template

/-- A decoy from a template. -/
def make (template : Text) : Minting Text := do
  fillNumber (← fillName template)

/-- The templates that are used unless a deployment says otherwise. -/
def defaultTemplates : List Text :=
  ["do local \x7bname\x7d = \x7bn\x7d end",
   "do local \x7bname\x7d = \x7b\x7d end",
   "do local \x7bname\x7d = (\x7bn\x7d * 3) % 7 end",
   "do local \x7bname\x7d = nil end",
   "do local \x7bname\x7d = function() return \x7bn\x7d end end",
   "do local \x7bname\x7d = \x7bn\x7d if \x7bname\x7d < 0 then \x7bname\x7d = -\x7bname\x7d end end",
   "do local \x7bname\x7d = #\"\x7bn\x7d\" end"].map String.toList

/-- A decoy after the line `l`, indented like the line `next` or like `l` if there is none. -/
def after (templates : List Text) (l : Line) (next : Option Line) : Minting Line := do
  let template ← Minting.draw (Draw.pick [] templates)
  let text ← make template
  return .synthetic ((next.getD l).indent ++ text) l.stop

/-- The lines with decoys after some of those at which one may stand, and how many decoys. -/
def inject (p : Probability) (templates : List Text) :
    List (Line × Bool) → Minting (List Line × Nat)
  | [] => pure ([], 0)
  | (l, boundary) :: lines => do
    let hit ← if boundary then Minting.draw (Draw.chance p) else pure false
    if hit then
      let decoy ← after templates l (lines.head?.map Prod.fst)
      let (more, count) ← inject p templates lines
      return (l :: decoy :: more, count + 1)
    else
      let (more, count) ← inject p templates lines
      return (l :: more, count)

end Decoy

/-- Put decoys into a script; the spans, and how many decoys. Without templates nothing changes. -/
def injectDecoys (p : Probability) (templates : List Text) (spans : List Span) :
    Minting (List Span × Nat) := do
  if templates.isEmpty then return (spans, 0)
  let lines := splitLines spans
  let judged := lines.mapIdx fun i l => (l, isBoundaryAfter lines i)
  let (lines, count) ← Decoy.inject p templates judged
  return (joinLines lines, count)

end LuaVeil
