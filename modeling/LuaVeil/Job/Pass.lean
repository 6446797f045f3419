/-
# Passes

A pass changes a script that is under work: its spans, the declarations that it
needs, and the counts of what was done. It reports whether it changed anything.
-/
import LuaVeil.Job.Outcome
import LuaVeil.Veil.Decoys
import LuaVeil.Veil.Guarding
import LuaVeil.Veil.Renaming
import LuaVeil.Veil.StringTable
import LuaVeil.Veil.Stripping

namespace LuaVeil

/-- A script under work. -/
structure Work where
  spans : List Span
  dialect : Dialect
  /-- declarations that stand in front of the script, in order -/
  declarations : List Text
  stats : Stats

/-- A script to which nothing was done. -/
def Work.start (spans : List Span) (dialect : Dialect) : Work :=
  ⟨spans, dialect, [], .zero⟩

/-- A pass over a script. -/
inductive Pass where
  /-- removes comments, needless blanks and debug statements -/
  | strip (isDebug : Text → Bool)
  /-- moves literals to a table, hidden or not -/
  | strings (hide : Bool)
  | rename (strength : Strength)
  | guards (chance : Probability)
  | decoys (chance : Probability) (templates : List Text)

namespace Pass

/-- The name of a pass. -/
def name : Pass → Text
  | strip _ => "strip".toList
  | strings _ => "string-table".toList
  | rename _ => "rename".toList
  | guards _ => "control-flow".toList
  | decoys _ _ => "dead-code".toList

/-- Strip a script. -/
def runStrip (isDebug : Text → Bool) (w : Work) : Work × Bool :=
  let (spans, report) := LuaVeil.strip isDebug w.spans
  let stats := { w.stats with
    commentsRemoved := w.stats.commentsRemoved + report.comments
    debugStripped := w.stats.debugStripped + report.debugLines }
  ({ w with spans, stats }, report != ⟨0, 0⟩)

/-- Move the literals of a script to a table. -/
def runStrings (hide : Bool) (w : Work) : Minting (Work × Bool) := do
  let (table, spans) ← extractStrings hide w.dialect w.spans
  let count := table.entries.length
  let stats := { w.stats with stringsExtracted := w.stats.stringsExtracted + count }
  let declarations := w.declarations ++ [table.declaration]
  return ({ w with spans, declarations, stats }, count != 0)

/-- Rename the local variables of a script. -/
def runRename (strength : Strength) (w : Work) : Minting (Option (Work × Bool)) := do
  let renamed? ← renameLocals strength w.spans
  return renamed?.map fun (spans, bindings) =>
    let count := bindings.length
    let stats := { w.stats with identifiersRenamed := w.stats.identifiersRenamed + count }
    ({ w with spans, stats }, count != 0)

/-- Guard lines of a script. The predicate is declared only if it is used. -/
def runGuards (chance : Probability) (w : Work) : Minting (Work × Bool) := do
  let predicate ← OpaquePredicate.choose
  let (spans, count) ← Minting.draw (guardLines chance predicate w.spans)
  let stats := { w.stats with predicatesInserted := w.stats.predicatesInserted + count }
  let declarations :=
    if count = 0 then w.declarations else w.declarations ++ [predicate.declaration]
  return ({ w with spans, declarations, stats }, count != 0)

/-- Put decoys into a script. -/
def runDecoys (chance : Probability) (templates : List Text) (w : Work) :
    Minting (Work × Bool) := do
  let (spans, count) ← injectDecoys chance templates w.spans
  let stats := { w.stats with deadStatements := w.stats.deadStatements + count }
  return ({ w with spans, stats }, count != 0)

/-- Run a pass; `none` if there are not enough names. -/
def run (w : Work) : Pass → Minting (Option (Work × Bool))
  | strip isDebug => return some (runStrip isDebug w)
  | strings hide => some <$> runStrings hide w
  | rename strength => runRename strength w
  | guards chance => some <$> runGuards chance w
  | decoys chance templates => some <$> runDecoys chance templates w

section

variable (w : Work) (m : Mint)

theorem run_rename (strength : Strength) : ((rename strength).run w m).1 =
    (renameLocals strength w.spans m).1.map fun out =>
      ({ w with
        spans := out.1
        stats := { w.stats with
          identifiersRenamed := w.stats.identifiersRenamed + out.2.length } },
        out.2.length != 0) :=
  rfl

theorem run_guards (chance : Probability) : (guards chance).run w m =
    let predicate := OpaquePredicate.choose m
    let out := guardLines chance predicate.1 w.spans predicate.2.source
    (some ({ w with
        spans := out.1.1
        declarations := if out.1.2 = 0 then w.declarations
          else w.declarations ++ [predicate.1.declaration]
        stats := { w.stats with
          predicatesInserted := w.stats.predicatesInserted + out.1.2 } },
        out.1.2 != 0), ⟨predicate.2.names, out.2⟩) :=
  rfl

theorem run_decoys (chance : Probability) (templates : List Text) :
    (decoys chance templates).run w m =
      let out := injectDecoys chance templates w.spans m
      (some ({ w with
          spans := out.1.1
          stats := { w.stats with deadStatements := w.stats.deadStatements + out.1.2 } },
          out.1.2 != 0), out.2) :=
  rfl

end

/-- Run passes in order; `none` if there are not enough names. -/
def runAll (w : Work) : List Pass → Minting (Option Work)
  | [] => return some w
  | p :: passes => do
    match ← p.run w with
    | none => return none
    | some (w, _) => runAll w passes

end Pass
end LuaVeil
