/-
# Outcomes

The outcome of a request is the obfuscated script with what is known about it:
sizes in bytes, and the counts of a run if it was made here.
-/
import LuaVeil.Job.Request

namespace LuaVeil

/-- What the passes of a run did. -/
structure Stats where
  stringsExtracted : Nat
  identifiersRenamed : Nat
  predicatesInserted : Nat
  deadStatements : Nat
  commentsRemoved : Nat
  debugStripped : Nat
  deriving DecidableEq

namespace Stats

/-- Nothing was done. -/
def zero : Stats :=
  ⟨0, 0, 0, 0, 0, 0⟩

/-- The number of all changes. -/
def total (s : Stats) : Nat :=
  s.stringsExtracted + s.identifiersRenamed + s.predicatesInserted + s.deadStatements +
    s.commentsRemoved + s.debugStripped

end Stats

/-- What is known about an obfuscated script. -/
structure Metadata where
  dialect : Dialect
  preset : Preset
  originalSize : Nat
  outputSize : Nat
  /-- the counts of a run, if it was made here -/
  stats : Option Stats
  deriving DecidableEq

/-- An obfuscated script. -/
structure Outcome where
  output : Text
  metadata : Metadata
  deriving DecidableEq

/-- The outcome of a request whose output is known, with the counts of a run if there are any. -/
def Request.outcome (r : Request) (output : Text) (stats : Option Stats) : Outcome :=
  ⟨output, r.dialect, r.preset, Text.byteSize r.source, Text.byteSize output, stats⟩

end LuaVeil
