/-
# Runs

A run takes a request through scanning, the passes of its preset and wrapping.
All its random choices come from one seed, and the time only shows in the
header; so a run is a function of rules, request, seed and time.
-/
import LuaVeil.Job.Failure
import LuaVeil.Job.Pass
import LuaVeil.Veil.Banner

namespace LuaVeil

namespace Plan

/-- The passes of a plan under some rules. -/
def passes (p : Plan) (rules : Rules) : List Pass :=
  [.strip (matchesAny rules.debugPatterns), .strings p.hideStrings] ++
    p.rename.toList.map .rename ++
    (if p.guards then [.guards rules.guardChance] else []) ++
    (if p.decoys then [.decoys rules.decoyChance rules.decoyTemplates] else [])

end Plan

/-- What the passes leave of a script. -/
structure Veiled where
  declarations : List Text
  body : Text
  stubName : Name
  stats : Stats

/-- Run passes on the spans of a script, and take a name for the stub. -/
def veil (passes : List Pass) (dialect : Dialect) (spans : List Span) :
    Minting (Option Veiled) := do
  match ← Pass.runAll (.start spans dialect) passes with
  | none => return none
  | some w =>
    let stubName ← Minting.freshName
    return some ⟨w.declarations, render w.spans, stubName, w.stats⟩

namespace Rules

/-- Obfuscate a script with a given seed. -/
def runWithSeed (rules : Rules) (now : Instant) (r : Request) (seed : Seed) :
    Except Failure Outcome := do
  (r.check).mapError .request
  let spans ← (scan r.source).mapError .scan
  let mint : Mint := ⟨.ofSpans rules.reserved spans, seed.source⟩
  match (veil (r.preset.plan.passes rules) r.dialect spans mint).1 with
  | none => throw .namesExhausted
  | some v =>
    let banner : Banner := ⟨r.preset, r.dialect, now⟩
    return r.outcome (banner.wrap v.declarations v.body v.stubName) (some v.stats)

/-- Obfuscate a script with a seed by the rules; `fresh` is the seed of a random run. -/
def run (rules : Rules) (now : Instant) (fresh : Seed) (r : Request) : Except Failure Outcome :=
  rules.runWithSeed now r <|
    match rules.seedMode with
    | .random => fresh
    | .input => r.seed

end Rules
end LuaVeil
