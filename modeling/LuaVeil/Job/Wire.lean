/-
# Requests and outcomes in JSON

Requests and outcomes as they are stored and sent: records with the fields
below, or lists of the fields in their order.
-/
import LuaVeil.Data.Decoding
import LuaVeil.Data.Json
import LuaVeil.Job.Outcome

namespace LuaVeil

open Data

/-- A natural number as a data value. -/
def Data.Value.ofNat (n : Nat) : Value :=
  .integer n

/-- A dialect, by its own name only. -/
def Dialect.decode : Decoder Dialect :=
  Format.json.choice? Dialect.name Dialect.all

/-- A preset, by its own name only. -/
def Preset.decode : Decoder Preset :=
  Format.json.choice? Preset.name Preset.all

namespace Request

/-- A request; a blank script is not refused here. -/
def decode : Decoder Request := fun v => do
  let f ← Format.json.fields [["sourceCode"], ["languageVariant"], ["preset"]] v
  return ⟨← f.required 0 Value.text?, ← f.required 1 Dialect.decode, ← f.required 2 Preset.decode⟩

/-- A request as a record. -/
def encode (r : Request) : Value :=
  .ofFields [("sourceCode", .text r.source), ("languageVariant", .text r.dialect.name),
    ("preset", .text r.preset.name)]

/-- The request in a JSON text. -/
def ofJson? (t : Text) : Option Request :=
  (Json.read t).bind decode

end Request

namespace Stats

/-- The counts of a run. -/
def decode : Decoder Stats := fun v => do
  let f ← Format.json.fields
    [["stringsExtracted"], ["identifiersRenamed"], ["predicatesInserted"], ["deadStatements"],
     ["commentsRemoved"], ["debugStripped"]] v
  let count (i : Nat) : Option Nat := f.required i Value.natural?
  return ⟨← count 0, ← count 1, ← count 2, ← count 3, ← count 4, ← count 5⟩

/-- The counts of a run as a record. -/
def encode (s : Stats) : Value :=
  .ofFields [("stringsExtracted", .ofNat s.stringsExtracted),
    ("identifiersRenamed", .ofNat s.identifiersRenamed),
    ("predicatesInserted", .ofNat s.predicatesInserted),
    ("deadStatements", .ofNat s.deadStatements), ("commentsRemoved", .ofNat s.commentsRemoved),
    ("debugStripped", .ofNat s.debugStripped)]

end Stats

namespace Metadata

/-- What is known about an obfuscated script. -/
def decode : Decoder Metadata := fun v => do
  let f ← Format.json.fields
    [["languageVariant"], ["preset"], ["originalSize"], ["outputSize"], ["stats"]] v
  return ⟨← f.required 0 Dialect.decode, ← f.required 1 Preset.decode,
    ← f.required 2 Value.natural?, ← f.required 3 Value.natural?,
    ← f.orDefault 4 (Value.orNull Stats.decode) none⟩

/-- What is known about an obfuscated script, as a record; counts that are unknown are left out. -/
def encode (m : Metadata) : Value :=
  let stats := m.stats.toList.map fun s => ("stats", s.encode)
  .ofFields ([("languageVariant", .text m.dialect.name), ("preset", .text m.preset.name),
    ("originalSize", .ofNat m.originalSize), ("outputSize", .ofNat m.outputSize)] ++ stats)

end Metadata

namespace Outcome

/-- An outcome. -/
def decode : Decoder Outcome := fun v => do
  let f ← Format.json.fields [["outputCode"], ["metadata"]] v
  return ⟨← f.required 0 Value.text?, ← f.required 1 Metadata.decode⟩

/-- An outcome as a record. -/
def encode (o : Outcome) : Value :=
  .ofFields [("outputCode", .text o.output), ("metadata", o.metadata.encode)]

/-- The outcome in a JSON text. -/
def ofJson? (t : Text) : Option Outcome :=
  (Json.read t).bind decode

end Outcome
end LuaVeil
