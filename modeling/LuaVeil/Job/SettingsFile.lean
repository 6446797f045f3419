/-
# Settings files

A settings file is a TOML document with the settings of a deployment and, in its
table `coordinator`, how a remote service is used. Whatever is absent has its
default, and names that nobody knows do not count.
-/
import LuaVeil.Data.Decoding
import LuaVeil.Data.Toml.Document
import LuaVeil.Job.Settings
import LuaVeil.Remote.Service

namespace LuaVeil

open Data

/-- A list of texts. -/
def Data.Value.texts? : Decoder (List Text) :=
  Value.listOf Value.text?

/-- Reserved names in a settings file. -/
def Reserved.decode : Decoder Reserved := fun v => do
  let f ← Format.toml.fields [["globals"], ["extra"]] v
  return ⟨← f.orDefault 0 Value.texts? Reserved.defaultGlobals, ← f.orDefault 1 Value.texts? []⟩

/-- The name of a seed mode in a settings file. -/
def SeedMode.name : SeedMode → Text
  | random => "random".toList
  | input => "input".toList

/-- A seed mode in a settings file. -/
def SeedMode.decode : Decoder SeedMode :=
  Format.toml.choice? SeedMode.name [.random, .input]

namespace Settings

/-- What is stripped beside comments: the patterns of debug statements. -/
def decodeStrip : Decoder (List Text) := fun v => do
  let f ← Format.toml.fields [["debug_patterns"]] v
  f.orDefault 0 Value.texts? []

/-- How guards are put: their chance. -/
def decodeGuards : Decoder Binary64 := fun v => do
  let f ← Format.toml.fields [["probability"]] v
  f.orDefault 0 Value.number? defaultGuardChance

/-- How decoys are put: their chance and their templates. -/
def decodeDecoys : Decoder (Binary64 × List Text) := fun v => do
  let f ← Format.toml.fields [["probability"], ["snippets"]] v
  return (← f.orDefault 0 Value.number? defaultDecoyChance,
    ← f.orDefault 1 Value.texts? Decoy.defaultTemplates)

/-- The settings in a settings file. -/
def decode : Decoder Settings := fun v => do
  let f ← Format.toml.fields
    [["reserved"], ["strip"], ["control_flow"], ["dead_code"], ["seed_mode"]] v
  let reserved ← f.orDefault 0 Reserved.decode .default
  let debugPatterns ← f.orDefault 1 decodeStrip []
  let guardChance ← f.orDefault 2 decodeGuards defaultGuardChance
  let (decoyChance, decoyTemplates) ←
    f.orDefault 3 decodeDecoys (defaultDecoyChance, Decoy.defaultTemplates)
  let seedMode ← f.orDefault 4 SeedMode.decode .random
  return { reserved, debugPatterns, guardChance, decoyChance, decoyTemplates, seedMode }

/-- The settings that a file holds, given its content. -/
def ofFile? (content : Text) : Option Settings :=
  (Toml.read content).bind decode

end Settings

namespace Service

/-- The use of a service in a settings file. Names of two words are also written in one. -/
def decode : Decoder Service := fun v => do
  let f ← Format.toml.fields
    [["base_url", "baseUrl"], ["timeout_ms", "timeoutMs"], ["enable_fallback", "enableFallback"],
     ["endpoint"]] v
  let baseUrl ← f.orDefault 0 Value.text? default.baseUrl
  let timeout ← f.orDefault 1 Value.natural? default.timeout
  let fallback ← f.orDefault 2 Value.bool? default.fallback
  let endpoint ← f.orDefault 3 Value.text? default.endpoint
  return { baseUrl, endpoint, timeout, fallback }

/-- The service that a settings file names, given its content; it may name none. -/
def ofFile? (content : Text) : Option (Option Service) := do
  let f ← Format.toml.fields [["coordinator"]] (← Toml.read content)
  f.orDefault 0 (fun v => (decode v).map some) none

end Service
end LuaVeil
