/-
# Requests

A request asks for one script to be obfuscated. Presets and dialects are named
by texts, in which blanks at the ends and the case of letters do not count.
-/
import LuaVeil.Job.Preset
import LuaVeil.Lua.Dialect
import LuaVeil.Random.Seed

namespace LuaVeil

/-- Why a request is refused. -/
inductive RequestError where
  /-- The script is blank. -/
  | blankSource
  /-- No preset has this name. -/
  | unknownPreset (name : Text)
  /-- No dialect has this name. -/
  | unknownDialect (name : Text)
  /-- The seed of the request is no seed. -/
  | seed (cause : SeedError)
  deriving DecidableEq

/-- What is wrong with a request. -/
def RequestError.detail : RequestError → Text
  | blankSource => "source code must not be empty".toList
  | unknownPreset name => "unrecognized preset '".toList ++ name ++ ['\'']
  | unknownDialect name => "unrecognized language variant '".toList ++ name ++ ['\'']
  | seed cause => cause.message

/-- A name as it is compared: without blanks at its ends and in small letters. -/
def normalName (name : Text) : Text :=
  Text.toLowerAscii (Text.trim name)

/-- The preset that a text names. -/
def Preset.parse (t : Text) : Except RequestError Preset :=
  match Preset.ofName? (normalName t) with
  | some p => .ok p
  | none => .error (.unknownPreset (normalName t))

/-- The dialect that a text names. -/
def Dialect.parse (t : Text) : Except RequestError Dialect :=
  match Dialect.ofName? (normalName t) with
  | some d => .ok d
  | none => .error (.unknownDialect (normalName t))

/-- A script to be obfuscated. -/
structure Request where
  source : Text
  dialect : Dialect
  preset : Preset
  deriving DecidableEq

namespace Request

/-- A script that is blank is refused. -/
def check (r : Request) : Except RequestError Unit :=
  if (Text.trim r.source).isEmpty then .error .blankSource else .ok ()

/-- A request from a script and the names of its dialect and preset. -/
def parse (source dialect preset : Text) : Except RequestError Request := do
  let dialect ← Dialect.parse dialect
  let preset ← Preset.parse preset
  let r : Request := ⟨source, dialect, preset⟩
  r.check
  return r

/-- The seed that belongs to a request: equal requests have equal seeds. -/
def seed (r : Request) : Seed :=
  .ofJob r.source r.preset.name r.dialect.name

end Request
end LuaVeil
