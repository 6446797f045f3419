/-
# Settings

The settings of a deployment, as they are written, and the rules that follow
from them. Rules exist only where both chances are probabilities and there are
templates for decoys.
-/
import LuaVeil.Names.Reserved
import LuaVeil.Number.Shortest
import LuaVeil.Pattern.Reading
import LuaVeil.Random.Probability
import LuaVeil.Veil.Decoys

namespace LuaVeil

/-- Where the seed of a run comes from. -/
inductive SeedMode where
  /-- a new seed for every run -/
  | random
  /-- the seed that belongs to the request -/
  | input
  deriving DecidableEq

/-- The settings of a deployment. -/
structure Settings where
  reserved : Reserved
  /-- patterns of lines that are debug statements -/
  debugPatterns : List Text
  /-- how likely a line is guarded -/
  guardChance : Binary64
  /-- how likely a decoy is put where one may stand -/
  decoyChance : Binary64
  decoyTemplates : List Text
  seedMode : SeedMode

/-- Which of the two chances of the settings is meant. -/
inductive ChanceField where
  | guards
  | decoys
  deriving DecidableEq

/-- The place of a chance in a settings file. -/
def ChanceField.path : ChanceField → Text
  | guards => "control_flow.probability".toList
  | decoys => "dead_code.probability".toList

/-- Why no rules follow from some settings. -/
inductive SettingsError where
  /-- A chance is no probability. -/
  | chance (field : ChanceField) (value : Binary64)
  /-- There are no templates for decoys. -/
  | noTemplates
  deriving DecidableEq

/-- What is wrong with some settings. -/
def SettingsError.detail : SettingsError → Text
  | chance field value =>
    field.path ++ " must be within [0, 1], got ".toList ++ value.positional
  | noTemplates => "dead_code.snippets must not be empty".toList

/-- What a run goes by. -/
structure Rules where
  reserved : Reserved
  debugPatterns : List Pattern
  guardChance : Probability
  decoyChance : Probability
  decoyTemplates : List Text
  seedMode : SeedMode

/-- Whether a line is a debug statement by some patterns. -/
def matchesAny (patterns : List Pattern) (line : Text) : Bool :=
  patterns.any fun p => p.occursIn line

namespace Settings

/-- The chance of a guard unless a deployment says otherwise. -/
def defaultGuardChance : Binary64 := .ofDecimal false 35 (-2)

/-- The chance of a decoy unless a deployment says otherwise. -/
def defaultDecoyChance : Binary64 := .ofDecimal false 3 (-1)

/-- The settings of a deployment that says nothing. -/
def default : Settings :=
  ⟨.default, [], defaultGuardChance, defaultDecoyChance, Decoy.defaultTemplates, .random⟩

/-- A chance as a probability. -/
def probability (field : ChanceField) (value : Binary64) : Except SettingsError Probability :=
  match Probability.ofBinary64? value with
  | some p => .ok p
  | none => .error (.chance field value)

/-- The rules that follow from some settings. Patterns that are none are left out. -/
def rules (s : Settings) : Except SettingsError Rules := do
  let guardChance ← probability .guards s.guardChance
  let decoyChance ← probability .decoys s.decoyChance
  if s.decoyTemplates.isEmpty then throw .noTemplates
  return ⟨s.reserved, s.debugPatterns.filterMap Pattern.read?, guardChance, decoyChance,
    s.decoyTemplates, s.seedMode⟩

end Settings
end LuaVeil
