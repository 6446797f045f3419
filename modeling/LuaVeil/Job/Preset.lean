/-
# Presets

A preset is a fixed choice of passes for one run. Stripping, the string table
and the wrapping always belong to it.
-/
import LuaVeil.Veil.Renaming

namespace LuaVeil

/-- What a run does beside stripping, extracting strings and wrapping. -/
structure Plan where
  hideStrings : Bool
  rename : Option Strength
  guards : Bool
  decoys : Bool
  deriving DecidableEq

/-- The steps of a plan as they are listed for a reader. -/
def Plan.describe (p : Plan) : Text :=
  let strength := p.rename.toList.map fun s => "rename(".toList ++ s.name ++ [')']
  let steps :=
    ["strip".toList, "string-table".toList] ++
      (if p.hideStrings then ["encrypt".toList] else []) ++ strength ++
      (if p.guards then ["control-flow".toList] else []) ++
      (if p.decoys then ["dead-code".toList] else []) ++ ["wrap".toList]
  Text.joinWith " -> ".toList steps

/-- The presets, from the weakest to the strongest. -/
inductive Preset where
  | minify
  | weak
  | medium
  | strong
  deriving DecidableEq

namespace Preset

/-- All presets. -/
def all : List Preset :=
  [minify, weak, medium, strong]

/-- The name of a preset. -/
def name : Preset → Text
  | minify => "minify".toList
  | weak => "weak".toList
  | medium => "medium".toList
  | strong => "strong".toList

/-- The preset of a name in small letters. -/
def ofName? (name : Text) : Option Preset :=
  all.find? fun p => p.name == name

/-- The passes of a preset. -/
def plan : Preset → Plan
  | minify => ⟨false, none, false, false⟩
  | weak => ⟨true, some .low, false, false⟩
  | medium => ⟨true, some .medium, true, false⟩
  | strong => ⟨true, some .high, true, true⟩

end Preset
end LuaVeil
