/-
# Dialects

The dialects of Lua that scripts are written in, with the names they go by.
-/
import LuaVeil.Text.Blank

namespace LuaVeil

/-- A dialect of Lua. -/
inductive Dialect where
  | lua51
  | luau
  deriving DecidableEq

namespace Dialect

/-- All dialects. -/
def all : List Dialect :=
  [lua51, luau]

/-- The name of a dialect. -/
def name : Dialect → Text
  | lua51 => "lua51".toList
  | luau => "luau".toList

/-- The dialect that a name in small letters stands for. -/
def ofName? (name : Text) : Option Dialect :=
  if name ∈ ["lua51", "lua", "lua5.1"].map String.toList then some lua51
  else if name ∈ ["luau", "roblox"].map String.toList then some luau
  else none

end Dialect
end LuaVeil
