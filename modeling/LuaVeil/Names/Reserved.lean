/-
# Reserved names

The names that are never given to or taken from a variable of a script: the
keywords of the language, the globals that a script may rely on, and extra names
of a deployment.
-/
import LuaVeil.Lua.Token

namespace LuaVeil

/-- A name in a script. -/
abbrev Name := Text

/-- The globals and extra names that are reserved beside the keywords. -/
structure Reserved where
  globals : List Name
  extra : List Name
  deriving DecidableEq

/-- The globals of the Lua base library. -/
def baseGlobals : List Name :=
  ["_G", "_ENV", "_VERSION", "self", "assert", "collectgarbage", "dofile", "error", "getfenv",
   "setfenv", "getmetatable", "setmetatable", "ipairs", "pairs", "load", "loadfile", "loadstring",
   "module", "next", "pcall", "xpcall", "print", "rawequal", "rawget", "rawset", "rawlen",
   "require", "select", "tonumber", "tostring", "type", "unpack", "newproxy",
   "gcinfo"].map String.toList

/-- The tables of the standard libraries. -/
def libraryGlobals : List Name :=
  ["coroutine", "debug", "io", "math", "os", "package", "string", "table", "utf8", "bit32",
   "buffer"].map String.toList

/-- The globals of Luau and of Roblox. -/
def robloxGlobals : List Name :=
  ["typeof", "export", "game", "workspace", "script", "plugin", "shared", "task", "wait", "spawn",
   "delay", "tick", "time", "warn", "settings", "Enum", "Instance", "Vector2", "Vector3", "CFrame",
   "Color3", "UDim", "UDim2", "BrickColor", "Ray", "TweenInfo", "NumberRange", "NumberSequence",
   "ColorSequence", "Rect", "Region3"].map String.toList

namespace Reserved

/-- The globals that are reserved unless a deployment says otherwise. -/
def defaultGlobals : List Name :=
  baseGlobals ++ libraryGlobals ++ robloxGlobals

/-- What is reserved unless a deployment says otherwise. -/
def default : Reserved :=
  ⟨defaultGlobals, []⟩

/-- All reserved names. -/
def names (r : Reserved) : List Name :=
  keywords ++ r.globals ++ r.extra

/-- Whether a name is reserved. -/
def contains (r : Reserved) (name : Name) : Bool :=
  r.names.contains name

/-- The number of different reserved names. -/
def size (r : Reserved) : Nat :=
  r.names.eraseDups.length

end Reserved
end LuaVeil
