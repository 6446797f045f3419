/-
# Banners

The text around an obfuscated script: a header of two comment lines, a stub that
compares a digest of the script with itself, and the declarations that the
script needs.
-/
import LuaVeil.Job.Outcome
import LuaVeil.Number.Calendar

namespace LuaVeil

/-- What the header of a script tells. -/
structure Banner where
  preset : Preset
  dialect : Dialect
  generatedAt : Instant

namespace Banner

/-- The name by which the program calls itself. -/
def toolName : Text := "LuaGuard".toList

/-- The version of the program. -/
def toolVersion : Text := "0.4.0".toList

/-- The header: two comment lines. -/
def header (b : Banner) : Text :=
  "-- Protected with ".toList ++ toolName ++ " v".toList ++ toolVersion ++ " | preset: ".toList ++
    b.preset.name ++ " | variant: ".toList ++ b.dialect.name ++ "\n-- Generated: ".toList ++
    b.generatedAt.text ++ ['\n']

/-- The first half of the digest of a script, in hexadecimal. -/
def digest (body : Text) : Text :=
  Number.hex ((sha3 (Text.utf8 body)).take 8)

/-- A check that never fails, on a line of its own. -/
def stub (body : Text) (name : Name) : Text :=
  "do local ".toList ++ name ++ " = \"".toList ++ digest body ++ "\" if ".toList ++ name ++
    " ~= \"".toList ++ digest body ++
    "\" then error(\"integrity check failed\", 0) end end\n".toList

/-- A script with header, stub and declarations in front. -/
def wrap (b : Banner) (declarations : List Text) (body : Text) (stubName : Name) : Text :=
  b.header ++ stub body stubName ++ declarations.flatMap (· ++ ['\n']) ++ body

end Banner
end LuaVeil
