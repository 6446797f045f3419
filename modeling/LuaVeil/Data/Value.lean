/-
# Data values

The values that a data file or message can hold. A record keeps its fields in
the order in which they were written, repeated names included: whether a
repetition is an error is for the reader of the record to say.
-/
import LuaVeil.Text.Basic
import LuaVeil.Number.Binary64

namespace LuaVeil.Data

/-- A value of a data format. -/
inductive Value where
  | null
  | bool (value : Bool)
  | integer (value : Int)
  | float (value : Binary64)
  /-- a number too large for binary64 -/
  | hugeNumber
  | text (value : Text)
  /-- a text with half of a surrogate pair, which no characters can express -/
  | brokenText
  /-- a date or time, as written -/
  | moment (written : Text)
  | list (items : List Value)
  /-- fields in the order written; a name that is a broken text is `none` -/
  | record (fields : List (Option Text × Value))

namespace Value

/-- A text value from a string. -/
def ofString (s : String) : Value :=
  text s.toList

/-- A record from names and values. -/
def ofFields (fields : List (String × Value)) : Value :=
  record (fields.map fun (name, value) => (some name.toList, value))

/-- The value of a field of a record, the first if the name is repeated. -/
def field? (v : Value) (name : String) : Option Value :=
  match v with
  | record fields => fields.lookup (some name.toList)
  | _ => none

end Value
end LuaVeil.Data
