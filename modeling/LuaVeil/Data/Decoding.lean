/-
# Decoding records

A record of known fields is read from a data value: a record whose fields are
found by their names, in any order and among others that do not count, or a list
whose items are the fields in order. A known field that is repeated, also under
another of its names, makes the record unreadable.

* `Format.fields` finds the fields of a record;
* `Fields.required`, `Fields.orDefault` and `Fields.maybe` read one of them;
* `Format.choice?` reads one of several named choices.
-/
import LuaVeil.Data.Value

namespace LuaVeil.Data

/-- What a value is read as; `none` if it is nothing of the kind. -/
abbrev Decoder (α : Type) := Value → Option α

/-! ## Simple values -/

namespace Value

/-- A text. -/
def text? : Decoder Text
  | text t => some t
  | _ => none

/-- A truth value. -/
def bool? : Decoder Bool
  | bool b => some b
  | _ => none

/-- A natural number below `2 ^ 64`. -/
def natural? : Decoder Nat
  | integer n => if 0 ≤ n ∧ n < Nat.pow 2 64 then some n.toNat else none
  | _ => none

/-- A number of any notation, as binary64. -/
def number? : Decoder Binary64
  | integer n => some (.ofDecimal (n < 0) n.natAbs 0)
  | float x => some x
  | _ => none

/-- A list of items of one kind. -/
def listOf (item? : Decoder α) : Decoder (List α)
  | list items => items.mapM item?
  | _ => none

/-- A value or null. -/
def orNull (value? : Decoder α) : Decoder (Option α)
  | null => some none
  | v => (value? v).map some

end Value

/-! ## Formats -/

/-- A data format, as far as its ways of writing records and choices matter. -/
inductive Format where
  | json
  | toml
  deriving DecidableEq

/-- What was found of the known fields of a record. -/
structure Fields where
  /-- whether the fields are the items of a list -/
  byPlace : Bool
  values : List (Option Value)

/-- The place of the field that has a name among its names. -/
def fieldPlace? (fields : List (List String)) (name : Text) : Option Nat :=
  fields.findIdx? fun names => names.any fun known => known.toList == name

/-- The values of known fields among named values. A broken name is an error, like a repetition. -/
def findFields (fields : List (List String)) :
    List (Option Text × Value) → Option (List (Option Value))
  | [] => some (fields.map fun _ => none)
  | (none, _) :: _ => none
  | (some name, v) :: items => do
    let found ← findFields fields items
    match fieldPlace? fields name with
    | none => return found
    | some i => if (found.getD i none).isSome then none else return found.set i (some v)

namespace Format

/--
The known fields of a record, each given by its names. In JSON a list must not have more items than
there are fields. A date of TOML passes for a record without known fields.
-/
def fields (format : Format) (known : List (List String)) : Value → Option Fields
  | .record items => (findFields known items).map (⟨false, ·⟩)
  | .list items =>
    if format = json ∧ known.length < items.length then none
    else some ⟨true, known.mapIdx fun i _ => items[i]?⟩
  | .moment _ => some ⟨false, known.map fun _ => none⟩
  | _ => none

/-- Whether a value stands for the missing content of a choice. -/
def isEmptyContent : Format → Value → Bool
  | json, .null => true
  | toml, .list [] => true
  | toml, .record [] => true
  | _, _ => false

/-- The name of a choice: a text, or the name of the only field of a record, without content. -/
def choiceName? (format : Format) : Decoder Text
  | .text name => some name
  | .record [(some name, content)] => if format.isEmptyContent content then some name else none
  | _ => none

/-- One of some choices, by its name. -/
def choice? (format : Format) (name : α → Text) (choices : List α) : Decoder α := fun v => do
  let wanted ← format.choiceName? v
  choices.find? fun choice => name choice == wanted

end Format

namespace Fields

/-- The value of the field at a place, if there is one. -/
def value? (f : Fields) (i : Nat) : Option Value :=
  f.values.getD i none

/-- A field that must be there. -/
def required (f : Fields) (i : Nat) (read? : Decoder α) : Option α :=
  (f.value? i).bind read?

/-- A field that may be absent. -/
def orDefault (f : Fields) (i : Nat) (read? : Decoder α) (default : α) : Option α :=
  match f.value? i with
  | some v => read? v
  | none => some default

/-- A field that may be null, or absent where fields are found by their names. -/
def maybe (f : Fields) (i : Nat) (read? : Decoder α) : Option (Option α) :=
  match f.value? i with
  | some v => Value.orNull read? v
  | none => if f.byPlace then none else some none

end Fields
end LuaVeil.Data
