/-
# Messages of the remote service

A call sends a script with the names of its dialect and preset. The answer is a
status and a text in JSON: a record with the obfuscated script if the call
succeeded, and otherwise what the service says about the error.

`Reply.verdict` sorts whatever comes back into the obfuscated script or one of
three kinds of failures.
-/
import LuaVeil.Data.Decoding
import LuaVeil.Data.Json
import LuaVeil.Job.Request
import LuaVeil.Remote.Status

namespace LuaVeil

open Data

/-- What is sent to the service. -/
structure CallBody where
  code : Text
  version : Text
  preset : Text
  deriving DecidableEq

/-- What is sent for a request. -/
def Request.callBody (r : Request) : CallBody :=
  ⟨r.source, r.dialect.name, r.preset.name⟩

/-- What is sent, as a record. -/
def CallBody.encode (b : CallBody) : Value :=
  .ofFields [("code", .text b.code), ("version", .text b.version), ("preset", .text b.preset)]

/-! ## Answers -/

mutual

/-- Whether a value can be taken over as it is: all texts whole, all numbers finite, nothing nested deeper than `room`. -/
def isTakable : Nat → Value → Bool
  | _, .hugeNumber => false
  | _, .brokenText => false
  | 0, .list _ => false
  | 0, .record _ => false
  | room + 1, .list items => areTakable room items
  | room + 1, .record fields => areTakableFields room fields
  | _, _ => true

/-- Whether the items of a list can be taken over. -/
def areTakable : Nat → List Value → Bool
  | _, [] => true
  | room, v :: items => isTakable room v && areTakable room items

/-- Whether the fields of a record can be taken over. -/
def areTakableFields : Nat → List (Option Text × Value) → Bool
  | _, [] => true
  | room, (name, v) :: fields => name.isSome && isTakable room v && areTakableFields room fields

end

/-- How deep the remarks of an answer may be nested. -/
def maxRemarkNesting : Nat := 126

/-- Remarks of the service, of whatever form. They are not used. -/
def decodeRemarks : Decoder Unit := fun v =>
  if isTakable maxRemarkNesting v then some () else none

/-- The answer to a call that succeeded. -/
structure Success where
  success : Bool
  code : Option Text
  deriving DecidableEq

/-- The answer to a call that succeeded. -/
def Success.decode : Decoder Success := fun v => do
  let f ← Format.json.fields [["success"], ["obfuscatedCode"], ["metadata"]] v
  let success ← f.required 0 Value.bool?
  let code ← f.maybe 1 Value.text?
  let _ ← f.orDefault 2 (Value.orNull decodeRemarks) none
  return ⟨success, code⟩

/-- What the service says about an error. -/
structure Complaint where
  error : Option Text
  details : Option Text
  deriving DecidableEq

namespace Complaint

/-- Nothing is said. -/
def silent : Complaint :=
  ⟨none, none⟩

/-- What the service says about an error. -/
def decode : Decoder Complaint := fun v => do
  let f ← Format.json.fields [["error"], ["details"]] v
  return ⟨← f.orDefault 0 (Value.orNull Value.text?) none,
    ← f.orDefault 1 (Value.orNull Value.text?) none⟩

/-- The complaint in a JSON text. -/
def ofJson? (t : Text) : Option Complaint :=
  (Json.read t).bind decode

end Complaint

/-! ## Verdicts -/

/-- How a call failed. -/
inductive CallFailure where
  /-- The service cannot be used now. -/
  | unavailable (reason : Text)
  /-- The service refuses the script. -/
  | rejected (status : Nat) (message : Text) (details : Option Text)
  /-- The service reports any other error. -/
  | failed (status : Nat) (message : Text)
  deriving DecidableEq

/-- What is said about an error: the words of the service, or else the phrase of the status. -/
def Complaint.message (c : Complaint) (s : Status) : Text :=
  c.error.getD (s.phrase?.getD "unknown error".toList)

/-- A message with the status behind it in parentheses. -/
def withCode (message : Text) (s : Status) : Text :=
  message ++ " (".toList ++ Number.decimal s.code ++ [')']

/-- The failure that a status and a complaint stand for. -/
def classify (s : Status) (c : Complaint) : CallFailure :=
  let message := c.message s
  if s.code ∈ [400, 413, 415, 422] then .rejected s.code message c.details
  else if s.code ∈ [408, 429] ∨ s.code / 100 = 5 then .unavailable (withCode message s)
  else .failed s.code message

/-- What comes back from a call. -/
inductive Reply where
  /-- There is no answer within the time that is given. -/
  | late
  /-- The call did not reach the service, or was not answered. -/
  | broken (cause : Text)
  | answer (status : Status) (body : Text)

/-- The obfuscated script in an answer that reports success. -/
def successVerdict (body : Text) : Except CallFailure Text :=
  match (Json.read body).bind Success.decode with
  | none => .error (.unavailable "malformed response: not the expected record".toList)
  | some ⟨true, some code⟩ => .ok code
  | some _ => .error (.unavailable "response did not contain obfuscated code".toList)

/-- The obfuscated script that came back, or how the call failed. -/
def Reply.verdict (timeout : Nat) : Reply → Except CallFailure Text
  | late =>
    .error (.unavailable ("no response within ".toList ++ Number.decimal timeout ++ " ms".toList))
  | broken cause => .error (.unavailable ("request failed: ".toList ++ cause))
  | answer status body =>
    if status.isSuccess then successVerdict body
    else .error (classify status ((Complaint.ofJson? body).getD .silent))

end LuaVeil
