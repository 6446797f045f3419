/-
# Failures

Why a run produces no script.
-/
import LuaVeil.Job.Request
import LuaVeil.Job.Settings

namespace LuaVeil

/-- Why a run produces no script. -/
inductive Failure where
  | request (cause : RequestError)
  | scan (cause : ScanError)
  | settings (cause : SettingsError)
  /-- There are more variables than names to give them. -/
  | namesExhausted
  deriving DecidableEq

/-- What is wrong with a script that cannot be cut into spans. -/
def ScanError.message : ScanError → Text
  | unterminatedString offset =>
    "Unterminated string literal starting at byte ".toList ++ Number.decimal offset
  | unterminatedComment offset =>
    "Unterminated block comment starting at byte ".toList ++ Number.decimal offset

namespace Failure

/-- The text that tells of a failure. -/
def message : Failure → Text
  | request cause => "Invalid request: ".toList ++ cause.detail
  | scan cause => cause.message
  | settings cause => "Invalid configuration: ".toList ++ cause.detail
  | namesExhausted => "No unused names are left for local variables".toList

/-- Whether the request itself is at fault. -/
def isRequest : Failure → Bool
  | request _ => true
  | _ => false

end Failure
end LuaVeil
