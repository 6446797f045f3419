/-
# The remote service

Where the remote transformer is found, how long an answer is waited for, and
whether the work is done here if there is none.
-/
import LuaVeil.Text.Basic

namespace LuaVeil

/-- How a remote transformer is used. -/
structure Service where
  baseUrl : Text
  endpoint : Text
  /-- how many milliseconds an answer is waited for -/
  timeout : Nat
  /-- whether the work is done here if the service is unavailable -/
  fallback : Bool
  deriving DecidableEq

namespace Service

/-- The service of a deployment that says nothing. -/
def default : Service :=
  ⟨"http://127.0.0.1:3000".toList, "/api/obfuscate".toList, 30000, true⟩

/-- The address of the service: base and endpoint with one slash between them. -/
def url (s : Service) : Text :=
  (s.baseUrl.reverse.dropWhile (· == '/')).reverse ++ '/' :: s.endpoint.dropWhile (· == '/')

end Service
end LuaVeil
