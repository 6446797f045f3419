/-
# Coordination

A coordinated run asks the remote service, if there is one, and does the work
here if the service is unavailable and that is allowed. It is finished at once,
or it waits for the reply to a single call; `Consultation` has no other forms,
so that no run calls twice.
-/
import LuaVeil.Job.Run
import LuaVeil.Remote.Message
import LuaVeil.Remote.Service

namespace LuaVeil

/-- Why a coordinated run has no outcome. -/
inductive CoordinationError where
  /-- The request is at fault. -/
  | request (cause : RequestError)
  /-- The service is unavailable, and the work is not done here. -/
  | unavailable (reason : Text)
  /-- The service refuses the script. -/
  | rejected (status : Nat) (message : Text) (details : Option Text)
  /-- The service reports any other error. -/
  | failed (status : Nat) (message : Text)
  /-- The work was done here and failed. -/
  | here (cause : Failure)
  deriving DecidableEq

namespace CoordinationError

/-- The text that tells of an error. -/
def message : CoordinationError → Text
  | request cause => "Invalid request: ".toList ++ cause.detail
  | unavailable reason => "Remote transformer unavailable: ".toList ++ reason
  | rejected status text _ =>
    "Remote transformer rejected the input (".toList ++ Number.decimal status ++ "): ".toList ++ text
  | failed status text =>
    "Remote transformer failed (".toList ++ Number.decimal status ++ "): ".toList ++ text
  | here cause => "Local pipeline failed: ".toList ++ cause.message

/-- The error of a failed run. -/
def ofFailure : Failure → CoordinationError
  | .request cause => request cause
  | cause => here cause

/-- The error of a failed call, if the work is not done here. -/
def ofCall : CallFailure → CoordinationError
  | .unavailable reason => unavailable reason
  | .rejected status text details => rejected status text details
  | .failed status text => failed status text

end CoordinationError

/-- A call of the service. -/
structure Call where
  url : Text
  /-- how many milliseconds a reply is waited for -/
  timeout : Nat
  body : CallBody
  deriving DecidableEq

/-- A coordinated run. -/
inductive Consultation where
  /-- It is finished. -/
  | finished (result : Except CoordinationError Outcome)
  /-- It waits for the reply to a call. -/
  | waiting (call : Call) (resume : Reply → Except CoordinationError Outcome)

namespace Consultation

/-- The calls that are made. -/
def calls : Consultation → List Call
  | finished _ => []
  | waiting call _ => [call]

/-- The result, given the reply to every call. -/
def result (reply : Call → Reply) : Consultation → Except CoordinationError Outcome
  | finished result => result
  | waiting call resume => resume (reply call)

end Consultation

/-- How the work is done here, and the service that is asked first, if any. -/
structure Coordinator where
  rules : Rules
  service : Option Service

namespace Coordinator

/-- Do the work here. -/
def runHere (c : Coordinator) (now : Instant) (fresh : Seed) (r : Request) :
    Except CoordinationError Outcome :=
  (c.rules.run now fresh r).mapError .ofFailure

/-- Go on after the service has been asked. -/
def resume (c : Coordinator) (service : Service) (now : Instant) (fresh : Seed) (r : Request)
    (reply : Reply) : Except CoordinationError Outcome :=
  match reply.verdict service.timeout with
  | .ok code => .ok (r.outcome code none)
  | .error (.unavailable reason) =>
    if service.fallback then c.runHere now fresh r else .error (.unavailable reason)
  | .error failure => .error (.ofCall failure)

/-- Obfuscate a script. -/
def run (c : Coordinator) (now : Instant) (fresh : Seed) (r : Request) : Consultation :=
  match r.check, c.service with
  | .error cause, _ => .finished (.error (.request cause))
  | .ok (), none => .finished (c.runHere now fresh r)
  | .ok (), some service =>
    .waiting ⟨service.url, service.timeout, r.callBody⟩ (c.resume service now fresh r)

/-- Obfuscate a script, given the names of its dialect and preset. -/
def runParsed (c : Coordinator) (now : Instant) (fresh : Seed) (source dialect preset : Text) :
    Consultation :=
  match Request.parse source dialect preset with
  | .error cause => .finished (.error (.request cause))
  | .ok r => c.run now fresh r

end Coordinator
end LuaVeil
