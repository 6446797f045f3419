/-
# The program

The outer layer of the program: it gathers what a command finds around it, has
the command executed, and prints or saves what comes of it. It has no way to the
network, so that every call of a remote service is broken.
-/
import Std.Time.DateTime.Timestamp
import LuaVeil.Command.Execution

namespace LuaVeil.Program

/-- The content of a file, if it can be read. -/
def readFile? (path : Text) : IO (Option Text) := do
  try return some (← IO.FS.readFile (String.ofList path)).toList
  catch _ => return none

/-- Whether there is a file at a path. -/
def isFileAt (path : Text) : IO Bool := do
  try
    let place ← IO.FS.realPath (String.ofList path)
    return (← place.metadata).type == .file
  catch _ => return false

/-- The directory for the settings of the user. -/
def settingsDirectory : IO (Option Text) := do
  match ← IO.getEnv "XDG_CONFIG_HOME" with
  | some path => if path.startsWith "/" then return some path.toList
  | none => pure ()
  let home ← IO.getEnv "HOME"
  return home.map fun path => path.toList ++ "/.config".toList

/-- The present time. -/
def presentTime : IO Instant := do
  let t ← Std.Time.Timestamp.now
  return ⟨t.toSecondsSinceUnixEpoch.val, 0⟩

/-- A seed by chance. -/
def randomSeed : IO Seed := do
  let bytes := (← IO.getRandomBytes 32).toList
  return if h : bytes.length = 32 then ⟨bytes, h⟩ else .ofParts [bytes]

/-- Execute a command that has been understood. -/
def execute (command : Command) : IO UInt32 := do
  let directory ← settingsDirectory
  let paths := command.files directory
  let contents ← paths.mapM readFile?
  let found ← paths.mapM isFileAt
  let w : Surroundings :=
    { read := fun path => ((paths.zip contents).lookup path).join
      isFile := fun path => ((paths.zip found).lookup path).getD false
      settingsDirectory := directory
      now := ← presentTime
      fresh := ← randomSeed
      reply := fun _ => .broken "no network".toList }
  let fail (error : CommandError) : IO UInt32 := do
    IO.eprintln ("Error: " ++ String.ofList error.message)
    return 1
  match command.execute w with
  | .print t => IO.print (String.ofList t); return 0
  | .fail error => fail error
  | .save path content summary =>
    try
      IO.FS.writeFile (String.ofList path) (String.ofList content)
      IO.print (String.ofList summary)
      return 0
    catch _ => fail (.unwritable path)

end LuaVeil.Program

open LuaVeil

/-- Run the program with some arguments. -/
def main (args : List String) : IO UInt32 := do
  match Command.parse (args.map String.toList) with
  | some command => Program.execute command
  | none =>
    IO.eprint (String.ofList (Command.helpText .program))
    return 2
