/-
# Executing commands

What a command does depends on the files that it can read, the time, chance and
the remote service; all this is given as `Surroundings`, so that executing a
command is a function. It ends with a text to print, with a script to be saved,
or with an error.
-/
import LuaVeil.Command.Help
import LuaVeil.Job.SettingsFile
import LuaVeil.Remote.Coordination

namespace LuaVeil

/-- What a command finds around it. -/
structure Surroundings where
  /-- the content of a file, if there is one that can be read -/
  read : Text → Option Text
  isFile : Text → Bool
  /-- the directory for the settings of the user, if it is known -/
  settingsDirectory : Option Text
  now : Instant
  /-- the seed of a random run -/
  fresh : Seed
  /-- how the remote service replies to a call -/
  reply : Call → Reply

/-- Why a command fails. -/
inductive CommandError where
  | unreadableScript (path : Text)
  | unreadableSettings (path : Text)
  | malformedSettings (path : Text)
  | unwritable (path : Text)
  | run (cause : Failure)
  | coordination (cause : CoordinationError)
  deriving DecidableEq

/-- The text that tells of an error. -/
def CommandError.message : CommandError → Text
  | unreadableScript path => "Failed to read file: ".toList ++ path
  | unreadableSettings path => "Failed to read config file: ".toList ++ path
  | malformedSettings path => "Failed to parse config file: ".toList ++ path
  | unwritable path => "Failed to write file: ".toList ++ path
  | run cause => cause.message
  | coordination cause => cause.message

/-- How a command ends. -/
inductive Ending where
  /-- A text is printed. -/
  | print (t : Text)
  /-- A script is saved, and then a summary is printed. -/
  | save (path content summary : Text)
  | fail (error : CommandError)
  deriving DecidableEq

namespace Command

/-! ## Settings -/

/-- The name of a settings file. -/
def settingsName : Text := "luaguard.toml".toList

/-- Where settings are looked for if no file is named: here, and then in the directory of the user. -/
def settingsPaths (directory : Option Text) : List Text :=
  settingsName ::
    directory.toList.map fun d => d ++ '/' :: programName ++ '/' :: settingsName

/-- The rules and the service of a settings file. -/
def loadSettings (w : Surroundings) (path : Text) :
    Except CommandError (Rules × Option Service) := do
  let some content := w.read path | throw (.unreadableSettings path)
  let some settings := Settings.ofFile? content | throw (.malformedSettings path)
  let rules ← settings.rules.mapError fun cause => .run (.settings cause)
  let some service := Service.ofFile? content | throw (.malformedSettings path)
  return (rules, service)

/-- The rules and the service to go by: of the file that is named, of one that is found, or none. -/
def chooseSettings (w : Surroundings) (named : Option Text) :
    Except CommandError (Rules × Option Service) :=
  match named.or ((settingsPaths w.settingsDirectory).find? w.isFile) with
  | some path => loadSettings w path
  | none => do
    let rules ← Settings.default.rules.mapError fun cause => .run (.settings cause)
    return (rules, none)

/-! ## Obfuscating -/

namespace Obfuscate

/-- The service that is asked: that of the settings, changed by the options. -/
def service (o : ObfuscateOptions) (found : Option Service) : Option Service :=
  let base :=
    match o.remote with
    | some url => some { found.getD .default with baseUrl := url }
    | none => found
  base.map fun s =>
    { s with timeout := o.timeout.getD s.timeout, fallback := s.fallback && !o.noFallback }

/-- The outcome of a request: made here if a seed is given, and else by asking the service first. -/
def outcome (w : Surroundings) (o : ObfuscateOptions) (rules : Rules) (found : Option Service)
    (r : Request) : Except CommandError Outcome :=
  match o.seed with
  | some t => do
    let seed ← (Seed.ofHex t).mapError fun cause => .run (.request (.seed cause))
    (rules.runWithSeed w.now r seed).mapError .run
  | none =>
    let coordinator : Coordinator := ⟨rules, service o found⟩
    ((coordinator.run w.now w.fresh r).result w.reply).mapError .coordination

/-- What is printed after a script was saved. -/
def summary (path : Text) (o : Outcome) : Text :=
  "Wrote ".toList ++ path ++ " (".toList ++ Number.decimal o.metadata.originalSize ++
    " -> ".toList ++ Number.decimal o.metadata.outputSize ++ " bytes)\n".toList

/-- Obfuscate a script. -/
def run (w : Surroundings) (o : ObfuscateOptions) : Except CommandError Ending := do
  let some source := w.read o.file | throw (.unreadableScript o.file)
  let r ← (Request.parse source o.dialect o.preset).mapError fun cause => .run (.request cause)
  let (rules, found) ← chooseSettings w o.settings
  let outcome ← outcome w o rules found r
  return match o.output with
    | some path => .save path outcome.output (summary path outcome)
    | none => .print (outcome.output ++ ['\n'])

end Obfuscate

/-- Execute a command. -/
def execute (w : Surroundings) : Command → Ending
  | obfuscate options =>
    match Obfuscate.run w options with
    | .ok ending => ending
    | .error cause => .fail cause
  | presets => .print presetsText
  | version => .print versionText
  | help topic => .print (helpText topic)

/-- The files that a command may read. -/
def files (directory : Option Text) : Command → List Text
  | obfuscate options => options.file :: options.settings.toList ++ settingsPaths directory
  | _ => []

end Command
end LuaVeil
