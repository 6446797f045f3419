/-
# Command lines

`Command.parse` reads the arguments of a command line. An option is written as
`--name value`, `--name=value`, `-n value`, `-nvalue` or `-n=value`, at most once
each; after `--` no argument is an option. A value in an argument of its own does
not begin with a dash, unless it is a single dash.
-/
import LuaVeil.Number.Digits

namespace LuaVeil

/-- What a script is obfuscated with. -/
structure ObfuscateOptions where
  file : Text
  preset : Text
  dialect : Text
  /-- where the script is written, if not to the standard output -/
  output : Option Text
  remote : Option Text
  timeout : Option Nat
  noFallback : Bool
  seed : Option Text
  settings : Option Text
  deriving DecidableEq

/-- What help is asked about. -/
inductive HelpTopic where
  | program
  | obfuscate
  | presets
  | help
  deriving DecidableEq

/-- What a command line asks for. -/
inductive Command where
  | obfuscate (options : ObfuscateOptions)
  | presets
  | version
  | help (topic : HelpTopic)
  deriving DecidableEq

namespace Command

/-! ## Options -/

/-- The options of the command that obfuscates. -/
inductive OptionKey where
  | preset
  | dialect
  | output
  | remote
  | timeout
  | noFallback
  | seed
  | settings
  | help
  deriving DecidableEq

namespace OptionKey

/-- All options. -/
def all : List OptionKey :=
  [preset, dialect, output, remote, timeout, noFallback, seed, settings, help]

/-- The name of an option after two dashes. -/
def name : OptionKey → Text
  | preset => "preset".toList
  | dialect => "variant".toList
  | output => "output".toList
  | remote => "remote".toList
  | timeout => "timeout-ms".toList
  | noFallback => "no-fallback".toList
  | seed => "seed".toList
  | settings => "config".toList
  | help => "help".toList

/-- The letter of an option after one dash. -/
def letter? : OptionKey → Option Char
  | preset => some 'p'
  | dialect => some 'v'
  | output => some 'o'
  | settings => some 'c'
  | help => some 'h'
  | _ => none

/-- Whether an option has a value. -/
def hasValue : OptionKey → Bool
  | noFallback => false
  | help => false
  | _ => true

/-- The option of a name. -/
def ofName? (name : Text) : Option OptionKey :=
  all.find? fun key => key.name == name

/-- The option of a letter. -/
def ofLetter? (c : Char) : Option OptionKey :=
  all.find? fun key => key.letter? == some c

end OptionKey

/-! ## Arguments -/

/-- What an argument is by its form. -/
inductive Argument where
  /-- two dashes, after which no argument is an option -/
  | separator
  /-- an option by its name, perhaps with a value in the same argument -/
  | long (name : Text) (value : Option Text)
  /-- an option by its letter, and what follows the letter -/
  | short (letter : Char) (more : Text)
  | plain (t : Text)
  deriving DecidableEq

/-- The value after an equals sign, if there is one, and the name before it. -/
def splitName (t : Text) : Text × Option Text :=
  match t.dropWhile (· != '=') with
  | _ :: value => (t.takeWhile (· != '='), some value)
  | [] => (t, none)

/-- What an argument is by its form. -/
def Argument.ofText : Text → Argument
  | ['-', '-'] => separator
  | '-' :: '-' :: t => long (splitName t).1 (splitName t).2
  | '-' :: c :: t => short c t
  | t => plain t

/-- The value in what follows the letter of an option, with or without an equals sign. -/
def attached? : Text → Option Text
  | [] => none
  | '=' :: value => some value
  | value => some value

/-! ## Collecting options -/

/-- The options that were found so far. -/
structure Draft where
  file : Option Text
  preset : Option Text
  dialect : Option Text
  output : Option Text
  remote : Option Text
  timeout : Option Nat
  noFallback : Bool
  seed : Option Text
  settings : Option Text

namespace Draft

/-- No options. -/
def empty : Draft :=
  ⟨none, none, none, none, none, none, false, none, none⟩

/-- A value for what has none yet. -/
def once (old : Option α) (new : α) : Option (Option α) :=
  if old.isNone then some (some new) else none

/-- A path for what has none yet; a path is not empty. -/
def oncePath (old : Option Text) (new : Text) : Option (Option Text) :=
  if new.isEmpty then none else once old new

/-- The number of milliseconds that a text tells: digits, perhaps after a plus sign, below `2 ^ 64`. -/
def milliseconds? (t : Text) : Option Nat := do
  let digits :=
    match t with
    | '+' :: digits => digits
    | digits => digits
  if digits.isEmpty then none
  else (Number.readDigits 10 digits).filter (· < Nat.pow 2 64)

/-- Enter the value of an option. -/
def set (d : Draft) (value : Text) : OptionKey → Option Draft
  | .preset => (once d.preset value).map ({ d with preset := · })
  | .dialect => (once d.dialect value).map ({ d with dialect := · })
  | .output => (oncePath d.output value).map ({ d with output := · })
  | .remote => (once d.remote value).map ({ d with remote := · })
  | .timeout => do
    let timeout ← once d.timeout (← milliseconds? value)
    return { d with timeout }
  | .seed => (once d.seed value).map ({ d with seed := · })
  | .settings => (oncePath d.settings value).map ({ d with settings := · })
  | _ => none

/-- Enter an option without a value. -/
def setFlag (d : Draft) : OptionKey → Option Draft
  | .noFallback => if d.noFallback then none else some { d with noFallback := true }
  | _ => none

/-- Enter the file. -/
def setFile (d : Draft) (file : Text) : Option Draft :=
  (oncePath d.file file).map ({ d with file := · })

/-- The command of the options that were found. -/
def finish (d : Draft) : Option Command :=
  d.file.map fun file =>
    .obfuscate
      { file, preset := d.preset.getD "medium".toList, dialect := d.dialect.getD "luau".toList,
        output := d.output, remote := d.remote, timeout := d.timeout, noFallback := d.noFallback,
        seed := d.seed, settings := d.settings }

end Draft

/-- Whether an argument of its own can be the value of an option. -/
def isValue (t : Text) : Bool :=
  match Argument.ofText t with
  | .plain _ => true
  | _ => false

/-- The command of some options and the arguments after them; `key` still waits for its value. -/
def parseOptions : Draft → Option OptionKey → List Text → Option Command
  | d, none, [] => d.finish
  | _, some _, [] => none
  | d, some key, t :: args =>
    if isValue t then do
      let d ← d.set t key
      parseOptions d none args
    else none
  | d, none, t :: args =>
    let option (key : OptionKey) (value : Option Text) : Option Command :=
      match key.hasValue, value with
      | true, some value => do
        let d ← d.set value key
        parseOptions d none args
      | true, none => parseOptions d (some key) args
      | false, _ =>
        if key = .help then some (.help .obfuscate)
        else do
          let d ← d.setFlag key
          parseOptions d none args
    match Argument.ofText t with
    | .separator => do
      let d ← args.foldlM Draft.setFile d
      d.finish
    | .long name value => do
      let key ← OptionKey.ofName? name
      if !key.hasValue && value.isSome then none else option key value
    | .short letter more => do
      let key ← OptionKey.ofLetter? letter
      option key (attached? more)
    | .plain file => do
      let d ← d.setFile file
      parseOptions d none args

/-! ## Commands -/

/-- The command of the arguments after `presets`. -/
def parsePresets : List Text → Option Command
  | [] => some presets
  | t :: args =>
    match Argument.ofText t with
    | .separator => if args.isEmpty then some presets else none
    | .long name none => if name == "help".toList then some (help .presets) else none
    | .short 'h' _ => some (help .presets)
    | _ => none

/-- The command of the arguments after `help`. -/
def parseHelp : List Text → Option Command
  | [] => some (help .program)
  | [topic] =>
    match String.ofList topic with
    | "obfuscate" => some (help .obfuscate)
    | "presets" => some (help .presets)
    | "help" => some (help .help)
    | _ => none
  | _ => none

/-- The command of some arguments; `none` if they are not used rightly. -/
def parse : List Text → Option Command
  | [] => none
  | t :: args =>
    match Argument.ofText t with
    | .long name none =>
      if name == "help".toList then some (help .program)
      else if name == "version".toList then some version
      else none
    | .short 'h' _ => some (help .program)
    | .short 'V' _ => some version
    | .plain name =>
      match String.ofList name with
      | "obfuscate" => parseOptions .empty none args
      | "presets" => parsePresets args
      | "help" => parseHelp args
      | _ => none
    | _ => none

end Command
end LuaVeil
