/-
# Help

The texts that the program shows about itself: its version, the presets, and
help on its commands.
-/
import LuaVeil.Command.Arguments
import LuaVeil.Job.Preset
import LuaVeil.Lua.Dialect
import LuaVeil.Veil.Banner

namespace LuaVeil.Command

/-- The name by which the program is called. -/
def programName : Text := "luaguard".toList

/-- The version of the program, on a line. -/
def versionText : Text :=
  programName ++ ' ' :: Banner.toolVersion ++ ['\n']

/-- A text filled with spaces up to a width. -/
def pad (width : Nat) (t : Text) : Text :=
  t ++ List.replicate (width - t.length) ' '

/-- The presets with their steps, and the dialects, each on a line. -/
def presetsText : Text :=
  let preset (p : Preset) : Text :=
    "  ".toList ++ pad 8 p.name ++ ' ' :: p.plan.describe ++ ['\n']
  let dialect (d : Dialect) : Text := "  ".toList ++ d.name ++ ['\n']
  "Presets:\n".toList ++ Preset.all.flatMap preset ++ "\nLanguage variants:\n".toList ++
    Dialect.all.flatMap dialect

/-- Lines of two columns. -/
def columns (width : Nat) (lines : List (String × String)) : Text :=
  lines.flatMap fun (left, right) =>
    "  ".toList ++ pad width left.toList ++ "  ".toList ++ right.toList ++ ['\n']

/-- A page of help: what it is about, how the command is used, and sections of two columns. -/
def helpPage (about usage : String) (sections : List (String × Nat × List (String × String))) :
    Text :=
  let part (item : String × Nat × List (String × String)) : Text :=
    '\n' :: item.1.toList ++ ":\n".toList ++ columns item.2.1 item.2.2
  about.toList ++ "\n\nUsage: ".toList ++ programName ++ usage.toList ++ '\n' :: sections.flatMap part

/-- The options of the command that obfuscates. -/
def optionLines : List (String × String) :=
  [("-p, --preset <PRESET>", "Protection preset: minify, weak, medium, strong [default: medium]"),
   ("-v, --variant <VARIANT>", "Language variant: lua51, luau [default: luau]"),
   ("-o, --output <OUTPUT>", "Output path (default: stdout)"),
   ("    --remote <REMOTE>", "Base URL of the remote transformer"),
   ("    --timeout-ms <TIMEOUT_MS>", "Remote timeout in milliseconds"),
   ("    --no-fallback", "Fail instead of falling back to the local pipeline"),
   ("    --seed <SEED>", "64-digit hex seed; runs the local pipeline deterministically"),
   ("-c, --config <CONFIG>", "Config file (default: ./luaguard.toml, then the user config dir)"),
   ("-h, --help", "Print help")]

/-- Help on a topic. -/
def helpText : HelpTopic → Text
  | .program =>
    helpPage "Source-to-source obfuscator for Lua and Luau scripts" " <COMMAND>"
      [("Commands", 9,
        [("obfuscate", "Obfuscate a script"),
         ("presets", "List presets and the passes each one runs"),
         ("help", "Print this message or the help of the given subcommand(s)")]),
       ("Options", 13, [("-h, --help", "Print help"), ("-V, --version", "Print version")])]
  | .obfuscate =>
    helpPage "Obfuscate a script" " obfuscate [OPTIONS] <FILE>"
      [("Arguments", 6, [("<FILE>", "Script to obfuscate")]), ("Options", 29, optionLines)]
  | .presets =>
    helpPage "List presets and the passes each one runs" " presets"
      [("Options", 10, [("-h, --help", "Print help")])]
  | .help =>
    helpPage "Print this message or the help of the given subcommand(s)" " help [COMMAND]..."
      [("Arguments", 12, [("[COMMAND]...", "Print help for the subcommand(s)")])]

end LuaVeil.Command
