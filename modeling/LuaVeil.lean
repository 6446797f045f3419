import LuaVeil.Text.Basic
import LuaVeil.Text.Blank
import LuaVeil.Lua.Token
import LuaVeil.Lua.Delimiter
import LuaVeil.Lua.Span
import LuaVeil.Lua.Hole
import LuaVeil.Lua.Line
import LuaVeil.Number.Digits
import LuaVeil.Number.Binary64
import LuaVeil.Number.Shortest
import LuaVeil.Data.Value
import LuaVeil.Data.Json
import LuaVeil.Random.Sha3
import LuaVeil.Random.Keystream
import LuaVeil.Random.Probability
import LuaVeil.Random.Draw
import LuaVeil.Random.Seed
import LuaVeil.Names.Reserved
import LuaVeil.Names.Namespace
import LuaVeil.Lua.Escape
import LuaVeil.Lua.Literal
import LuaVeil.Lua.Dialect
import LuaVeil.Veil.Stripping
import LuaVeil.Veil.StringTable
import LuaVeil.Scope.Occurrence
import LuaVeil.Scope.Phrase
import LuaVeil.Scope.Resolution
import LuaVeil.Veil.Renaming
import LuaVeil.Veil.Guarding
import LuaVeil.Veil.Decoys
import LuaVeil.Text.WordChar
import LuaVeil.Pattern.Basic
import LuaVeil.Pattern.Reading
import LuaVeil.Job.Preset
import LuaVeil.Job.Request
import LuaVeil.Job.Outcome
import LuaVeil.Number.Calendar
import LuaVeil.Veil.Banner
import LuaVeil.Job.Settings
import LuaVeil.Job.Failure
import LuaVeil.Job.Pass
import LuaVeil.Job.Run
import LuaVeil.Data.Decoding
import LuaVeil.Data.Toml.Scalar
import LuaVeil.Data.Toml.Table
import LuaVeil.Data.Toml.Document
import LuaVeil.Remote.Service
import LuaVeil.Remote.Status
import LuaVeil.Remote.Message
import LuaVeil.Remote.Coordination
import LuaVeil.Job.SettingsFile
import LuaVeil.Job.Wire
import LuaVeil.Command.Arguments
import LuaVeil.Command.Help
import LuaVeil.Command.Execution
import LuaVeil.Bench.Workload
import LuaVeil.Bench.Timing
import LuaVeil.Main
import LuaVeil.Proofs.Line.Marks
import LuaVeil.Proofs.Line.WaitingExit
import LuaVeil.Proofs.Lua.Labels
import LuaVeil.Proofs.Lua.Seams
import LuaVeil.Proofs.Names.FreshName
import LuaVeil.Proofs.Veil.Fusion
import LuaVeil.Proofs.Lua.Spans
import LuaVeil.Proofs.Veil.Stripping
import LuaVeil.Proofs.Grammar.Tree
import LuaVeil.Proofs.Grammar.Lexemes
import LuaVeil.Proofs.Grammar.Layout
import LuaVeil.Proofs.Grammar.Brackets
import LuaVeil.Proofs.Grammar.Gaps
import LuaVeil.Proofs.Grammar.Runs
import LuaVeil.Proofs.Line.Statements
import LuaVeil.Proofs.Grammar.Scoping
import LuaVeil.Proofs.Scope.Phrases
import LuaVeil.Proofs.Scope.Walk
import LuaVeil.Proofs.Scope.Settling
import LuaVeil.Proofs.Scope.Steps
import LuaVeil.Proofs.Scope.Expressions
import LuaVeil.Proofs.Scope.Statements
import LuaVeil.Proofs.Scope.Chunks
import LuaVeil.Proofs.Job.Finishing
import LuaVeil.Proofs.Job.RoundTrip
import LuaVeil.Proofs.Scope.Annotations
import LuaVeil.Proofs.Scope.Likeness
import LuaVeil.Proofs.Scope.Transparency
import LuaVeil.Proofs.Lua.Blanks
import LuaVeil.Proofs.Lua.Closers
import LuaVeil.Proofs.Lua.Partition
import LuaVeil.Proofs.Lua.Rescan
import LuaVeil.Proofs.Veil.Steady
import LuaVeil.Proofs.Veil.StrippedTokens
import LuaVeil.Proofs.Lua.Recast
import LuaVeil.Proofs.Veil.Front
import LuaVeil.Proofs.Veil.Undisturbed
import LuaVeil.Proofs.Veil.Snippets
import LuaVeil.Proofs.Job.Rescanning
import LuaVeil.Proofs.Veil.Alike
import LuaVeil.Proofs.Job.Independence
import LuaVeil.Proofs.Remote.Decisions
import LuaVeil.Proofs.Veil.StrippedAgain
import LuaVeil.Proofs.Names.Supply
import LuaVeil.Proofs.Job.StrippedRuns
import LuaVeil.Proofs.Line.Conditionals
import LuaVeil.Proofs.Scope.Readings
import LuaVeil.Proofs.Scope.NameRoles
import LuaVeil.Proofs.Scope.Keys
import LuaVeil.Proofs.Veil.PutBack
import LuaVeil.Proofs.Lua.Follow
import LuaVeil.Proofs.Line.Rejoined
import LuaVeil.Proofs.Veil.Legible
import LuaVeil.Proofs.Line.GuardedLines
import LuaVeil.Proofs.Veil.Guarded
import LuaVeil.Proofs.Scope.Lookahead
import LuaVeil.Proofs.Scope.Standing
import LuaVeil.Proofs.Scope.GotoLabels
import LuaVeil.Proofs.Scope.Exchange
import LuaVeil.Proofs.Veil.ExtractedTokens
import LuaVeil.Proofs.Veil.TypeLiterals
import LuaVeil.Proofs.Lua.LongStrings
import LuaVeil.Proofs.Veil.GuardedStarts
import LuaVeil.Proofs.Veil.DecoyPlaces
import LuaVeil.Proofs.Line.RowReadings
import LuaVeil.Proofs.Line.Survivors
import LuaVeil.Proofs.Veil.DebugLines
import LuaVeil.Proofs.Lua.Stacked
import LuaVeil.Proofs.Lua.Unclosed
import LuaVeil.Proofs.Lua.EscapeUnits
import LuaVeil.Proofs.Lua.EscapeDialects
import LuaVeil.Proofs.Number.Numerals
import LuaVeil.Proofs.Lua.Spellings
import LuaVeil.Proofs.Line.Lossless
import LuaVeil.Proofs.Random.Draws
import LuaVeil.Proofs.Names.Search
import LuaVeil.Proofs.Names.LookAlikes
import LuaVeil.Proofs.Text.Utf8
import LuaVeil.Proofs.Random.SeedEncoding
import LuaVeil.Proofs.Random.SeedNotation
import LuaVeil.Proofs.Lua.TokenPartition
import LuaVeil.Proofs.Lua.HolePlaces
import LuaVeil.Proofs.Scope.Progress
import LuaVeil.Proofs.Veil.Edits
import LuaVeil.Proofs.Lua.Arithmetic
import LuaVeil.Proofs.Number.Doubles
import LuaVeil.Proofs.Veil.Predicates
