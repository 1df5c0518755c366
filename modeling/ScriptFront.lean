import ScriptFront.Main
import ScriptFront.Types.Overload
import ScriptFront.Proofs.Pool.Slots
import ScriptFront.Proofs.Pool.WellFormed
import ScriptFront.Proofs.Pool.Capacity
import ScriptFront.Proofs.Pool.Ledger
import ScriptFront.Proofs.Pool.Refinement
import ScriptFront.Proofs.Pool.FreeSlots
import ScriptFront.Proofs.Pool.Holds
import ScriptFront.Proofs.Pool.HeldOnce
import ScriptFront.Proofs.Pool.Sharing
import ScriptFront.Proofs.Pool.Compaction
import ScriptFront.Proofs.Pool.Removal
import ScriptFront.Proofs.Condition.Expression
import ScriptFront.Proofs.Condition.Arithmetic
import ScriptFront.Proofs.Condition.Climbing
import ScriptFront.Proofs.Condition.Nesting
import ScriptFront.Proofs.Number.Numeral
import ScriptFront.Proofs.Number.Floating
import ScriptFront.Proofs.Number.Literal
import ScriptFront.Proofs.Text.Quoted
import ScriptFront.Proofs.Text.Boundary
import ScriptFront.Proofs.Operator.Trie
import ScriptFront.Proofs.Operator.Longest
import ScriptFront.Proofs.Token.Refusal
import ScriptFront.Proofs.Token.Parts
import ScriptFront.Proofs.Token.Spacing
import ScriptFront.Proofs.Token.Operators
import ScriptFront.Proofs.Token.ByteScan
import ScriptFront.Proofs.Token.Safety
import ScriptFront.Proofs.Token.Display
import ScriptFront.Proofs.Token.RoundTrip
import ScriptFront.Proofs.Token.LevelRequests
import ScriptFront.Proofs.Interner.Register
import ScriptFront.Proofs.Definitions.Refinement
import ScriptFront.Proofs.Preprocess.Blocks
import ScriptFront.Proofs.Comment.Scanner
import ScriptFront.Proofs.Comment.Gap
import ScriptFront.Proofs.Preprocess.Erasure
import ScriptFront.Proofs.Preprocess.DirectiveComment
import ScriptFront.Proofs.Preprocess.DirectiveText
import ScriptFront.Proofs.Preprocess.Inlining
import ScriptFront.Proofs.Script.LineMap
import ScriptFront.Proofs.Script.Pushes
import ScriptFront.Proofs.Script.Outline
import ScriptFront.Proofs.Script.Origins
import ScriptFront.Proofs.Script.Trace
import ScriptFront.Proofs.Script.Repeats
import ScriptFront.Proofs.Script.Findings
import ScriptFront.Proofs.Script.Names
import ScriptFront.Proofs.Session.TokenHolds
import ScriptFront.Proofs.Session.TokenValues
import ScriptFront.Proofs.Session.TokenNames
import ScriptFront.Proofs.Session.Loading
import ScriptFront.Proofs.Session.Lockstep
import ScriptFront.Proofs.Session.Reload
import ScriptFront.Proofs.Session.KeptTokens
import ScriptFront.Proofs.Session.FullPool
import ScriptFront.Proofs.Session.FeatureLevel
import ScriptFront.Proofs.Preprocess.IncludeLines
import ScriptFront.Proofs.Preprocess.Names
import ScriptFront.Proofs.Preprocess.Phases
import ScriptFront.Proofs.Types.Calls
import ScriptFront.Proofs.Types.Growth
import ScriptFront.Proofs.Types.Naming
import ScriptFront.Proofs.Types.Overload
import ScriptFront.Proofs.Types.Numbers
import ScriptFront.Proofs.Types.Casts
import ScriptFront.Proofs.Types.Constants
import ScriptFront.Proofs.Types.Signature
import ScriptFront.Proofs.Types.Scores
import ScriptFront.Proofs.Diagnostic.Warnings
import ScriptFront.Proofs.Diagnostic.Summary
import ScriptFront.Proofs.Preprocess.OpenIfs
import ScriptFront.Proofs.Preprocess.Balance
import ScriptFront.Proofs.Token.Names
import ScriptFront.Proofs.Preprocess.ReadBack
import ScriptFront.Proofs.Types.Strings
import ScriptFront.Proofs.Options.DefinitionText
import ScriptFront.Proofs.Files.Slashes
import ScriptFront.Proofs.Script.IncludePaths
import ScriptFront.Proofs.Token.Collisions
