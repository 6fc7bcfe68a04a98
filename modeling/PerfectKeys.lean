import PerfectKeys.Octet
import PerfectKeys.Mnemonic
import PerfectKeys.Json.Quoted
import PerfectKeys.Json.Value
import PerfectKeys.Json.Token
import PerfectKeys.Key
import PerfectKeys.Occupancy
import PerfectKeys.Report
import PerfectKeys.Event
import PerfectKeys.Numeral
import PerfectKeys.Log
import PerfectKeys.Verbosity
import PerfectKeys.NameLists
import PerfectKeys.Run
import PerfectKeys.FirstRepeat
import PerfectKeys.Magic.Scheme
import PerfectKeys.Magic.Settings
import PerfectKeys.Magic.Table
import PerfectKeys.Magic.Search
import PerfectKeys.Reference
import PerfectKeys.Tool.InputFile
import PerfectKeys.Tool.Arguments
import PerfectKeys.Tool.Execution
import PerfectKeys.Main
import PerfectKeys.Proofs.Spelling
import PerfectKeys.Proofs.Validation
import PerfectKeys.Proofs.Magic.Names
import PerfectKeys.Proofs.Magic.Candidates
import PerfectKeys.Proofs.Magic.Answer
import PerfectKeys.Proofs.Magic.Hash
import PerfectKeys.Proofs.Key
import PerfectKeys.Proofs.Magic.Lookup
import PerfectKeys.Proofs.Magic.Period
import PerfectKeys.Proofs.Repetition
import PerfectKeys.Proofs.Run.Operation
import PerfectKeys.Proofs.Run.Consistency
import PerfectKeys.Proofs.Event
import PerfectKeys.Proofs.Run.Log
import PerfectKeys.Proofs.Magic.Separation
import PerfectKeys.Proofs.Json.Lexing
import PerfectKeys.Proofs.Delimited
import PerfectKeys.Proofs.Json.Unambiguous
import PerfectKeys.Proofs.Report
import PerfectKeys.Proofs.Run.Renderings
import PerfectKeys.Proofs.Rearrangement
import PerfectKeys.Proofs.Magic.Reordering
import PerfectKeys.Proofs.Magic.Resumption
import PerfectKeys.Proofs.Magic.Rejection
import PerfectKeys.Proofs.Magic.Monotonicity
import PerfectKeys.Proofs.Magic.Recasing
import PerfectKeys.Proofs.Run.Failure
import PerfectKeys.Proofs.Run.Reordering
import PerfectKeys.Proofs.Run.Composition
import PerfectKeys.Proofs.Run.Accepted
import PerfectKeys.Proofs.Json.Literal
import PerfectKeys.Proofs.Json.Grammar
import PerfectKeys.Proofs.Json.Layouts
import PerfectKeys.Proofs.Tool.InputFile
import PerfectKeys.Proofs.Tool.Arguments
import PerfectKeys.Proofs.Tool.Diagnostics
import PerfectKeys.Proofs.Tool.Reader
import PerfectKeys.Proofs.Tool.KeyMode
import PerfectKeys.Proofs.Tool.KeyLog
import PerfectKeys.Proofs.Magic.Log
import PerfectKeys.Proofs.Tool.MagicArguments
import PerfectKeys.Proofs.Tool.MagicMode
import PerfectKeys.Proofs.Tool.JsonOutput
import PerfectKeys.Proofs.Magic.Arithmetic
import PerfectKeys.Proofs.Magic.Cells
import PerfectKeys.Proofs.ProgramText
import PerfectKeys.Proofs.Magic.Listing
import PerfectKeys.Proofs.Magic.Renderings
import PerfectKeys.Proofs.Magic.Settings
import PerfectKeys.Proofs.EscapedForms
import PerfectKeys.Proofs.Magic.Leading
