import Aholyc.Lib.Comp
import Aholyc.Lib.Flow
import Aholyc.Lib.Chaotic
import Aholyc.Lib.Machine
import Aholyc.Lib.Code
import Aholyc.Ast
import Aholyc.Effects
import Aholyc.Eval
import Aholyc.Source
import Aholyc.Soundness
import Aholyc.CallGraph
import Aholyc.CBackend
import Aholyc.CRun
import Aholyc.CSim
import Aholyc.LlBackend
import Aholyc.LlRun
import Aholyc.LlCode
import Aholyc.LlSim
import Aholyc.LlMarks
import Aholyc.LlBalance
import Aholyc.Balance
import Aholyc.Returns
import Aholyc.Lowerings
import Aholyc.Backends
import Aholyc.Lib.Scanner
import Aholyc.Text.Utf8
import Aholyc.Json.Decode
import Aholyc.Json.Grammar
import Aholyc.Json.Tokens
import Aholyc.Json.Accepts
import Aholyc.Lib.Closure
import Aholyc.Regex.Program
import Aholyc.Regex.Syntax
import Aholyc.Regex.Arrivals
import Aholyc.Regex.Search
import Aholyc.Regex.Leftmost
import Aholyc.Lib.Hoare
import Aholyc.Regex.Capacity
import Aholyc.Regex.WellFormed
import Aholyc.Regex.Classes
import Aholyc.Regex.Replace
import Aholyc.Alloc.Stack
import Aholyc.Alloc.Linear
import Aholyc.Alloc.Pool
import Aholyc.Data.List
import Aholyc.Data.VecSort
import Aholyc.Text.Base64
import Aholyc.Text.Convert
import Aholyc.Text.Strs
import Aholyc.Text.StrBufRuns
import Aholyc.Regex.Compile
import Aholyc.Regex.Pattern
import Aholyc.Regex.Reading
import Aholyc.Regex.Layout
import Aholyc.Regex.Levels
import Aholyc.Regex.Matching
import Aholyc.Lib.Probing
import Aholyc.Data.Ht
import Aholyc.Data.HtMap
import Aholyc.Htk.Bounds
import Aholyc.Htk.Controls
import Aholyc.Htk.Scroll
import Aholyc.Htk.HookRuns
import Aholyc.Http.Fields
import Aholyc.Http.Segments
import Aholyc.Http.Url
import Aholyc.Json.Encoded
import Aholyc.Json.Query
import Aholyc.Json.Integers
import Aholyc.Json.Strings
import Aholyc.Json.Pj
import Aholyc.Parse.Chain
import Aholyc.Parse.Update
import Aholyc.Lib.Strides
import Aholyc.Parse.Arrays
import Aholyc.Parse.ClassLayout
import Aholyc.Parse.Pointers
import Aholyc.Parse.Initializers
import Aholyc.Lex.Macros
import Aholyc.Lex.Spans
import Aholyc.Text.Runes
import Aholyc.Bits.Inline
import Aholyc.Http.Sse
import Aholyc.Term.Decode
import Aholyc.Driver.Calls
import Aholyc.Htk.Cycle
import Aholyc.Line.HistoryRuns
import Aholyc.Htk.Clip
import Aholyc.Text.Boundaries
import Aholyc.Lib.CommonPrefix
import Aholyc.Line.Complete
import Aholyc.Htk.EntryRuns
import Aholyc.Thread.SemaphoreRuns
import Aholyc.Thread.Progress
import Aholyc.Thread.Lock
import Aholyc.Log.Rotate
import Aholyc.Log.RotateRuns
import Aholyc.Log.Format
import Aholyc.Log.Redact
