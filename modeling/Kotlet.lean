import Kotlet.ClassFile
import Kotlet.ClassFile.Code
import Kotlet.ClassFile.Descriptor
import Kotlet.ClassFile.Error
import Kotlet.ClassFile.Instruction
import Kotlet.ClassFile.ModifiedUtf8
import Kotlet.ClassFile.Opcode
import Kotlet.ClassFile.Parsed
import Kotlet.ClassFile.Pool
import Kotlet.Command
import Kotlet.Compilation
import Kotlet.Decimal.Fraction
import Kotlet.Decimal.Nearest
import Kotlet.Decimal.Shortest
import Kotlet.Diagnostic
import Kotlet.Diagnostic.Report
import Kotlet.Disk
import Kotlet.Emit
import Kotlet.Emit.Class
import Kotlet.Emit.Error
import Kotlet.Emit.Expr
import Kotlet.Emit.Layout
import Kotlet.Emit.Show
import Kotlet.Emit.Stmt
import Kotlet.Eval
import Kotlet.Eval.Fault
import Kotlet.FileTree
import Kotlet.Main
import Kotlet.Mutation
import Kotlet.Operator
import Kotlet.Parse
import Kotlet.Parse.Expr
import Kotlet.Parse.Stmt
import Kotlet.Proofs.Accepted
import Kotlet.Proofs.Ends
import Kotlet.Proofs.Eval.Fault
import Kotlet.Proofs.Eval.Soundness
import Kotlet.Proofs.Eval.Typed
import Kotlet.Proofs.Parse.WellFormed
import Kotlet.Proofs.Syntax.WellFormed
import Kotlet.Proofs.Token.Spelling
import Kotlet.Proofs.Typing.Expr
import Kotlet.Proofs.Typing.Invariant
import Kotlet.Proofs.Typing.Judgement
import Kotlet.Proofs.Typing.Stmt
import Kotlet.Random
import Kotlet.Sample
import Kotlet.Settings
import Kotlet.Source
import Kotlet.Suite
import Kotlet.Suite.Directory
import Kotlet.Symbol
import Kotlet.Symbol.Scope
import Kotlet.Syntax
import Kotlet.Syntax.Edit
import Kotlet.Syntax.Format
import Kotlet.Syntax.Node
import Kotlet.Syntax.Outline
import Kotlet.Syntax.Template
import Kotlet.Text.CharSet
import Kotlet.Text.Glyph
import Kotlet.Text.Hex
import Kotlet.Text.Letter
import Kotlet.Text.Path
import Kotlet.Text.Printable
import Kotlet.Text.Quoted
import Kotlet.Text.Units
import Kotlet.Token
import Kotlet.Token.Scan
import Kotlet.Ty
import Kotlet.Typing
import Kotlet.Typing.Error
import Kotlet.Typing.Expr
import Kotlet.Typing.Stmt
import Kotlet.Value
import Kotlet.Yaml
import Kotlet.Yaml.Cursor
import Kotlet.Yaml.Encoding
import Kotlet.Yaml.Number
import Kotlet.Yaml.Scalar
import Kotlet.Yaml.Timestamp
import Kotlet.Yaml.Token
import Kotlet.Yaml.Value
import Kotlet.Proofs.ClassFile.Descriptor
import Kotlet.Proofs.ClassFile.Flow
import Kotlet.Proofs.ClassFile.Flow.Label
import Kotlet.Proofs.ClassFile.Flow.Whole
import Kotlet.Proofs.Emit.Method
import Kotlet.Proofs.Emit.Piece
import Kotlet.Proofs.ClassFile.Built
import Kotlet.Proofs.ClassFile.Call.Depth
import Kotlet.Proofs.ClassFile.Reads
import Kotlet.Proofs.ClassFile.RoundTrip
import Kotlet.Proofs.Emit.Collection
import Kotlet.Proofs.Emit.Expr
import Kotlet.Proofs.Emit.Stmt
import Kotlet.Proofs.ClassFile.Delimited
import Kotlet.Proofs.ClassFile.Request
import Kotlet.Proofs.ClassFile.Listing
import Kotlet.Proofs.ClassFile.Call.Narrow
import Kotlet.Proofs.Emit.Class
import Kotlet.Proofs.Emit.Program
import Kotlet.Proofs.Eval.Ledger
import Kotlet.Proofs.Typing.Assignment
import Kotlet.Proofs.Typing.AssignmentCheck
import Kotlet.Proofs.Eval.Constants
import Kotlet.Proofs.Token.Layout
import Kotlet.Proofs.Parse.Complete
import Kotlet.Proofs.Parse.Nodes
import Kotlet.Proofs.Parse.Unambiguous
import Kotlet.Proofs.Parse.StatementsComplete
import Kotlet.Proofs.Parse.Termination
import Kotlet.Proofs.Syntax.Reformat
import Kotlet.Proofs.ClassFile.Call.Alive
import Kotlet.Proofs.Compilation
import Kotlet.Proofs.Typing.Places
import Kotlet.Proofs.Eval.Order
import Kotlet.Proofs.Token.Respaced
import Kotlet.Proofs.Syntax.Splicing
import Kotlet.Proofs.Syntax.Nested
import Kotlet.Proofs.Jvm.Script
import Kotlet.Proofs.Syntax.BareName
import Kotlet.Proofs.Syntax.Outline
import Kotlet.Proofs.Typing.LexicalCheck
import Kotlet.Proofs.ClassFile.ModifiedUtf8
import Kotlet.Proofs.Syntax.Filled
import Kotlet.Proofs.Syntax.Altered
import Kotlet.Proofs.Mutation
import Kotlet.Proofs.Typing.FreeVariables
import Kotlet.Proofs.Typing.Captures
import Kotlet.Proofs.Typing.Alike
import Kotlet.Proofs.Interleaved
import Kotlet.Proofs.ClassFile.Partition
import Kotlet.Proofs.Eval.Calls
import Kotlet.Proofs.Eval.Fuel
import Kotlet.Proofs.Eval.Range
import Kotlet.Proofs.Sample.Program
import Kotlet.Proofs.Text.Order
import Kotlet.Proofs.ClassFile.Descriptor.Grammar
import Kotlet.Proofs.Emit.Descriptor
