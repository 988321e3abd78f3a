import Assembler.DataSize
import Assembler.Word
import Assembler.Word.Text
import Assembler.Json
import Assembler.Json.Reader
import Assembler.Json.Writer
import Assembler.Mode
import Assembler.Symbol
import Assembler.SymbolTable
import Assembler.Relocation
import Assembler.Value
import Assembler.Context
import Assembler.Expr
import Assembler.Expr.Eval
import Assembler.Expr.Printer
import Assembler.Register
import Assembler.MachineByte
import Assembler.EncodeError
import Assembler.Operand
import Assembler.Operand.Printer
import Assembler.Field
import Assembler.Address.Encode
import Assembler.Form
import Assembler.Form.Match
import Assembler.Form.Encode
import Assembler.Opcode
import Assembler.OpcodeTable
import Assembler.Instruction
import Assembler.Error
import Assembler.Sink
import Assembler.Item
import Assembler.Item.Emit
import Assembler.Statement
import Assembler.Statement.Construct
import Assembler.Section
import Assembler.Container
import Assembler.ObjectFile
import Assembler.Program
import Assembler.Program.Names
import Assembler.Program.Reader
import Assembler.Program.Writer
import Assembler.Report
import Assembler.Blank
import Assembler.CommandLine
import Assembler.Main
import Assembler.Proofs.Passes
import Assembler.Proofs.Emission
import Assembler.Proofs.SymbolTable
import Assembler.Proofs.FirstPass
import Assembler.Proofs.SecondPass
import Assembler.Proofs.TwoPass
import Assembler.Proofs.Layout
import Assembler.Proofs.Image
import Assembler.Proofs.Growth
import Assembler.Proofs.Folding
import Assembler.Proofs.Linking
import Assembler.Proofs.Relocation
import Assembler.Proofs.Reader
import Assembler.Proofs.Placement
import Assembler.Proofs.RoundTrip
import Assembler.Proofs.Width
import Assembler.Proofs.AddressReader
import Assembler.Proofs.AddressRoundTrip
import Assembler.Proofs.Selection
import Assembler.Proofs.Declarations
import Assembler.Proofs.Imports
import Assembler.Proofs.Resumption
import Assembler.Proofs.Retry
import Assembler.Proofs.Movement
import Assembler.Proofs.Expressions
import Assembler.Proofs.Translation
import Assembler.Proofs.Placeholders
import Assembler.Proofs.RelocationTable
import Assembler.Proofs.Truncation
import Assembler.Proofs.ParallelLists
import Assembler.Proofs.Calls
import Assembler.Proofs.Writers
import Assembler.Proofs.Verdict
import Assembler.Proofs.Coverage
import Assembler.Proofs.Gaps
import Assembler.Proofs.Arrangement
import Assembler.Proofs.EnclosedSpace
import Assembler.Proofs.JsonText
import Assembler.Proofs.StoredPrograms
import Assembler.Proofs.Acceptance
import Assembler.Proofs.Immediates
import Assembler.Proofs.LiteralData
import Assembler.Proofs.Encodability
import Assembler.Proofs.InstructionLength
import Assembler.Proofs.ShortestForm
import Assembler.Proofs.Alignment
import Assembler.Proofs.Additions
import Assembler.Proofs.Flattening
import Assembler.Proofs.Phrases
import Assembler.Proofs.Unambiguity
import Assembler.Proofs.Registration
