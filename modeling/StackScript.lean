import StackScript.Text.Hexadecimal
import StackScript.Bytes
import StackScript.Cell
import StackScript.Scalar
import StackScript.Bytecode.Opcode
import StackScript.Bytecode.Instr
import StackScript.Bytecode.Listing
import StackScript.Binary32
import StackScript.Binary32.Shortest
import StackScript.Machine.Fault
import StackScript.Machine.OperandStack
import StackScript.Machine.VariableStore
import StackScript.Machine.Vm
import StackScript.Text.Offset
import StackScript.Text.Blank
import StackScript.Delimiter
import StackScript.Ty
import StackScript.Operator
import StackScript.Diagnostic
import StackScript.Token
import StackScript.Token.Lexer
import StackScript.Token.Literal
import StackScript.Token.Cursor
import StackScript.Source.Stripped
import StackScript.Source.Piece
import StackScript.Declaration
import StackScript.Function.Body
import StackScript.Function.Header
import StackScript.Function.Signature
import StackScript.SymbolTable
import StackScript.Expression
import StackScript.Emission
import StackScript.Context
import StackScript.Text.Glyphless
import StackScript.Text.Quoted
import StackScript.CommandLine.Path
import StackScript.CommandLine.Directory
import StackScript.CommandLine.Arguments
import StackScript.CommandLine.Inspect
import StackScript.CommandLine.Session
import StackScript.Main
import StackScript.Proofs.Delimiter
import StackScript.Proofs.SplitPoint
import StackScript.Proofs.Grammar
import StackScript.Proofs.MachineInvariant
import StackScript.Proofs.RawMemory
import StackScript.Proofs.InstructionRefinement
import StackScript.Proofs.Stripping
import StackScript.Proofs.StrippedScript
import StackScript.Proofs.Utf8
import StackScript.Proofs.Lexing
import StackScript.Proofs.Reading
import StackScript.Proofs.Slots
import StackScript.Proofs.Typing
import StackScript.Proofs.Readers
import StackScript.Proofs.Emission
import StackScript.Proofs.Acceptance
import StackScript.Proofs.Pointing
import StackScript.Proofs.StatementDiagnostics
import StackScript.Proofs.ScriptDiagnostics
import StackScript.Proofs.Script
import StackScript.Proofs.TypedCode
import StackScript.Proofs.CellMachine
import StackScript.Proofs.StackEffect
import StackScript.Proofs.Conversions
import StackScript.Proofs.Meaning
import StackScript.Proofs.Nesting
import StackScript.Proofs.Preservation
import StackScript.Proofs.BytecodeFormat
import StackScript.Proofs.StackRoom
import StackScript.Proofs.Segmentation
import StackScript.Proofs.Concatenation
import StackScript.Proofs.Bracketing
import StackScript.Proofs.Feeding
import StackScript.Proofs.Reloading
import StackScript.Proofs.Atomicity
import StackScript.Proofs.Bodies
import StackScript.Proofs.Allocation
import StackScript.Proofs.ByteStripping
import StackScript.Proofs.Comments
import StackScript.Proofs.FailedScripts
import StackScript.Proofs.FreshVariables
import StackScript.Proofs.Spans
import StackScript.Proofs.Partition
import StackScript.Proofs.Lexemes
import StackScript.Proofs.Tokenization
import StackScript.Proofs.PeekCursor
import StackScript.Proofs.Literals
import StackScript.Proofs.HeaderGrammar
import StackScript.Proofs.Lockstep
import StackScript.Proofs.Lookahead
import StackScript.Proofs.Registration
import StackScript.Proofs.Matching
import StackScript.Proofs.Wrapping
import StackScript.Proofs.SplitSides
import StackScript.Proofs.Scalars
import StackScript.Proofs.BoundedStack
import StackScript.Proofs.Listings
