import MipsAsm.Assembly.Directive
import MipsAsm.Assembly.State
import MipsAsm.Assembly.Statement
import MipsAsm.Automaton.Basic
import MipsAsm.Automaton.CharSet
import MipsAsm.Cause
import MipsAsm.CommandLine.Arguments
import MipsAsm.CommandLine.Session
import MipsAsm.Diagnostic
import MipsAsm.Error
import MipsAsm.Files.Access
import MipsAsm.Files.Directory
import MipsAsm.Instruction.Basic
import MipsAsm.Instruction.Encode
import MipsAsm.Instruction.Operands
import MipsAsm.Instruction.Printer
import MipsAsm.Isa.Fault
import MipsAsm.Isa.Mnemonic
import MipsAsm.Isa.Register
import MipsAsm.Isa.Word
import MipsAsm.Item
import MipsAsm.LabelTable
import MipsAsm.Listing
import MipsAsm.Main
import MipsAsm.Memory.Endian
import MipsAsm.Memory.Image
import MipsAsm.Memory.Segment
import MipsAsm.Memory.Track
import MipsAsm.Program
import MipsAsm.Proofs.Assembly.Effect
import MipsAsm.Proofs.Assembly.History
import MipsAsm.Proofs.Assembly.Invariant
import MipsAsm.Proofs.Assembly.Labels
import MipsAsm.Proofs.Assembly.Role
import MipsAsm.Proofs.Automaton.Walk
import MipsAsm.Proofs.Instruction.Operands
import MipsAsm.Proofs.Instruction.Size
import MipsAsm.Proofs.Item.Encoding
import MipsAsm.Proofs.Memory.Bytes
import MipsAsm.Proofs.Memory.Edit
import MipsAsm.Proofs.Memory.Layout
import MipsAsm.Proofs.Memory.Overlap
import MipsAsm.Proofs.Memory.Track
import MipsAsm.Proofs.Outcome
import MipsAsm.Proofs.Program.Disjoint
import MipsAsm.Proofs.Program.Image
import MipsAsm.Proofs.Program.Run
import MipsAsm.Proofs.Token.Acceptance
import MipsAsm.Proofs.Token.Blame
import MipsAsm.Proofs.Token.LabelName
import MipsAsm.Proofs.Token.Lexeme
import MipsAsm.Proofs.Token.Reading
import MipsAsm.Proofs.Token.Span
import MipsAsm.Proofs.Token.Spelling
import MipsAsm.RunConfig.Basic
import MipsAsm.RunConfig.Reader
import MipsAsm.Settings
import MipsAsm.Settings.Reader
import MipsAsm.Text.Blank
import MipsAsm.Text.Lines
import MipsAsm.Text.Numeral
import MipsAsm.Text.Paint
import MipsAsm.Text.Quoted
import MipsAsm.Text.Shapeless
import MipsAsm.Token.Basic
import MipsAsm.Token.Constant
import MipsAsm.Token.Grammar
import MipsAsm.Token.Position
import MipsAsm.Token.Scanner
import MipsAsm.Token.Stream
import MipsAsm.Yaml.Document
import MipsAsm.Yaml.Node
import MipsAsm.Yaml.Scalar
import MipsAsm.Yaml.Tag
import MipsAsm.Yaml.Token
import MipsAsm.Proofs.Text.Lines
import MipsAsm.Proofs.Text.Numeral
import MipsAsm.Proofs.RunConfig.Reading
import MipsAsm.Proofs.RunConfig.RoundTrip
import MipsAsm.Proofs.Memory.Replay
import MipsAsm.Proofs.Program.Segments
import MipsAsm.Proofs.RunConfig.Reload
import MipsAsm.Proofs.RunConfig.Layout
import MipsAsm.Proofs.Agreement
import MipsAsm.Proofs.Instruction.Alike
import MipsAsm.Proofs.Assembly.Alike
import MipsAsm.Proofs.Assembly.Streams
import MipsAsm.Proofs.Program.Alike
import MipsAsm.Proofs.Program.ByteOrder
import MipsAsm.Proofs.Program.Annotation
import MipsAsm.Proofs.Instruction.Grammar
import MipsAsm.Proofs.Text.Paint
import MipsAsm.Proofs.Token.Constant
import MipsAsm.Proofs.Token.Phrase
import MipsAsm.Proofs.Instruction.Listing
import MipsAsm.Proofs.Instruction.Load
import MipsAsm.Proofs.Instruction.Recovery
import MipsAsm.Proofs.Instruction.Target
import MipsAsm.Proofs.Item.Values
import MipsAsm.Proofs.Assembly.Rejection
import MipsAsm.Proofs.Memory.Chronicle
import MipsAsm.Proofs.Instruction.Language
import MipsAsm.Proofs.Instruction.Verdict
import MipsAsm.Proofs.Instruction.Completion
import MipsAsm.Proofs.Instruction.Judgement
import MipsAsm.Proofs.Token.Composition
import MipsAsm.Proofs.Memory.ByteMap
import MipsAsm.Proofs.Assembly.Provenance
import MipsAsm.Proofs.Program.Provenance
import MipsAsm.Proofs.Program.Flat
import MipsAsm.Proofs.Program.Listing
import MipsAsm.Proofs.Assembly.Alignment
import MipsAsm.Proofs.Token.Progress
import MipsAsm.Proofs.Token.Decoding
import MipsAsm.Proofs.Token.StringText
import MipsAsm.Proofs.Assembly.StringDirective
