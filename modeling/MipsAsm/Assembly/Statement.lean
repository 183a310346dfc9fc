import MipsAsm.Assembly.State
import MipsAsm.Token.Stream

/-! # Statements

A line is a sequence of labels, possibly followed by an instruction or a directive. Labels are
bound after alignment, so that they name the item behind them.
-/

namespace MipsAsm.Assemble

def instruction (names : List Token) (m : Isa.Mnemonic) (head : Token) (ts : List Token) :
    Assemble Unit := do
  if (← get).active ≠ .text then throw (Cause.instructionOutsideText.located head.pos)
  let i ← liftExcept (Instruction.parse m head.pos ts)
  align 4 head.pos
  define names
  emit head.pos (.code i)

/-- Labels that wait since earlier lines stay in the section that is left. -/
def directive (names : List Token) (pos : Position) : Directive → Assemble Unit
  | .switch target address => do
    define []
    modify fun a => a.switch target address
    define names
  | .data width values => do
    align width.bytes pos
    define names
    emit pos (.data width values)
  | .bytes content => do
    define names
    emit pos (.bytes content)
  | .space count => do
    checkSpace pos count
    define names
    emit pos (.space count)
  | .align exponent => do
    align (1 <<< exponent) pos
    define names

def statement (names : List Token) (head : Token) (ts : List Token) : Assemble Unit :=
  match head.kind with
  | .directive => do
    let d ← liftExcept (Directive.parse head ts)
    directive names head.pos d
  | .mnemonic =>
    match Isa.Mnemonic.ofName? head.text with
    | some m => instruction names m head ts
    | none => throw ((Cause.unknownOperation head.text).located head.pos)
  | .identifier => throw ((Cause.unknownOperation head.text).located head.pos)
  | _ => throw ((Cause.unexpectedToken head.text).located head.pos)

def line (ts : List Token) : Assemble Unit :=
  let names := ts.takeWhile fun t => t.kind == .label
  match ts.dropWhile fun t => t.kind == .label with
  | [] => modify fun a => { a with pending := a.pending ++ names }
  | head :: operands => statement names head operands

def streamOptions : Token.Options :=
  ⟨false, true⟩

/-- Assembles the lines of a source, the first of which has the given index. Labels that still
wait at the end are bound there. -/
def lines (source : Nat) : Nat → List Token.RawLine → Assemble Unit
  | _, [] => define []
  | _, .undecodable :: _ => throw .fileRead
  | index, .text cs :: rest => do
    let ts ← liftExcept ((Token.scanLine streamOptions source index cs).mapError Error.lexical)
    line ts
    lines source (index + 1) rest

end MipsAsm.Assemble

namespace MipsAsm

/-- Assembles one source and gives the items that it staged. -/
def Assembly.parse (a : Assembly) (source : Nat) (lines : List Token.RawLine) :
    Except Error (Array Item) × Assembly :=
  match Assemble.lines source 0 lines { a with staged := #[] } with
  | .ok _ a => (.ok a.staged, { a with staged := #[] })
  | .error e a => (.error e, { a with staged := #[] })

end MipsAsm
