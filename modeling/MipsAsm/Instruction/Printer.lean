import MipsAsm.Instruction.Basic
import MipsAsm.Text.Paint

/-! # Instructions in a listing

The mnemonic is filled up to eight columns and the operands follow, separated by commas. Numbers
are decimal and registers go by their ABI names.
-/

namespace MipsAsm

open Isa (Register)

def Immediate.painted : Immediate → String
  | literal value => Text.paint [.yellow] (toString value)
  | symbol name => Text.paint [.green] name

namespace Instruction

def operands : Instruction → List String
  | reg3 _ a b c | shiftVar _ a b c => [a.name, b.name, c.name]
  | shift _ a b v | imm _ a b v | branch _ a b v => [a.name, b.name, v.painted]
  | mulDiv _ a b | move a b => [a.name, b.name]
  | moveFrom _ a | jumpReg _ a => [a.name]
  | upper a v | loadImm a v | loadAddr a v | branchZero _ a v => [a.name, v.painted]
  | mem _ a offset base => [a.name, offset.painted ++ "(" ++ base.name ++ ")"]
  | jump _ v | branchAlways v => [v.painted]
  | bare _ => []

/-- The operands' colour replaces that of the mnemonic without a reset in between. -/
def painted (i : Instruction) : String :=
  Text.escape Text.Attribute.red.code ++ Text.padRight 8 ' ' i.mnemonic.name ++
    Text.paint [.blue] (", ".intercalate i.operands)

end Instruction

end MipsAsm
