/-! # Mnemonics

The operations of the instruction set and the five abbreviations that expand to others, each with
the layout of its operands and its place in the machine word.
-/

namespace MipsAsm.Isa

/-- Operand layouts, named for the operands in source order. -/
inductive Format where
  /-- Three registers: `rd, rs, rt`. -/
  | reg3
  /-- Three registers, the shift amount last: `rd, rt, rs`. -/
  | shiftVar
  /-- Two registers and a constant amount: `rd, rt, sa`. -/
  | shift
  | mulDiv
  | moveFrom
  | jumpReg
  /-- Two registers and a sign-extended constant: `rt, rs, imm`. -/
  | immSigned
  /-- Two registers and a zero-extended constant: `rt, rs, imm`. -/
  | immUnsigned
  | upper
  /-- A register and a based address: `rt, off(base)`. -/
  | mem
  | branch
  | branchZero
  | jump
  | bare
  | move
  | loadImm
  | loadAddr
  | branchAlways
  deriving DecidableEq, Repr

/-- How a machine word selects the operation. -/
inductive Encoding where
  /-- Opcode 0, selected by the function field. -/
  | register (funct : UInt8)
  /-- Selected by the opcode. -/
  | immediate (op : UInt8)
  /-- Opcode 1, selected by the `rt` field. -/
  | condition (cond : UInt8)
  | jump (op : UInt8)
  /-- No word of its own: stands for other instructions. -/
  | pseudo
  deriving DecidableEq, Repr

inductive Mnemonic where
  | add | addu | sub | subu | and | or | xor | nor | slt | sltu
  | sll | srl | sra | sllv | srlv | srav
  | mult | multu | div | divu | mfhi | mflo
  | jr | jalr
  | addi | addiu | slti | sltiu | andi | ori | xori | lui
  | lb | lbu | lh | lhu | lw | sb | sh | sw
  | beq | bne | blez | bgtz | bltz | bgez
  | j | jal
  | syscall | breakpoint
  | nop | move | li | la | b
  deriving DecidableEq, Repr

namespace Mnemonic

def all : List Mnemonic :=
  [add, addu, sub, subu, and, or, xor, nor, slt, sltu,
    sll, srl, sra, sllv, srlv, srav,
    mult, multu, div, divu, mfhi, mflo,
    jr, jalr,
    addi, addiu, slti, sltiu, andi, ori, xori, lui,
    lb, lbu, lh, lhu, lw, sb, sh, sw,
    beq, bne, blez, bgtz, bltz, bgez,
    j, jal,
    syscall, breakpoint,
    nop, move, li, la, b]

theorem mem_all (m : Mnemonic) : m ∈ all := by
  cases m <;> decide

def name : Mnemonic → String
  | add => "add" | addu => "addu" | sub => "sub" | subu => "subu"
  | and => "and" | or => "or" | xor => "xor" | nor => "nor"
  | slt => "slt" | sltu => "sltu"
  | sll => "sll" | srl => "srl" | sra => "sra"
  | sllv => "sllv" | srlv => "srlv" | srav => "srav"
  | mult => "mult" | multu => "multu" | div => "div" | divu => "divu"
  | mfhi => "mfhi" | mflo => "mflo"
  | jr => "jr" | jalr => "jalr"
  | addi => "addi" | addiu => "addiu" | slti => "slti" | sltiu => "sltiu"
  | andi => "andi" | ori => "ori" | xori => "xori" | lui => "lui"
  | lb => "lb" | lbu => "lbu" | lh => "lh" | lhu => "lhu" | lw => "lw"
  | sb => "sb" | sh => "sh" | sw => "sw"
  | beq => "beq" | bne => "bne" | blez => "blez" | bgtz => "bgtz" | bltz => "bltz" | bgez => "bgez"
  | j => "j" | jal => "jal"
  | syscall => "syscall" | breakpoint => "break"
  | nop => "nop" | move => "move" | li => "li" | la => "la" | b => "b"

/-- Names are lower case and case-sensitive. -/
def ofName? (s : String) : Option Mnemonic :=
  all.find? fun m => s == m.name

def format : Mnemonic → Format
  | add | addu | sub | subu | and | or | xor | nor | slt | sltu => .reg3
  | sllv | srlv | srav => .shiftVar
  | sll | srl | sra => .shift
  | mult | multu | div | divu => .mulDiv
  | mfhi | mflo => .moveFrom
  | jr | jalr => .jumpReg
  | addi | addiu | slti | sltiu => .immSigned
  | andi | ori | xori => .immUnsigned
  | lui => .upper
  | lb | lbu | lh | lhu | lw | sb | sh | sw => .mem
  | beq | bne => .branch
  | blez | bgtz | bltz | bgez => .branchZero
  | j | jal => .jump
  | syscall | breakpoint | nop => .bare
  | move => .move
  | li => .loadImm
  | la => .loadAddr
  | b => .branchAlways

def encoding : Mnemonic → Encoding
  | sll => .register 0x00
  | srl => .register 0x02
  | sra => .register 0x03
  | sllv => .register 0x04
  | srlv => .register 0x06
  | srav => .register 0x07
  | jr => .register 0x08
  | jalr => .register 0x09
  | syscall => .register 0x0C
  | breakpoint => .register 0x0D
  | mfhi => .register 0x10
  | mflo => .register 0x12
  | mult => .register 0x18
  | multu => .register 0x19
  | div => .register 0x1A
  | divu => .register 0x1B
  | add => .register 0x20
  | addu => .register 0x21
  | sub => .register 0x22
  | subu => .register 0x23
  | and => .register 0x24
  | or => .register 0x25
  | xor => .register 0x26
  | nor => .register 0x27
  | slt => .register 0x2A
  | sltu => .register 0x2B
  | bltz => .condition 0x00
  | bgez => .condition 0x01
  | j => .jump 0x02
  | jal => .jump 0x03
  | beq => .immediate 0x04
  | bne => .immediate 0x05
  | blez => .immediate 0x06
  | bgtz => .immediate 0x07
  | addi => .immediate 0x08
  | addiu => .immediate 0x09
  | slti => .immediate 0x0A
  | sltiu => .immediate 0x0B
  | andi => .immediate 0x0C
  | ori => .immediate 0x0D
  | xori => .immediate 0x0E
  | lui => .immediate 0x0F
  | lb => .immediate 0x20
  | lh => .immediate 0x21
  | lw => .immediate 0x23
  | lbu => .immediate 0x24
  | lhu => .immediate 0x25
  | sb => .immediate 0x28
  | sh => .immediate 0x29
  | sw => .immediate 0x2B
  | nop | move | li | la | b => .pseudo

end Mnemonic

end MipsAsm.Isa
