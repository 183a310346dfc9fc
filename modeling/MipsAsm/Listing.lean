import MipsAsm.Instruction.Printer
import MipsAsm.Program
import MipsAsm.Text.Blank

/-! # Listings

Every source line with the address and the first bytes of what it produced. Wide items are cut to
their first word.
-/

namespace MipsAsm.Listing

def hexBytes (bs : List UInt8) : String :=
  " ".intercalate (bs.map fun b => Text.paddedHex 2 b.toNat)

/-- The bytes of an item, in eleven columns. -/
def byteColumn (p : Program) (item : Item) : String :=
  match p.memory.readBytes item.address (min item.size 4) with
  | some bs => Text.padRight 11 ' ' (hexBytes bs)
  | none => Text.paint [.red, .bold] "!! !! !! !!"

/-- Code shows the first label at its address. -/
def labelColumn (p : Program) (item : Item) : String :=
  match item.payload with
  | .code _ =>
    match p.labels.nameOf? item.address with
    | some name => Text.paint [.green] (name ++ ":") ++ " "
    | none => ""
  | _ => ""

def contentColumn (item : Item) (raw : String) : String :=
  match item.payload with
  | .code i => i.painted
  | _ => Text.paint [.cyan] (Text.trimmed raw)

def lineNumber (index : Nat) : String :=
  Text.padLeft 4 ' ' (toString (index + 1))

def itemLine (p : Program) (index : Nat) (raw : String) (item : Item) : String :=
  "[" ++ Text.paddedHex 8 item.address.toNat ++ "] " ++ byteColumn p item ++ "| " ++
    lineNumber index ++ ": " ++ labelColumn p item ++ contentColumn item raw ++ "\n"

def plainLine (index : Nat) (raw : String) : String :=
  Text.repeated 22 ' ' ++ "| " ++ lineNumber index ++ ": " ++ raw ++ "\n"

def itemsAt (p : Program) (source index : Nat) : List Item :=
  p.items.toList.filter fun item => item.pos.source == source && item.pos.line == index

/-- A line that produced nothing is shown as it is. -/
def sourceLine (p : Program) (source index : Nat) (raw : String) : String :=
  match itemsAt p source index with
  | [] => plainLine index raw
  | items => String.join (items.map (itemLine p index raw))

/-- The rule is shorter by the bytes of the file's name. -/
def header (file : String) : String :=
  Text.repeated 22 '-' ++ "+------[" ++ file ++ "]" ++
    Text.repeated (45 - file.utf8ByteSize) '-' ++ "\n"

def sourceText (p : Program) (source : Nat) (entry : String × List String) : String :=
  header entry.1 ++
    String.join (entry.2.mapIdx fun index raw => sourceLine p source index raw)

def footer : String :=
  Text.repeated 22 '-' ++ "+" ++ Text.repeated 53 '-' ++ "\n"

def render (p : Program) : String :=
  String.join (p.sources.mapIdx fun source entry => sourceText p source entry) ++ footer

end MipsAsm.Listing
