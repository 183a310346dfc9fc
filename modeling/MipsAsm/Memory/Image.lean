import MipsAsm.Memory.Endian
import MipsAsm.Memory.Track

/-! # Memory images

The bytes of a program from address 0 on, with its segments and entry point. The buffer grows when
a byte is written past its end. Opening a text segment clears everything behind its start, so that
running past the last instruction meets zero words. Nothing prevents segments from overlapping
while a program is put together; `overlap?` looks at the layout as it stands.
-/

namespace MipsAsm.Memory

structure Image where
  bytes : Array UInt8
  endian : Endian
  entry : UInt32
  data : Track
  text : Track
  /-- How many segments were opened. -/
  opened : Nat
  deriving DecidableEq, Repr

def defaultCapacity : Nat := 0x2000

def defaultTextBase : UInt32 := 0x00000000

def defaultDataBase : UInt32 := 0x00001000

/-- The nearest address: negative numbers give the lowest, large ones the highest. -/
def clampAddress (v : Int) : UInt32 :=
  UInt32.ofNat (min v.toNat 0xFFFFFFFF)

namespace Image

def ofCapacity (capacity : Nat) (endian : Endian) : Image :=
  ⟨Array.replicate capacity 0, endian, 0, .empty, .empty, 0⟩

def capacity (m : Image) : Nat :=
  m.bytes.size

/-! ## Bytes -/

def readByte (m : Image) (address : UInt32) : Option UInt8 :=
  m.bytes[address.toNat]?

def readBytes (m : Image) (address : UInt32) (size : Nat) : Option (List UInt8) :=
  if address.toNat + size ≤ m.bytes.size then
    some (m.bytes.extract address.toNat (address.toNat + size)).toList
  else none

/-- The capacity that a write at `index` asks for: the bytes needed, rounded up to a word, twice. -/
def grownCapacity (index : Nat) : Nat :=
  (index + 4) / 4 * 4 * 2

def grow (bytes : Array UInt8) (index : Nat) : Array UInt8 :=
  if index < bytes.size then bytes
  else bytes ++ Array.replicate (grownCapacity index - bytes.size) 0

def writeByte (m : Image) (address : UInt32) (value : UInt8) : Image :=
  { m with bytes := (grow m.bytes address.toNat).setIfInBounds address.toNat value }

/-- Addresses wrap around at the end of the address space. -/
def writeBytes (m : Image) (address : UInt32) : List UInt8 → Image
  | [] => m
  | b :: bs => (m.writeByte address b).writeBytes (address + 1) bs

def readNumber (m : Image) (address : UInt32) (width : Nat) : Option Nat :=
  (m.readBytes address width).map m.endian.decode

def writeNumber (m : Image) (address : UInt32) (width n : Nat) : Image :=
  m.writeBytes address (m.endian.encode width n)

/-- A half-word is read as a signed number. -/
def readHalf (m : Image) (address : UInt32) : Option Int :=
  (m.readNumber address 2).map fun n => if n < 0x8000 then (n : Int) else (n : Int) - 0x10000

def readWord (m : Image) (address : UInt32) : Option UInt32 :=
  (m.readNumber address 4).map UInt32.ofNat

def writeHalf (m : Image) (address : UInt32) (value : UInt16) : Image :=
  m.writeNumber address 2 value.toNat

def writeWord (m : Image) (address : UInt32) (value : UInt32) : Image :=
  m.writeNumber address 4 value.toNat

/-- Copies `bytes` over the start of the buffer. -/
def load (m : Image) (bytes : Array UInt8) : Image :=
  { m with bytes := bytes ++ m.bytes.extract bytes.size m.bytes.size }

/-! ## Segments -/

def openData (m : Image) (address : Int) : Image :=
  { m with data := m.data.openAt (clampAddress address) (m.opened + 1), opened := m.opened + 1 }

/-- Bytes from `start` on are cleared. -/
def clearFrom (bytes : Array UInt8) (start : Nat) : Array UInt8 :=
  bytes.extract 0 start ++ Array.replicate (bytes.size - start) 0

def openText (m : Image) (address : Int) : Image :=
  { m with
    text := m.text.openAt (clampAddress address) (m.opened + 1)
    opened := m.opened + 1
    bytes := clearFrom m.bytes (clampAddress address).toNat }

def extendData (m : Image) (stop : UInt32) : Image :=
  { m with data := m.data.extend stop }

def extendText (m : Image) (stop : UInt32) : Image :=
  { m with text := m.text.extend stop }

/-- Order of a layout: by start, then by opening. -/
def precedes (a b : SegmentKind × Opened) : Bool :=
  decide (a.2.segment.start < b.2.segment.start) ||
    (a.2.segment.start == b.2.segment.start && decide (a.2.serial ≤ b.2.serial))

/-- All segments of both kinds in the order of the layout. -/
def layout (m : Image) : List (SegmentKind × Segment) :=
  (List.merge (m.data.entries.map fun o => (.data, o)) (m.text.entries.map fun o => (.text, o))
    precedes).map fun x => (x.1, x.2.segment)

def firstOverlap : List (SegmentKind × Segment) → Option Overlap
  | a :: b :: rest => if b.2.start < a.2.stop then some ⟨a, b⟩ else firstOverlap (b :: rest)
  | _ => none

def overlap? (m : Image) : Option Overlap :=
  firstOverlap m.layout

end Image

end MipsAsm.Memory
