import MipsAsm.Error
import MipsAsm.Text.Lines

/-! # Scanning a stream

A stream is read line by line. A line whose bytes are not UTF-8 cannot be scanned: it is passed
over with an error and does not count as a line.
-/

namespace MipsAsm.Token

inductive RawLine where
  | text (cs : List Char)
  | undecodable
  deriving DecidableEq, Repr

namespace RawLine

def ofChars (cs : List Char) : RawLine :=
  .text (Text.dropTrailing (· == '\r') cs)

def ofBytes (bytes : List UInt8) : RawLine :=
  match String.fromUTF8? ⟨bytes.toArray⟩ with
  | some s => ofChars s.toList
  | none => .undecodable

end RawLine

def linesOfText (s : String) : List RawLine :=
  (Text.lines s.toList).map fun line => .ofChars line.content

def linesOfBytes (bytes : List UInt8) : List RawLine :=
  (Text.cutLines 0x0A [] bytes).map fun line => .ofBytes line.content

structure Stream where
  options : Options
  source : Nat
  ahead : List RawLine
  /-- How many lines were scanned. -/
  count : Nat
  /-- The line of the last call. -/
  line : List Char
  deriving DecidableEq, Repr

namespace Stream

def ofLines (options : Options) (source : Nat) (lines : List RawLine) : Stream :=
  ⟨options, source, lines, 0, []⟩

/-- Index of the line of the last call. -/
def index (s : Stream) : Nat :=
  s.count - 1

/-- The tokens of the next line, or `none` at the end of the stream. -/
def next (s : Stream) : Except Error (Option (List Token)) × Stream :=
  match s.ahead with
  | [] => (.ok none, { s with line := [] })
  | .undecodable :: ahead => (.error .fileRead, { s with ahead, line := [] })
  | .text cs :: ahead =>
    ((scanLine s.options s.source s.count cs).mapError Error.lexical |>.map some,
      { s with ahead, count := s.count + 1, line := cs })

end Stream

end MipsAsm.Token
