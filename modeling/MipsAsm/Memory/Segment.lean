import MipsAsm.Text.Numeral

/-! # Segments

A segment is a half-open range of addresses that never ends before it starts.
-/

namespace MipsAsm.Memory

structure Segment where
  start : UInt32
  stop : UInt32
  start_le_stop : start ≤ stop
  deriving DecidableEq, Repr

namespace Segment

theorem le_extend {a b : UInt32} (c : UInt32) (h : a ≤ b) : a ≤ if b ≤ c then c else b := by
  split
  · rename_i hc; exact UInt32.le_trans h hc
  · exact h

/-- The range that starts at `start` and reaches at least `stop`. -/
def ofBounds (start stop : UInt32) : Segment :=
  ⟨start, if start ≤ stop then stop else start, le_extend stop (UInt32.le_refl start)⟩

def emptyAt (start : UInt32) : Segment :=
  ⟨start, start, UInt32.le_refl start⟩

/-- Moves the end up to `stop`, never down. -/
def extend (s : Segment) (stop : UInt32) : Segment :=
  ⟨s.start, if s.stop ≤ stop then stop else s.stop, le_extend stop s.start_le_stop⟩

def size (s : Segment) : Nat :=
  s.stop.toNat - s.start.toNat

def isEmpty (s : Segment) : Bool :=
  s.start == s.stop

def contains (s : Segment) (address : UInt32) : Bool :=
  decide (s.start ≤ address) && decide (address < s.stop)

def text (s : Segment) : String :=
  "[" ++ Text.addressText s.start ++ ", " ++ Text.addressText s.stop ++ ")"

end Segment

inductive SegmentKind where
  | data
  | text
  deriving DecidableEq, Repr

def SegmentKind.name : SegmentKind → String
  | data => "data"
  | text => "text"

/-- Two neighbours of a layout, the second of which starts inside the first. -/
structure Overlap where
  left : SegmentKind × Segment
  right : SegmentKind × Segment
  deriving DecidableEq, Repr

def Overlap.message (o : Overlap) : String :=
  o.left.1.name ++ " segment " ++ o.left.2.text ++ " overlaps " ++
    o.right.1.name ++ " segment " ++ o.right.2.text

end MipsAsm.Memory
