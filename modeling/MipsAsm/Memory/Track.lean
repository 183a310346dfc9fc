import MipsAsm.Memory.Segment

/-! # Segments of one kind

A track holds the segments opened so far, sorted by start, with the latest one apart because only
that one can still grow. When the next segment is opened the latest is put among the others, or
dropped if it is empty. Segments with equal starts keep the order in which they were opened.
-/

namespace MipsAsm.Memory

/-- A segment with its rank among all segments opened. -/
structure Opened where
  segment : Segment
  serial : Nat
  deriving DecidableEq, Repr

structure Track where
  settled : List Opened
  latest : Option Opened
  deriving DecidableEq, Repr

namespace Track

def empty : Track :=
  ⟨[], none⟩

/-- Puts a segment behind all that start no later. -/
def insert (o : Opened) (list : List Opened) : List Opened :=
  list.takeWhile (fun x => x.segment.start ≤ o.segment.start) ++
    o :: list.dropWhile fun x => x.segment.start ≤ o.segment.start

def entries (t : Track) : List Opened :=
  match t.latest with
  | none => t.settled
  | some o => insert o t.settled

def settle (t : Track) : List Opened :=
  match t.latest with
  | none => t.settled
  | some o => if o.segment.isEmpty then t.settled else insert o t.settled

def openAt (t : Track) (start : UInt32) (serial : Nat) : Track :=
  ⟨t.settle, some ⟨.emptyAt start, serial⟩⟩

def extend (t : Track) (stop : UInt32) : Track :=
  { t with latest := t.latest.map fun o => { o with segment := o.segment.extend stop } }

def current (t : Track) : Option Segment :=
  t.latest.map Opened.segment

def segments (t : Track) : List Segment :=
  t.entries.map Opened.segment

def contains (t : Track) (address : UInt32) : Bool :=
  t.segments.any fun s => s.contains address

end Track

end MipsAsm.Memory
