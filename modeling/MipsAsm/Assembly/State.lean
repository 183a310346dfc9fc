import MipsAsm.Assembly.Directive

/-! # The state of an assembly run

Each section has a cursor. Labels on a line of their own wait until a statement decides their
address. Staging an item opens the first segment of its section if need be and extends the segment
over the item.
-/

namespace MipsAsm

open Memory (Image)

structure Cursor where
  pc : UInt32
  /-- Whether a segment was opened for the section. -/
  isOpen : Bool
  deriving DecidableEq, Repr

structure Assembly where
  active : Section
  text : Cursor
  data : Cursor
  pending : List Token
  labels : LabelTable
  memory : Image
  staged : Array Item
  deriving DecidableEq, Repr

/-- The least multiple of `alignment` that is not below `pc`. -/
def alignUp (pc : UInt32) (alignment : Nat) : Except Cause UInt32 :=
  let reach := pc.toNat + (alignment - 1)
  if reach < 0x100000000 then .ok (UInt32.ofNat (reach / alignment * alignment))
  else .error (.addressOverflow reach)

namespace Assembly

def ofBases (textBase dataBase : UInt32) (memory : Image) : Assembly :=
  ⟨.text, ⟨textBase, false⟩, ⟨dataBase, false⟩, [], .empty, memory, #[]⟩

def cursor (a : Assembly) : Cursor :=
  match a.active with
  | .text => a.text
  | .data => a.data

/-- The address at which the next statement of the active section starts. -/
def pc (a : Assembly) : UInt32 :=
  a.cursor.pc

def withCursor (a : Assembly) (c : Cursor) : Assembly :=
  match a.active with
  | .text => { a with text := c }
  | .data => { a with data := c }

def openSegment (s : Section) (m : Image) (address : Int) : Image :=
  match s with
  | .text => m.openText address
  | .data => m.openData address

def extendSegment (s : Section) (m : Image) (stop : UInt32) : Image :=
  match s with
  | .text => m.extendText stop
  | .data => m.extendData stop

/-- Goes on in a section; an address opens a new segment there. -/
def switch (a : Assembly) (target : Section) (address : Option Int) : Assembly :=
  let a := { a with active := target }
  match address with
  | none => a
  | some v =>
    { a with memory := openSegment target a.memory v }.withCursor ⟨Memory.clampAddress v, true⟩

/-- Stages an item that ends at `stop` and moves the cursor behind it. -/
def place (a : Assembly) (item : Item) (stop : UInt32) : Assembly :=
  let opened :=
    if a.cursor.isOpen then a.memory else openSegment a.active a.memory item.address.toNat
  { a with
    memory := extendSegment a.active opened stop
    staged := a.staged.push item }.withCursor ⟨stop, true⟩

end Assembly

/-- A step of an assembly run, whose effects outlive an error. -/
abbrev Assemble : Type → Type :=
  EStateM Error Assembly

namespace Assemble

def liftExcept {α : Type} (x : Except Error α) : Assemble α := fun a =>
  match x with
  | .ok v => .ok v a
  | .error e => .error e a

def align (alignment : Nat) (pos : Position) : Assemble Unit := fun a =>
  match alignUp a.pc alignment with
  | .ok pc => .ok () (a.withCursor { a.cursor with pc })
  | .error cause => .error (cause.located pos) a

def defineLabel (address : UInt32) (t : Token) : Assemble Unit := fun a =>
  match a.labels.define ⟨t.labelName?.getD t.text, t.pos, address⟩ with
  | .ok labels => .ok () { a with labels }
  | .error cause => .error (cause.located t.pos) a

def defineLabels (address : UInt32) : List Token → Assemble Unit
  | [] => pure ()
  | t :: ts => do
    defineLabel address t
    defineLabels address ts

/-- Binds the waiting labels and `names` to the cursor. -/
def define (names : List Token) : Assemble Unit := do
  let a ← get
  set { a with pending := [] }
  defineLabels a.pc (a.pending ++ names)

def emit (pos : Position) (payload : Payload) : Assemble Unit := fun a =>
  let item : Item := ⟨a.pc, pos, payload⟩
  let stop := a.pc.toNat + item.size
  if stop < 0x100000000 then .ok () (a.place item (UInt32.ofNat stop))
  else .error ((Cause.addressOverflow stop).located pos) a

/-- Refuses a gap that does not fit the address space, before anything is done about it. -/
def checkSpace (pos : Position) (count : Nat) : Assemble Unit := fun a =>
  let stop := min (a.pc.toNat + count) 0x7FFFFFFFFFFFFFFF
  if stop < 0x100000000 then .ok () a else .error ((Cause.addressOverflow stop).located pos) a

end Assemble

end MipsAsm
