import MipsAsm.RunConfig.Basic

/-! # Reading run configurations

Blank lines and comments are skipped; every other line assigns a value to a key. A later
assignment replaces an earlier one. The bounds of the segments may come in any order: segments are
sorted by their index, and each needs both bounds.
-/

namespace MipsAsm.RunConfig

open Memory (Segment Endian)

/-- The parts around the first occurrence of `c`. -/
def splitOnce (c : Char) (cs : List Char) : Option (List Char × List Char) :=
  match cs.dropWhile (· != c) with
  | [] => none
  | _ :: after => some (cs.takeWhile (· != c), after)

/-- One end of a segment that is given by an index. -/
inductive Bound where
  | start
  | stop
  deriving DecidableEq, Repr

structure Bounds where
  index : Nat
  start : Option UInt32
  stop : Option UInt32
  deriving DecidableEq, Repr

namespace Bounds

def assign (b : Bounds) : Bound → UInt32 → Bounds
  | .start, address => { b with start := some address }
  | .stop, address => { b with stop := some address }

/-- Sets one bound in a list sorted by index. -/
def insert (index : Nat) (bound : Bound) (address : UInt32) : List Bounds → List Bounds
  | [] => [assign ⟨index, none, none⟩ bound address]
  | b :: rest =>
    if b.index < index then b :: insert index bound address rest
    else if b.index = index then b.assign bound address :: rest
    else assign ⟨index, none, none⟩ bound address :: b :: rest

/-- A segment whose end lies below its start is empty. -/
def segment (kind : String) (b : Bounds) : Except ConfigCause Segment :=
  match b.start, b.stop with
  | some start, some stop => .ok (.ofBounds start stop)
  | none, _ => .error (.missingKey (kind ++ "_begin_" ++ toString b.index))
  | some _, none => .error (.missingKey (kind ++ "_end_" ++ toString b.index))

end Bounds

/-- What the lines read so far have set. -/
structure Draft where
  binary : Option String
  entryPoint : Option UInt32
  codeStart : UInt32
  endian : Endian
  isa : String
  settings : Settings
  text : List Bounds
  data : List Bounds
  deriving DecidableEq, Repr

def Draft.empty : Draft :=
  ⟨none, none, 0, .little, Isa.isaName, .default, [], []⟩

def address (value : String) : Except ConfigCause UInt32 :=
  match Token.integerValue? value with
  | some v => if 0 ≤ v ∧ v < 0x100000000 then .ok (UInt32.ofInt v) else .error (.notAddress value)
  | none => .error (.notAddress value)

def flag (value : String) : Except ConfigCause Bool :=
  match value with
  | "true" => .ok true
  | "false" => .ok false
  | _ => .error (.notFlag value)

def number (value : String) : Except ConfigCause UInt64 :=
  match Text.unsigned? 10 64 value.toList with
  | some n => .ok (UInt64.ofNat n)
  | none => .error (.notNumber value)

def smallNumber (value : String) : Except ConfigCause UInt32 :=
  match Text.unsigned? 10 32 value.toList with
  | some n => .ok (UInt32.ofNat n)
  | none => .error (.notSmallNumber value)

def boundOf? : String → Option Bound
  | "begin" => some .start
  | "end" => some .stop
  | _ => none

def sectionOf? : String → Option Section
  | "text" => some .text
  | "data" => some .data
  | _ => none

/-- The section, bound and index that a key such as `text_begin_3` names. -/
def segmentKey? (key : String) : Option (Section × Bound × Nat) := do
  let (kind, rest) ← splitOnce '_' key.toList
  let target ← sectionOf? (String.ofList kind)
  let (bound, index) ← splitOnce '_' rest
  let bound ← boundOf? (String.ofList bound)
  let index ← Text.unsigned? 10 64 index
  return (target, bound, index)

namespace Draft

def assignBound (d : Draft) (key value : String) : Except ConfigCause Draft :=
  match segmentKey? key with
  | none => .error (.unknownKey key)
  | some (.text, bound, index) => do
    return { d with text := Bounds.insert index bound (← address value) d.text }
  | some (.data, bound, index) => do
    return { d with data := Bounds.insert index bound (← address value) d.data }

def assign (d : Draft) (key value : String) : Except ConfigCause Draft :=
  match key with
  | "binary" => .ok { d with binary := some value }
  | "code_start" => return { d with codeStart := ← address value }
  | "entry_point" => return { d with entryPoint := some (← address value) }
  | "endian" =>
    match Endian.ofName? value with
    | some endian => .ok { d with endian }
    | none => .error (.unknownEndian value)
  | "isa" => .ok { d with isa := value }
  | "output" => .ok { d with settings := { d.settings with output := value } }
  | "log" => .ok { d with settings := { d.settings with log := value } }
  | "forwarding" => return { d with settings := { d.settings with forwarding := ← flag value } }
  | "load_stall_bubble" =>
    return { d with settings := { d.settings with loadStallBubble := ← flag value } }
  | "branch_delay_slot" =>
    return { d with settings := { d.settings with branchDelaySlot := ← flag value } }
  | "branch_predictor" =>
    match Predictor.ofName? value with
    | some p => .ok { d with settings := { d.settings with branchPredictor := p } }
    | none => .error (.unknownPredictor value)
  | "predictor_bits" =>
    return { d with settings := { d.settings with predictorBits := ← smallNumber value } }
  | "predictor_entries" =>
    return { d with settings := { d.settings with predictorEntries := ← smallNumber value } }
  | "max_cycles" => return { d with settings := { d.settings with maxCycles := ← number value } }
  | _ => d.assignBound key value

def readLine (d : Draft) (line : List Char) : Except ConfigCause Draft :=
  let line := Text.trim line
  if line.isEmpty || line.head? == some '#' then .ok d
  else
    match splitOnce '=' line with
    | none => .error (.notAssignment (String.ofList line))
    | some (key, value) =>
      d.assign (String.ofList (Text.trim key)) (String.ofList (Text.trim value))

/-- Reads lines, the first of which has the given number. -/
def readLines (d : Draft) : Nat → List (Text.Line Char) → Except Error Draft
  | _, [] => .ok d
  | number, line :: rest => do
    let d ← (d.readLine line.shown).mapError (Error.config number)
    d.readLines (number + 1) rest

def required {α : Type} (key : String) : Option α → Except ConfigCause α
  | some a => .ok a
  | none => .error (.missingKey key)

def finish (d : Draft) : Except ConfigCause RunConfig := do
  let binary ← required "binary" d.binary
  let entryPoint ← required "entry_point" d.entryPoint
  let text ← d.text.mapM (Bounds.segment "text")
  let data ← d.data.mapM (Bounds.segment "data")
  return ⟨binary, d.codeStart, entryPoint, d.endian, text, data, d.isa, d.settings⟩

end Draft

def parse (s : String) : Except Error RunConfig := do
  let d ← Draft.empty.readLines 1 (Text.lines s.toList)
  d.finish.mapError (Error.config 0)

end MipsAsm.RunConfig
