import MipsAsm.Settings
import MipsAsm.Text.Blank
import MipsAsm.Yaml.Document

/-! # Settings in YAML

The settings are a mapping whose keys may be missing; keys that are not settings are ignored and a
setting is given at most once. Flags and numbers are plain scalars; texts take any scalar.
-/

namespace MipsAsm.Settings

open Yaml (Document Node Tag)

/-- The text of a scalar that may stand for a value of the given standard tag. -/
def typedText? (tag : String) : Node → Option String
  | .scalar .plain _ text => some text
  | .scalar .literal (some given) text =>
    if given = Tag.standard tag then some text else none
  | _ => none

def text? : Node → Option String
  | .scalar _ _ text => some text
  | _ => none

def flag? (n : Node) : Option Bool := do
  match ← typedText? "bool" n with
  | "true" | "True" | "TRUE" => some true
  | "false" | "False" | "FALSE" => some false
  | _ => none

/-- Digits behind a base mark have no sign of their own. -/
def unsignedDigits? (base : Nat) (cs : List Char) : Option Nat :=
  (Text.natural? base cs).filter (· < 0x10000000000000000)

/-- A decimal number has no superfluous zero in front. -/
def decimal? (cs : List Char) : Option Nat :=
  match cs with
  | '0' :: _ :: _ => none
  | _ => unsignedDigits? 10 cs

def numberText? (cs : List Char) : Option Nat :=
  let cs := match cs with
    | '+' :: rest => rest
    | _ => cs
  match cs with
  | '0' :: 'x' :: digits => unsignedDigits? 16 digits
  | '0' :: 'o' :: digits => unsignedDigits? 8 digits
  | '0' :: 'b' :: digits => unsignedDigits? 2 digits
  | _ => decimal? cs

def number? (n : Node) : Option Nat := do
  numberText? (← typedText? "int" n).toList

def smallNumber? (n : Node) : Option UInt32 := do
  let v ← (number? n).filter (· < 0x100000000)
  return UInt32.ofNat v

def isNull (style : Yaml.Style) (text : String) : Bool :=
  style == .plain && ["", "~", "null", "Null", "NULL"].contains text

/-- A predictor is named by a scalar, or by a local tag on nothing. -/
def predictor? : Node → Option Predictor
  | .scalar style tag text =>
    match tag.bind Tag.localName? with
    | some name => if isNull style text then Predictor.ofName? name else none
    | none => Predictor.ofName? text
  | _ => none

/-- Sets the value of a key, or leaves the settings alone if the key is not one of theirs. -/
def assign? (s : Settings) (key : String) (n : Node) : Option (Bool × Settings) :=
  match key with
  | "forwarding" => do return (true, { s with forwarding := ← flag? n })
  | "load_stall_bubble" => do return (true, { s with loadStallBubble := ← flag? n })
  | "branch_delay_slot" => do return (true, { s with branchDelaySlot := ← flag? n })
  | "branch_predictor" => do return (true, { s with branchPredictor := ← predictor? n })
  | "predictor_bits" => do return (true, { s with predictorBits := ← smallNumber? n })
  | "predictor_entries" => do return (true, { s with predictorEntries := ← smallNumber? n })
  | "max_cycles" => do return (true, { s with maxCycles := UInt64.ofNat (← number? n) })
  | "output" => do return (true, { s with output := ← text? n })
  | "log" => do return (true, { s with log := ← text? n })
  | _ => some (false, s)

/-- Reads entries, given the keys already set. -/
def readEntries (d : Document) (s : Settings) (seen : List String) :
    List (Node × Node) → Option Settings
  | [] => some s
  | (k, n) :: rest => do
    let key ← text? (← d.resolve? k)
    if seen.contains key then none
    else
      let (known, s) ← s.assign? key (← d.resolve? n)
      readEntries d s (if known then key :: seen else seen) rest

def ofDocument? (d : Document) : Option Settings :=
  match d.root with
  | .mapping _ entries => readEntries d .default [] entries
  | .scalar .plain _ "" => some .default
  | _ => none

def ofYaml? (s : String) : Option Settings :=
  if (Text.trim s.toList).isEmpty then some .default
  else (Yaml.document? s).bind ofDocument?

end MipsAsm.Settings
