import MipsAsm.Isa.Register
import MipsAsm.Program
import MipsAsm.Settings

/-! # Run configurations

What the pipeline engine needs to know in order to load and run a binary image. The written form
is a comment followed by one assignment per line.
-/

namespace MipsAsm

open Memory (Image Segment Endian)

structure RunConfig where
  binary : String
  codeStart : UInt32
  entryPoint : UInt32
  endian : Endian
  text : List Segment
  data : List Segment
  isa : String
  settings : Settings
  deriving DecidableEq, Repr

namespace RunConfig

def ofProgram (p : Program) (binary : String) (settings : Settings) : RunConfig where
  binary := binary
  codeStart := 0
  entryPoint := p.memory.entry
  endian := p.memory.endian
  text := p.memory.text.segments
  data := p.memory.data.segments
  isa := Isa.isaName
  settings := settings

/-- The image that the configuration describes, around the bytes of its binary. -/
def memory (c : RunConfig) (bytes : Array UInt8) : Image :=
  let blank := Image.ofCapacity bytes.size c.endian
  let withText := c.text.foldl
    (fun (m : Image) s => (m.openText s.start.toNat).extendText s.stop) blank
  let withData := c.data.foldl
    (fun (m : Image) s => (m.openData s.start.toNat).extendData s.stop) withText
  { withData.load bytes with entry := c.entryPoint }

def flagText (b : Bool) : String :=
  if b then "true" else "false"

def segmentAssignments (kind : String) (segments : List Segment) : List (String × String) :=
  (segments.mapIdx fun n s =>
    [(kind ++ "_begin_" ++ toString n, Text.addressText s.start),
      (kind ++ "_end_" ++ toString n, Text.addressText s.stop)]).flatten

/-- Keys and values in the order in which they are written. -/
def assignments (c : RunConfig) : List (String × String) :=
  [("binary", c.binary),
    ("code_start", "0x" ++ Text.upperHex c.codeStart.toNat),
    ("entry_point", Text.addressText c.entryPoint),
    ("endian", c.endian.name)] ++
  segmentAssignments "text" c.text ++
  segmentAssignments "data" c.data ++
  [("output", c.settings.output),
    ("log", c.settings.log),
    ("isa", c.isa),
    ("forwarding", flagText c.settings.forwarding),
    ("load_stall_bubble", flagText c.settings.loadStallBubble),
    ("branch_delay_slot", flagText c.settings.branchDelaySlot),
    ("branch_predictor", c.settings.branchPredictor.name),
    ("predictor_bits", toString c.settings.predictorBits.toNat),
    ("predictor_entries", toString c.settings.predictorEntries.toNat),
    ("max_cycles", toString c.settings.maxCycles.toNat)]

def render (c : RunConfig) : String :=
  "# run configuration for the " ++ c.isa ++ " pipeline\n" ++
    String.join (c.assignments.map fun (key, value) => key ++ "=" ++ value ++ "\n")

end RunConfig

end MipsAsm
