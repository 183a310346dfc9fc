import MipsAsm.CommandLine.Arguments
import MipsAsm.Diagnostic
import MipsAsm.Files.Access
import MipsAsm.Isa.Fault
import MipsAsm.Listing

/-! # Sessions

What the program does for its arguments. A session writes text as it goes; a failure ends it with
a diagnostic.
-/

namespace MipsAsm.CommandLine

structure Outcome where
  exitCode : UInt32
  stdout : String
  deriving DecidableEq, Repr

def versionText : String :=
  "simasm 0.1.0\n"

def helpText : String :=
  "simasm 0.1.0
  \n  Assembler toolchain for the MIPS32 pipeline simulator

Usage:
  simasm [OPTIONS] [INPUT]...

Arguments:
  [INPUT]...  Input files

Options:
  -o, --output <OUTPUT>      Output binary [default: main.bin]
      --cfg <CFG>            Run configuration for the pipeline engine [default: main.cfg]
      --settings <SETTINGS>  Pipeline settings (YAML)
      --big-endian           Emit a big-endian image
      --strict               Reject overlapping segments
  -d, --dump                 Dump assembly listing
  -g, --gui                  Interactive mode: read source from stdin
  -c, --config <CONFIG>      Headless mode: reload a run configuration and its binary
      --about                Print the license
  -h, --help                 Print help
  -V, --version              Print version
"

def aboutText : String :=
  "simasm: assembler for the MIPS32 pipeline simulator

This program is free software: you can redistribute it and/or modify it under
the terms of the GNU General Public License as published by the Free Software
Foundation, either version 3 of the License, or (at your option) any later
version.

This program is distributed in the hope that it will be useful, but WITHOUT
ANY WARRANTY; without even the implied warranty of MERCHANTABILITY or FITNESS
FOR A PARTICULAR PURPOSE. See the GNU General Public License for more details.
"

/-- An error with the sources that its position refers to. -/
structure Failure where
  error : Error
  sources : SourceTable
  deriving DecidableEq, Repr

abbrev Session (m : Type → Type) : Type → Type :=
  ExceptT Failure (StateT String m)

namespace Session

variable {m : Type → Type} [Monad m]

def print (s : String) : Session m Unit :=
  modify (· ++ s)

def printLine (s : String) : Session m Unit :=
  print (s ++ "\n")

def check {α : Type} (sources : SourceTable) (x : Except Error α) : Session m α :=
  match x with
  | .ok a => pure a
  | .error e => throw ⟨e, sources⟩

/-- An operation on files; its errors have no position. -/
def onFiles {α : Type} (x : ExceptT Error m α) : Session m α := do
  check [] (← (monadLift (m := m) x.run : Session m _))

def outcome (session : Session m Unit) : m Outcome := do
  let (result, stdout) ← session.run.run ""
  match result with
  | .ok _ => return ⟨0, stdout⟩
  | .error failure => return ⟨1, stdout ++ failure.error.diagnostic failure.sources⟩

def runOptions (a : Arguments) : MipsAsm.Options :=
  { MipsAsm.Options.default with
    endian := if a.has .bigEndian then .big else .little
    strict := a.has .strict }

def addInputs (fs : Files m) (r : Run) : List String → Session m Run
  | [] => pure r
  | path :: rest => do
    printLine ("  < " ++ path)
    let text ← match ← (monadLift (fs.read path) : Session m Contents) with
      | .missing => throw ⟨.fileOpen path, []⟩
      | .unreadable => pure none
      | .bytes content => pure (textOfBytes content)
    let (result, r) := r.addSource path text
    check r.sources result
    addInputs fs r rest

def printWarnings (p : Program) : Session m Unit :=
  p.warnings.forM fun overlap => print (warningLine overlap.message)

def assemble (fs : Files m) (a : Arguments) : Session m Unit := do
  printLine "MIPS32 Assembler"
  printLine "1. Read Files and Parse Lines"
  let r ← addInputs fs (Run.start (runOptions a)) a.inputs
  printLine "2. Resolve Labels & Check Layout"
  let p ← check r.sources r.finish
  printWarnings p
  printLine ("  - found #" ++ toString p.labels.size ++ " labels, entry point " ++
    Text.addressText p.memory.entry)
  printLine "3. Write Binary & Run Config"
  let settings ← match a.value? .settings with
    | some path => onFiles (fs.loadSettings path)
    | none => pure Settings.default
  let output := (a.value? .output).getD "main.bin"
  let cfg := (a.value? .cfg).getD "main.cfg"
  printLine ("  > " ++ output)
  onFiles (fs.writeBinary output p.memory)
  printLine ("  > " ++ cfg)
  onFiles (fs.writeConfig cfg (RunConfig.ofProgram p output settings))
  if a.has .dump then print (Listing.render p)

def stdinName : String := "<stdin>"

def interactive (a : Arguments) (input : Array UInt8) : Session m Unit := do
  print (noteLine "reading source from stdin, end with Ctrl-D")
  match textOfBytes input with
  | none => throw ⟨.fileRead, []⟩
  | some text => do
    let p ← check [(stdinName, Text.shownLines text)]
      (MipsAsm.assemble (runOptions a) [(stdinName, text)])
    printWarnings p
    print (Listing.render p)

def summary (path : String) (c : RunConfig) (size : Nat) (image : Memory.Image) : String :=
  let s := c.settings
  Text.paint [.bold] (c.isa ++ " run") ++ ": " ++ path ++ "\n" ++
    "  binary      " ++ c.binary ++ " (" ++ toString size ++ " bytes, " ++ image.endian.name ++ ")\n" ++
    "  entry point " ++ Text.addressText image.entry ++ "\n" ++
    String.join (image.text.segments.map fun s => "  text        " ++ s.text ++ "\n") ++
    String.join (image.data.segments.map fun s => "  data        " ++ s.text ++ "\n") ++
    "  pipeline    forwarding=" ++ RunConfig.flagText s.forwarding ++
    " load_stall_bubble=" ++ RunConfig.flagText s.loadStallBubble ++
    " branch_delay_slot=" ++ RunConfig.flagText s.branchDelaySlot ++ "\n" ++
    "  predictor   " ++ s.branchPredictor.name ++ " (" ++ toString s.predictorBits.toNat ++
    " bits, " ++ toString s.predictorEntries.toNat ++ " entries)\n" ++
    "  budget      " ++ toString s.maxCycles.toNat ++ " cycles\n" ++
    "  output      " ++ s.output ++ " (log " ++ s.log ++ ")\n"

/-- An entry point outside the text only draws a warning: the first fetch meets it again. -/
def headless (fs : Files m) (path : String) : Session m Unit := do
  let config ← onFiles (fs.loadConfig path)
  let bytes ← onFiles (fs.loadBytes config.binary)
  let image := config.memory bytes
  if let some overlap := image.overlap? then throw ⟨.assembly none (.segmentOverlap overlap), []⟩
  unless image.text.contains image.entry do
    let fault := (Isa.Fault.ofKind .unreservedMemory).atAddress image.entry
    printLine (Text.paint [.yellow, .bold] fault.message)
  print (summary path config bytes.size image)

def run (fs : Files m) (input : m (Array UInt8)) (a : Arguments) : Session m Unit := do
  if a.has .about then print aboutText
  else
    match a.value? .config with
    | some path => headless fs path
    | none =>
      if a.has .gui || a.inputs.isEmpty then interactive a (← (monadLift input : Session m _))
      else assemble fs a

end Session

/-- A mistake in the arguments is reported elsewhere than on standard output. -/
def respond {m : Type → Type} [Monad m] (fs : Files m) (input : m (Array UInt8))
    (words : List String) : m Outcome :=
  match parse words with
  | .usageError => pure ⟨2, ""⟩
  | .version => pure ⟨0, versionText⟩
  | .help => pure ⟨0, helpText⟩
  | .run a => (Session.run fs input a).outcome

end MipsAsm.CommandLine
