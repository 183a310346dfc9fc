import MipsAsm.CommandLine.Session

/-! # The command line program -/

namespace MipsAsm

/-- A directory can be opened but not read. -/
def diskRead (path : String) : IO Contents := do
  let handle? ← try some <$> IO.FS.Handle.mk path .read catch _ => pure none
  match handle? with
  | none => return .missing
  | some handle =>
    try
      return .bytes (← handle.readBinToEnd).data
    catch _ => return .unreadable

def diskWrite (path : String) (content : Array UInt8) : IO Bool := do
  try
    IO.FS.writeBinFile path ⟨content⟩
    return true
  catch _ => return false

def disk : Files IO :=
  ⟨diskRead, diskWrite⟩

def standardInput : IO (Array UInt8) := do
  return (← (← IO.getStdin).readBinToEnd).data

end MipsAsm

def main (args : List String) : IO UInt32 := do
  let outcome ← MipsAsm.CommandLine.respond MipsAsm.disk MipsAsm.standardInput args
  IO.print outcome.stdout
  if outcome.exitCode == 2 then
    IO.eprintln "error: invalid arguments; see the option --help"
  return outcome.exitCode
