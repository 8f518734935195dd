import TableAsm.Command.Run

/-! # The program

  Runs a command line against the disk and the terminal.
-/

namespace TableAsm

/-- The host that works on the disk and the terminal. -/
def diskHost : Host IO where
  read path := do
    try
      let bytes ← IO.FS.readBinFile path
      return String.fromUTF8? bytes
    catch _ => return none
  write path contents := do
    try
      IO.FS.writeBinFile path contents
      return true
    catch _ => return false
  print bytes := do
    let out ← IO.getStdout
    out.write bytes
    out.flush
  complain line := IO.eprintln line

end TableAsm

/-- Entry point. -/
def main (args : List String) : IO UInt32 :=
  TableAsm.runCommand TableAsm.diskHost args
