import TableAsm.Assembly
import TableAsm.Command
import TableAsm.Isa.Demo
import TableAsm.Labels.Export
import TableAsm.Program.Json

/-! # Running a command

  A command reads and writes files and prints. What it needs from its
  surroundings is collected in a `Host`, so that it runs against the disk
  as well as against files that are held in memory.

  - `Request.assembleFile` does the work of `asm`.
  - `Request.run` carries out a request and gives the exit status.
-/

namespace TableAsm

/-- What a command needs from its surroundings. -/
structure Host (m : Type → Type) where
  /-- The text of a file, if it can be read. -/
  read : (path : String) → m (Option String)
  /-- Creates a file or replaces its contents; says whether it could. -/
  write : (path : String) → (contents : ByteArray) → m Bool
  /-- Writes to the standard output. -/
  print : ByteArray → m Unit
  /-- Writes a line to the standard error. -/
  complain : String → m Unit

/-- Why a command fails. -/
inductive Failure where
  | unknownIsa (name : String)
  | unknownVariant (e : UnknownVariant)
  | reading (path : String)
  | parsing (path : String)
  | assembling (d : Diagnostic)
  | writing (path : String)
deriving DecidableEq, Repr

/-- The text of a failure. -/
def Failure.message : Failure → String
  | .unknownIsa name =>
    let known := ", ".intercalate (Isa.bundled.map (·.name))
    s!"unknown isa {name} (known: {known})"
  | .unknownVariant e => e.message
  | .reading path => s!"reading {path}"
  | .parsing path => s!"parsing {path}"
  | .assembling d => d.message
  | .writing path => s!"writing {path}"

/-- The list of instruction sets with their variants, one to a line. -/
def Isa.catalogue : String :=
  String.join (Isa.bundled.map fun isa =>
    let variants := " ".intercalate (isa.variants.map Prod.fst)
    s!"{isa.name}\t{variants}\n")

namespace Request

variable {m : Type → Type} [Monad m]

/-- Writes a file, or fails. -/
def writeFile (h : Host m) (path : String) (contents : ByteArray) : ExceptT Failure m Unit := do
  unless ← h.write path contents do
    throw (.writing path)

/-- Reads a program from a file. -/
def readProgram (h : Host m) (path : String) : ExceptT Failure m Program := do
  let some text ← h.read path | throw (.reading path)
  let some program := Program.parse text | throw (.parsing path)
  return program

/-- The instruction set and the selector that a request names. -/
def target (r : AsmRequest) : Except Failure (Isa × Selector) := do
  let some isa := Isa.lookup? r.isa | throw (.unknownIsa r.isa)
  let sel ← (isa.selector r.variant r.types).mapError .unknownVariant
  return (isa, sel)

/-- Assembles a file, and writes the listing and then the labels. -/
def assembleFile (h : Host m) (r : AsmRequest) : ExceptT Failure m Unit := do
  let (isa, sel) ← ExceptT.mk (pure (target r))
  let program ← readProgram h r.input
  let a ← ExceptT.mk (pure ((assemble isa sel program).mapError .assembling))
  let listing := Listing.render a.sections (r.format.getD (Format.forIsa isa))
  match r.output with
  | some path => writeFile h path listing
  | none => h.print listing
  match r.labelsOut with
  | some path => writeFile h path a.labels.render.toUTF8
  | none => return

/-- Carries out a request. The exit status is 1 if it fails. -/
def run (h : Host m) : Request → m UInt32
  | .isas => do
    h.print Isa.catalogue.toUTF8
    return 0
  | .asm r => do
    match ← (assembleFile h r).run with
    | .ok () => return 0
    | .error f =>
      h.complain s!"Error: {f.message}"
      return 1

end Request

/-- What is printed for a command line that is no request. -/
def usage : String :=
  "usage: isas | asm INPUT [--isa ISA] [--variant VARIANT] [--ptype vp|gp|fp|cp]\n"
    ++ "  [--format raw|hex8|hex32|c8|c32] [--output FILE] [--labels-out FILE]"

/-- Runs a command line. The exit status is 2 if it is no request. -/
def runCommand {m : Type → Type} [Monad m] (h : Host m) (args : List String) : m UInt32 :=
  match Request.parse args with
  | some r => r.run h
  | none => do
    h.complain usage
    return 2

end TableAsm
