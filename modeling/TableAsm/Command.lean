import TableAsm.Listing
import TableAsm.Once

/-! # The command line

  There are two commands.

  - `isas` lists the instruction sets.
  - `asm INPUT` assembles a file. Options say for which instruction set,
    variant and program type, and where the result goes and in which form.

  An option is written `--name value` or `--name=value`, and at most once.
  A value that stands on its own must not look like an option. After `--`
  everything is an operand.

  `Request.parse` reads the arguments of a command line.
-/

namespace TableAsm

/-- What to assemble, and how. -/
structure AsmRequest where
  input : String
  isa : String := "demo"
  variant : Option String := none
  types : Option ProgramTypes := none
  format : Option Format := none
  /-- File for the listing, instead of the standard output. -/
  output : Option String := none
  /-- File for the labels. -/
  labelsOut : Option String := none
deriving DecidableEq, Repr

/-- What a command line asks for. -/
inductive Request where
  | isas
  | asm (r : AsmRequest)
deriving DecidableEq, Repr

/-- The options of `asm`. -/
inductive AsmOption where
  | isa
  | variant
  | ptype
  | format
  | output
  | labelsOut
deriving DecidableEq, Repr

namespace AsmOption

/-- How an option is spelled, after the two dashes. -/
def name : AsmOption → String
  | .isa => "isa"
  | .variant => "variant"
  | .ptype => "ptype"
  | .format => "format"
  | .output => "output"
  | .labelsOut => "labels-out"

/-- The option with this spelling. -/
def ofName? (s : String) : Option AsmOption :=
  [isa, variant, ptype, format, output, labelsOut].find? (·.name == s)

/-- Values of the option for program types. -/
def types? : String → Option ProgramTypes
  | "vp" => some .vertex
  | "gp" => some .geometry
  | "fp" => some .fragment
  | "cp" => some .compute
  | _ => none

/-- Values of the option for the format. -/
def format? : String → Option Format
  | "raw" => some .raw
  | "hex8" => some .hex8
  | "hex32" => some .hex32
  | "c8" => some .cArray8
  | "c32" => some .cArray32
  | _ => none

/-- Values that name files: any but the empty one. -/
def path? (s : String) : Option String := if s.isEmpty then none else some s

end AsmOption

/-- The operand and the options that have been seen. -/
structure AsmArgs where
  input : Option String := none
  isa : Option String := none
  variant : Option String := none
  types : Option ProgramTypes := none
  format : Option Format := none
  output : Option String := none
  labelsOut : Option String := none

namespace AsmArgs

/-- Takes the operand. -/
def operand (a : AsmArgs) (value : String) : Option AsmArgs := do
  let input ← (AsmOption.path? value).bind (once a.input)
  return { a with input }

/-- Takes an option with its value. -/
def option (a : AsmArgs) (value : String) : AsmOption → Option AsmArgs
  | .isa => do
    let isa ← once a.isa value
    return { a with isa }
  | .variant => do
    let variant ← once a.variant value
    return { a with variant }
  | .ptype => do
    let types ← (AsmOption.types? value).bind (once a.types)
    return { a with types }
  | .format => do
    let format ← (AsmOption.format? value).bind (once a.format)
    return { a with format }
  | .output => do
    let output ← (AsmOption.path? value).bind (once a.output)
    return { a with output }
  | .labelsOut => do
    let labelsOut ← (AsmOption.path? value).bind (once a.labelsOut)
    return { a with labelsOut }

/-- Takes operands only. -/
def operands (a : AsmArgs) (args : List String) : Option AsmArgs :=
  args.foldlM operand a

/-- Does an argument start with a dash that is not all of it? -/
def isOption (arg : String) : Bool :=
  match arg.toList with
  | '-' :: _ :: _ => true
  | _ => false

/-- The name of an option, and its value if that is part of the same argument. -/
def splitOption (cs : List Char) : String × Option String :=
  let name := String.ofList (cs.takeWhile (· ≠ '='))
  match cs.dropWhile (· ≠ '=') with
  | [] => (name, none)
  | _ :: value => (name, some (String.ofList value))

/-- Takes arguments from left to right. -/
def read (a : AsmArgs) : List String → Option AsmArgs
  | [] => some a
  | arg :: rest =>
    match arg.toList with
    | ['-', '-'] => a.operands rest
    | '-' :: '-' :: cs =>
      match splitOption cs, rest with
      | (name, some value), rest => do
        let o ← AsmOption.ofName? name
        read (← a.option value o) rest
      | (name, none), value :: rest => do
        let o ← AsmOption.ofName? name
        if isOption value then none else read (← a.option value o) rest
      | (_, none), [] => none
    | '-' :: _ :: _ => none
    | _ => do
      read (← a.operand arg) rest

/-- The request that the arguments make up. -/
def toRequest? (a : AsmArgs) : Option AsmRequest := do
  let input ← a.input
  return {
    input
    isa := a.isa.getD "demo"
    variant := a.variant
    types := a.types
    format := a.format
    output := a.output
    labelsOut := a.labelsOut }

end AsmArgs

/-- Reads the arguments of a command line. -/
def Request.parse : List String → Option Request
  | "isas" :: rest => if rest = [] ∨ rest = ["--"] then some .isas else none
  | "asm" :: rest => do
    let args ← AsmArgs.read {} rest
    let r ← args.toRequest?
    return .asm r
  | _ => none

end TableAsm
