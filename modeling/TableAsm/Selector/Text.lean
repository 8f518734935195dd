import TableAsm.Json.Parser
import TableAsm.Json.Tagged
import TableAsm.Numeral
import TableAsm.Once
import TableAsm.Selector

/-! # Selectors as text

  A set of flags is written as the names of the flags that are in it,
  followed by what is left as a hexadecimal number, with bars between. A
  set without flags is the empty text. The program types have names, the
  features have none.

  - `Flags.write` and `Flags.read` turn sets into text and back. Names and
    numbers may come in any order, and blanks around them do not matter.
  - `Selector.parse` reads a selector from JSON text: an object with both
    sets, or an array of the two.
-/

namespace TableAsm

/-- Is this a character that leaves a blank? -/
def isBlank (c : Char) : Bool :=
  let n := c.toNat
  (0x09 ≤ n && n ≤ 0x0d) || n == 0x20 || n == 0x85 || n == 0xa0 || n == 0x1680
    || (0x2000 ≤ n && n ≤ 0x200a) || n == 0x2028 || n == 0x2029 || n == 0x202f
    || n == 0x205f || n == 0x3000

/-- Text without the blanks at its ends. -/
def trimBlanks (cs : List Char) : List Char :=
  ((cs.dropWhile isBlank).reverse.dropWhile isBlank).reverse

/-- Names of single flags. -/
abbrev FlagNames := List (String × BitVec 32)

/-- Features have no names. -/
def Features.names : FlagNames := []

/-- Names of the program types. -/
def ProgramTypes.names : FlagNames :=
  [("VERTEX", vertex), ("GEOMETRY", geometry), ("FRAGMENT", fragment), ("COMPUTE", compute)]

namespace Flags

/-- What is between two flags. -/
def bar : String := " | "

/-- The flags that have a name and are in a set. -/
def named (names : FlagNames) (flags : BitVec 32) : FlagNames :=
  names.filter fun (_, flag) => flags &&& flag == flag

/-- The part of a set that has no names. -/
def unnamed (names : FlagNames) (flags : BitVec 32) : BitVec 32 :=
  names.foldl (fun rest (_, flag) => rest &&& ~~~flag) flags

/-- A number with its mark. -/
def number (flags : BitVec 32) : String :=
  String.ofList ('0' :: 'x' :: Nat.toDigits 16 flags.toNat)

/-- A set as text. -/
def write (names : FlagNames) (flags : BitVec 32) : String :=
  let rest := unnamed names flags
  bar.intercalate
    ((named names flags).map Prod.fst ++ if rest = 0 then [] else [number rest])

/-- A number without its mark. A plus sign may stand in front. -/
def number? (cs : List Char) : Option (BitVec 32) := do
  let digits := match cs with
    | '+' :: rest => rest
    | _ => cs
  let n ← Numeral.hex? digits
  if n < UInt32.size then some (BitVec.ofNat 32 n) else none

/-- One part of a set: a number or a name. -/
def part? (names : FlagNames) : List Char → Option (BitVec 32)
  | '0' :: 'x' :: rest => number? rest
  | cs => names.lookup (String.ofList cs)

/-- A set from text. -/
def read (names : FlagNames) (text : String) : Option (BitVec 32) :=
  let cs := trimBlanks text.toList
  if cs = [] then some 0
  else do
    let parts ← (cs.splitOn '|').mapM fun part => part? names (trimBlanks part)
    return parts.foldl (· ||| ·) 0

end Flags

namespace Selector

/-- The parts of a selector that have been read. -/
abbrev Parts := Option Features × Option ProgramTypes

/-- Collects the parts of a selector; neither may come twice. -/
def parts : List (String × Json) → Option Parts
  | [] => some (none, none)
  | (key, v) :: rest => do
    let (features, types) ← parts rest
    if key = "features" then
      let flags ← v.text?.bind (Flags.read Features.names)
      return (← once features flags, types)
    else if key = "ptypes" then
      let flags ← v.text?.bind (Flags.read ProgramTypes.names)
      return (features, ← once types flags)
    else return (features, types)

/-- Reads a selector. -/
def ofJson : Json → Option Selector
  | .arr [features, types] => do
    let features ← features.text?.bind (Flags.read Features.names)
    let types ← types.text?.bind (Flags.read ProgramTypes.names)
    return { features, types }
  | .obj members => do
    let (features, types) ← parts members
    return { features := ← features, types := ← types }
  | _ => none

/-- Reads a selector from text. -/
def parse (text : String) : Option Selector := (Json.parse text).bind ofJson

/-- Writes a selector. -/
def toJson (sel : Selector) : Json :=
  .obj [("features", .text (Flags.write Features.names sel.features)),
    ("ptypes", .text (Flags.write ProgramTypes.names sel.types))]

end Selector

end TableAsm
