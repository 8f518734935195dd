import TableAsm.Image
import TableAsm.Isa
import TableAsm.Json.Tagged

/-! # Listings

  The forms in which sections are written out.

  - `raw` is the bytes themselves.
  - `hex8` and `hex32` put one number on a line: a byte, or a word of four
    bytes, the lowest first.
  - `cArray8` and `cArray32` make an array definition of every section.

  A default section without bytes is left out. A word that the bytes do
  not fill is filled up with zeros.
-/

namespace TableAsm

/-- A way to write sections out. -/
inductive Format where
  | raw
  | hex8
  | hex32
  | cArray8
  | cArray32
deriving DecidableEq, Repr

namespace Format

/-- The format for an instruction set whose user names none. -/
def forIsa (isa : Isa) : Format := if isa.unit = 4 then .hex32 else .hex8

/-- The tag of a format. -/
def tag : Format → String
  | .raw => "raw"
  | .hex8 => "hex8"
  | .hex32 => "hex32"
  | .cArray8 => "c_array8"
  | .cArray32 => "c_array32"

/-- Reads a format from its tag. -/
def ofJson (v : Json) : Option Format :=
  v.tag?.bind fun tag => [raw, hex8, hex32, cArray8, cArray32].find? (·.tag == tag)

/-- Writes a format. -/
def toJson (format : Format) : Json := .text format.tag

end Format

namespace Listing

/-- Hexadecimal digits of a number, the lowest `n` of them. -/
def hexDigits : Nat → Nat → List Char
  | 0, _ => []
  | n + 1, v => hexDigits n (v / 16) ++ [Nat.digitChar (v % 16)]

/-- Bytes in groups of four, each as a number with the lowest byte first. -/
def words : List UInt8 → List Nat
  | [] => []
  | [a] => [a.toNat]
  | [a, b] => [a.toNat + 256 * b.toNat]
  | [a, b, c] => [a.toNat + 256 * b.toNat + 65536 * c.toNat]
  | a :: b :: c :: d :: rest =>
    (a.toNat + 256 * b.toNat + 65536 * c.toNat + 16777216 * d.toNat) :: words rest

/-- One line: a number of `n` digits. -/
def numberLine (n v : Nat) : List Char := '0' :: 'x' :: (hexDigits n v ++ [',', '\n'])

/-- The lines of single bytes. -/
def byteLines (bytes : List UInt8) : List (List Char) :=
  bytes.map fun b => numberLine 2 b.toNat

/-- The lines of words. -/
def wordLines (bytes : List UInt8) : List (List Char) :=
  (words bytes).map (numberLine 8)

/-- An array definition, with its lines indented. -/
def arrayText (type name : String) (lines : List (List Char)) : List Char :=
  type.toList ++ ' ' :: name.toList ++ "[] = \x7b\n".toList
    ++ lines.flatMap ('\t' :: ·) ++ "\x7d;\n".toList

/-- Texts with an empty line between each two. -/
def separate : List (List Char) → List Char
  | [] => []
  | [t] => t
  | t :: rest => t ++ '\n' :: separate rest

/-- Is there something to write for a section? -/
def visible (s : Section) : Bool := !(s.name == Section.defaultName && s.bytes.isEmpty)

/-- The sections as text; none for the format that is no text. -/
def text? (sections : List Section) : Format → Option (List Char)
  | .raw => none
  | .hex8 => some (sections.flatMap fun s => (byteLines s.bytes.toList).flatten)
  | .hex32 => some (sections.flatMap fun s => (wordLines s.bytes.toList).flatten)
  | .cArray8 =>
    some (separate (sections.map fun s => arrayText "uint8_t" s.name (byteLines s.bytes.toList)))
  | .cArray32 =>
    some (separate (sections.map fun s => arrayText "uint32_t" s.name (wordLines s.bytes.toList)))

/-- What is written for some sections. -/
def render (sections : List Section) (format : Format) : ByteArray :=
  let shown := sections.filter visible
  match text? shown format with
  | some cs => (String.ofList cs).toUTF8
  | none => ⟨(shown.flatMap fun s => s.bytes.toList).toArray⟩

end Listing

end TableAsm
