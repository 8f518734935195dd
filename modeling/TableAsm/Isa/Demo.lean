import TableAsm.Isa

/-! # The demonstration instruction set

  A small instruction set that uses every kind of operand. An instruction
  is 4 or 8 bytes long, and labels count 4 bytes each. Most operations
  have a short and a long form, and long forms are 8-byte aligned.

  | bits   | contents                              |
  |--------|---------------------------------------|
  | 0      | set in long forms                     |
  | 1..7   | operation                             |
  | 7      | modifier: `sat`, or space `s`         |
  | 8..14  | destination register                  |
  | 14..20 | source register A                     |
  | 20..32 | source register B, or a short operand |
  | 32..64 | long operand                          |

  Register 63 reads as zero and takes any result. Variant `v2` adds scaled
  and moving addresses and bit extraction to variant `v1`.
-/

namespace TableAsm

namespace Demo

/-! ## Features and fixed bits -/

/-- What every variant has. -/
def base : Features := 1

/-- Scaled and moving addresses, bit extraction. -/
def ext : Features := 2

/-- The bits that tell the forms apart. -/
def opMask : Word := 0x7F

/-- The modifier bit. -/
def modifier : Word := 0x80

/-! ## Operands -/

/-- A register operand in the six bits from `pos`. Where it only names a source, a literal zero
    may stand for the zero register. -/
def register (pos : Nat) (source : Bool) : Register where
  field := some (Field.ofSpan pos 6)
  name := "$r"
  specials :=
    [⟨63, .named "$rz", 0⟩, ⟨63, .discard, 0⟩] ++ if source then [⟨63, .zero, 0⟩] else []

def dst : Register := register 8 false
def srcA : Register := register 14 true
def srcB : Register := register 20 true

/-- The register that `st` stores, in the place of the destination. -/
def stored : Register := register 8 true

/-- The short immediate. -/
def imm12 : Field := Field.signedSpan 20 12

/-- The long immediate. -/
def imm32 : Field := Field.ofSpan 32 32

/-- `sat` after the name of an operation sets the modifier bit. -/
def saturation : Table := Table.flag 7 [] [.leaf (.name "sat")]

/-- A reference to space `g` or `s`; the modifier bit tells which. -/
def spaces (offset : Field) : Table :=
  let reference (space : String) : Atom :=
    .leaf (.mem { space := some space, base := some srcA, offset := some offset })
  ⟨[Row.plain 0 modifier [reference "g"], Row.plain modifier modifier [reference "s"]], Row.fail⟩

/-! ## Rows -/

/-- The short and the long form of an operation that needs some features. -/
def forms (features : Features) (types : ProgramTypes) (code : Word) (short long : List Atom) :
    List Row :=
  [⟨code <<< 1, opMask, short ++ [.leaf (.length 4)], features, types⟩,
   ⟨code <<< 1 ||| 1, opMask, long ++ [.leaf (.length 8)], features, types⟩]

/-- Two forms with different operands. -/
def pair (code : Word) (short long : List Atom) : List Row := forms base 0 code short long

/-- Two forms with the same operands. -/
def same (code : Word) (atoms : List Atom) : List Row := pair code atoms atoms

/-- Two forms with the same operands that need the extension. -/
def extended (code : Word) (atoms : List Atom) : List Row :=
  forms (base ||| ext) 0 code atoms atoms

/-- The name of an operation and its operands. -/
def op (name : String) (operands : List Atom) : List Atom := .leaf (.name name) :: operands

/-- A register operand. -/
def reg (r : Register) : Atom := .leaf (.reg r)

/-- All operations. -/
def rows : List Row :=
  same 0x00 (op "nop" [])
  ++ same 0x01 (op "mov" [reg dst, reg srcA])
  ++ pair 0x02 (op "mov" [reg dst, .leaf (.rel imm12)]) (op "mov" [reg dst, .leaf (.rel imm32)])
  ++ same 0x03 (op "add" [.table saturation, reg dst, reg srcA, reg srcB])
  ++ pair 0x04 (op "add" [.table saturation, reg dst, reg srcA, .leaf (.rel imm12)])
      (op "add" [.table saturation, reg dst, reg srcA, .leaf (.rel imm32)])
  ++ pair 0x05 (op "bra" [.leaf (.rel { imm12 with pcrel := some 1 })])
      (op "bra" [.leaf (.rel imm32)])
  ++ same 0x07 (op "scl" [reg dst, reg srcA,
      .leaf (.imm { Field.ofSpan 20 3 with lut := some [1, 2, 4, 8, 16, 32, 64, 128] })])
  ++ pair 0x08 (op "ld" [reg dst, .table (spaces imm12)]) (op "ld" [reg dst, .table (spaces imm32)])
  ++ same 0x0A (op "ld" [reg dst, .leaf (.mem {
      space := some "c"
      index := some (Field.ofSpan 14 4)
      offset := some { Field.ofSpan 20 12 with scale := 2 } })])
  ++ extended 0x0B (op "ld" [reg dst, .leaf (.mem {
      space := some "g", base := some srcA, scaled := some (srcB, 2) })])
  ++ extended 0x0C (op "ld" [reg dst, .leaf (.mem {
      space := some "g", base := some srcA, offset := some imm12, timing := some .post })])
  ++ pair 0x0D (op "st" [.table (spaces imm12), reg stored])
      (op "st" [.table (spaces imm32), reg stored])
  ++ same 0x0E (op "ldv" [
      .leaf (.vec { name := "$r", start := Field.ofSpan 8 6, count := Field.ofSpan 20 3 }),
      .leaf (.mem { space := some "g", base := some srcA })])
  ++ extended 0x0F (op "ext" [reg dst, reg srcA,
      .leaf (.range (Field.ofSpan 20 6) (Field.ofSpan 26 6))])
  ++ forms base ProgramTypes.fragment 0x3E (op "kil" []) (op "kil" [])
  ++ same 0x3F (op "exit" [])

end Demo

/-- The demonstration instruction set. -/
def Isa.demo : Isa where
  name := "demo"
  root := ⟨Demo.rows, Row.fail⟩
  unit := 4
  posUnit := 4
  maxLength := 8
  alignLong := true
  variants := [("v1", Demo.base), ("v2", Demo.base ||| Demo.ext)]

/-- The instruction sets that come with the assembler. -/
def Isa.bundled : List Isa := [Isa.demo]

/-- The bundled instruction set of this name. -/
def Isa.lookup? (name : String) : Option Isa := Isa.bundled.find? (·.name == name)

end TableAsm
