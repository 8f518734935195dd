import TableAsm.Table

/-! # Instruction sets

  An instruction set is a root table with the facts that the assembler
  needs beside it: how long instructions are, what labels count, and which
  processor variants exist.
-/

namespace TableAsm

/-- The description of an instruction set. -/
structure Isa where
  name : String
  /-- The table that every instruction starts from. -/
  root : Table
  /-- Length in bytes of an instruction that does not set one. -/
  unit : Nat
  /-- Bytes that a label value counts as one. -/
  posUnit : Nat
  /-- Longest instruction, in bytes. -/
  maxLength : Nat
  /-- Do 8-byte instructions start at multiples of 8? -/
  alignLong : Bool
  /-- Processor variants with their features. -/
  variants : List (String × Features)

/-- A variant that an instruction set does not have. -/
structure UnknownVariant where
  variant : String
  isa : String
  known : List String
deriving DecidableEq, Repr

/-- The text of the error. -/
def UnknownVariant.message (e : UnknownVariant) : String :=
  let known := ", ".intercalate e.known
  s!"unknown variant {e.variant} for {e.isa} (known: {known})"

namespace Isa

/-- The features of a variant. -/
def variant? (isa : Isa) (name : String) : Option Features := isa.variants.lookup name

/-- The selector for a variant and some program types. No variant means every feature, and no
    types mean all. -/
def selector (isa : Isa) (variant : Option String) (types : Option ProgramTypes) :
    Except UnknownVariant Selector :=
  let types := types.getD ProgramTypes.all
  match variant with
  | none => .ok { types }
  | some v =>
    match isa.variant? v with
    | some features => .ok { features, types }
    | none => .error ⟨v, isa.name, isa.variants.map Prod.fst⟩

/-- Must an instruction of this length at this offset be moved? -/
def misaligned (isa : Isa) (length offset : Nat) : Bool :=
  isa.alignLong && length == 8 && offset % 8 != 0

end Isa

end TableAsm
