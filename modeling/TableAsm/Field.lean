import TableAsm.Pattern

/-! # Fields

  A `Field` says where a number lives inside a pattern and how the bits
  there stand for it.

  - The bits come from a low and a high span. They are the number divided
    by `2 ^ scale`, so `scale + low.len + high.len` bits are known: the
    field's `width`.
  - `SignMode` says which contents count as negative, that is, as
    `2 ^ width` less.
  - A look-up table replaces the number by an index into it.
  - `invert` is xored onto the number, `addend` is added to it, and a
    pc-relative field counts from the position of its instruction.

  `Field.decode` reads a field and `Field.encode` writes it. A number is
  written only if reading gives it back, so a field never holds a
  truncated number; a field that `wraps` asks for this modulo
  `2 ^ width`.
-/

namespace TableAsm

/-- Which contents of a field stand for a negative number. -/
inductive SignMode where
  /-- None. -/
  | unsigned
  /-- Those with the top bit set: two's complement. -/
  | signed
  /-- Those with both of the two top bits set. -/
  | slightlySigned
  /-- All. -/
  | ultraSigned
deriving DecidableEq, Repr

/-- Where a number lives in an instruction, and in which form. -/
structure Field where
  /-- The less significant bits. -/
  low : Span
  /-- The more significant bits; empty unless the field is split. -/
  high : Span := {}
  sign : SignMode := .unsigned
  /-- Low bits of the number that are zero and not stored. -/
  scale : Nat := 0
  addend : Word := 0
  invert : Word := 0
  /-- The numbers that the field can hold, by index. -/
  lut : Option (List Word) := none
  /-- For a pc-relative field, what is added to the position before the number counts from it. -/
  pcrel : Option Word := none
  wraps : Bool := false
deriving DecidableEq, Repr

namespace Field

/-- An unsigned number in one span. -/
def ofSpan (pos len : Nat) : Field := { low := ⟨pos, len⟩ }

/-- A two's complement number in one span. -/
def signedSpan (pos len : Nat) : Field := { low := ⟨pos, len⟩, sign := .signed }

/-- Bits stored in the pattern. -/
def stored (f : Field) : Nat := f.low.len + f.high.len

/-- Bits of the number that are known once the field is, the scaled-off zeros included. -/
def width (f : Field) : Nat := f.scale + f.stored

/-- The position that a pc-relative field counts from, rounded down to the field's scale;
    zero for any other field. -/
def origin (f : Field) (pc : Word) : Word :=
  match f.pcrel with
  | none => 0
  | some lead => (pc + lead) &&& ~~~ Word.lowMask f.scale

/-! ## Reading -/

/-- The stored bits, moved to their places in the number. -/
def raw (f : Field) (p : Pattern) : Word :=
  Word.shl (p.read f.low) f.scale ||| Word.shl (p.read f.high) (f.scale + f.low.len)

/-- Is the `n`-th bit from the top set in a number of the field's width? -/
def topBit (f : Field) (num : Word) (n : Nat) : Bool :=
  decide (n ≤ f.width) && num &&& Word.shl 1 (f.width - n) != 0

/-- Do these contents count as negative? -/
def isNegative (f : Field) (num : Word) : Bool :=
  match f.sign with
  | .unsigned => false
  | .signed => f.topBit num 1
  | .slightlySigned => f.topBit num 1 && f.topBit num 2
  | .ultraSigned => true

/-- The stored number with its sign. -/
def contents (f : Field) (p : Pattern) : Word :=
  let num := f.raw p
  if f.isNegative num then num - Word.shl 1 f.width else num

/-- The number that the look-up table has for some contents. -/
def look (f : Field) (num : Word) : Option Word :=
  match f.lut with
  | none => some num
  | some lut => lut[num.toNat]?

/-- Reads the field in an instruction at position `pc`. There is no number when the contents
    are an index past the end of the look-up table. -/
def decode (f : Field) (p : Pattern) (pc : Word) : Option Word :=
  (f.look (f.contents p)).map fun num => (num ^^^ f.invert) + f.origin pc + f.addend

/-! ## Writing -/

/-- The first index of a number in the part of the look-up table that stored bits can reach. -/
def lookup? (f : Field) (num : Word) : Option Word :=
  match f.lut with
  | none => some num
  | some lut =>
    let reach := if f.stored < 32 then lut.take (1 <<< f.stored) else lut
    (reach.idxOf? num).map (BitVec.ofNat 64)

/-- Writes the bits of a number, whether or not they are enough to give it back. -/
def store (f : Field) (p : Pattern) (num : Word) : Option Pattern :=
  let num := Word.shr num f.scale
  (p.write f.low num).bind fun q => q.write f.high (Word.shr num f.low.len)

/-- The bits in which what is read has to agree with what was written. -/
def checked (f : Field) : Word :=
  if f.wraps ∧ f.width < 64 then Word.lowMask f.width else BitVec.allOnes 64

/-- Writes a number into the field of an instruction at position `pc`.

    Fails when the look-up table lacks it, when claimed bits are in the
    way, and when reading would not give the number back. -/
def encode (f : Field) (p : Pattern) (v pc : Word) : Option Pattern := do
  let num ← f.lookup? ((v - f.addend - f.origin pc) ^^^ f.invert)
  let q ← f.store p num
  let back ← f.decode q pc
  if back &&& f.checked = v &&& f.checked then some q else none

end Field

end TableAsm
