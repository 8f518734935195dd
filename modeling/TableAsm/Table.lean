import TableAsm.Memory
import TableAsm.Program
import TableAsm.RegisterList

/-! # Instruction tables

  An instruction set is described by nested tables. A row of a table fixes
  some bits and lists atoms, and an atom either takes up an item of the
  instruction (or sets its length) or refers to another table, one of
  whose rows then applies.

  - `Leaf` holds the atoms that refer to no table; `Leaf.candidate?` tries
    one of them.
  - `Atom`, `Row` and `Table` make up the tables. A table ends in a row
    that is tried after all others.
-/

namespace TableAsm

/-- An atom that refers to no table. -/
inductive Leaf where
  /-- This name. -/
  | name (s : String)
  /-- An operand that is an identifier spelled exactly like this. -/
  | keyword (s : String)
  /-- Sets the length of the instruction in bytes. -/
  | length (n : Nat)
  /-- An immediate that is known without labels. -/
  | imm (f : Field)
  /-- An immediate that may depend on labels and on the position. -/
  | rel (f : Field)
  | reg (r : Register)
  | mem (m : Memory)
  | vec (l : RegisterList)
  /-- A bit range, stored as its first bit and its length. -/
  | range (start len : Field)
  | discard
  | subStart
  | subEnd
  /-- Takes up nothing. -/
  | nop
  /-- Never applies. -/
  | fail
deriving Repr

namespace Leaf

/-- The encoding of an operand with an atom, on a candidate without any bits. -/
def operand? (sel : Selector) (e : Expr) (c : Candidate) : Leaf → Option Candidate
  | .keyword s =>
    match e with
    | .label t => if t = s then some c else none
    | _ => none
  | .imm f => e.const?.bind fun v => (f.encode c.pattern v 0).map fun p => { c with pattern := p }
  | .rel f => c.place f e
  | .reg r => (r.encode sel e c.pattern).map fun p => { c with pattern := p }
  | .mem m => m.encode sel e c
  | .vec l =>
    match e with
    | .vec elems => (l.encode elems c.pattern).map fun p => { c with pattern := p }
    | _ => none
  | .range start len =>
    match e with
    | .range first last => do
      let p ← start.encode c.pattern first 0
      let p ← len.encode p (last - first) 0
      return { c with pattern := p }
    | _ => none
  | .discard =>
    match e with
    | .discard => some c
    | _ => none
  | _ => none

/-- The encoding of one item with an atom that takes up an item. -/
def item? (sel : Selector) (c : Candidate) : Leaf → Item → Option Candidate
  | .name s, .name t => if t = s then some c else none
  | .subStart, .subStart => some c
  | .subEnd, .subEnd => some c
  | leaf, .expr e => leaf.operand? sel e c
  | _, _ => none

/-- Tries an atom on the item at some position. -/
def candidate? (sel : Selector) (items : List Item) (pos : Nat) : Leaf → Option Candidate
  | .nop => some { pos }
  | .fail => none
  | .length n => some { pos, length := some n }
  | leaf => items[pos]?.bind fun it => leaf.item? sel { pos := pos + 1 } it

end Leaf

mutual

/-- One step of a row. -/
inductive Atom where
  | leaf (l : Leaf)
  /-- One row of another table applies here. -/
  | table (t : Table)

/-- A form of an instruction, or of a part of it. -/
structure Row where
  /-- Values of the bits that the row fixes. -/
  val : Word
  /-- The bits that the row fixes. -/
  mask : Word
  atoms : List Atom
  /-- Features that the row needs. -/
  features : Features
  /-- Program types that the row is for; none means any. -/
  types : ProgramTypes

/-- Rows in the order in which they are tried. -/
structure Table where
  rows : List Row
  /-- The row that is tried last. -/
  fallback : Row

end

namespace Row

/-- A row for every processor and program type. -/
def plain (val mask : Word) (atoms : List Atom) : Row := ⟨val, mask, atoms, 0, 0⟩

/-- The row that never applies. -/
def fail : Row := plain 0 0 [.leaf .fail]

/-- The row that takes up nothing and fixes nothing. -/
def empty : Row := plain 0 0 []

end Row

namespace Table

/-- All rows, the fallback last. -/
def allRows (t : Table) : List Row := t.rows ++ [t.fallback]

/-- A table that decides one bit of the low word. -/
def flag (bit : Nat) (off on : List Atom) : Table :=
  let m := Word.shl 1 bit
  ⟨[Row.plain 0 m off, Row.plain m m on], Row.fail⟩

end Table

end TableAsm
