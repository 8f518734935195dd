import TableAsm.Expr
import TableAsm.Field

/-! # Candidate encodings

  A `Candidate` is an encoding of an instruction, or of a part of it: the
  bits decided so far, how many items it accounts for, and its length in
  bytes once that is known. A field whose value depends on labels is left
  open as a `Reloc` and written by `Candidate.resolve`.

  - `Candidate.join` puts the encodings of two adjacent parts together.
  - `Candidate.place` writes an immediate now if it can, and defers it
    otherwise.
-/

namespace TableAsm

/-- A value to be written once the labels are known. -/
structure Reloc where
  field : Field
  expr : Expr
deriving Repr

/-- Most relocations that one candidate may carry. -/
def maxRelocs : Nat := 8

/-- An encoding of an instruction or of a part of it. -/
structure Candidate where
  pattern : Pattern := Pattern.empty
  /-- The item after the last one accounted for. -/
  pos : Nat
  /-- Length in bytes, once something has chosen it. -/
  length : Option Nat := none
  relocs : List Reloc := []
deriving Repr

namespace Candidate

/-- Length in bytes, where an instruction is `unit` bytes long unless it says otherwise. -/
def size (c : Candidate) (unit : Nat) : Nat := c.length.getD unit

/-- The encoding of a part followed by the encoding of the next. There is none if the two
    disagree on a bit or have too many relocations. The later part's length counts, if it has
    one. -/
def join (c d : Candidate) : Option Candidate :=
  if c.pattern.Compatible d.pattern ∧ c.relocs.length + d.relocs.length ≤ maxRelocs then
    some {
      pattern := c.pattern.union d.pattern
      pos := d.pos
      length := d.length.or c.length
      relocs := c.relocs ++ d.relocs }
  else none

/-- The encodings of a part followed by each of some encodings of the next. -/
def joinAll (c : Candidate) (ds : List Candidate) : List Candidate :=
  ds.filterMap c.join

/-- Writes an immediate into a field. A constant goes in at once, unless it counts from the
    position of the instruction; any other immediate is deferred. -/
def place (c : Candidate) (f : Field) (e : Expr) : Option Candidate :=
  if e.isImm then
    match e.const?, f.pcrel with
    | some v, none => (f.encode c.pattern v 0).map fun p => { c with pattern := p }
    | _, _ =>
      if c.relocs.length < maxRelocs then some { c with relocs := c.relocs ++ [⟨f, e⟩] }
      else none
  else none

/-- Writes relocations one after the other. -/
def resolveAll (labels : LabelTable) (pc : Word) :
    List Reloc → Pattern → Except EvalError (Option Pattern)
  | [], p => .ok (some p)
  | r :: rest, p => do
    let v ← r.expr.eval labels
    match r.field.encode p v pc with
    | some q => resolveAll labels pc rest q
    | none => return none

/-- The complete bits of an instruction at position `pc`; `none` if a value does not fit its
    field there. -/
def resolve (c : Candidate) (labels : LabelTable) (pc : Word) :
    Except EvalError (Option Pattern) :=
  resolveAll labels pc c.relocs c.pattern

end Candidate

end TableAsm
