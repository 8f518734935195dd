import TableAsm.Isa

/-! # Matching instructions

  An instruction is encoded by walking the tables. Wherever several rows
  apply, all are followed, so the result is a list of candidates, in the
  order in which the rows stand.

  - `Table.candidates` follows the rows of a table from some item on.
  - `Isa.encodings` keeps the candidates that account for all items and
    are not too long.
  - `Isa.encodeWord` encodes an instruction that must have exactly one
    encoding, complete and 8 bytes long.
-/

namespace TableAsm

mutual

/-- The encodings of the items from `pos` on that some row of the table gives. -/
def Table.candidates (sel : Selector) (items : List Item) (pos : Nat) :
    Table → List Candidate
  | ⟨rows, fallback⟩ => rowsCandidates sel items pos rows ++ fallback.candidates sel items pos
termination_by structural t => t

/-- The encodings that some rows give, row by row. -/
def rowsCandidates (sel : Selector) (items : List Item) (pos : Nat) :
    List Row → List Candidate
  | [] => []
  | row :: rest => row.candidates sel items pos ++ rowsCandidates sel items pos rest
termination_by structural rows => rows

/-- The encodings that one row gives: its fixed bits, joined with those of its atoms. -/
def Row.candidates (sel : Selector) (items : List Item) (pos : Nat) :
    Row → List Candidate
  | ⟨val, mask, atoms, features, types⟩ =>
    if sel.accepts features types then
      atomsCandidates sel items atoms [{ pattern := Pattern.fixed val mask, pos }]
    else []
termination_by structural row => row

/-- Continues each of some encodings with atoms, from left to right. -/
def atomsCandidates (sel : Selector) (items : List Item) :
    List Atom → List Candidate → List Candidate
  | [], cs => cs
  | atom :: rest, cs =>
    atomsCandidates sel items rest
      (cs.flatMap fun c => c.joinAll (atom.candidates sel items c.pos))
termination_by structural atoms => atoms

/-- The encodings that one atom gives. -/
def Atom.candidates (sel : Selector) (items : List Item) (pos : Nat) :
    Atom → List Candidate
  | .leaf l => (l.candidate? sel items pos).toList
  | .table t => t.candidates sel items pos
termination_by structural atom => atom

end

/-- Why an instruction without encodings has none. A constant that cannot be folded is
    reported as such. -/
def unmatched (items : List Item) : Cause :=
  let folds : Item → Bool
    | .expr e => !e.dividesByZero
    | _ => true
  if items.all folds then .noMatch else .eval .divisionByZero

namespace Isa

/-- Longest encoding that is accepted, in bytes. -/
def lengthLimit (isa : Isa) : Nat := min isa.maxLength Pattern.maxBytes

/-- All encodings of an instruction. -/
def encodings (isa : Isa) (sel : Selector) (items : List Item) : List Candidate :=
  (isa.root.candidates sel items 0).filter fun c =>
    c.pos == items.length && decide (c.size isa.unit ≤ isa.lengthLimit)

/-- The word that an instruction is, if it can be nothing else. -/
def encodeWord (isa : Isa) (sel : Selector) (items : List Item) : Except Cause Word :=
  match isa.encodings sel items with
  | [] => .error (unmatched items)
  | [c] =>
    if c.size isa.unit = 8 ∧ c.relocs = [] then .ok (c.pattern.word 0)
    else .error (.notAWord (c.size isa.unit) c.relocs.length)
  | cs => .error (.ambiguous cs.length)

end Isa

end TableAsm
