import TableAsm.Image
import TableAsm.Step

/-! # Layout

  A walk over the program that binds the labels, from the lengths of the
  chosen encodings alone. No bits are written: every instruction and every
  data directive is accounted for by zeros.
-/

namespace TableAsm

/-- Where a walk over the program stands, and the labels it has bound. -/
structure Layout where
  image : Image := Image.empty
  labels : LabelTable := LabelTable.empty

namespace Layout

/-- Accounts for one step. A long instruction off its boundary is moved to the next one; the
    labels before it stay. -/
def step (isa : Isa) (line : Nat) (l : Layout) : Step → Except Diagnostic Layout
  | .insn slot =>
    let size := slot.chosen.size isa.unit
    let image := if isa.misaligned size l.image.offset then l.image.align 8 else l.image
    .ok { l with image := image.zeros size }
  | .label name => do
    let labels ← l.labels.declare line name (l.image.address isa.posUnit)
    return { l with labels }
  | .directive (.equ name value) =>
    match value.eval l.labels with
    | .error e => .error ⟨line, .eval e⟩
    | .ok v => do
      let labels ← l.labels.declare line name v
      return { l with labels }
  | .directive (.data _ width args) =>
    .ok { l with image := l.image.zeros (width / 8 * args.length) }
  | .directive d => .ok { l with image := l.image.place d }

/-- Accounts for steps, of which the first has number `line`. -/
def walk (isa : Isa) : Nat → Layout → List Step → Except Diagnostic Layout
  | _, l, [] => .ok l
  | line, l, s :: rest => do
    let l' ← l.step isa line s
    walk isa (line + 1) l' rest

end Layout

/-- The labels of a program with the chosen encodings. -/
def layout (isa : Isa) (steps : List Step) : Except Diagnostic LabelTable := do
  let l ← Layout.walk isa 1 {} steps
  return l.labels

end TableAsm
