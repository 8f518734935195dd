import TableAsm.Emission
import TableAsm.Layout

/-! # Assembly by relaxation

  An instruction may have several encodings of different lengths, labels
  depend on lengths, and whether an encoding can be used depends on
  labels. The assembler starts with the first encoding of every
  instruction and makes passes over the program. A pass binds the labels
  (`layout`) and writes the bytes (`emit`), and the first pass that
  abandons no encoding is the result (`relax`).

  This ends because every other pass leaves fewer encodings.
-/

namespace TableAsm

/-- A program turned into bytes. -/
structure Assembly where
  /-- In the order of their first mention, the default section first. -/
  sections : List Section
  labels : LabelTable
  /-- Number of passes that it took. -/
  passes : Nat

/-- Makes passes until one abandons nothing; `passes` counts those before. -/
def relax (isa : Isa) (passes : Nat) (steps : List Step) : Except Diagnostic Assembly :=
  match layout isa steps with
  | .error d => .error d
  | .ok labels =>
    match _hemit : emit isa labels steps with
    | .error d => .error d
    | .ok e =>
      if _hdirty : e.dirty = true then relax isa (passes + 1) e.done.reverse
      else .ok ⟨e.image.sections, labels, passes + 1⟩
termination_by spare steps
decreasing_by exact spare_emit_lt _hemit _hdirty

/-- Assembles a program. -/
def assemble (isa : Isa) (sel : Selector) (program : Program) : Except Diagnostic Assembly := do
  let steps ← Step.ofLines isa sel 1 program
  relax isa 0 steps

namespace Assembly

/-- The section of this name. -/
def find? (a : Assembly) (name : String) : Option Section :=
  a.sections.find? (·.name == name)

end Assembly

end TableAsm
