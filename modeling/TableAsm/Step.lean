import TableAsm.Directive
import TableAsm.Matching

/-! # Steps

  A step is a line of the program that has been checked: an instruction
  with its encodings, a label, or a directive that has been read.

  An instruction is held in a `Slot`: the encoding that is chosen for it
  and those that are left. Encodings are only ever abandoned and never
  come back, and `spare` counts how many can still be.

  - `Step.ofLines` checks a program.
  - `Slot.next?` abandons an encoding that does not fit.
  - `Slot.realign?` abandons encodings until one moves what follows by
    half a long instruction.
-/

namespace TableAsm

/-- The encoding that is chosen for an instruction, and those that are left. -/
structure Slot where
  chosen : Candidate
  /-- Encodings to fall back on, in order. -/
  spare : List Candidate
deriving Repr

namespace Slot

/-- Abandons the chosen encoding. -/
def next? (s : Slot) : Option Slot :=
  match s.spare with
  | [] => none
  | c :: rest => some ⟨c, rest⟩

/-- Would a change between these lengths move what follows by half a long instruction? -/
def shifts (a b : Nat) : Bool := ((a - b) + (b - a)) % 8 == 4

/-- Abandons encodings up to the next one that moves what follows by half a long instruction. -/
def realign? (unit : Nat) (s : Slot) : Option Slot :=
  match s.spare.dropWhile fun c => !shifts (c.size unit) (s.chosen.size unit) with
  | [] => none
  | c :: rest => some ⟨c, rest⟩

end Slot

/-- A line that has been checked. -/
inductive Step where
  | insn (slot : Slot)
  | label (name : String)
  | directive (d : Directive)
deriving Repr

namespace Step

/-- Checks a line: matches an instruction or reads a directive. -/
def ofLine (isa : Isa) (sel : Selector) : Line → Except Cause Step
  | .insn items =>
    match isa.encodings sel items with
    | [] => .error (unmatched items)
    | c :: rest => .ok (.insn ⟨c, rest⟩)
  | .label name => .ok (.label name)
  | .directive name args => do
    let d ← Directive.parse name args
    return .directive d

/-- Checks lines, of which the first has number `line`. -/
def ofLines (isa : Isa) (sel : Selector) : Nat → Program → Except Diagnostic (List Step)
  | _, [] => .ok []
  | line, l :: rest =>
    match ofLine isa sel l with
    | .error cause => .error ⟨line, cause⟩
    | .ok s => do
      let steps ← ofLines isa sel (line + 1) rest
      return s :: steps

/-- Encodings to fall back on. -/
def spare : Step → Nat
  | .insn slot => slot.spare.length
  | .label _ => 0
  | .directive _ => 0

end Step

/-- Encodings to fall back on in a whole program. -/
def spare : List Step → Nat
  | [] => 0
  | s :: rest => s.spare + spare rest

/-! ### Abandoning an encoding leaves fewer of them -/

theorem spare_cons (s : Step) (steps : List Step) :
    spare (s :: steps) = s.spare + spare steps := rfl

theorem spare_append (steps more : List Step) :
    spare (steps ++ more) = spare steps + spare more := by
  induction steps with
  | nil => simp [spare]
  | cons s rest ih =>
    rw [List.cons_append, spare_cons, spare_cons, ih, Nat.add_assoc]

theorem spare_reverse (steps : List Step) : spare steps.reverse = spare steps := by
  induction steps with
  | nil => rfl
  | cons s rest ih =>
    rw [List.reverse_cons, spare_append, ih, spare_cons, Nat.add_comm]
    rfl

theorem Slot.spare_next?_lt {s s' : Slot} (h : s.next? = some s') :
    s'.spare.length < s.spare.length := by
  unfold Slot.next? at h
  split at h
  · simp at h
  · rename_i hs
    simp only [Option.some.injEq] at h
    subst h
    simp [hs]

theorem Slot.spare_realign?_lt {unit : Nat} {s s' : Slot} (h : s.realign? unit = some s') :
    s'.spare.length < s.spare.length := by
  unfold Slot.realign? at h
  split at h
  · simp at h
  · rename_i c rest hs
    simp only [Option.some.injEq] at h
    subst h
    -- what is kept is a proper suffix of what was left
    have hle := (List.dropWhile_suffix
      (l := s.spare) fun c => !Slot.shifts (c.size unit) (s.chosen.size unit)).length_le
    rw [hs] at hle
    simp only [List.length_cons] at hle
    exact hle

end TableAsm
