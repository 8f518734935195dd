import TableAsm.Diagnostic
import TableAsm.Word

/-! # Label tables

  A label table binds names to values. A name is bound at most once:
  `LabelTable.define?` refuses a second binding, and
  `LabelTable.declare` reports it. `LabelTable.sorted` lists the bindings
  by value, and by name where values are equal.
-/

namespace TableAsm

/-- Names with their values, the latest binding first. -/
structure LabelTable where
  entries : List (String × Word) := []
deriving DecidableEq, Repr

namespace LabelTable

/-- The table without labels. -/
def empty : LabelTable := {}

/-- The value of a name. -/
def get? (t : LabelTable) (name : String) : Option Word := t.entries.lookup name

/-- Number of labels. -/
def size (t : LabelTable) : Nat := t.entries.length

/-- Binds a new name. -/
def define? (t : LabelTable) (name : String) (value : Word) : Option LabelTable :=
  if (t.get? name).isSome then none else some ⟨(name, value) :: t.entries⟩

/-- Binds a name that a line of the program defines. -/
def declare (t : LabelTable) (line : Nat) (name : String) (value : Word) :
    Except Diagnostic LabelTable :=
  match t.define? name value with
  | some t' => .ok t'
  | none => .error ⟨line, .labelRedeclared name⟩

/-- Smaller values come first, and of two equal ones the name that is first in code point order. -/
def entryLe (a b : String × Word) : Bool :=
  decide (a.2 < b.2) || (decide (a.2 = b.2) && decide (a.1 ≤ b.1))

/-- All labels, ordered by value and then by name. -/
def sorted (t : LabelTable) : List (String × Word) := t.entries.mergeSort entryLe

/-! ### What binding does to look-up -/

@[simp] theorem get?_empty (name : String) : empty.get? name = none := rfl

theorem get?_define? {t t' : LabelTable} {name : String} {value : Word}
    (h : t.define? name value = some t') (other : String) :
    t'.get? other = if other = name then some value else t.get? other := by
  unfold define? at h
  split at h
  · simp at h
  · simp only [Option.some.injEq] at h
    subst h
    by_cases heq : other = name
    · simp [get?, heq]
    · have hne : (other == name) = false := by simp [heq]
      simp [get?, List.lookup_cons, hne, heq]

end LabelTable

end TableAsm
