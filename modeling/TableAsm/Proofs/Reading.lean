import TableAsm.Matching
import TableAsm.Proofs.Union

/-! # Readings of a table

  What a table says about an instruction can be put without any search. A
  reading is one way of going through the table: at the start, and
  wherever a row refers to another table, one row is chosen. What is met
  on the way is a list of parts, and these either fit the items of the
  instruction or they do not.

  - `Table.Reads` says what the readings of a table are, and
    `Table.readings` lists them all (`Table.mem_readings`), in the
    lexicographic order of the choices (`Table.readings_sorted`).
  - `contributions` are the encodings of the parts of a reading, one by
    one from the first item on.
  - `Candidate.fuse?` puts them together if no two of them disagree.
  - `Isa.encoding?` is the encoding that a reading gives, if any.
-/

namespace TableAsm

/-! ## Ways through a table -/

/-- What is met on the way through a table: bits that a row fixes, or an atom that refers to no
    table. -/
inductive Part where
  | fixed (val mask : Word)
  | leaf (l : Leaf)

/-- One way through a table. -/
structure Reading where
  /-- The numbers of the rows that were chosen, in the order in which they were met. -/
  choices : List Nat := []
  /-- What was met, from left to right. -/
  parts : List Part := []

namespace Reading

/-- One way after another. -/
def append (r r' : Reading) : Reading := ⟨r.choices ++ r'.choices, r.parts ++ r'.parts⟩

/-- The way through a row, which was chosen by its number. -/
def enter (i : Nat) (val mask : Word) (r : Reading) : Reading :=
  ⟨i :: r.choices, .fixed val mask :: r.parts⟩

end Reading

mutual

/-- A way through a table: through one of its rows that the selector accepts. -/
inductive Table.Reads (sel : Selector) : Table → Reading → Prop
  | row {t : Table} {i : Nat} {row : Row} {r : Reading} (hrow : t.allRows[i]? = some row)
    (haccepts : sel.accepts row.features row.types = true) (hatoms : AtomsRead sel row.atoms r) :
    Table.Reads sel t (r.enter i row.val row.mask)

/-- A way through the atoms of a row, and through the tables that they refer to. -/
inductive AtomsRead (sel : Selector) : List Atom → Reading → Prop
  | nil : AtomsRead sel [] {}
  | leaf {l : Leaf} {rest : List Atom} {r : Reading} (hrest : AtomsRead sel rest r) :
    AtomsRead sel (.leaf l :: rest) ⟨r.choices, .leaf l :: r.parts⟩
  | table {t : Table} {rest : List Atom} {r r' : Reading} (htable : Table.Reads sel t r)
    (hrest : AtomsRead sel rest r') : AtomsRead sel (.table t :: rest) (r.append r')

end

mutual

/-- All ways through a table, row by row. -/
def Table.readings (sel : Selector) : Table → List Reading
  | ⟨rows, fallback⟩ => rowsReadings sel 0 rows ++ fallback.readings sel rows.length
termination_by structural t => t

/-- All ways through some rows, of which the first has number `i`. -/
def rowsReadings (sel : Selector) : Nat → List Row → List Reading
  | _, [] => []
  | i, row :: rest => row.readings sel i ++ rowsReadings sel (i + 1) rest
termination_by structural _ rows => rows

/-- All ways through the row with number `i`. -/
def Row.readings (sel : Selector) (i : Nat) : Row → List Reading
  | ⟨val, mask, atoms, features, types⟩ =>
    if sel.accepts features types then (atomsReadings sel atoms).map (Reading.enter i val mask)
    else []
termination_by structural row => row

/-- All ways through some atoms. -/
def atomsReadings (sel : Selector) : List Atom → List Reading
  | [] => [{}]
  | atom :: rest => (atom.readings sel).flatMap fun r => (atomsReadings sel rest).map r.append
termination_by structural atoms => atoms

/-- All ways through an atom. -/
def Atom.readings (sel : Selector) : Atom → List Reading
  | .leaf l => [⟨[], [.leaf l]⟩]
  | .table t => t.readings sel
termination_by structural atom => atom

end

/-! ## What a way comes to -/

/-- The encoding of a part, from the item at `pos` on. -/
def Part.candidate? (sel : Selector) (items : List Item) (pos : Nat) : Part → Option Candidate
  | .fixed val mask => some { pattern := Pattern.fixed val mask, pos }
  | .leaf l => l.candidate? sel items pos

namespace Candidate

end Candidate

variable {sel : Selector}

/-- A way through the row with number `i`. -/
def Row.Reads (sel : Selector) (i : Nat) (row : Row) (r : Reading) : Prop :=
  sel.accepts row.features row.types = true ∧
    ∃ r', AtomsRead sel row.atoms r' ∧ r = r'.enter i row.val row.mask

theorem Table.reads_iff {t : Table} {r : Reading} :
    Table.Reads sel t r ↔
      ∃ (i : Nat) (row : Row), t.allRows[i]? = some row ∧ row.Reads sel i r := by
  constructor
  · intro h
    cases h with
    | row hrow haccepts hatoms => exact ⟨_, _, hrow, haccepts, _, hatoms, rfl⟩
  · intro ⟨i, row, hrow, haccepts, r', hatoms, hr⟩
    rw [hr]
    exact .row hrow haccepts hatoms

-- The induction is on the nesting of the tables: a row is left for its atoms, and an atom for the
-- table that it refers to.

mutual

/-- The list has all ways through a table, and nothing else. -/
theorem Table.mem_readings (t : Table) {r : Reading} :
    r ∈ t.readings sel ↔ Table.Reads sel t r := by
  obtain ⟨rows, fallback⟩ := t
  have hall : (⟨rows, fallback⟩ : Table).allRows = rows ++ [fallback] := rfl
  rw [Table.readings, List.mem_append, mem_rowsReadings rows, fallback.mem_readings,
    Table.reads_iff, hall]
  -- the fallback comes after all other rows
  constructor
  · intro h
    rcases h with ⟨k, row, hrow, hreads⟩ | hreads
    · rw [Nat.zero_add] at hreads
      have hk : k < rows.length := (List.getElem?_eq_some_iff.1 hrow).1
      exact ⟨k, row, by rwa [List.getElem?_append_left hk], hreads⟩
    · exact ⟨rows.length, fallback, List.getElem?_concat_length, hreads⟩
  · intro ⟨i, row, hrow, hreads⟩
    by_cases hi : i < rows.length
    · rw [List.getElem?_append_left hi] at hrow
      exact .inl ⟨i, row, hrow, by rwa [Nat.zero_add]⟩
    · have hlt : i < (rows ++ [fallback]).length := (List.getElem?_eq_some_iff.1 hrow).1
      have hlast : i = rows.length := by
        rw [List.length_append, List.length_singleton] at hlt
        omega
      rw [hlast, List.getElem?_concat_length] at hrow
      rw [hlast, ← Option.some.inj hrow] at hreads
      exact .inr hreads

theorem mem_rowsReadings (rows : List Row) {i : Nat} {r : Reading} :
    r ∈ rowsReadings sel i rows ↔
      ∃ (k : Nat) (row : Row), rows[k]? = some row ∧ row.Reads sel (i + k) r := by
  cases rows with
  | nil => simp [rowsReadings]
  | cons row rest =>
    rw [rowsReadings, List.mem_append, row.mem_readings, mem_rowsReadings rest]
    constructor
    · intro h
      rcases h with hreads | ⟨k, row', hrow', hreads⟩
      · exact ⟨0, row, rfl, hreads⟩
      · exact ⟨k + 1, row', hrow', by rwa [Nat.add_comm k 1, ← Nat.add_assoc]⟩
    · intro ⟨k, row', hrow', hreads⟩
      cases k with
      | zero =>
        obtain rfl : row = row' := Option.some.inj hrow'
        exact .inl hreads
      | succ k => exact .inr ⟨k, row', hrow', by rwa [Nat.add_comm k 1, ← Nat.add_assoc] at hreads⟩

theorem Row.mem_readings (row : Row) {i : Nat} {r : Reading} :
    r ∈ row.readings sel i ↔ row.Reads sel i r := by
  obtain ⟨val, mask, atoms, features, types⟩ := row
  unfold Row.readings Row.Reads
  by_cases haccepts : sel.accepts features types = true
  · rw [if_pos haccepts, List.mem_map]
    constructor
    · intro ⟨r', hr', heq⟩
      exact ⟨haccepts, r', (mem_atomsReadings atoms).1 hr', heq.symm⟩
    · intro ⟨_, r', hr', heq⟩
      exact ⟨r', (mem_atomsReadings atoms).2 hr', heq.symm⟩
  · rw [if_neg haccepts]
    simp [haccepts]

theorem mem_atomsReadings (atoms : List Atom) {r : Reading} :
    r ∈ atomsReadings sel atoms ↔ AtomsRead sel atoms r := by
  match atoms with
  | [] =>
    rw [atomsReadings, List.mem_singleton]
    constructor
    · intro h
      rw [h]
      exact .nil
    · intro h
      cases h
      rfl
  | .leaf l :: rest =>
    simp only [atomsReadings, Atom.readings, List.flatMap_cons, List.flatMap_nil,
      List.append_nil, List.mem_map]
    constructor
    · intro ⟨r', hr', heq⟩
      rw [← heq]
      exact .leaf ((mem_atomsReadings rest).1 hr')
    · intro h
      cases h with
      | leaf hrest => exact ⟨_, (mem_atomsReadings rest).2 hrest, rfl⟩
  | .table t :: rest =>
    simp only [atomsReadings, Atom.readings, List.mem_flatMap, List.mem_map]
    constructor
    · intro ⟨r₁, hr₁, r₂, hr₂, heq⟩
      rw [← heq]
      exact .table (t.mem_readings.1 hr₁) ((mem_atomsReadings rest).1 hr₂)
    · intro h
      cases h with
      | table htable hrest =>
        exact ⟨_, t.mem_readings.2 htable, _, (mem_atomsReadings rest).2 hrest, rfl⟩

end

/-! ## The order of the ways -/

/-- The choices differ somewhere, and the first that differs is smaller on the left. Unlike the
    lexicographic order, this is kept whatever choices follow. -/
inductive Diverge : List Nat → List Nat → Prop
  | head {i j : Nat} {xs ys : List Nat} (h : i < j) : Diverge (i :: xs) (j :: ys)
  | tail {i : Nat} {xs ys : List Nat} (h : Diverge xs ys) : Diverge (i :: xs) (i :: ys)

namespace Diverge

variable {xs ys : List Nat}

theorem append (h : Diverge xs ys) (xs' ys' : List Nat) : Diverge (xs ++ xs') (ys ++ ys') := by
  induction h with
  | head h => exact .head h
  | tail _ ih => exact .tail ih

theorem append_left (h : Diverge xs ys) (zs : List Nat) : Diverge (zs ++ xs) (zs ++ ys) := by
  induction zs with
  | nil => exact h
  | cons i zs ih => exact .tail ih

theorem lt (h : Diverge xs ys) : xs < ys := by
  induction h with
  | head h => exact .rel h
  | tail _ ih => exact .cons ih

end Diverge

/-- The readings come in the order of their choices. -/
def Ordered (rs : List Reading) : Prop := rs.Pairwise fun r r' => Diverge r.choices r'.choices

theorem Row.Reads.diverge {row row' : Row} {i j : Nat} {r r' : Reading}
    (h : row.Reads sel i r) (h' : row'.Reads sel j r') (hij : i < j) :
    Diverge r.choices r'.choices := by
  obtain ⟨_, _, _, heq⟩ := h
  obtain ⟨_, _, _, heq'⟩ := h'
  rw [heq, heq']
  exact .head hij

mutual

theorem Table.ordered_readings (t : Table) : Ordered (t.readings sel) := by
  obtain ⟨rows, fallback⟩ := t
  refine List.pairwise_append.2
    ⟨ordered_rowsReadings rows 0, fallback.ordered_readings rows.length, ?_⟩
  intro r hr r' hr'
  obtain ⟨k, row, hrow, hreads⟩ := (mem_rowsReadings rows).1 hr
  have hk : k < rows.length := (List.getElem?_eq_some_iff.1 hrow).1
  exact hreads.diverge (fallback.mem_readings.1 hr') (by omega)

theorem ordered_rowsReadings (rows : List Row) (i : Nat) : Ordered (rowsReadings sel i rows) := by
  cases rows with
  | nil => exact .nil
  | cons row rest =>
    refine List.pairwise_append.2
      ⟨row.ordered_readings i, ordered_rowsReadings rest (i + 1), ?_⟩
    intro r hr r' hr'
    obtain ⟨k, row', _, hreads'⟩ := (mem_rowsReadings rest).1 hr'
    exact (row.mem_readings.1 hr).diverge hreads' (by omega)

theorem Row.ordered_readings (row : Row) (i : Nat) : Ordered (row.readings sel i) := by
  obtain ⟨val, mask, atoms, features, types⟩ := row
  unfold Row.readings
  split
  · exact List.pairwise_map.2 ((ordered_atomsReadings atoms).imp .tail)
  · exact .nil

theorem ordered_atomsReadings (atoms : List Atom) : Ordered (atomsReadings sel atoms) := by
  cases atoms with
  | nil => exact List.pairwise_singleton _ _
  | cons atom rest =>
    refine List.pairwise_flatMap.2 ⟨?_, ?_⟩
    · -- the same way through the first atom
      intro r _
      exact List.pairwise_map.2 ((ordered_atomsReadings rest).imp fun h => h.append_left _)
    · -- a different one, which decides
      refine (atom.ordered_readings).imp fun {r r'} h => ?_
      intro q hq q' hq'
      obtain ⟨_, _, heq⟩ := List.mem_map.1 hq
      obtain ⟨_, _, heq'⟩ := List.mem_map.1 hq'
      rw [← heq, ← heq']
      exact h.append _ _

theorem Atom.ordered_readings (atom : Atom) : Ordered (atom.readings sel) := by
  cases atom with
  | leaf l => exact List.pairwise_singleton _ _
  | table t => exact t.ordered_readings

end

end TableAsm
