import TableAsm.Proofs.Matching

/-! # What can be met in a table

  Many facts about an instruction set hold because of what stands in its
  tables, however deep, and not because of how they are gone through.

  - `Table.reach` lists the rows of a table and of all tables below it,
    and `Table.parts` and `Table.leaves` what stands in these rows. All of
    them can be evaluated, so that what is asked of them can be checked
    for a given table.
  - `Table.parts_of_mem_readings` says that a way through a table meets
    nothing else, and `Row.leaf_mem_of_mem_readings` that a way through a
    row meets all atoms of the row itself.
  - `Isa.mem_encodings_row` takes an encoding back to its row of the root
    table.
-/

namespace TableAsm

/-! ## Rows below a table -/

mutual

/-- The rows of a table, and all rows below them. -/
def Table.reach : Table → List Row
  | ⟨rows, fallback⟩ => rowsReach rows ++ fallback.reach
termination_by structural t => t

/-- Some rows, and all rows below them. -/
def rowsReach : List Row → List Row
  | [] => []
  | row :: rest => row.reach ++ rowsReach rest
termination_by structural rows => rows

/-- A row, and all rows of the tables that it refers to. -/
def Row.reach : Row → List Row
  | ⟨val, mask, atoms, features, types⟩ => ⟨val, mask, atoms, features, types⟩ :: atomsReach atoms
termination_by structural row => row

/-- The rows of the tables that some atoms refer to. -/
def atomsReach : List Atom → List Row
  | [] => []
  | atom :: rest => atom.reach ++ atomsReach rest
termination_by structural atoms => atoms

/-- The rows of the table that an atom refers to. -/
def Atom.reach : Atom → List Row
  | .leaf _ => []
  | .table t => t.reach
termination_by structural atom => atom

end

theorem Row.mem_reach (row : Row) : row ∈ row.reach := by
  obtain ⟨val, mask, atoms, features, types⟩ := row
  exact List.mem_cons_self

theorem Table.reach_of_mem_allRows {t : Table} {row : Row} (h : row ∈ t.allRows) :
    row.reach ⊆ t.reach := by
  have hrows : ∀ rows : List Row, row ∈ rows → row.reach ⊆ rowsReach rows := by
    intro rows hrow
    induction rows with
    | nil => simp at hrow
    | cons first rest ih =>
      rw [rowsReach]
      rcases List.mem_cons.1 hrow with rfl | hrow
      · exact List.subset_append_left _ _
      · exact List.subset_append_of_subset_right _ (ih hrow)
  obtain ⟨rows, fallback⟩ := t
  rw [Table.reach]
  rcases List.mem_append.1 h with h | h
  · exact List.subset_append_of_subset_left _ (hrows rows h)
  · obtain rfl := List.mem_singleton.1 h
    exact List.subset_append_right _ _

/-! ## What stands in a row -/

/-- The atom, if it refers to no table. -/
def Atom.leaf? : Atom → Option Leaf
  | .leaf l => some l
  | .table _ => none

/-- The atoms of a row that refer to no table. -/
def Row.leaves (row : Row) : List Leaf := row.atoms.filterMap Atom.leaf?

/-- What stands in the row itself: the bits that it fixes, and atoms. -/
def Row.parts (row : Row) : List Part := .fixed row.val row.mask :: row.leaves.map .leaf

/-- The atoms in a table and below it that refer to no table. -/
def Table.leaves (t : Table) : List Leaf := t.reach.flatMap Row.leaves

/-- Everything in a table and below it. -/
def Table.parts (t : Table) : List Part := t.reach.flatMap Row.parts

theorem leaf_mem_parts {l : Leaf} {rows : List Row} :
    .leaf l ∈ rows.flatMap Row.parts ↔ l ∈ rows.flatMap Row.leaves := by
  simp [Row.parts]

theorem fixed_mem_parts {val mask : Word} {rows : List Row} :
    .fixed val mask ∈ rows.flatMap Row.parts ↔ ∃ row ∈ rows, row.val = val ∧ row.mask = mask := by
  simp [Row.parts, eq_comm]

/-! ## Ways meet parts only -/

variable {sel : Selector}

mutual

/-- A way through a table meets only what stands there. -/
theorem Table.parts_of_mem_readings (t : Table) {r : Reading} (h : r ∈ t.readings sel) :
    r.parts ⊆ t.parts := by
  obtain ⟨rows, fallback⟩ := t
  rw [Table.readings, List.mem_append] at h
  rw [Table.parts, Table.reach, List.flatMap_append]
  rcases h with h | h
  · exact List.subset_append_of_subset_left _ (parts_of_mem_rowsReadings rows h)
  · exact List.subset_append_of_subset_right _ (fallback.parts_of_mem_readings h)

theorem parts_of_mem_rowsReadings (rows : List Row) {i : Nat} {r : Reading}
    (h : r ∈ rowsReadings sel i rows) : r.parts ⊆ (rowsReach rows).flatMap Row.parts := by
  cases rows with
  | nil => simp [rowsReadings] at h
  | cons row rest =>
    rw [rowsReadings, List.mem_append] at h
    rw [rowsReach, List.flatMap_append]
    rcases h with h | h
    · exact List.subset_append_of_subset_left _ (row.parts_of_mem_readings h)
    · exact List.subset_append_of_subset_right _ (parts_of_mem_rowsReadings rest h)

theorem Row.parts_of_mem_readings (row : Row) {i : Nat} {r : Reading}
    (h : r ∈ row.readings sel i) : r.parts ⊆ row.reach.flatMap Row.parts := by
  obtain ⟨val, mask, atoms, features, types⟩ := row
  unfold Row.readings at h
  split at h
  · obtain ⟨r', hr', rfl⟩ := List.mem_map.1 h
    exact List.cons_subset_cons _ (parts_of_mem_atomsReadings atoms hr')
  · simp at h

theorem parts_of_mem_atomsReadings (atoms : List Atom) {r : Reading}
    (h : r ∈ atomsReadings sel atoms) :
    r.parts ⊆ (atoms.filterMap Atom.leaf?).map .leaf ++ (atomsReach atoms).flatMap Row.parts := by
  cases atoms with
  | nil =>
    obtain rfl := List.mem_singleton.1 h
    exact List.nil_subset _
  | cons atom rest =>
    rw [atomsReadings, List.mem_flatMap] at h
    obtain ⟨r₁, hr₁, h⟩ := h
    obtain ⟨r₂, hr₂, rfl⟩ := List.mem_map.1 h
    have hrest := parts_of_mem_atomsReadings rest hr₂
    cases atom with
    | leaf l =>
      obtain rfl := List.mem_singleton.1 hr₁
      exact List.cons_subset_cons _ hrest
    | table t =>
      have ht : r₁.parts ⊆ t.reach.flatMap Row.parts := t.parts_of_mem_readings hr₁
      rw [atomsReach, List.flatMap_append]
      refine List.append_subset.2 ⟨?_, ?_⟩
      · exact List.subset_append_of_subset_right _ (List.subset_append_of_subset_left _ ht)
      · intro part hpart
        rcases List.mem_append.1 (hrest hpart) with hown | hreach
        · exact List.mem_append_left _ hown
        · exact List.mem_append_right _ (List.mem_append_right _ hreach)

end

/-- An atom that is met on a way through a row stands in the row or below it. -/
theorem Row.exists_leaf_of_mem_readings {row : Row} {i : Nat} {r : Reading} {l : Leaf}
    (h : r ∈ row.readings sel i) (hl : .leaf l ∈ r.parts) : ∃ below ∈ row.reach, l ∈ below.leaves :=
  List.mem_flatMap.1 (leaf_mem_parts.1 (row.parts_of_mem_readings h hl))

theorem leaf_mem_of_mem_atomsReadings {atoms : List Atom} {r : Reading} {l : Leaf}
    (hl : l ∈ atoms.filterMap Atom.leaf?) (h : r ∈ atomsReadings sel atoms) :
    .leaf l ∈ r.parts := by
  induction atoms generalizing r with
  | nil => simp at hl
  | cons atom rest ih =>
    rw [atomsReadings, List.mem_flatMap] at h
    obtain ⟨r₁, hr₁, h⟩ := h
    obtain ⟨r₂, hr₂, rfl⟩ := List.mem_map.1 h
    cases atom with
    | leaf first =>
      obtain rfl := List.mem_singleton.1 hr₁
      rcases List.mem_cons.1 hl with rfl | hl
      · exact List.mem_cons_self
      · exact List.mem_cons_of_mem _ (ih hl hr₂)
    | table t => exact List.mem_append_right _ (ih hl hr₂)

/-- No way through a row leaves out an atom that stands in the row itself. -/
theorem Row.leaf_mem_of_mem_readings {row : Row} {i : Nat} {r : Reading} {l : Leaf}
    (hl : l ∈ row.leaves) (h : r ∈ row.readings sel i) : .leaf l ∈ r.parts := by
  obtain ⟨val, mask, atoms, features, types⟩ := row
  unfold Row.readings at h
  split at h
  · obtain ⟨r', hr', rfl⟩ := List.mem_map.1 h
    exact List.mem_cons_of_mem _ (leaf_mem_of_mem_atomsReadings hl hr')
  · simp at h

/-! ## Row by row -/

/-- The encodings of a table, row by row. -/
theorem Table.candidates_eq_flatMap (t : Table) (items : List Item) (pos : Nat) :
    t.candidates sel items pos = t.allRows.flatMap (·.candidates sel items pos) := by
  have hrows : ∀ rows, rowsCandidates sel items pos rows =
      rows.flatMap (·.candidates sel items pos) := by
    intro rows
    induction rows with
    | nil => rfl
    | cons row rest ih => rw [rowsCandidates, List.flatMap_cons, ih]
  obtain ⟨rows, fallback⟩ := t
  rw [Table.candidates, hrows]
  simp [Table.allRows]

/-- A row gives an encoding along one of the ways through it. -/
theorem Row.exists_reading {row : Row} {items : List Item} {pos : Nat} {c : Candidate}
    (h : c ∈ row.candidates sel items pos) :
    ∃ r ∈ row.readings sel 0, Candidate.extend sel items { pos } r.parts = some c := by
  rw [row.candidates_eq pos 0] at h
  exact List.mem_filterMap.1 h

theorem Row.candidates_of_rejects {row : Row} (items : List Item) (pos : Nat)
    (h : sel.accepts row.features row.types = false) : row.candidates sel items pos = [] := by
  obtain ⟨val, mask, atoms, features, types⟩ := row
  rw [Row.candidates, if_neg (by simpa using h)]

/-- Every encoding comes from one row of the root table. -/
theorem Isa.mem_encodings_row {isa : Isa} {items : List Item} {c : Candidate}
    (h : c ∈ isa.encodings sel items) :
    ∃ row ∈ isa.root.allRows, c ∈ row.candidates sel items 0 ∧ c.pos = items.length := by
  unfold Isa.encodings at h
  rw [Table.candidates_eq_flatMap, List.mem_filter, List.mem_flatMap, Bool.and_eq_true,
    beq_iff_eq] at h
  obtain ⟨⟨row, hrow, hc⟩, hpos, _⟩ := h
  exact ⟨row, hrow, hc, hpos⟩

end TableAsm
