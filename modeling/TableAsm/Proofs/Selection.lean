import Mathlib.Data.List.Find
import Mathlib.Data.List.Flatten
import TableAsm.Proofs.Parts

/-! # Wider selectors

  A selector that has more features and more program types admits more
  rows. It does not disturb what the rows gave that were admitted before:
  their encodings are all there, and in the same order.

  - `s ≤ t` means that `t` has every feature and every program type of
    `s`. It accepts whatever `s` accepts (`Selector.accepts_mono`).
  - What an atom comes to depends on the selector only through registers
    with spellings of their own. If these ask for no features, it does not
    depend on it at all (`Leaf.candidate?_congr`).
  - A table whose rows carry over to another selector gives no less for
    that one, and in the same order (`Table.candidates_sublist`).
  - `encodings_sublist` is the result.
-/

namespace TableAsm

namespace Selector

/-- The second selector has every feature and every program type of the first. -/
instance : LE Selector where
  le s t := s.features &&& t.features = s.features ∧ s.types &&& t.types = s.types

instance (s t : Selector) : Decidable (s ≤ t) :=
  inferInstanceAs (Decidable (_ ∧ _))

variable {s t : Selector} {features : Features} {types : ProgramTypes}

theorem accepts_iff :
    s.accepts features types = true ↔
      s.features &&& features = features ∧ (types = 0 ∨ types &&& s.types ≠ 0) := by
  simp [accepts]

theorem accepts_mono (h : s ≤ t) (hs : s.accepts features types = true) :
    t.accepts features types = true := by
  obtain ⟨hfeatures, htypes⟩ := h
  rw [accepts_iff] at hs ⊢
  obtain ⟨hs, hmeant⟩ := hs
  constructor
  · calc t.features &&& features
        = t.features &&& (s.features &&& features) := by rw [hs]
      _ = s.features &&& t.features &&& features := by
        rw [← BitVec.and_assoc, BitVec.and_comm t.features]
      _ = features := by rw [hfeatures, hs]
  · rcases hmeant with hany | hmeant
    · exact .inl hany
    · right
      intro hnone
      -- a program type that both have in common is one that `t` has
      apply hmeant
      rw [← htypes, BitVec.and_comm s.types, ← BitVec.and_assoc, hnone]
      exact BitVec.zero_and

/-- What asks for nothing is always accepted. -/
theorem accepts_zero (s : Selector) : s.accepts 0 0 = true := by
  simp [accepts]

end Selector

/-! ## Atoms -/

/-- All special spellings of the register are there on every processor. -/
def Register.Unconditional (r : Register) : Prop := ∀ s ∈ r.specials, s.features = 0

instance (r : Register) : Decidable r.Unconditional :=
  inferInstanceAs (Decidable (∀ s ∈ r.specials, s.features = 0))

/-- The register slots of an atom. -/
def Leaf.registers : Leaf → List Register
  | .reg r => [r]
  | .mem m => m.base.toList ++ (m.scaled.map Prod.fst).toList
  | _ => []

/-- No special spelling of a register, anywhere in the tables, asks for a feature. -/
def Isa.Unconditional (isa : Isa) : Prop :=
  ∀ l ∈ isa.root.leaves, ∀ r ∈ l.registers, r.Unconditional

instance (isa : Isa) : Decidable isa.Unconditional :=
  inferInstanceAs (Decidable (∀ l ∈ isa.root.leaves, ∀ r ∈ l.registers, r.Unconditional))

section Spellings

variable (s t : Selector)

theorem Register.encode_congr {r : Register} (hr : r.Unconditional) (e : Expr) (p : Pattern) :
    r.encode s e p = r.encode t e p := by
  have hspecial : r.special? s e = r.special? t e := by
    unfold Register.special?
    congr 1
    apply List.find?_congr
    intro sp hsp
    rw [hr sp hsp, s.accepts_zero, t.accepts_zero]
  unfold Register.encode Register.number?
  rw [hspecial]

theorem Register.encodeScaled_congr {r : Register} (hr : r.Unconditional) (shift : Nat) (e : Expr)
    (p : Pattern) : r.encodeScaled s shift e p = r.encodeScaled t shift e p := by
  unfold Register.encodeScaled
  simp only [Register.encode_congr s t hr]

theorem Memory.encodeRegisters_congr {m : Memory}
    (hm : ∀ r ∈ (Leaf.mem m).registers, r.Unconditional) (dynamic : List Expr) (p : Pattern) :
    m.encodeRegisters s dynamic p = m.encodeRegisters t dynamic p := by
  have hbase : ∀ base, m.base = some base → ∀ x p, base.encode s x p = base.encode t x p := by
    intro base hb
    exact Register.encode_congr s t (hm base (by simp [Leaf.registers, hb]))
  have hscaled : ∀ scaled, m.scaled = some scaled → ∀ x p,
      scaled.1.encodeScaled s scaled.2 x p = scaled.1.encodeScaled t scaled.2 x p := by
    intro scaled hs
    exact Register.encodeScaled_congr s t (hm scaled.1 (by simp [Leaf.registers, hs])) scaled.2
  unfold Memory.encodeRegisters
  cases hb : m.base with
  | none =>
    cases hs : m.scaled with
    | none => rfl
    | some scaled => simp only [hscaled scaled hs]
  | some base =>
    cases hs : m.scaled with
    | none => simp only [hbase base hb]
    | some scaled =>
      have hpair : ∀ x y, encodePair s base scaled x y p = encodePair t base scaled x y p := by
        intro x y
        unfold encodePair
        rw [hbase base hb]
        exact Option.bind_congr fun q _ => hscaled scaled hs y q
      simp only [hpair]

theorem Memory.encode_congr {m : Memory} (hm : ∀ r ∈ (Leaf.mem m).registers, r.Unconditional)
    (e : Expr) (c : Candidate) : m.encode s e c = m.encode t e c := by
  unfold Memory.encode
  simp only [Memory.encodeRegisters_congr s t hm]

namespace Leaf

variable {l : Leaf}

theorem operand?_congr (hl : ∀ r ∈ l.registers, r.Unconditional) (e : Expr) (c : Candidate) :
    l.operand? s e c = l.operand? t e c := by
  cases l with
  | reg r =>
    have hr : r.Unconditional := hl r (by simp [Leaf.registers])
    simp only [operand?, Register.encode_congr s t hr]
  | mem m => simp only [operand?, Memory.encode_congr s t hl]
  | _ => rfl

/-- Only registers look at the selector, and these do not. -/
theorem candidate?_congr (hl : ∀ r ∈ l.registers, r.Unconditional) (items : List Item)
    (pos : Nat) : l.candidate? s items pos = l.candidate? t items pos := by
  have hitem : ∀ c it, l.item? s c it = l.item? t c it := by
    intro c it
    cases it with
    | expr e => rw [item?_expr, item?_expr, operand?_congr s t hl]
    | _ => cases l <;> rfl
  cases l with
  | nop => rfl
  | fail => rfl
  | length n => rfl
  | _ => exact Option.bind_congr fun it _ => hitem _ it

end Leaf

end Spellings

/-! ## Tables -/

/-- Whatever the row gives for the first selector, it gives for the second: that one accepts it as
    well, and the atoms of the row see no difference. -/
structure Row.Carries (s t : Selector) (row : Row) : Prop where
  accepts : s.accepts row.features row.types = true → t.accepts row.features row.types = true
  leaves : ∀ l ∈ row.leaves, ∀ items pos, l.candidate? s items pos = l.candidate? t items pos

section Rows

variable {s t : Selector} {items : List Item}

-- The induction is on the nesting of the tables, as for the matcher itself.

mutual

/-- What a table gives is kept, in its order, if all rows below it carry over. -/
theorem Table.candidates_sublist (tab : Table) (h : ∀ row ∈ tab.reach, row.Carries s t)
    (pos : Nat) : (tab.candidates s items pos).Sublist (tab.candidates t items pos) := by
  obtain ⟨rows, fallback⟩ := tab
  rw [Table.reach, List.forall_mem_append] at h
  rw [Table.candidates, Table.candidates]
  exact (rowsCandidates_sublist rows h.1 pos).append (fallback.candidates_sublist h.2 pos)

theorem rowsCandidates_sublist (rows : List Row) (h : ∀ row ∈ rowsReach rows, row.Carries s t)
    (pos : Nat) : (rowsCandidates s items pos rows).Sublist (rowsCandidates t items pos rows) := by
  cases rows with
  | nil => exact List.Sublist.refl _
  | cons row rest =>
    rw [rowsReach, List.forall_mem_append] at h
    rw [rowsCandidates, rowsCandidates]
    exact (row.candidates_sublist h.1 pos).append (rowsCandidates_sublist rest h.2 pos)

theorem Row.candidates_sublist (row : Row) (h : ∀ below ∈ row.reach, below.Carries s t)
    (pos : Nat) : (row.candidates s items pos).Sublist (row.candidates t items pos) := by
  have hself : row.Carries s t := h row row.mem_reach
  obtain ⟨val, mask, atoms, features, types⟩ := row
  rw [Row.candidates, Row.candidates]
  by_cases hs : s.accepts features types = true
  · rw [if_pos hs, if_pos (hself.accepts hs)]
    have hbelow : ∀ row ∈ atomsReach atoms, row.Carries s t := by
      intro row hrow
      exact h row (List.mem_cons_of_mem _ hrow)
    exact atomsCandidates_sublist atoms hself.leaves hbelow (List.Sublist.refl _)
  · rw [if_neg hs]
    exact List.nil_sublist _

theorem atomsCandidates_sublist (atoms : List Atom)
    (hown : ∀ l ∈ atoms.filterMap Atom.leaf?, ∀ items pos,
      l.candidate? s items pos = l.candidate? t items pos)
    (hbelow : ∀ row ∈ atomsReach atoms, row.Carries s t) {cs cs' : List Candidate}
    (hcs : cs.Sublist cs') :
    (atomsCandidates s items atoms cs).Sublist (atomsCandidates t items atoms cs') := by
  cases atoms with
  | nil => exact hcs
  | cons atom rest =>
    rw [atomsReach, List.forall_mem_append] at hbelow
    rw [atomsCandidates, atomsCandidates]
    have hatom : ∀ pos, (atom.candidates s items pos).Sublist (atom.candidates t items pos) := by
      intro pos
      cases atom with
      | leaf l =>
        have hl : l.candidate? s items pos = l.candidate? t items pos :=
          hown l List.mem_cons_self items pos
        rw [Atom.candidates, Atom.candidates, hl]
      | table tab => exact tab.candidates_sublist hbelow.1 pos
    -- more encodings to continue, and more ways to continue each of them
    have hfirst : (cs.flatMap fun c => c.joinAll (atom.candidates s items c.pos)).Sublist
        (cs'.flatMap fun c => c.joinAll (atom.candidates t items c.pos)) := by
      refine List.Sublist.trans ?_ (hcs.flatMap _)
      apply List.Sublist.flatMap_right
      intro c _
      exact (hatom c.pos).filterMap _
    have hrest : ∀ l ∈ rest.filterMap Atom.leaf?, ∀ items pos,
        l.candidate? s items pos = l.candidate? t items pos := by
      intro l hl
      cases atom with
      | leaf first => exact hown l (List.mem_cons_of_mem first hl)
      | table tab => exact hown l hl
    exact atomsCandidates_sublist rest hrest hbelow.2 hfirst

end

end Rows

/-- Rows whose registers have the same spellings everywhere carry over to every selector that
    accepts them. -/
theorem Isa.Unconditional.carries {isa : Isa} (hisa : isa.Unconditional) {s t : Selector}
    {row : Row} (hrow : row ∈ isa.root.reach)
    (h : s.accepts row.features row.types = true → t.accepts row.features row.types = true) :
    row.Carries s t := by
  refine ⟨h, ?_⟩
  intro l hl items pos
  exact Leaf.candidate?_congr s t (hisa l (List.mem_flatMap.2 ⟨row, hrow, hl⟩)) items pos

/-- **Wider selectors lose nothing.** If no special spelling of a register asks for features, then
    the encodings of an instruction for some selector are among those for any wider selector: the
    same ones, as often, and in the same order. -/
theorem encodings_sublist {isa : Isa} (hisa : isa.Unconditional) {s t : Selector} (h : s ≤ t)
    (items : List Item) : (isa.encodings s items).Sublist (isa.encodings t items) := by
  have hcarries : ∀ row ∈ isa.root.reach, row.Carries s t := by
    intro row hrow
    exact hisa.carries hrow (Selector.accepts_mono h)
  exact (isa.root.candidates_sublist hcarries 0).filter _

/-- Two forms of one operation. The first needs a feature and is for one type of program. -/
def optionalForm : Isa where
  name := "optional"
  root := ⟨[⟨1, 1, [.leaf (.name "op"), .leaf (.reg { field := none, name := "$a" })], 2, 8⟩,
    Row.plain 0 1 [.leaf (.name "op"), .leaf (.reg { field := none, name := "$a" })]], Row.fail⟩
  unit := 4
  posUnit := 1
  maxLength := 4
  alignLong := false
  variants := []

theorem encodings_sublist_optionalForm :
    optionalForm.Unconditional ∧ (⟨1, 1⟩ : Selector) ≤ ⟨3, 9⟩ ∧
      (optionalForm.encodings ⟨1, 1⟩ [.name "op", .expr (.reg "$a")]).Sublist
        (optionalForm.encodings ⟨3, 9⟩ [.name "op", .expr (.reg "$a")]) ∧
      (optionalForm.encodings ⟨1, 1⟩ [.name "op", .expr (.reg "$a")]).length = 1 ∧
      (optionalForm.encodings ⟨3, 9⟩ [.name "op", .expr (.reg "$a")]).length = 2 := by
  have hisa : optionalForm.Unconditional := by decide
  have hle : (⟨1, 1⟩ : Selector) ≤ ⟨3, 9⟩ := by decide
  exact ⟨hisa, hle, encodings_sublist hisa hle _, by decide +kernel, by decide +kernel⟩

end TableAsm
