import TableAsm.Isa.Demo
import TableAsm.Proofs.Passes
import TableAsm.Proofs.Selection

/-! # Upward compatible variants

  A processor with more features has more rows, and so an instruction may
  have more encodings on it. Then the assembler could choose differently.
  It does not if every new row asks for an item that no old row takes:
  what the old processor could encode, the new rows cannot.

  - `Leaf.Apart` says that no item is taken by both of two atoms.
  - All items of an instruction are taken by atoms of the row that encodes
    it (`Candidate.extend_taken`), and all atoms of the row are used
    (`Candidate.extend_used`). So one atom can keep two rows apart
    (`Candidate.extend_apart`).
  - `Isa.encodings_eq_of_conservative` concludes that the encodings stay
    the same.
  - For the demonstration instruction set the new atoms are memory
    operands that move or scale their address, and the name `ext`
    (`Demo.apart_of_isNew`). `demo_upward_compatible` is the result.
-/

namespace TableAsm

/-! ## Atoms and the items they take -/

namespace Leaf

/-- The atom takes the item, for some selector and after some encoding. -/
def CanTake (l : Leaf) (it : Item) : Prop := ∃ sel c d, l.item? sel c it = some d

/-- No item is taken by both atoms. -/
def Apart (l l' : Leaf) : Prop := ∀ it, l.CanTake it → ¬ l'.CanTake it

/-- Does the atom take up an item wherever it is met? -/
def takesItem : Leaf → Bool
  | .nop => false
  | .fail => false
  | .length _ => false
  | _ => true

theorem taken_of_takesItem {sel : Selector} {items : List Item} {pos : Nat} {l : Leaf}
    {c : Candidate} (hl : l.takesItem = true) (h : l.candidate? sel items pos = some c) :
    c.pos = pos + 1 ∧ ∃ it, items[pos]? = some it ∧ l.CanTake it := by
  have hitem : ∃ it, items[pos]? = some it ∧ l.item? sel { pos := pos + 1 } it = some c := by
    cases l with
    | nop => simp [takesItem] at hl
    | fail => simp [takesItem] at hl
    | length n => simp [takesItem] at hl
    | _ => exact Option.bind_eq_some_iff.1 h
  obtain ⟨it, hit, htake⟩ := hitem
  refine ⟨?_, it, hit, sel, _, c, htake⟩
  rcases item?_cases htake with rfl | ⟨e, _, htakes⟩
  · rfl
  · exact htakes.pos_eq

theorem pos_of_not_takesItem {sel : Selector} {items : List Item} {pos : Nat} {l : Leaf}
    {c : Candidate} (hl : l.takesItem = false) (h : l.candidate? sel items pos = some c) :
    c.pos = pos := by
  cases l with
  | nop => exact Option.some.inj h ▸ rfl
  | fail => simp [candidate?] at h
  | length n => exact Option.some.inj h ▸ rfl
  | _ => simp [takesItem] at hl

end Leaf

/-- A part takes the item at its position, or none. -/
theorem Part.candidate?_taken {sel : Selector} {items : List Item} {pos : Nat} {part : Part}
    {c : Candidate} (h : part.candidate? sel items pos = some c) :
    c.pos = pos ∨ (c.pos = pos + 1 ∧
      ∃ l, part = .leaf l ∧ ∃ it, items[pos]? = some it ∧ l.CanTake it) := by
  cases part with
  | fixed val mask => exact .inl (Option.some.inj h ▸ rfl)
  | leaf l =>
    cases hl : l.takesItem with
    | false => exact .inl (Leaf.pos_of_not_takesItem hl h)
    | true =>
      obtain ⟨hpos, htaken⟩ := Leaf.taken_of_takesItem hl h
      exact .inr ⟨hpos, l, rfl, htaken⟩

namespace Candidate

variable {sel : Selector} {items : List Item} {parts : List Part} {c e : Candidate}

theorem pos_le_extend (h : c.extend sel items parts = some e) : c.pos ≤ e.pos := by
  induction parts generalizing c with
  | nil => exact Option.some.inj h ▸ Nat.le_refl _
  | cons part rest ih =>
    obtain ⟨d, x, hd, hx, hrest⟩ := extend_cons_eq_some.1 h
    have hle := ih hrest
    rw [pos_join hx] at hle
    rcases Part.candidate?_taken hd with hpos | ⟨hpos, _⟩ <;> omega

/-- Every item that an encoding accounts for is taken by one of its atoms. -/
theorem extend_taken {k : Nat} (h : c.extend sel items parts = some e) (hle : c.pos ≤ k)
    (hlt : k < e.pos) : ∃ l, .leaf l ∈ parts ∧ ∃ it, items[k]? = some it ∧ l.CanTake it := by
  induction parts generalizing c with
  | nil =>
    obtain rfl := Option.some.inj h
    omega
  | cons part rest ih =>
    obtain ⟨d, x, hd, hx, hrest⟩ := extend_cons_eq_some.1 h
    have hpos := pos_join hx
    by_cases hk : x.pos ≤ k
    · obtain ⟨l, hl, htaken⟩ := ih hrest hk
      exact ⟨l, List.mem_cons_of_mem part hl, htaken⟩
    · -- the item is the one that this part takes
      rcases Part.candidate?_taken hd with hd | ⟨hd, l, rfl, htaken⟩
      · omega
      · obtain rfl : k = c.pos := by omega
        exact ⟨l, List.mem_cons_self, htaken⟩

/-- Every atom of an encoding has taken one of the items that it accounts for. -/
theorem extend_used {l : Leaf} (hmem : .leaf l ∈ parts) (hl : l.takesItem = true)
    (h : c.extend sel items parts = some e) :
    ∃ k, c.pos ≤ k ∧ k < e.pos ∧ ∃ it, items[k]? = some it ∧ l.CanTake it := by
  induction parts generalizing c with
  | nil => simp at hmem
  | cons part rest ih =>
    obtain ⟨d, x, hd, hx, hrest⟩ := extend_cons_eq_some.1 h
    have hpos := pos_join hx
    have hend := pos_le_extend hrest
    rcases List.mem_cons.1 hmem with rfl | hmem
    · obtain ⟨hd, htaken⟩ := Leaf.taken_of_takesItem hl hd
      exact ⟨c.pos, Nat.le_refl _, by omega, htaken⟩
    · obtain ⟨k, hle, hlt, htaken⟩ := ih hmem hrest
      refine ⟨k, ?_, hlt, htaken⟩
      rcases Part.candidate?_taken hd with hd | ⟨hd, _⟩ <;> omega

/-- No instruction is encoded along two ways if an atom of one way is apart from all atoms of the
    other. -/
theorem extend_apart {s t : Selector} {parts' : List Part} {d : Candidate} {l : Leaf}
    (hmem : .leaf l ∈ parts) (hl : l.takesItem = true)
    (hapart : ∀ l', .leaf l' ∈ parts' → l.Apart l')
    (h : extend s items { pos := 0 } parts = some e) (he : e.pos = items.length)
    (h' : extend t items { pos := 0 } parts' = some d) (hd : d.pos = items.length) : False := by
  obtain ⟨k, hle, hlt, it, hit, htake⟩ := extend_used hmem hl h
  obtain ⟨l', hl', it', hit', htake'⟩ := extend_taken h' hle (by omega)
  obtain rfl : it = it' := Option.some.inj (hit.symm.trans hit')
  exact hapart l' hl' it htake htake'

end Candidate

/-! ## New rows -/

/-- Two selectors accept the same rows in a row and below it. -/
def Row.SameFor (s t : Selector) (row : Row) : Prop :=
  ∀ below ∈ row.reach,
    s.accepts below.features below.types = t.accepts below.features below.types

/-- The second selector changes nothing in the rows that the first one accepts, and each row that
    it adds has an atom that is apart from all atoms in those. -/
def Isa.Conservative (isa : Isa) (s t : Selector) : Prop :=
  ∀ row ∈ isa.root.allRows, row.SameFor s t ∨
    (s.accepts row.features row.types = false ∧ ∃ l ∈ row.leaves, l.takesItem = true ∧
      ∀ old ∈ isa.root.allRows, s.accepts old.features old.types = true →
        ∀ below ∈ old.reach, ∀ l' ∈ below.leaves, l.Apart l')

namespace Isa

variable {isa : Isa} {s t : Selector} {items : List Item}

/-- A row for which the selectors make no difference. -/
theorem candidates_of_sameFor (hisa : isa.Unconditional) {row : Row}
    (hrow : row ∈ isa.root.allRows) (h : row.SameFor s t) (pos : Nat) :
    row.candidates t items pos = row.candidates s items pos := by
  have hreach := Table.reach_of_mem_allRows hrow
  have hst : ∀ below ∈ row.reach, below.Carries s t := by
    intro below hbelow
    exact hisa.carries (hreach hbelow) (by rw [h below hbelow]; exact id)
  have hts : ∀ below ∈ row.reach, below.Carries t s := by
    intro below hbelow
    exact hisa.carries (hreach hbelow) (by rw [h below hbelow]; exact id)
  exact (row.candidates_sublist hts pos).antisymm (row.candidates_sublist hst pos)

/-- What could be encoded before is encoded as before. -/
theorem encodings_eq_of_conservative (hisa : isa.Unconditional) (h : isa.Conservative s t)
    (hne : isa.encodings s items ≠ []) : isa.encodings t items = isa.encodings s items := by
  -- some row encoded the instruction before
  obtain ⟨c₀, hc₀⟩ := List.exists_mem_of_ne_nil _ hne
  obtain ⟨old, hold, hc₀, hpos₀⟩ := mem_encodings_row hc₀
  have haccepts : s.accepts old.features old.types = true := by
    by_contra hrejects
    rw [Row.candidates_of_rejects items 0 (by simpa using hrejects)] at hc₀
    cases hc₀
  obtain ⟨r₀, hr₀, hextend₀⟩ := old.exists_reading hc₀
  unfold encodings
  rw [Table.candidates_eq_flatMap, Table.candidates_eq_flatMap, List.filter_flatMap,
    List.filter_flatMap]
  refine List.flatMap_congr fun row hrow => ?_
  rcases h row hrow with hsame | ⟨hrejects, l, hl, htakes, hapart⟩
  · rw [candidates_of_sameFor hisa hrow hsame]
  · rw [Row.candidates_of_rejects items 0 hrejects, List.filter_nil, List.filter_eq_nil_iff]
    intro c hc hcomplete
    rw [Bool.and_eq_true, beq_iff_eq] at hcomplete
    obtain ⟨r, hr, hextend⟩ := row.exists_reading hc
    refine Candidate.extend_apart (Row.leaf_mem_of_mem_readings hl hr) htakes ?_ hextend
      hcomplete.1 hextend₀ hpos₀
    intro l' hl'
    obtain ⟨below, hbelow, hl'⟩ := Row.exists_leaf_of_mem_readings hr₀ hl'
    exact hapart old hold haccepts below hbelow l' hl'

end Isa

/-! ## Moving and scaling -/

section References

variable {sel : Selector} {e : Expr}

/-- What can be a special spelling of a register. -/
theorem Alias.shape_of_spelledBy {a : Alias} (h : a.spelledBy e = true) :
    (∃ s, e = .reg s) ∨ (∃ n, e = .num n) ∨ e = .discard := by
  unfold Alias.spelledBy at h
  split at h
  · exact .inl ⟨_, rfl⟩
  · exact .inr (.inl ⟨_, rfl⟩)
  · exact .inr (.inl ⟨_, rfl⟩)
  · exact .inr (.inr rfl)
  · simp at h

/-- What can stand for a register. -/
theorem Register.shape_of_encode {r : Register} {p q : Pattern} (h : r.encode sel e p = some q) :
    (∃ s, e = .reg s) ∨ (∃ n, e = .num n) ∨ e = .discard := by
  obtain ⟨n, hn, _⟩ := Option.bind_eq_some_iff.1 h
  unfold number? at hn
  split at hn
  · next hspecial =>
    obtain ⟨sp, hfind, _⟩ := Option.map_eq_some_iff.1 hspecial
    have hsp := List.find?_some hfind
    rw [Bool.and_eq_true] at hsp
    exact Alias.shape_of_spelledBy hsp.2
  · split at hn
    · exact .inl ⟨_, rfl⟩
    · simp at hn

/-- A register without a factor. -/
theorem Register.unscale_of_encode {r : Register} {p q : Pattern} (h : r.encode sel e p = some q) :
    unscale e 0 = some (e, 0) := by
  rcases shape_of_encode h with ⟨s, rfl⟩ | ⟨n, rfl⟩ | rfl <;> rfl

theorem Register.unscale_of_encodeScaled {r : Register} {shift : Nat} {p q : Pattern}
    (h : r.encodeScaled sel shift e p = some q) : ∃ inner, unscale e 0 = some (inner, shift) := by
  unfold encodeScaled at h
  split at h
  · next inner n hn =>
    split at h
    · next hshift => exact ⟨inner, hshift ▸ hn⟩
    · simp at h
  · simp at h

/-- The address stays where it is, and none of its terms is scaled. -/
structure Reference.Still (r : Reference) : Prop where
  step : r.step = none
  terms : ∀ t, AddressTerms.split r.addr false {} = some t →
    ∀ i, Register.unscale (t.dynamic.getD i (.num 0)) 0 = some (t.dynamic.getD i (.num 0), 0)

namespace Memory

variable {m : Memory} {c d : Candidate}

/-- A kind of operand that has no place for a scaled register and does not move its address. -/
def isStill (m : Memory) : Bool := m.scaled.isNone && m.timing.isNone

/-- A kind of operand, in some address space, that has to be scaled or has to move its
    address. -/
def isNovel (m : Memory) : Bool :=
  m.space.isSome && (m.base.isSome && m.scaled.any (·.2 != 0) || m.offset.isSome && m.timing.isSome)

theorem step_of_encodeOffset {step : Option (Timing × Expr)} {t : AddressTerms}
    (hm : m.timing = none) (h : m.encodeOffset step t c = some d) : step = none := by
  unfold encodeOffset at h
  split at h
  · obtain ⟨offset, ho, _⟩ := Option.bind_eq_some_iff.1 h
    unfold offsetExpr? at ho
    rw [hm] at ho
    split at ho <;> simp_all
  · split at h
    · next hnone => exact Option.isNone_iff_eq_none.1 hnone.2
    · simp at h

theorem unscale_of_encodeRegisters {dynamic : List Expr} {p q : Pattern} (hm : m.scaled = none)
    (h : m.encodeRegisters sel dynamic p = some q) (i : Nat) :
    Register.unscale (dynamic.getD i (.num 0)) 0 = some (dynamic.getD i (.num 0), 0) := by
  unfold encodeRegisters at h
  cases hb : m.base with
  | none =>
    simp only [hm, hb] at h
    split at h
    · next hnil =>
      subst hnil
      rfl
    · simp at h
  | some base =>
    simp only [hm, hb] at h
    split at h
    · next hlen =>
      cases i with
      | zero => exact Register.unscale_of_encode h
      | succ i =>
        rw [List.getD_eq_getElem?_getD, List.getElem?_eq_none (by omega)]
        rfl
    · simp at h

theorem still_of_encode (hm : m.isStill = true) (h : m.encode sel e c = some d) :
    (Reference.ofExpr e).Still := by
  simp only [isStill, Bool.and_eq_true, Option.isNone_iff_eq_none] at hm
  obtain ⟨p₁, t, c₁, p₂, _, hsplit, hoffset, hregisters, _⟩ := encode_cases h
  refine ⟨step_of_encodeOffset hm.2 hoffset, ?_⟩
  intro t' ht' i
  obtain rfl : t = t' := Option.some.inj (hsplit.symm.trans ht')
  exact unscale_of_encodeRegisters hm.1 hregisters i

theorem not_still_of_encode (hm : m.isNovel = true) (h : m.encode sel e c = some d) :
    ¬ (Reference.ofExpr e).Still := by
  intro hstill
  obtain ⟨p₁, t, c₁, p₂, _, hsplit, hoffset, hregisters, _⟩ := encode_cases h
  simp only [isNovel, Bool.and_eq_true, Bool.or_eq_true] at hm
  rcases hm.2 with ⟨hbase, hscaled⟩ | ⟨hfield, htiming⟩
  · -- one of the terms has to be scaled
    obtain ⟨base, hb⟩ := Option.isSome_iff_exists.1 hbase
    obtain ⟨scaled, hs, hshift⟩ := (Option.any_eq_true _ _).1 hscaled
    have hunscaled : ∀ i x q q',
        encodePair sel base scaled x (t.dynamic.getD i (.num 0)) q ≠ some q' := by
      intro i x q q' hpair
      obtain ⟨_, _, hy⟩ := Option.bind_eq_some_iff.1 hpair
      obtain ⟨inner, hinner⟩ := Register.unscale_of_encodeScaled hy
      rw [hstill.terms t hsplit i, Option.some.injEq, Prod.mk.injEq] at hinner
      simp [← hinner.2] at hshift
    unfold encodeRegisters at hregisters
    simp only [hb, hs] at hregisters
    rcases Option.or_eq_some_iff.1 hregisters with hpair | ⟨_, hpair⟩
    · exact hunscaled 1 _ _ _ hpair
    · exact hunscaled 0 _ _ _ hpair
  · -- the address has to move
    obtain ⟨f, hf⟩ := Option.isSome_iff_exists.1 hfield
    obtain ⟨timing, htiming⟩ := Option.isSome_iff_exists.1 htiming
    unfold encodeOffset at hoffset
    simp [hf, offsetExpr?, htiming, hstill.step] at hoffset

theorem space_of_encode (hm : m.space.isSome = true) (h : m.encode sel e c = some d) :
    (Reference.ofExpr e).space.isSome = true := by
  obtain ⟨p₁, _, _, _, hspace, _⟩ := encode_cases h
  unfold encodeSpace at hspace
  split at hspace <;> simp_all

end Memory

/-- Only memory operands have an address space. -/
theorem Leaf.mem_of_operand? {l : Leaf} {c d : Candidate}
    (hspace : (Reference.ofExpr e).space.isSome = true) (h : l.operand? sel e c = some d) :
    ∃ m, l = .mem m := by
  cases l with
  | mem m => exact ⟨m, rfl⟩
  | reg r =>
    obtain ⟨p, hp, _⟩ := Option.map_eq_some_iff.1 h
    rcases Register.shape_of_encode hp with ⟨s, rfl⟩ | ⟨n, rfl⟩ | rfl <;>
      simp [Reference.ofExpr] at hspace
  | rel f => cases e <;> simp_all [operand?, Candidate.place, Reference.ofExpr, Expr.isImm]
  | imm f => cases e <;> simp_all [operand?, Reference.ofExpr, Expr.const?, Expr.eval]
  | _ => cases e <;> simp_all [operand?, Reference.ofExpr]

end References

/-! ## The demonstration instruction set -/

namespace Demo

/-- An atom that both variants have. -/
def isOld : Leaf → Bool
  | .name s => s != "ext"
  | .mem m => m.isStill
  | _ => true

/-- An atom that marks the rows of the extension. -/
def isNew : Leaf → Bool
  | .name s => s == "ext"
  | .mem m => m.isNovel
  | _ => false

theorem apart_of_isNew {l l' : Leaf} (hl : isNew l = true) (hl' : isOld l' = true) :
    l.Apart l' := by
  rintro it ⟨sel, c, d, h⟩ ⟨sel', c', d', h'⟩
  cases l with
  | name s =>
    -- only the same name takes a name
    cases it with
    | name t =>
      cases l' with
      | name s' => simp_all [isNew, isOld, Leaf.item?]
      | _ => simp [Leaf.item?] at h'
    | _ => simp [Leaf.item?, Leaf.operand?] at h
  | mem m =>
    cases it with
    | expr e =>
      rw [Leaf.item?_expr] at h h'
      have hspace : m.space.isSome = true := by
        simp only [isNew, Memory.isNovel, Bool.and_eq_true] at hl
        exact hl.1
      obtain ⟨m', rfl⟩ := Leaf.mem_of_operand? (Memory.space_of_encode hspace h) h'
      exact Memory.not_still_of_encode hl h (Memory.still_of_encode hl' h')
    | _ => simp [Leaf.item?] at h
  | _ => simp [isNew] at hl

/-- The variant without the extension, for some program types. -/
def v1 (types : ProgramTypes) : Selector := ⟨base, types⟩

/-- The variant with the extension. -/
def v2 (types : ProgramTypes) : Selector := ⟨base ||| ext, types⟩

/-- Every row is one that has nothing to do with the extension, or one that needs it and is
    marked by an atom. -/
theorem rows_old_or_new : ∀ row ∈ Isa.demo.root.allRows,
    (∀ below ∈ row.reach, ext &&& below.features = 0 ∧ ∀ l ∈ below.leaves, isOld l = true) ∨
      (base &&& row.features ≠ row.features ∧
        ∃ l ∈ row.leaves, l.takesItem = true ∧ isNew l = true) := by
  decide +kernel

theorem accepts_of_no_ext {features : Features} (h : ext &&& features = 0)
    (types kinds : ProgramTypes) :
    (v1 types).accepts features kinds = (v2 types).accepts features kinds := by
  have hsame : (base ||| ext) &&& features = base &&& features := by
    calc (base ||| ext) &&& features
        = features &&& base ||| features &&& ext := by
          rw [BitVec.and_comm, BitVec.and_or_distrib_left]
      _ = base &&& features ||| 0 := by
          rw [BitVec.and_comm features ext, h, BitVec.and_comm]
      _ = base &&& features := BitVec.or_zero
  unfold Selector.accepts v1 v2
  rw [hsame]

theorem conservative (types : ProgramTypes) : Isa.demo.Conservative (v1 types) (v2 types) := by
  have hrejects : ∀ row : Row, base &&& row.features ≠ row.features →
      (v1 types).accepts row.features row.types = false := by
    intro row hrow
    simp [Selector.accepts, v1, hrow]
  intro row hrow
  rcases rows_old_or_new row hrow with hold | ⟨hneeds, l, hl, htakes, hnew⟩
  · left
    intro below hbelow
    exact accepts_of_no_ext (hold below hbelow).1 types below.types
  · refine .inr ⟨hrejects row hneeds, l, hl, htakes, ?_⟩
    intro old hmem haccepts below hbelow l' hl'
    rcases rows_old_or_new old hmem with hold | ⟨hneeds, _⟩
    · exact apart_of_isNew hnew ((hold below hbelow).2 l' hl')
    · rw [hrejects old hneeds] at haccepts
      simp at haccepts

end Demo

theorem Step.ofLines_congr {isa : Isa} {s t : Selector} {program : Program}
    (h : ∀ items, .insn items ∈ program → isa.encodings t items = isa.encodings s items)
    (line : Nat) : Step.ofLines isa t line program = Step.ofLines isa s line program := by
  induction program generalizing line with
  | nil => rfl
  | cons l rest ih =>
    have hline : Step.ofLine isa t l = Step.ofLine isa s l := by
      cases l with
      | insn items =>
        simp only [Step.ofLine, h items List.mem_cons_self]
      | _ => rfl
    unfold Step.ofLines
    rw [hline, ih fun items hitems => h items (List.mem_cons_of_mem l hitems)]

/-- **Upward compatibility.** Assembled for the variant with the extension, a program whose
    instructions can all be encoded without it is what it was: every instruction has the same
    encodings, and the result is the same. -/
theorem demo_upward_compatible {types : Option ProgramTypes} {v₁ v₂ : Selector}
    (h₁ : Isa.demo.selector (some "v1") types = .ok v₁)
    (h₂ : Isa.demo.selector (some "v2") types = .ok v₂) {program : Program}
    (h : ∀ items, .insn items ∈ program → Isa.demo.encodings v₁ items ≠ []) :
    (∀ items, .insn items ∈ program →
      Isa.demo.encodings v₂ items = Isa.demo.encodings v₁ items) ∧
    assemble Isa.demo v₂ program = assemble Isa.demo v₁ program := by
  obtain rfl : Demo.v1 (types.getD ProgramTypes.all) = v₁ := Except.ok.inj h₁
  obtain rfl : Demo.v2 (types.getD ProgramTypes.all) = v₂ := Except.ok.inj h₂
  have hsame : ∀ items, .insn items ∈ program →
      Isa.demo.encodings (Demo.v2 (types.getD ProgramTypes.all)) items =
        Isa.demo.encodings (Demo.v1 (types.getD ProgramTypes.all)) items := by
    intro items hitems
    have hisa : Isa.demo.Unconditional := by decide +kernel
    exact Isa.encodings_eq_of_conservative hisa (Demo.conservative _) (h items hitems)
  refine ⟨hsame, ?_⟩
  unfold assemble
  rw [Step.ofLines_congr hsame]

/-- Loads of all kinds that the variant without the extension has, and a kill. -/
def plainLoads : List (List Item) :=
  [[.name "ld", .expr (.reg "$r1"), .expr (.mem "g" (.bin .add (.reg "$r2") (.num 4)))],
   [.name "ld", .expr (.reg "$r1"), .expr (.mem "c3" (.num 8))],
   [.name "ldv", .expr (.vec [.reg "$r4", .reg "$r5"]), .expr (.mem "g" (.reg "$r2"))],
   [.name "kil"],
   [.name "bra", .expr (.label "L")]]

theorem demo_upward_compatible_plainLoads :
    ∃ v₁ v₂, Isa.demo.selector (some "v1") (some ProgramTypes.fragment) = .ok v₁ ∧
      Isa.demo.selector (some "v2") (some ProgramTypes.fragment) = .ok v₂ ∧ v₁ ≠ v₂ ∧
      (∀ items ∈ plainLoads, Isa.demo.encodings v₁ items ≠ []) ∧
      assemble Isa.demo v₂ (.label "L" :: plainLoads.map .insn) =
        assemble Isa.demo v₁ (.label "L" :: plainLoads.map .insn) := by
  have h₁ : Isa.demo.selector (some "v1") (some ProgramTypes.fragment) =
    .ok (Demo.v1 ProgramTypes.fragment) := rfl
  have h₂ : Isa.demo.selector (some "v2") (some ProgramTypes.fragment) =
    .ok (Demo.v2 ProgramTypes.fragment) := rfl
  have hmatch : ∀ items ∈ plainLoads,
      Isa.demo.encodings (Demo.v1 ProgramTypes.fragment) items ≠ [] := by
    have hmatch : ∀ items ∈ plainLoads,
        (Isa.demo.encodings (Demo.v1 ProgramTypes.fragment) items).isEmpty = false := by
      decide +kernel
    intro items hitems
    exact List.isEmpty_eq_false_iff.1 (hmatch items hitems)
  refine ⟨_, _, h₁, h₂, by decide, hmatch, ?_⟩
  refine (demo_upward_compatible h₁ h₂ ?_).2
  intro items hitems
  apply hmatch
  simpa using hitems

end TableAsm
