import TableAsm.Proofs.Field
import TableAsm.Proofs.FixedPoint

/-! # Relocations in the bytes of a program

  A value that depends on labels is written into its field when the labels
  are known, one field after the other. What was written can be read back
  from the bytes of the whole program.

  - `Candidate.resolve_spec` says that later writes do not disturb earlier
    ones, and that none of them disturbs what was decided before.
  - `Candidate.Holds` says that some bytes are those of an encoding, with
    every value in its place. Reading back from bytes needs that the field
    was not cut off with the end of the instruction (`Span.Within`).
  - `chosen_encodings_hold` is the result.
-/

namespace TableAsm

variable {isa : Isa} {sel : Selector} {labels : LabelTable} {pc : Word}

/-- No bit of the span is past the first `n`. -/
def Span.Within (s : Span) (n : Nat) : Prop := s.len = 0 ∨ s.pos + s.len ≤ n

instance (s : Span) (n : Nat) : Decidable (s.Within n) :=
  inferInstanceAs (Decidable (_ ∨ _))

theorem Span.Within.lt_of_covers {s : Span} {n i : Nat} (h : s.Within n) (hi : s.Covers i) :
    i < n := by
  unfold Span.Within Span.Covers at *
  omega

/-- A span that was not cut off reads the same from the bytes. -/
theorem Pattern.read_load_bytes (p : Pattern) {n : Nat} (hn : n ≤ maxBytes) {s : Span}
    (hs : s.Within (8 * n)) : (load (p.bytes n)).read s = p.read s :=
  read_congr fun _ hi => getLsbD_load_bytes p hn (hs.lt_of_covers hi)

/-! ## One relocation after the other -/

namespace Candidate

/-- All values can be read back at the end, and all that was decided before is still there. -/
theorem resolveAll_spec {relocs : List Reloc} {p q : Pattern}
    (h : resolveAll labels pc relocs p = .ok (some q)) :
    p ≤ q ∧ ∀ r ∈ relocs, ∃ v back, r.expr.eval labels = .ok v ∧
      r.field.decode q pc = some back ∧ r.field.Agrees back v := by
  induction relocs generalizing p with
  | nil =>
    simp only [resolveAll, Except.ok.injEq, Option.some.injEq] at h
    subst h
    exact ⟨Pattern.le_refl p, by simp⟩
  | cons r rest ih =>
    simp only [resolveAll] at h
    obtain ⟨v, hv, hrest⟩ := bind_eq_ok.1 h
    split at hrest
    · next p₁ hp₁ =>
      obtain ⟨hle, hall⟩ := ih hrest
      refine ⟨Pattern.le_trans (Field.le_encode hp₁) hle, ?_⟩
      intro r' hr'
      rcases List.mem_cons.1 hr' with rfl | hr'
      · -- the field is decided now, so the writes that follow leave it alone
        obtain ⟨num, back, _, _, hback, hagrees⟩ := Field.encode_eq_some.1 hp₁
        refine ⟨v, back, hv, ?_, hagrees⟩
        rw [Field.decode_of_le hle (Field.claims_encode hp₁)]
        exact hback
      · exact hall r' hr'
    · simp [pure, Except.pure] at hrest

theorem resolve_spec {c : Candidate} {p : Pattern} (h : c.resolve labels pc = .ok (some p)) :
    c.pattern ≤ p ∧ ∀ r ∈ c.relocs, ∃ v back, r.expr.eval labels = .ok v ∧
      r.field.decode p pc = some back ∧ r.field.Agrees back v :=
  resolveAll_spec h

/-- The bytes are those of an encoding at position `pc`: every relocation that was not cut off
    reads back as its value, and every bit that was decided from the start is there. -/
structure Holds (isa : Isa) (labels : LabelTable) (c : Candidate) (pc : Word)
    (bytes : List UInt8) : Prop where
  length_eq : bytes.length = c.size isa.unit
  reloc : ∀ r ∈ c.relocs, r.field.low.Within (8 * c.size isa.unit) →
    r.field.high.Within (8 * c.size isa.unit) →
    ∃ v back, r.expr.eval labels = .ok v ∧
      r.field.decode (Pattern.load bytes) pc = some back ∧ r.field.Agrees back v
  decided : ∀ i, i < 8 * c.size isa.unit → c.pattern.isClaimed i = true →
    (Pattern.load bytes).value.getLsbD i = c.pattern.value.getLsbD i

theorem holds_of_resolve {c : Candidate} {p : Pattern} (h : c.resolve labels pc = .ok (some p))
    (hlength : (p.bytes (c.size isa.unit)).length = c.size isa.unit) :
    c.Holds isa labels pc (p.bytes (c.size isa.unit)) := by
  have hsize : c.size isa.unit ≤ Pattern.maxBytes := by
    rw [Pattern.length_bytes] at hlength
    omega
  obtain ⟨hle, hall⟩ := resolve_spec h
  -- below the end of the instruction, the bytes and the pattern have the same bits
  refine ⟨hlength, ?_, ?_⟩
  · intro r hr hlow hhigh
    obtain ⟨v, back, hv, hback, hagrees⟩ := hall r hr
    refine ⟨v, back, hv, ?_, hagrees⟩
    rw [Field.decode_congr (p.read_load_bytes hsize hlow) (p.read_load_bytes hsize hhigh)]
    exact hback
  · intro i hi hclaimed
    rw [Pattern.getLsbD_load_bytes p hsize hi]
    exact (hle i hclaimed).2

end Candidate

theorem Line.Emits.holds {offset : Nat} {line : Line} {c : Candidate} {bytes : List UInt8}
    (h : Line.Emits isa sel labels offset pc line (some c) bytes) :
    c.Holds isa labels pc bytes := by
  cases h with
  | insn _ _ hresolve hlength => exact Candidate.holds_of_resolve hresolve hlength

/-! ## In the sections -/

/-- The bytes of an entry are in one of the sections, at the offset that the entries before it
    leave, and this is also the place that its address speaks of. -/
theorem Account.Explains.section_at {program : Program} {a : Assembly}
    {before after : Account} {entry : Entry}
    (h : Account.Explains isa sel program a (before ++ entry :: after)) :
    ∃ s ∈ a.sections, s.name = currentSection (lines before) ∧
      address isa before = BitVec.ofNat 64 (offset before / isa.posUnit) + s.base ∧
      (s.bytes.toList.drop (offset before)).take entry.bytes.length = entry.bytes := by
  have hhome := (h.straight before entry after rfl).1
  -- a section that is current here is one of the program, with the same base
  have hmem : (currentSection (lines before), baseOf (lines before) (currentSection (lines before)))
      ∈ heads program := by
    have hsub := heads_subset_append (lines before) (lines (entry :: after))
    rw [← h.lines_eq]
    unfold lines at hsub ⊢
    rw [List.map_append]
    exact hsub (List.mem_of_find?_eq_some (find?_current _))
  refine ⟨⟨currentSection (lines before), baseOf (lines before) (currentSection (lines before)),
    (content (before ++ entry :: after) (currentSection (lines before))).toArray⟩, ?_, rfl, rfl, ?_⟩
  · rw [h.sections_eq]
    exact List.mem_map.2 ⟨_, hmem, rfl⟩
  · show ((content _ _).drop (offset before)).take _ = _
    unfold offset
    rw [← hhome]
    exact content_at

/-- **Relocations are in the bytes.** Let the assembler return something, and let `last` be the
    choices that relaxation ended with. Then every instruction has a place in a section, where
    the bytes are those of the encoding that was chosen last: the values that its relocations
    have with the final labels can be read back at the final position, and what was decided when
    the instruction was matched has stayed. -/
theorem chosen_encodings_hold {program : Program} {a : Assembly}
    (h : assemble isa sel program = .ok a) :
    ∃ steps n last acc, Step.ofLines isa sel 1 program = .ok steps ∧ Passes isa n steps last ∧
      CleanPass isa last a.sections a.labels ∧ Account.Explains isa sel program a acc ∧
      ∀ (i : Nat) (items : List Item), program[i]? = some (.insn items) →
        ∃ slot, last[i]? = some (.insn slot) ∧ slot.chosen ∈ isa.encodings sel items ∧
          ∃ s ∈ a.sections, s.name = currentSection (program.take i) ∧
            slot.chosen.Holds isa a.labels
              (BitVec.ofNat 64 (Account.offset (acc.take i) / isa.posUnit) + s.base)
              ((s.bytes.toList.drop (Account.offset (acc.take i))).take
                (slot.chosen.size isa.unit)) := by
  obtain ⟨steps, n, last, hsteps, hpasses, hlast, hclean, _⟩ := assemble_eq_ok h
  obtain ⟨acc, hacc, hchoices⟩ := Account.explains_of_cleanPass hlast hclean
  refine ⟨steps, n, last, acc, hsteps, hpasses, hclean, hacc, ?_⟩
  intro i items hi
  obtain ⟨slot, hslot, hsuf⟩ := hlast.insn_at hi
  have hmem : slot.chosen ∈ isa.encodings sel items := hsuf.subset List.mem_cons_self
  refine ⟨slot, hslot, hmem, ?_⟩
  -- the entry of the line has the same choice
  have hentry : (acc.map Entry.choice)[i]? = some (some slot.chosen) := by
    rw [hchoices, List.getElem?_map, hslot]
    rfl
  rw [List.getElem?_map, Option.map_eq_some_iff] at hentry
  obtain ⟨entry, hget, hchoice⟩ := hentry
  have hsplit : acc = acc.take i ++ entry :: acc.drop (i + 1) := by
    obtain ⟨hlt, heq⟩ := List.getElem?_eq_some_iff.1 hget
    rw [← heq, List.getElem_cons_drop, List.take_append_drop]
  have hlines : Account.lines (acc.take i) = program.take i := by
    rw [← hacc.lines_eq]
    exact List.map_take
  obtain ⟨_, hemits⟩ := hacc.straight _ _ _ hsplit
  obtain ⟨s, hs, hname, haddress, hbytes⟩ := Account.Explains.section_at (hsplit ▸ hacc)
  refine ⟨s, hs, hlines ▸ hname, ?_⟩
  have hholds : slot.chosen.Holds isa a.labels (Account.address isa (acc.take i)) entry.bytes :=
    Line.Emits.holds (hchoice ▸ hemits)
  rw [← haddress, ← hholds.length_eq, hbytes]
  exact hholds

/-- The immediate that did not fit the first encoding is read back from the second. -/
theorem chosen_encodings_hold_demoProgram :
    ∃ a c r s offset v back, assemble Isa.demo {} demoProgram = .ok a ∧
      c ∈ Isa.demo.encodings {} [.name "mov", .expr (.reg "$r1"), .expr (.label "K")] ∧
      r ∈ c.relocs ∧ s ∈ a.sections ∧ r.expr.eval a.labels = .ok v ∧
      r.field.decode (Pattern.load ((s.bytes.toList.drop offset).take (c.size Isa.demo.unit)))
        (BitVec.ofNat 64 (offset / Isa.demo.posUnit) + s.base) = some back ∧
      r.field.Agrees back v := by
  obtain ⟨a, ha, _⟩ := assemble_demoProgram
  obtain ⟨_, _, _, acc, _, _, _, _, hall⟩ := chosen_encodings_hold ha
  obtain ⟨slot, _, hmem, s, hs, _, hholds⟩ := hall 1 _ rfl
  -- whichever encoding was chosen, its relocation is in the bytes
  have hrelocs : ∀ c ∈ Isa.demo.encodings {}
      [.name "mov", .expr (.reg "$r1"), .expr (.label "K")], ∃ r ∈ c.relocs,
        r.field.low.Within (8 * c.size Isa.demo.unit) ∧
        r.field.high.Within (8 * c.size Isa.demo.unit) := by
    decide +kernel
  obtain ⟨r, hr, hlow, hhigh⟩ := hrelocs _ hmem
  obtain ⟨v, back, hv, hback, hagrees⟩ := hholds.reloc r hr hlow hhigh
  exact ⟨a, slot.chosen, r, s, _, v, back, ha, hmem, hr, hs, hv, hback, hagrees⟩

end TableAsm
