import TableAsm.Proofs.Failure

/-! # One instruction

  An instruction can be encoded alone, as a word, or as a program of one
  line. A program starts with an empty section and ends with its first
  clean pass; a single instruction that leaves nothing open needs no other
  pass than the first.

  - `Isa.encodeWord_eq_ok` says which instructions are words, and
    `Isa.encodings_of_encodeWord` what it means that there is no match.
  - `cleanPass_of_complete` follows the one pass over a complete encoding.
  - `encodeWord_agrees` is the result.
-/

namespace TableAsm

variable {isa : Isa} {sel : Selector} {items : List Item}

/-! ## Words -/

namespace Isa

/-- An instruction is a word if it has one encoding, 8 bytes long, with nothing left open. -/
theorem encodeWord_eq_ok {w : Word} :
    isa.encodeWord sel items = .ok w ↔
      ∃ c, isa.encodings sel items = [c] ∧ c.size isa.unit = 8 ∧ c.relocs = [] ∧
        w = c.pattern.word 0 := by
  unfold encodeWord
  constructor
  · intro h
    split at h
    · simp at h
    · next c hc =>
      split at h
      · next hcomplete => exact ⟨c, hc, hcomplete.1, hcomplete.2, (Except.ok.inj h).symm⟩
      · simp at h
    · simp at h
  · rintro ⟨c, hc, hsize, hrelocs, rfl⟩
    simp [hc, hsize, hrelocs]

/-- The causes that a program of one line can have, too: there is no encoding at all. -/
theorem encodings_of_encodeWord {cause : Cause} (h : isa.encodeWord sel items = .error cause)
    (hcause : cause = .noMatch ∨ cause = .eval .divisionByZero) :
    isa.encodings sel items = [] ∧ cause = unmatched items := by
  unfold encodeWord at h
  split at h
  · next hnone => exact ⟨hnone, (Except.error.inj h).symm⟩
  · split at h
    · simp at h
    · obtain rfl := Except.error.inj h
      simp at hcause
  · obtain rfl := Except.error.inj h
    simp at hcause

end Isa

/-- The first 8 bytes of a pattern are those of its low word. -/
theorem Pattern.bytes_eight (p : Pattern) : p.bytes 8 = Word.leBytes (p.word 0) 8 := by
  have hbyte : ∀ j < 8, (p.value >>> (8 * j)).setWidth 8 =
      (Word.shr (p.word 0) (8 * j)).setWidth 8 := by
    intro j hj
    apply BitVec.eq_of_getLsbD_eq
    intro i hi
    rw [Word.shr_eq]
    simp only [word, BitVec.getLsbD_setWidth, BitVec.getLsbD_ushiftRight]
    simp [hi, show 8 * j + i < 64 by omega]
  unfold bytes Word.leBytes
  apply List.map_congr_left
  intro j hj
  rw [hbyte j (by simpa [maxBytes] using hj)]

/-! ## The only pass -/

/-- A complete encoding of a single instruction is written in one pass. It stands at the start of
    the default section, where every instruction may stand. -/
theorem cleanPass_of_complete (slot : Slot) (h : slot.chosen.relocs = []) :
    CleanPass isa [.insn slot]
      [{ name := Section.defaultName
         bytes := (slot.chosen.pattern.bytes (slot.chosen.size isa.unit)).toArray }]
      LabelTable.empty := by
  have haligned : isa.misaligned (slot.chosen.size isa.unit) Image.empty.offset = false := by
    have hoffset : Image.empty.offset = 0 := rfl
    simp [Isa.misaligned, hoffset]
  have hresolve : slot.chosen.resolve LabelTable.empty (Image.empty.address isa.posUnit) =
      .ok (some slot.chosen.pattern) := by
    unfold Candidate.resolve
    rw [h]
    rfl
  refine ⟨⟨[.insn slot], Image.empty.append
    (slot.chosen.pattern.bytes (slot.chosen.size isa.unit)).toArray, false⟩, rfl, ?_, rfl, ?_⟩
  · refine Emission.walk_cons_eq_ok.2 ⟨_, Emission.step_insn_eq_ok.2 ⟨{}, ?_, ?_⟩, rfl⟩
    · exact Emission.board_eq_ok.2 (.inl ⟨haligned, rfl⟩)
    · exact Emission.insn_eq_ok.2 (.inl ⟨_, hresolve, rfl⟩)
  · simp [Image.append, Image.empty]

/-- **A word is a program of one line.** If an instruction can be encoded as a word, the program
    that consists of it is assembled in one pass, and its default section, the only one, is made of
    the bytes of the word. If there is no match, or a constant cannot be folded, the program is
    rejected for the same cause. -/
theorem encodeWord_agrees (isa : Isa) (sel : Selector) (items : List Item) :
    (∀ w, isa.encodeWord sel items = .ok w →
      assemble isa sel [.insn items] =
        .ok ⟨[{ name := Section.defaultName, bytes := (Word.leBytes w 8).toArray }],
          LabelTable.empty, 1⟩) ∧
    (∀ cause, isa.encodeWord sel items = .error cause →
      cause = .noMatch ∨ cause = .eval .divisionByZero →
      assemble isa sel [.insn items] = .error ⟨1, cause⟩) := by
  constructor
  · intro w hw
    obtain ⟨c, hc, hsize, hrelocs, rfl⟩ := Isa.encodeWord_eq_ok.1 hw
    have hsteps : Step.ofLines isa sel 1 [.insn items] = .ok [.insn ⟨c, []⟩] := by
      simp [Step.ofLines, Step.ofLine, hc]
    have hclean : CleanPass isa _ _ _ := cleanPass_of_complete ⟨c, []⟩ hrelocs
    simp only [hsize, Pattern.bytes_eight] at hclean
    exact bind_eq_ok.2 ⟨_, hsteps, relax_of_cleanPass hclean 0⟩
  · intro cause h hcause
    obtain ⟨hnone, rfl⟩ := Isa.encodings_of_encodeWord h hcause
    refine assemble_eq_error_iff.2 (.inl ?_)
    simp [Step.ofLines, Step.ofLine, hnone]

/-- An immediate that only the long encoding can hold. -/
def longMove : List Item := [.name "mov", .expr (.reg "$r1"), .expr (.num 0x12345)]

/-- The long move is a word and a program with its bytes. Without operands there is no match. -/
theorem encodeWord_agrees_longMove :
    Isa.demo.encodeWord {} longMove = .ok 0x0001234500000105 ∧
    (∃ a, assemble Isa.demo {} [.insn longMove] = .ok a ∧ a.passes = 1 ∧
      a.sections.map Section.bytes = [#[0x05, 0x01, 0, 0, 0x45, 0x23, 0x01, 0]]) ∧
    assemble Isa.demo {} [.insn [.name "mov"]] = .error ⟨1, .noMatch⟩ := by
  have hword : Isa.demo.encodeWord {} longMove = .ok 0x0001234500000105 := by decide +kernel
  have hnone : Isa.demo.encodeWord {} [.name "mov"] = .error .noMatch := by decide +kernel
  refine ⟨hword, ⟨_, (encodeWord_agrees Isa.demo {} longMove).1 _ hword, rfl, by decide⟩, ?_⟩
  exact (encodeWord_agrees Isa.demo {} [.name "mov"]).2 _ hnone (.inl rfl)

end TableAsm
