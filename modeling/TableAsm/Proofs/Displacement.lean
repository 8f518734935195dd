import Mathlib.Data.Nat.ModEq
import TableAsm.Proofs.LookUp

/-! # Instructions that are moved

  A pc-relative field counts from the position of its instruction. If the
  instruction and what it refers to are moved together, nothing in the
  encoding changes.

  The position is rounded down to the scale of the field before the number
  counts from it, so this is true only of displacements that are multiples
  of `2 ^ scale`.

  - `Word.and_not_lowMask_add` says that rounding down commutes with such a
    displacement, also past the end of the word.
  - `Field.origin_add` carries this over to the position that a field
    counts from. The rest of reading and writing moves along with it
    (`Field.decode_add`, `Field.entry_add`, `Field.agrees_add`).
  - `pcrel_position_independent` is the result.
-/

namespace TableAsm

/-! ## Words modulo a power of two -/

namespace Word

variable {a b d : Word} {k : Nat}

theorem toNat_add_modEq (hk : k ≤ 64) (a b : Word) :
    (a + b).toNat ≡ a.toNat + b.toNat [MOD 2 ^ k] := by
  rw [BitVec.toNat_add]
  exact Nat.mod_mod_of_dvd _ (Nat.pow_dvd_pow 2 hk)

theorem add_right_modEq_iff (hk : k ≤ 64) :
    (a + d).toNat ≡ (b + d).toNat [MOD 2 ^ k] ↔ a.toNat ≡ b.toNat [MOD 2 ^ k] := by
  constructor
  · intro h
    have hsum := (toNat_add_modEq hk a d).symm.trans (h.trans (toNat_add_modEq hk b d))
    exact hsum.add_right_cancel' d.toNat
  · intro h
    exact (toNat_add_modEq hk a d).trans ((h.add_right d.toNat).trans (toNat_add_modEq hk b d).symm)

/-- A word is what is cut off when it is rounded down, and the rest. -/
theorem and_not_add_and (a m : Word) : (a &&& ~~~ m) + (a &&& m) = a := by
  have hdisjoint : (a &&& ~~~ m) &&& (a &&& m) = 0#64 := by
    ext i hi
    simp only [BitVec.getElem_and, BitVec.getElem_not, BitVec.getElem_zero]
    cases m[i] with
    | false => simp
    | true => simp
  rw [BitVec.add_eq_or_of_and_eq_zero _ _ hdisjoint]
  ext i hi
  simp only [BitVec.getElem_or, BitVec.getElem_and, BitVec.getElem_not]
  cases m[i] with
  | false => simp
  | true => simp

/-- Rounding down to a multiple of `2 ^ k` commutes with adding one. -/
theorem and_not_lowMask_add (hk : k < 64) (hd : 2 ^ k ∣ d.toNat) (a : Word) :
    (a + d) &&& ~~~ lowMask k = (a &&& ~~~ lowMask k) + d := by
  -- what is cut off is the same before and after the displacement
  have hcut : (a + d) &&& lowMask k = a &&& lowMask k := by
    apply BitVec.eq_of_toNat_eq
    rw [toNat_and_lowMask hk, toNat_and_lowMask hk]
    have hsum : (a + d).toNat ≡ a.toNat + 0 [MOD 2 ^ k] :=
      (toNat_add_modEq (Nat.le_of_lt hk) a d).trans
        (Nat.ModEq.add_left a.toNat ((Nat.modEq_zero_iff_dvd).2 hd))
    exact hsum
  have hmoved := and_not_add_and (a + d) (lowMask k)
  have hhere := and_not_add_and a (lowMask k)
  rw [hcut] at hmoved
  grind

end Word

/-! ## Fields of an instruction that is moved -/

namespace Field

variable {f : Field} {lead d : Word}

/-- The position that the field counts from is moved along. -/
theorem origin_add (hpcrel : f.pcrel = some lead) (hscale : f.scale < 64)
    (hd : 2 ^ f.scale ∣ d.toNat) (pc : Word) : f.origin (pc + d) = f.origin pc + d := by
  have horigin : ∀ pc, f.origin pc = (pc + lead) &&& ~~~ Word.lowMask f.scale := by
    intro pc
    unfold origin
    rw [hpcrel]
  have hcomm : pc + d + lead = pc + lead + d := by grind
  rw [horigin, horigin, hcomm, Word.and_not_lowMask_add hscale hd]

theorem decode_add {pc : Word} (horigin : f.origin (pc + d) = f.origin pc + d) (p : Pattern) :
    f.decode p (pc + d) = (f.decode p pc).map (· + d) := by
  unfold decode
  rw [Option.map_map, horigin]
  congr 1
  funext num
  show (num ^^^ f.invert) + (f.origin pc + d) + f.addend =
    (num ^^^ f.invert) + f.origin pc + f.addend + d
  grind

theorem entry_add {pc : Word} (horigin : f.origin (pc + d) = f.origin pc + d) (v : Word) :
    f.entry (v + d) (pc + d) = f.entry v pc := by
  unfold entry
  rw [horigin]
  have hdiff : v + d - f.addend - (f.origin pc + d) = v - f.addend - f.origin pc := by grind
  rw [hdiff]

/-- The comparison at the end of a write does not notice the displacement, also if it is made
    modulo `2 ^ width`. -/
theorem agrees_add (f : Field) (back v d : Word) :
    f.Agrees (back + d) (v + d) ↔ f.Agrees back v := by
  unfold Agrees
  split
  · next h => exact Word.add_right_modEq_iff (Nat.le_of_lt h.2)
  · exact BitVec.add_left_inj d

end Field

/-- **Pc-relative encodings do not depend on the position.** Let a pc-relative field have a scale
    below the length of a word, and let `d` be a multiple of `2 ^ scale`. In any pattern, and
    modulo `2 ^ 64`:

    * if the instruction and the number are both moved by `d`, the number can be written just if
      it could be before, and this gives the same pattern;
    * the number that is read at the moved position is the one that was read before, moved by `d`,
      or there is none at both. -/
theorem pcrel_position_independent {f : Field} {lead : Word} (hpcrel : f.pcrel = some lead)
    (hscale : f.scale < 64) {d : Word} (hd : 2 ^ f.scale ∣ d.toNat) (p : Pattern) (v pc : Word) :
    f.encode p (v + d) (pc + d) = f.encode p v pc ∧
    f.decode p (pc + d) = (f.decode p pc).map (· + d) := by
  have horigin := Field.origin_add hpcrel hscale hd pc
  refine ⟨?_, Field.decode_add horigin p⟩
  apply Option.ext
  intro q
  rw [Field.encode_eq_some, Field.encode_eq_some]
  show (∃ num back, f.lookup? (f.entry (v + d) (pc + d)) = some num ∧ _) ↔
    ∃ num back, f.lookup? (f.entry v pc) = some num ∧ _
  rw [Field.entry_add horigin]
  -- the same bits are stored, and only what is read back differs
  constructor
  · intro ⟨num, back, hnum, hstore, hback, hagrees⟩
    rw [Field.decode_add horigin, Option.map_eq_some_iff] at hback
    obtain ⟨back', hback', rfl⟩ := hback
    exact ⟨num, back', hnum, hstore, hback', (Field.agrees_add f back' v d).1 hagrees⟩
  · intro ⟨num, back, hnum, hstore, hback, hagrees⟩
    refine ⟨num, back + d, hnum, hstore, ?_, (Field.agrees_add f back v d).2 hagrees⟩
    rw [Field.decode_add horigin, hback]
    rfl

/-- A split branch field that may wrap, with a table of targets. -/
def tabledBranch : Field where
  low := ⟨4, 1⟩
  high := ⟨66, 2⟩
  sign := .slightlySigned
  scale := 2
  addend := 3
  invert := 0x10
  lut := some [0x40, 0, 0, 0, 0x58]
  pcrel := some 7
  wraps := true

/-- The instruction is moved backwards across position 0. -/
theorem pcrel_position_independent_backwards :
    2 ^ tabledBranch.scale ∣ (-0x40 : Word).toNat ∧
    ∃ q, tabledBranch.encode (Pattern.fixed 0x5 0xF) 0x73 0x21 = some q ∧ q.value = 0x15 ∧
      tabledBranch.encode (Pattern.fixed 0x5 0xF) (0x73 + -0x40) (0x21 + -0x40) = some q ∧
      tabledBranch.decode q (0x21 + -0x40) = (tabledBranch.decode q 0x21).map (· + -0x40) := by
  have hd : 2 ^ tabledBranch.scale ∣ (-0x40 : Word).toNat := by decide
  have hmoved := pcrel_position_independent (f := tabledBranch) rfl (by decide) hd
  have hwrite : tabledBranch.encode (Pattern.fixed 0x5 0xF) 0x73 0x21 =
      some ⟨0x15, 0xC000000000000001F⟩ := by decide
  exact ⟨hd, _, hwrite, by decide, (hmoved _ 0x73 0x21).1.trans hwrite, (hmoved _ 0 0x21).2⟩

end TableAsm
