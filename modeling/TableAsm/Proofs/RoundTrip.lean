import TableAsm.Proofs.Field
import TableAsm.Proofs.Union

/-! # Fields that are read and written again

  A field without a look-up table is a change of notation: every contents
  stands for a number, and every number that can be written stands for one
  contents.

  - A number has the stored bits of the field at `scale` and above
    (`Field.getLsbD_contents_low`, `Field.getLsbD_contents_high`). The sign
    changes only the bits past the width of the field.
  - `Field.store_contents` says that storing these bits copies both spans,
    also where they overlap.
  - `decode_encode_inverse` is the result, for the fields that are `Plain`.
-/

namespace TableAsm

/-! ## Shifted words bit by bit -/

namespace Word

theorem getLsbD_shl (v : Word) (n i : Nat) :
    (shl v n).getLsbD i = (decide (i < 64) && !decide (i < n) && v.getLsbD (i - n)) := by
  rw [shl_eq, BitVec.getLsbD_shiftLeft]

theorem getLsbD_shr (v : Word) (n i : Nat) : (shr v n).getLsbD i = v.getLsbD (n + i) := by
  rw [shr_eq, BitVec.getLsbD_ushiftRight]

theorem toNat_shl_one {n : Nat} (h : n < 64) : (shl 1 n).toNat = 2 ^ n := by
  have hpow : 2 ^ n < 2 ^ 64 := Nat.pow_lt_pow_right (by decide) h
  rw [shl_eq, BitVec.toNat_shiftLeft, Nat.shiftLeft_eq]
  show 1 * 2 ^ n % 2 ^ 64 = 2 ^ n
  rw [Nat.one_mul, Nat.mod_eq_of_lt hpow]

/-- Taking off a power of two changes no bit below it. -/
theorem getLsbD_sub_shl_one (v : Word) {n i : Nat} (hi : i < n) :
    (v - shl 1 n).getLsbD i = v.getLsbD i := by
  by_cases hn : n < 64
  · -- below the power, both numbers have the same remainder
    have hdvd : 2 ^ n ∣ 2 ^ 64 := Nat.pow_dvd_pow 2 (Nat.le_of_lt hn)
    have hmod : (v - shl 1 n).toNat % 2 ^ n = v.toNat % 2 ^ n := by
      rw [BitVec.toNat_sub, toNat_shl_one hn, Nat.mod_mod_of_dvd _ hdvd, Nat.add_mod,
        Nat.mod_eq_zero_of_dvd (Nat.dvd_sub hdvd (Nat.dvd_refl _)), Nat.zero_add, Nat.mod_mod]
    have hbit : ∀ w : Word, w.getLsbD i = (w.toNat % 2 ^ n).testBit i := by
      intro w
      rw [Nat.testBit_mod_two_pow, BitVec.testBit_toNat]
      simp [hi]
    rw [hbit, hbit, hmod]
  · -- the power is past the end of a word
    have hzero : shl 1 n = 0 := if_neg hn
    rw [hzero]
    simp

end Word

/-! ## The bits of the number -/

namespace Field

variable {f : Field} {p q : Pattern} {v pc : Word}

/-- One of the bits that the field is made of. -/
def Covers (f : Field) (i : Nat) : Prop := f.low.Covers i ∨ f.high.Covers i

instance (f : Field) (i : Nat) : Decidable (f.Covers i) :=
  inferInstanceAs (Decidable (_ ∨ _))

/-- The sign of the contents changes no bit below the width. -/
theorem getLsbD_contents (p : Pattern) {i : Nat} (hi : i < f.width) :
    (f.contents p).getLsbD i = (f.raw p).getLsbD i := by
  by_cases hneg : f.isNegative (f.raw p) = true
  · have hcontents : f.contents p = f.raw p - Word.shl 1 f.width := if_pos hneg
    rw [hcontents, Word.getLsbD_sub_shl_one (f.raw p) hi]
  · have hcontents : f.contents p = f.raw p := if_neg hneg
    rw [hcontents]

theorem getLsbD_contents_low (hw : f.width ≤ 64) (p : Pattern) {j : Nat} (hj : j < f.low.len) :
    (f.contents p).getLsbD (f.scale + j) = p.value.getLsbD (f.low.pos + j) := by
  simp only [width, stored] at hw
  rw [getLsbD_contents p (by simp only [width, stored]; omega)]
  unfold raw
  rw [BitVec.getLsbD_or, Word.getLsbD_shl, Word.getLsbD_shl, Pattern.getLsbD_read,
    Pattern.getLsbD_read]
  -- the high span starts further up
  have hword : f.scale + j < 64 := by omega
  have hlow : f.scale + j - f.scale = j := by omega
  have hhigh : f.scale + j < f.scale + f.low.len := by omega
  have hj64 : j < 64 := by omega
  simp [hword, hlow, hhigh, hj, hj64]

theorem getLsbD_contents_high (hw : f.width ≤ 64) (p : Pattern) {j : Nat} (hj : j < f.high.len) :
    (f.contents p).getLsbD (f.scale + f.low.len + j) = p.value.getLsbD (f.high.pos + j) := by
  simp only [width, stored] at hw
  rw [getLsbD_contents p (by simp only [width, stored]; omega)]
  unfold raw
  rw [BitVec.getLsbD_or, Word.getLsbD_shl, Word.getLsbD_shl, Pattern.getLsbD_read,
    Pattern.getLsbD_read]
  -- the low span ends further down
  have hword : f.scale + f.low.len + j < 64 := by omega
  have hlow : ¬ f.scale + f.low.len + j - f.scale < f.low.len := by omega
  have hhigh : f.scale + f.low.len + j - (f.scale + f.low.len) = j := by omega
  have hj64 : j < 64 := by omega
  have hge : ¬ f.scale + f.low.len + j < f.scale + f.low.len := by omega
  simp [hword, hlow, hhigh, hge, hj, hj64]

/-! ## Storing what was read -/

/-- A field whose spans can be written, with numbers that are no longer than a word. -/
structure Storable (f : Field) : Prop where
  low_fits : f.low.Fits
  high_fits : f.high.Fits
  width_le : f.width ≤ 64

/-- A field that stands for a number without detours: no look-up table, every bit of the number
    counts, and both spans can be written. -/
structure Plain (f : Field) : Prop where
  lut_eq : f.lut = none
  wraps_eq : f.wraps = false
  low_fits : f.low.Fits
  high_fits : f.high.Fits
  width_le : f.width ≤ 64

theorem Plain.storable (hf : f.Plain) : f.Storable := ⟨hf.low_fits, hf.high_fits, hf.width_le⟩

/-- A pattern that has the bits of `p` in the field, and nothing else. -/
def Copies (f : Field) (p q : Pattern) : Prop :=
  ∀ i, q.isClaimed i = decide (f.Covers i) ∧
    q.value.getLsbD i = (decide (f.Covers i) && p.value.getLsbD i)

theorem store_contents (hf : f.Storable) (p : Pattern) :
    ∃ q, f.store Pattern.empty (f.contents p) = some q ∧ f.Copies p q := by
  -- what goes into the spans is what they had
  have hlow : ∀ i, f.low.Covers i →
      (Word.shr (f.contents p) f.scale).getLsbD (i - f.low.pos) = p.value.getLsbD i := by
    intro i hi
    obtain ⟨hge, hlt⟩ := hi
    rw [Word.getLsbD_shr, getLsbD_contents_low hf.width_le p (by omega),
      Nat.add_sub_cancel' hge]
  have hhigh : ∀ i, f.high.Covers i →
      (Word.shr (Word.shr (f.contents p) f.scale) f.low.len).getLsbD (i - f.high.pos) =
        p.value.getLsbD i := by
    intro i hi
    obtain ⟨hge, hlt⟩ := hi
    rw [Word.getLsbD_shr, Word.getLsbD_shr, ← Nat.add_assoc,
      getLsbD_contents_high hf.width_le p (by omega), Nat.add_sub_cancel' hge]
  -- so the first write succeeds in the empty pattern
  obtain ⟨q₁, hq₁⟩ : ∃ q₁, Pattern.empty.write f.low (Word.shr (f.contents p) f.scale) = some q₁ :=
    Pattern.exists_write_iff.2 ⟨hf.low_fits, fun i hi => by simp at hi⟩
  have hspec₁ : ∀ i, q₁.isClaimed i = decide (f.low.Covers i) ∧
      q₁.value.getLsbD i = (decide (f.low.Covers i) && p.value.getLsbD i) := by
    intro i
    obtain ⟨hclaimed, hvalue, _⟩ := Pattern.write_spec hq₁ i
    refine ⟨by rw [hclaimed, Pattern.isClaimed_empty, Bool.false_or], ?_⟩
    rw [hvalue]
    by_cases hc : f.low.Covers i
    · simp [hc, hlow i hc]
    · simp [hc]
  -- and the second one finds the same bits where the spans overlap
  have hagree : ∀ i, q₁.isClaimed i = true → f.high.Covers i → q₁.value.getLsbD i =
      (Word.shr (Word.shr (f.contents p) f.scale) f.low.len).getLsbD (i - f.high.pos) := by
    intro i hi hc
    obtain ⟨hclaimed, hvalue⟩ := hspec₁ i
    rw [hhigh i hc, hvalue, ← hclaimed, hi, Bool.true_and]
  obtain ⟨q, hq⟩ := Pattern.exists_write_iff.2 ⟨hf.high_fits, hagree⟩
  refine ⟨q, store_eq_some.2 ⟨q₁, hq₁, hq⟩, ?_⟩
  intro i
  obtain ⟨hclaimed, hvalue, _⟩ := Pattern.write_spec hq i
  obtain ⟨hclaimed₁, hvalue₁⟩ := hspec₁ i
  rw [hclaimed, hvalue, hclaimed₁, hvalue₁]
  unfold Covers
  by_cases hc : f.high.Covers i
  · simp [hc, hhigh i hc]
  · simp [hc]

theorem Copies.decode_eq (h : f.Copies p q) (pc : Word) : f.decode q pc = f.decode p pc := by
  have hbit : ∀ i, f.Covers i → q.value.getLsbD i = p.value.getLsbD i := by
    intro i hi
    rw [(h i).2]
    simp [hi]
  have hlow : q.read f.low = p.read f.low :=
    Pattern.read_congr fun i hi => hbit i (.inl hi)
  have hhigh : q.read f.high = p.read f.high :=
    Pattern.read_congr fun i hi => hbit i (.inr hi)
  exact decode_congr hlow hhigh pc

theorem decode_eq_of_lut_none (h : f.lut = none) (p : Pattern) (pc : Word) :
    f.decode p pc = some ((f.contents p ^^^ f.invert) + f.origin pc + f.addend) := by
  simp [decode, look, h]

/-- What is done to the contents when they are read is undone when they are written. -/
theorem lookup?_of_lut_none (h : f.lut = none) (num pc : Word) :
    f.lookup? ((((num ^^^ f.invert) + f.origin pc + f.addend) - f.addend - f.origin pc) ^^^
      f.invert) = some num := by
  rw [BitVec.add_sub_cancel, BitVec.add_sub_cancel, BitVec.xor_assoc, BitVec.xor_self,
    BitVec.xor_zero]
  simp [lookup?, h]

theorem agrees_refl (f : Field) (v : Word) : f.Agrees v v := by
  unfold Agrees
  split
  · rfl
  · rfl

/-- A number that was read can be written, and this gives the bits that it was read from. -/
theorem encode_of_decode (hf : f.Plain) (h : f.decode p pc = some v) :
    ∃ q, f.encode Pattern.empty v pc = some q ∧ f.Copies p q := by
  obtain ⟨q, hstore, hcopies⟩ := store_contents hf.storable p
  refine ⟨q, ?_, hcopies⟩
  have hback : f.decode q pc = some v := by
    rw [hcopies.decode_eq pc, h]
  rw [decode_eq_of_lut_none hf.lut_eq, Option.some.injEq] at h
  refine encode_eq_some.2 ⟨f.contents p, v, ?_, hstore, hback, agrees_refl f v⟩
  rw [← h]
  exact lookup?_of_lut_none hf.lut_eq (f.contents p) pc

theorem decode_of_encode (hwraps : f.wraps = false) (h : f.encode p v pc = some q) :
    f.decode q pc = some v := by
  obtain ⟨num, back, _, _, hback, hagrees⟩ := encode_eq_some.1 h
  have heq : back = v := by
    unfold Agrees at hagrees
    simpa [hwraps] using hagrees
  rw [hback, heq]

end Field

/-- **Reading and writing undo each other.** In a plain field, at any position:

    * every contents stands for a number, and writing this number into an empty pattern gives the
      same bits in the field and touches no others;
    * whatever was written is read back;
    * so the numbers that can be written are those that can be read;
    * and contents that differ in some bit of the field stand for different numbers. -/
theorem decode_encode_inverse {f : Field} (hf : f.Plain) (pc : Word) :
    (∀ p, ∃ v q, f.decode p pc = some v ∧ f.encode Pattern.empty v pc = some q ∧
      f.Copies p q) ∧
    (∀ p q v, f.encode p v pc = some q → f.decode q pc = some v) ∧
    (∀ v, (∃ q, f.encode Pattern.empty v pc = some q) ↔ ∃ p, f.decode p pc = some v) ∧
    (∀ p p', f.decode p pc = f.decode p' pc →
      ∀ i, f.Covers i → p.value.getLsbD i = p'.value.getLsbD i) := by
  have hread : ∀ p, ∃ v, f.decode p pc = some v := fun p =>
    ⟨_, Field.decode_eq_of_lut_none hf.lut_eq p pc⟩
  refine ⟨?_, ?_, ?_, ?_⟩
  · intro p
    obtain ⟨v, hv⟩ := hread p
    obtain ⟨q, hq, hcopies⟩ := Field.encode_of_decode hf hv
    exact ⟨v, q, hv, hq, hcopies⟩
  · intro p q v h
    exact Field.decode_of_encode hf.wraps_eq h
  · intro v
    constructor
    · intro ⟨q, hq⟩
      exact ⟨q, Field.decode_of_encode hf.wraps_eq hq⟩
    · intro ⟨p, hp⟩
      obtain ⟨q, hq, _⟩ := Field.encode_of_decode hf hp
      exact ⟨q, hq⟩
  · intro p p' heq i hi
    obtain ⟨v, hv⟩ := hread p
    obtain ⟨q, hq, hcopies⟩ := Field.encode_of_decode hf hv
    obtain ⟨q', hq', hcopies'⟩ := Field.encode_of_decode hf (heq ▸ hv)
    -- both are what the same number gives when it is written
    obtain rfl : q = q' := Option.some.inj (hq.symm.trans hq')
    have hbit := (hcopies i).2.symm.trans (hcopies' i).2
    simpa [hi] using hbit

/-- A field across the middle of the pattern, with spans that share four bits. -/
def straddlingField : Field where
  low := ⟨60, 8⟩
  high := ⟨64, 6⟩
  sign := .signed
  scale := 2
  addend := 5
  invert := 3
  pcrel := some 8

theorem decode_encode_inverse_straddling :
    straddlingField.Plain ∧
    ∃ v q, straddlingField.decode ⟨0xA5 <<< 62, 0⟩ 0x40 = some v ∧
      straddlingField.encode Pattern.empty v 0x40 = some q ∧
      straddlingField.Copies ⟨0xA5 <<< 62, 0⟩ q := by
  have hf : straddlingField.Plain := ⟨rfl, rfl, by decide, by decide, by decide⟩
  exact ⟨hf, (decode_encode_inverse hf 0x40).1 _⟩

end TableAsm
