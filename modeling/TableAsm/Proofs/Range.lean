import Mathlib.Data.Int.ModEq
import Mathlib.Tactic.Ring
import TableAsm.Proofs.Displacement

/-! # The numbers that fit into a field

  A number is written into a field only if reading gives it back. So which
  numbers fit is not said anywhere, but follows from what reading does.

  - `SignMode.Admits` are the numbers that contents of some width stand
    for. In every mode they are an interval of `2 ^ width` numbers, one for
    each contents (`SignMode.Admits.eq_of_modEq`).
  - `Field.admits_contents` says that reading leads into this interval.
  - `Field.contents_store_modEq_iff` says that reading gives back the bits
    below the width just if none of those that are scaled off is set.
  - `encode_legal_iff` puts the two together: the numbers that fit are the
    multiples of `2 ^ scale` in the interval.
-/

namespace TableAsm

/-! ## Words and their bits -/

namespace Word

variable {a b c : Word} {k : Nat}

/-- Words are congruent modulo a power of two if they have the same low bits. -/
theorem modEq_iff_bits (a b : Word) (k : Nat) :
    a.toNat ≡ b.toNat [MOD 2 ^ k] ↔ ∀ i < k, a.getLsbD i = b.getLsbD i := by
  constructor
  · intro h i hi
    have hbit := congrArg (fun n => n.testBit i) h
    simpa [Nat.testBit_mod_two_pow, hi, BitVec.testBit_toNat] using hbit
  · intro h
    apply Nat.eq_of_testBit_eq
    intro i
    rw [Nat.testBit_mod_two_pow, Nat.testBit_mod_two_pow, BitVec.testBit_toNat,
      BitVec.testBit_toNat]
    by_cases hi : i < k
    · rw [h i hi]
    · simp [hi]

theorem dvd_iff_bits (a : Word) (k : Nat) : 2 ^ k ∣ a.toNat ↔ ∀ i < k, a.getLsbD i = false := by
  have hzero := modEq_iff_bits a 0#64 k
  rw [BitVec.toNat_ofNat, Nat.zero_mod, Nat.modEq_zero_iff_dvd] at hzero
  rw [hzero]
  simp

theorem xor_right_modEq_iff :
    (a ^^^ c).toNat ≡ (b ^^^ c).toNat [MOD 2 ^ k] ↔ a.toNat ≡ b.toNat [MOD 2 ^ k] := by
  simp only [modEq_iff_bits, BitVec.getLsbD_xor, Bool.xor_left_inj]

/-- A word and the number that it is as a signed word are congruent. -/
theorem toInt_modEq (hk : k ≤ 64) (a : Word) : a.toInt ≡ a.toNat [ZMOD 2 ^ k] := by
  have hword : a.toInt ≡ a.toNat [ZMOD 2 ^ 64] := by
    rw [BitVec.toInt_eq_toNat_bmod]
    exact Int.bmod_emod
  exact hword.of_dvd (pow_dvd_pow 2 hk)

theorem toInt_modEq_iff (hk : k ≤ 64) :
    a.toInt ≡ b.toInt [ZMOD 2 ^ k] ↔ a.toNat ≡ b.toNat [MOD 2 ^ k] := by
  have hnat : (a.toNat : Int) ≡ b.toNat [ZMOD 2 ^ k] ↔ a.toNat ≡ b.toNat [MOD 2 ^ k] := by
    have hcast := Int.natCast_modEq_iff (a := a.toNat) (b := b.toNat) (n := 2 ^ k)
    simpa using hcast
  rw [← hnat]
  constructor
  · intro h
    exact (toInt_modEq hk a).symm.trans (h.trans (toInt_modEq hk b))
  · intro h
    exact (toInt_modEq hk a).trans (h.trans (toInt_modEq hk b).symm)

end Word

/-! ## Intervals -/

/-- The numbers that contents of `w` bits can stand for. -/
def SignMode.Admits : SignMode → Nat → Int → Prop
  | .unsigned, w, z => 0 ≤ z ∧ z < 2 ^ w
  | .signed, w, z => -2 ^ (w - 1) ≤ z ∧ z < 2 ^ (w - 1)
  | .slightlySigned, w, z => -2 ^ (w - 2) ≤ z ∧ z < 3 * 2 ^ (w - 2)
  | .ultraSigned, w, z => -2 ^ w ≤ z ∧ z < 0

instance (mode : SignMode) (w : Nat) (z : Int) : Decidable (mode.Admits w z) :=
  match mode with
  | .unsigned => inferInstanceAs (Decidable (_ ∧ _))
  | .signed => inferInstanceAs (Decidable (_ ∧ _))
  | .slightlySigned => inferInstanceAs (Decidable (_ ∧ _))
  | .ultraSigned => inferInstanceAs (Decidable (_ ∧ _))

/-- Where the interval begins, in quarters of its length. -/
def SignMode.least : SignMode → Int
  | .unsigned => 0
  | .signed => -2
  | .slightlySigned => -1
  | .ultraSigned => -4

/-- In every mode, contents of `k + 2` bits stand for four times `2 ^ k` numbers without a gap. -/
theorem SignMode.admits_iff (mode : SignMode) (k : Nat) (z : Int) :
    mode.Admits (k + 2) z ↔ mode.least * 2 ^ k ≤ z ∧ z < (mode.least + 4) * 2 ^ k := by
  have hquarter : (2 : Int) ^ (k + 2) = 4 * 2 ^ k := by ring
  have hhalf : (2 : Int) ^ (k + 2 - 1) = 2 * 2 ^ k := by
    rw [show k + 2 - 1 = k + 1 from rfl]
    ring
  cases mode with
  | unsigned => simp only [Admits, least, hquarter]; omega
  | signed => simp only [Admits, least, hhalf]; omega
  | slightlySigned => simp only [Admits, least, Nat.add_sub_cancel]; omega
  | ultraSigned => simp only [Admits, least, hquarter]; omega

/-- The numbers that a mode admits are told apart by their remainders. -/
theorem SignMode.Admits.eq_of_modEq {mode : SignMode} {w : Nat} (hw : 2 ≤ w) {y z : Int}
    (hy : mode.Admits w y) (hz : mode.Admits w z) (h : y ≡ z [ZMOD 2 ^ w]) : y = z := by
  obtain ⟨k, rfl⟩ := Nat.exists_eq_add_of_le' hw
  rw [admits_iff, add_mul] at hy hz
  have hquarter : (2 : Int) ^ (k + 2) = 4 * 2 ^ k := by ring
  have hclose : |y - z| < 2 ^ (k + 2) := by
    rw [abs_lt]
    omega
  have hzero : y - z = 0 := Int.eq_zero_of_abs_lt_dvd h.symm.dvd hclose
  omega

/-! ## Contents and their sign -/

namespace Field

variable {f : Field} {p q : Pattern} {v pc num : Word}

theorem toInt_contents (hw : f.width ≤ 63) (p : Pattern) :
    (f.contents p).toInt =
      if f.isNegative (f.raw p) then ((f.raw p).toNat : Int) - 2 ^ f.width
      else ((f.raw p).toNat : Int) := by
  have hraw := raw_lt (f := f) p
  have hpow : 2 ^ f.width ≤ 2 ^ 63 := Nat.pow_le_pow_right (by decide) hw
  have hcast : ((2 ^ f.width : Nat) : Int) = 2 ^ f.width := by push_cast; rfl
  unfold contents
  simp only
  split
  · -- the difference is below zero, and not below the least word
    rw [BitVec.toInt_eq_toNat_cond, BitVec.toNat_sub, Word.toNat_shl_one (by omega), ← hcast]
    generalize 2 ^ f.width = top at hraw hpow
    split <;> omega
  · rw [BitVec.toInt_eq_toNat_of_lt (by omega)]

/-- The two top bits of a number of `k + 2` bits. -/
theorem testBit_top_iff {a k : Nat} (ha : a < 2 ^ (k + 2)) :
    (a.testBit (k + 1) = true ↔ 2 * 2 ^ k ≤ a) ∧
    (a.testBit (k + 1) = true ∧ a.testBit k = true ↔ 3 * 2 ^ k ≤ a) := by
  have hpos := Nat.two_pow_pos k
  have hlt : a / 2 ^ k < 4 := by
    rw [Nat.div_lt_iff_lt_mul hpos]
    rw [Nat.pow_add] at ha
    omega
  rw [Nat.testBit_eq_decide_div_mod_eq, Nat.testBit_eq_decide_div_mod_eq, decide_eq_true_eq,
    decide_eq_true_eq, Nat.pow_succ, ← Nat.div_div_eq_div_mul, ← Nat.le_div_iff_mul_le hpos,
    ← Nat.le_div_iff_mul_le hpos]
  generalize a / 2 ^ k = x at hlt
  omega

/-- The contents that count as negative are the upper ones, as many as there are negative
    numbers. -/
theorem isNegative_raw_iff {k : Nat} (hk : f.width = k + 2) (hw : f.width ≤ 64) (p : Pattern) :
    f.isNegative (f.raw p) = true ↔ (f.sign.least + 4) * 2 ^ k ≤ ((f.raw p).toNat : Int) := by
  have hraw := raw_lt (f := f) p
  rw [hk] at hraw
  obtain ⟨hone, htwo⟩ := testBit_top_iff hraw
  have htop : f.topBit (f.raw p) 1 = (f.raw p).toNat.testBit (k + 1) := by
    rw [topBit_eq hw (by decide), hk]
    simp
  have hbelow : f.topBit (f.raw p) 2 = (f.raw p).toNat.testBit k := by
    rw [topBit_eq hw (by decide), hk]
    simp
  have hpow : ((2 ^ k : Nat) : Int) = 2 ^ k := by push_cast; rfl
  rw [Nat.pow_add] at hraw
  unfold isNegative
  rw [htop, hbelow, ← hpow]
  cases f.sign with
  | unsigned => exact iff_of_false (by simp) (by simp only [SignMode.least]; omega)
  | signed => simp only [SignMode.least, hone]; omega
  | slightlySigned => simp only [SignMode.least, Bool.and_eq_true, htwo]; omega
  | ultraSigned => exact iff_of_true rfl (by simp only [SignMode.least]; omega)

/-- What is read is one of the numbers that the mode admits. -/
theorem admits_contents (hw : 2 ≤ f.width) (hw' : f.width ≤ 63) (p : Pattern) :
    f.sign.Admits f.width (f.contents p).toInt := by
  obtain ⟨k, hk⟩ := Nat.exists_eq_add_of_le' hw
  have hraw : ((f.raw p).toNat : Int) < 4 * 2 ^ k := by
    have hlt := raw_lt (f := f) p
    rw [hk, Nat.pow_add] at hlt
    push_cast [← Int.ofNat_lt] at hlt
    omega
  have hquarter : (2 : Int) ^ (k + 2) = 4 * 2 ^ k := by ring
  have hpos : (0 : Int) < 2 ^ k := Int.pow_pos (by decide)
  -- the interval begins at zero or below, and ends at zero or above
  have hleast : f.sign.least * 2 ^ k ≤ 0 ∧ 0 ≤ (f.sign.least + 4) * 2 ^ k := by
    cases f.sign <;> simp only [SignMode.least] <;> omega
  rw [toInt_contents hw' p, hk, SignMode.admits_iff]
  split
  · next hneg =>
    rw [isNegative_raw_iff hk (by omega)] at hneg
    rw [add_mul] at hneg hleast ⊢
    omega
  · next hneg =>
    rw [isNegative_raw_iff hk (by omega)] at hneg
    omega

/-! ## What is stored of a number -/

/-- What is stored has the low bits of the number, unless one of those that are scaled off is
    set. -/
theorem contents_store_modEq_iff (hw : f.width ≤ 64) (h : f.store p num = some q) :
    (f.contents q).toNat ≡ num.toNat [MOD 2 ^ f.width] ↔ 2 ^ f.scale ∣ num.toNat := by
  have hscale : f.scale ≤ f.width := Nat.le_add_right _ _
  rw [Word.modEq_iff_bits, Word.dvd_iff_bits]
  constructor
  · intro hsame i hi
    have hbit := hsame i (by omega)
    rw [getLsbD_contents q (by omega), getLsbD_raw_store hw h] at hbit
    simpa [show ¬ f.scale ≤ i by omega] using hbit.symm
  · intro hzero i hi
    rw [getLsbD_contents q hi, getLsbD_raw_store hw h]
    by_cases hlow : f.scale ≤ i
    · simp [hlow, hi]
    · simp [hlow, hzero i (by omega)]

theorem contents_store_eq_iff (hw : 2 ≤ f.width) (hw' : f.width ≤ 63)
    (h : f.store p num = some q) :
    f.contents q = num ↔ 2 ^ f.scale ∣ num.toNat ∧ f.sign.Admits f.width num.toInt := by
  have hmod := contents_store_modEq_iff (by omega) h
  have hadmits := admits_contents hw hw' q
  constructor
  · intro heq
    rw [heq] at hmod hadmits
    exact ⟨hmod.1 rfl, hadmits⟩
  · intro ⟨hdvd, hnum⟩
    -- both are in the interval, and congruent
    have hcongr := (Word.toInt_modEq_iff (by omega)).2 (hmod.2 hdvd)
    exact BitVec.eq_of_toInt_eq (hadmits.eq_of_modEq hw hnum hcongr)

/-- In a field as long as a word there is no sign. -/
theorem contents_store_eq_iff_of_width (hw : f.width = 64) (h : f.store p num = some q) :
    f.contents q = num ↔ 2 ^ f.scale ∣ num.toNat := by
  rw [← contents_store_modEq_iff (Nat.le_of_eq hw) h, hw]
  constructor
  · intro heq
    rw [heq]
  · intro hmod
    apply BitVec.eq_of_toNat_eq
    rwa [Nat.ModEq, Nat.mod_eq_of_lt (BitVec.isLt _), Nat.mod_eq_of_lt (BitVec.isLt _)] at hmod

/-! ## What is written -/

/-- A field without a look-up table, whose spans can be written and do not overlap. -/
structure Direct (f : Field) : Prop where
  lut_eq : f.lut = none
  low_fits : f.low.Fits
  high_fits : f.high.Fits
  disjoint : ∀ i, f.low.Covers i → ¬ f.high.Covers i

/-- Nothing but the comparison at the end stands in the way of a write into an empty pattern. -/
theorem Direct.encode_iff (hf : f.Direct) (hw : f.width ≤ 64) (v pc : Word) :
    ∃ q, f.store Pattern.empty (f.entry v pc) = some q ∧
      ((∃ q, f.encode Pattern.empty v pc = some q) ↔
        f.Agrees ((f.contents q ^^^ f.invert) + f.origin pc + f.addend) v) := by
  obtain ⟨q, hstore⟩ :=
    exists_store ⟨hf.low_fits, hf.high_fits, hw⟩ hf.disjoint (f.entry v pc)
  have hnum : f.lookup? (f.entry v pc) = some (f.entry v pc) := by
    unfold lookup?
    rw [hf.lut_eq]
  have hback := decode_eq_of_lut_none hf.lut_eq q pc
  refine ⟨q, hstore, ?_⟩
  constructor
  · intro ⟨q', h⟩
    obtain ⟨num, back, hnum', hstore', hback', hagrees⟩ := encode_eq_some.1 h
    obtain rfl : f.entry v pc = num := Option.some.inj (hnum.symm.trans hnum')
    obtain rfl : q = q' := Option.some.inj (hstore.symm.trans hstore')
    rw [hback, Option.some.injEq] at hback'
    rwa [hback']
  · intro hagrees
    exact ⟨q, encode_eq_some.2 ⟨_, _, hnum, hstore, hback, hagrees⟩⟩

theorem agrees_iff_eq (h : f.wraps = false ∨ f.width = 64) :
    f.Agrees ((num ^^^ f.invert) + f.origin pc + f.addend) v ↔ num = f.entry v pc := by
  rw [← eq_entry_iff]
  unfold Agrees
  rw [if_neg]
  rintro ⟨hwraps, hwidth⟩
  rcases h with h | h
  · rw [hwraps] at h
    simp at h
  · omega

theorem agrees_iff_modEq (hwraps : f.wraps = true) (hw : f.width ≤ 63) :
    f.Agrees ((num ^^^ f.invert) + f.origin pc + f.addend) v ↔
      num.toNat ≡ (f.entry v pc).toNat [MOD 2 ^ f.width] := by
  have hv : v = (f.entry v pc ^^^ f.invert) + f.origin pc + f.addend := (eq_entry_iff.2 rfl).symm
  unfold Agrees
  rw [if_pos ⟨hwraps, by omega⟩]
  -- adding and inverting the same bits keeps what is congruent
  conv_lhs => rw [hv]
  exact (Word.add_right_modEq_iff (by omega)).trans
    ((Word.add_right_modEq_iff (by omega)).trans Word.xor_right_modEq_iff)

end Field

/-- **Which numbers fit into a field.** Let a field have no look-up table and spans that can be
    written and do not overlap, and let `n` be what stands for the number `v` at position `pc`:
    `v` less the addend and the position that the field counts from, with the inverted bits. The
    number is written into an empty pattern:

    * if the field is 2 to 63 bits wide and does not wrap, just if `n` is a multiple of
      `2 ^ scale` and, as a signed word, in the interval of the field's mode;
    * if it wraps, just if `n` is a multiple of `2 ^ scale`; what is read back is then congruent
      to the number;
    * if it is 64 bits wide, just if `n` is a multiple of `2 ^ scale`, whether it wraps or not. -/
theorem encode_legal_iff {f : Field} (hf : f.Direct) (v pc : Word) :
    (2 ≤ f.width → f.width ≤ 63 → f.wraps = false →
      ((∃ q, f.encode Pattern.empty v pc = some q) ↔
        2 ^ f.scale ∣ (f.entry v pc).toNat ∧ f.sign.Admits f.width (f.entry v pc).toInt)) ∧
    (2 ≤ f.width → f.width ≤ 63 → f.wraps = true →
      ((∃ q, f.encode Pattern.empty v pc = some q) ↔ 2 ^ f.scale ∣ (f.entry v pc).toNat) ∧
      ∀ q, f.encode Pattern.empty v pc = some q →
        ∃ back, f.decode q pc = some back ∧ back.toNat ≡ v.toNat [MOD 2 ^ f.width]) ∧
    (f.width = 64 →
      ((∃ q, f.encode Pattern.empty v pc = some q) ↔ 2 ^ f.scale ∣ (f.entry v pc).toNat)) := by
  refine ⟨?_, ?_, ?_⟩
  · intro hw hw' hwraps
    obtain ⟨q, hstore, hiff⟩ := hf.encode_iff (by omega) v pc
    rw [hiff, Field.agrees_iff_eq (.inl hwraps), Field.contents_store_eq_iff hw hw' hstore]
  · intro _ hw' hwraps
    obtain ⟨q, hstore, hiff⟩ := hf.encode_iff (by omega) v pc
    refine ⟨?_, ?_⟩
    · rw [hiff, Field.agrees_iff_modEq hwraps hw',
        Field.contents_store_modEq_iff (by omega) hstore]
    · intro q' h
      obtain ⟨num, back, _, _, hback, hagrees⟩ := Field.encode_eq_some.1 h
      unfold Field.Agrees at hagrees
      rw [if_pos ⟨hwraps, by omega⟩] at hagrees
      exact ⟨back, hback, hagrees⟩
  · intro hw
    obtain ⟨q, hstore, hiff⟩ := hf.encode_iff (by omega) v pc
    rw [hiff, Field.agrees_iff_eq (.inr hw), Field.contents_store_eq_iff_of_width hw hstore]

/-- A split field of six bits, for the even numbers from -16 to 46. -/
def narrowField (wraps : Bool) : Field where
  low := ⟨60, 3⟩
  high := ⟨100, 2⟩
  sign := .slightlySigned
  scale := 1
  addend := 5
  invert := 6
  pcrel := some 3
  wraps := wraps

/-- A split field as long as a word. -/
def wideField : Field := { low := ⟨2, 40⟩, high := ⟨90, 22⟩, sign := .ultraSigned, scale := 2 }

/-- The number that stands for -16 fits and the one for -18 does not, unless the field wraps. -/
theorem encode_legal_iff_narrow :
    (∀ wraps, (narrowField wraps).Direct) ∧
    (∃ q, (narrowField false).encode Pattern.empty 0x3D 0x40 = some q) ∧
    (¬ ∃ q, (narrowField false).encode Pattern.empty 0x2F 0x40 = some q) ∧
    (∃ q back, (narrowField true).encode Pattern.empty 0x2F 0x40 = some q ∧
      (narrowField true).decode q 0x40 = some back ∧ back.toNat ≡ 0x2F [MOD 2 ^ 6]) ∧
    wideField.Direct ∧ ∃ q, wideField.encode Pattern.empty (-4) 0 = some q := by
  have hnarrow : ∀ wraps, (narrowField wraps).Direct := by
    intro wraps
    refine ⟨rfl, by decide +revert, by decide +revert, ?_⟩
    intro i hlow hhigh
    simp only [narrowField, Span.Covers] at hlow hhigh
    omega
  have hwide : wideField.Direct := by
    refine ⟨rfl, by decide, by decide, ?_⟩
    intro i hlow hhigh
    simp only [wideField, Span.Covers] at hlow hhigh
    omega
  have hstrict : ∀ v pc, _ := fun v pc =>
    (encode_legal_iff (hnarrow false) v pc).1 (by decide) (by decide) rfl
  obtain ⟨hiff, hback⟩ :=
    (encode_legal_iff (hnarrow true) 0x2F 0x40).2.1 (by decide) (by decide) rfl
  obtain ⟨q, hq⟩ := hiff.2 (by decide)
  obtain ⟨back, hdecode, hcongr⟩ := hback q hq
  refine ⟨hnarrow, (hstrict 0x3D 0x40).2 (by decide), ?_, ⟨q, back, hq, hdecode, hcongr⟩, hwide, ?_⟩
  · rw [hstrict 0x2F 0x40]
    decide
  · exact ((encode_legal_iff hwide (-4) 0).2.2 rfl).2 (by decide)

end TableAsm
