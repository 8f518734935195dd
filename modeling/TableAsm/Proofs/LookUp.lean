import Mathlib.Tactic.ByContra
import TableAsm.Proofs.RoundTrip

/-! # Fields with a look-up table

  In a field with a look-up table, the contents are an index. To write a
  number, the table is searched for it, and the first index that is found
  is stored. To read one, the contents are looked up.

  The two sides do not have the same indices in mind. An index that is
  read is a multiple of `2 ^ scale`, since that many low bits are not
  stored, while the search knows nothing of the scale.

  - `Field.HoldsIndex` are the indices that contents can stand for, and
    `Field.reach` is the part of the table that is searched.
  - `Field.raw_store_le` says that what is stored of an index is never
    more than the index. So if it leads to the same entry, it is the index
    itself, which was the first.
  - `Field.HoldsIndex.of_le` says that without a scale the indices that
    contents can stand for have no gaps.
  - `lookUp_encode_iff` compares the numbers that can be written with those
    that can be read. They are the same if there is no scale, and
    `scaledTables_miss` has two fields in which they are not.
-/

namespace TableAsm

/-! ## The top bits of numbers that grow -/

/-- A number that has its top bit keeps it as it grows. -/
theorem testBit_top_mono {a b k : Nat} (hab : a ≤ b) (hb : b < 2 ^ (k + 1))
    (h : a.testBit k = true) : b.testBit k = true := by
  rw [Nat.testBit_eq_decide_div_mod_eq, decide_eq_true_eq] at h ⊢
  have hle : a / 2 ^ k ≤ b / 2 ^ k := Nat.div_le_div_right hab
  have hlt : b / 2 ^ k < 2 := by
    rw [Nat.div_lt_iff_lt_mul (Nat.two_pow_pos k), Nat.mul_comm, ← Nat.pow_succ]
    exact hb
  generalize a / 2 ^ k = x at h hle
  generalize b / 2 ^ k = y at hle hlt ⊢
  omega

/-- A number that has its two top bits keeps the lower of them, too. -/
theorem testBit_below_mono {a b k : Nat} (hab : a ≤ b) (hb : b < 2 ^ (k + 2))
    (htop : a.testBit (k + 1) = true) (h : a.testBit k = true) : b.testBit k = true := by
  rw [Nat.testBit_eq_decide_div_mod_eq, decide_eq_true_eq] at htop h ⊢
  have hle : a / 2 ^ k ≤ b / 2 ^ k := Nat.div_le_div_right hab
  have hlt : b / 2 ^ k < 4 := by
    rw [Nat.div_lt_iff_lt_mul (Nat.two_pow_pos k), Nat.mul_comm, show 4 = 2 ^ 2 from rfl,
      ← Nat.pow_add]
    exact hb
  rw [Nat.pow_succ, ← Nat.div_div_eq_div_mul] at htop
  generalize a / 2 ^ k = x at htop h hle
  generalize b / 2 ^ k = y at hle hlt ⊢
  omega

namespace Field

variable {f : Field} {p q : Pattern} {lut : List Word} {v pc num : Word} {i j : Nat}

/-! ## What is stored of a number -/

theorem getLsbD_raw_eq_false (p : Pattern) (h : i < f.scale ∨ f.width ≤ i) :
    (f.raw p).getLsbD i = false := by
  unfold raw
  rw [BitVec.getLsbD_or, Word.getLsbD_shl, Word.getLsbD_shl, Pattern.getLsbD_read,
    Pattern.getLsbD_read]
  rcases h with h | h
  · have hhigh : i < f.scale + f.low.len := by omega
    simp [h, hhigh]
  · simp only [width, stored] at h
    have hlow : ¬ i - f.scale < f.low.len := by omega
    have hhigh : ¬ i - (f.scale + f.low.len) < f.high.len := by omega
    simp [hlow, hhigh]

theorem raw_lt (p : Pattern) : (f.raw p).toNat < 2 ^ f.width := by
  apply Nat.lt_pow_two_of_testBit
  intro i hi
  exact getLsbD_raw_eq_false p (.inr hi)

/-- Of a number, the bits of the field's width are stored, without those that are scaled off. -/
theorem getLsbD_raw_store (hw : f.width ≤ 64) (h : f.store p num = some q) (i : Nat) :
    (f.raw q).getLsbD i = (decide (f.scale ≤ i ∧ i < f.width) && num.getLsbD i) := by
  by_cases hin : f.scale ≤ i ∧ i < f.width
  · obtain ⟨p₁, hlow, hhigh⟩ := store_eq_some.1 h
    rw [← getLsbD_contents q hin.2]
    simp only [hin, and_self, decide_true, Bool.true_and]
    by_cases hspan : i < f.scale + f.low.len
    · -- a bit of the low span, which the second write has left alone
      obtain ⟨k, rfl⟩ := Nat.exists_eq_add_of_le hin.1
      have hcovers : f.low.Covers (f.low.pos + k) := ⟨by omega, by omega⟩
      have hclaimed : p₁.isClaimed (f.low.pos + k) = true := Pattern.claims_write hlow _ hcovers
      rw [getLsbD_contents_low hw q (by omega), (Pattern.le_write hhigh _ hclaimed).2,
        (Pattern.write_spec hlow _).2.1, if_pos hcovers, Word.getLsbD_shr, Nat.add_sub_cancel_left]
    · -- a bit of the high span
      obtain ⟨k, rfl⟩ := Nat.exists_eq_add_of_le (Nat.le_of_not_lt hspan)
      have hk : k < f.high.len := by
        have hwidth := hin.2
        simp only [width, stored] at hwidth
        omega
      have hcovers : f.high.Covers (f.high.pos + k) := ⟨by omega, by omega⟩
      rw [getLsbD_contents_high hw q hk, (Pattern.write_spec hhigh _).2.1, if_pos hcovers,
        Word.getLsbD_shr, Word.getLsbD_shr, Nat.add_sub_cancel_left, ← Nat.add_assoc]
  · have hout : i < f.scale ∨ f.width ≤ i := by omega
    rw [getLsbD_raw_eq_false q hout]
    simp [hin]

theorem raw_store_le (hw : f.width ≤ 64) (h : f.store p num = some q) :
    (f.raw q).toNat ≤ num.toNat := by
  -- every bit that is stored is one of the number
  have hand : f.raw q = num &&& f.raw q := by
    apply BitVec.eq_of_getLsbD_eq
    intro i _
    rw [BitVec.getLsbD_and, getLsbD_raw_store hw h]
    cases num.getLsbD i with
    | false => simp
    | true => simp
  rw [hand, BitVec.toNat_and]
  exact Nat.and_le_left

theorem raw_store_eq (hw : f.width ≤ 64) (hscale : f.scale = 0) (hnum : num.toNat < 2 ^ f.width)
    (h : f.store p num = some q) : f.raw q = num := by
  apply BitVec.eq_of_getLsbD_eq
  intro i _
  rw [getLsbD_raw_store hw h, hscale]
  by_cases hi : i < f.width
  · simp [hi]
  · -- the number has no bits past the width
    have hlt : num.toNat < 2 ^ i :=
      Nat.lt_of_lt_of_le hnum (Nat.pow_le_pow_right (by decide) (Nat.le_of_not_lt hi))
    have hbit : num.getLsbD i = false := Nat.testBit_lt_two_pow hlt
    simp [hi, hbit]

/-- Spans that do not overlap take anything. -/
theorem exists_store (hf : f.Storable) (hdisjoint : ∀ i, f.low.Covers i → ¬ f.high.Covers i)
    (num : Word) : ∃ q, f.store Pattern.empty num = some q := by
  obtain ⟨q₁, hq₁⟩ : ∃ q₁, Pattern.empty.write f.low (Word.shr num f.scale) = some q₁ :=
    Pattern.exists_write_iff.2 ⟨hf.low_fits, fun i hi => by simp at hi⟩
  have hfree : ∀ i, q₁.isClaimed i = true → f.high.Covers i →
      q₁.value.getLsbD i =
        (Word.shr (Word.shr num f.scale) f.low.len).getLsbD (i - f.high.pos) := by
    intro i hclaimed hhigh
    rw [(Pattern.write_spec hq₁ i).1, Pattern.isClaimed_empty, Bool.false_or] at hclaimed
    exact absurd hhigh (hdisjoint i (of_decide_eq_true hclaimed))
  obtain ⟨q, hq⟩ := Pattern.exists_write_iff.2 ⟨hf.high_fits, hfree⟩
  exact ⟨q, store_eq_some.2 ⟨q₁, hq₁, hq⟩⟩

/-! ## Contents that are small -/

/-- A negative number is in the upper half of all words, unless the field takes up a whole
    word. -/
theorem not_negative_of_lt (hw : f.width < 64) (h : (f.contents p).toNat < 2 ^ 63) :
    f.isNegative (f.raw p) = false := by
  by_contra hneg
  have hcontents : f.contents p = f.raw p - Word.shl 1 f.width := if_pos (by simpa using hneg)
  have hraw := raw_lt (f := f) p
  have hpow : 2 ^ f.width ≤ 2 ^ 63 := Nat.pow_le_pow_right (by decide) (by omega)
  rw [hcontents, BitVec.toNat_sub, Word.toNat_shl_one hw] at h
  omega

theorem contents_of_width (hw : f.width = 64) (p : Pattern) : f.contents p = f.raw p := by
  have hzero : Word.shl 1 f.width = 0 := by
    rw [hw]
    rfl
  unfold contents
  rw [hzero]
  simp

theorem contents_of_not_negative (h : f.isNegative (f.raw p) = false) :
    f.contents p = f.raw p :=
  if_neg (by simp [h])

theorem contents_eq_raw (hw : f.width ≤ 64) (h : (f.contents p).toNat < 2 ^ 63) :
    f.contents p = f.raw p := by
  by_cases hword : f.width = 64
  · exact contents_of_width hword p
  · exact contents_of_not_negative (not_negative_of_lt (by omega) h)

theorem topBit_eq {n : Nat} (hw : f.width ≤ 64) (hn : 0 < n) (num : Word) :
    f.topBit num n = (decide (n ≤ f.width) && num.toNat.testBit (f.width - n)) := by
  unfold topBit
  by_cases hle : n ≤ f.width
  · have hbit : f.width - n < 64 := by omega
    have htwo : Word.shl 1 (f.width - n) = BitVec.twoPow 64 (f.width - n) := by
      rw [Word.shl_eq, BitVec.twoPow_eq]
      rfl
    have hne : BitVec.twoPow 64 (f.width - n) ≠ 0#64 := by
      intro hzero
      have hnat := congrArg BitVec.toNat hzero
      rw [BitVec.toNat_twoPow_of_lt hbit] at hnat
      exact absurd hnat (Nat.ne_of_gt (Nat.two_pow_pos _))
    rw [htwo, BitVec.and_twoPow, BitVec.testBit_toNat]
    cases num.getLsbD (f.width - n) with
    | false => simp
    | true => simp [hle, hne]
  · simp [hle]

/-- Contents that count as negative still do so when they grow. -/
theorem isNegative_mono {a b : Word} (hw : f.width ≤ 64) (hab : a.toNat ≤ b.toNat)
    (hb : b.toNat < 2 ^ f.width) (h : f.isNegative a = true) : f.isNegative b = true := by
  unfold isNegative at h ⊢
  cases hsign : f.sign with
  | unsigned => simp [hsign] at h
  | signed =>
    simp only [hsign] at h ⊢
    rw [topBit_eq hw (by decide), Bool.and_eq_true, decide_eq_true_eq] at h ⊢
    obtain ⟨k, hk⟩ := Nat.exists_eq_add_of_le' h.1
    rw [hk] at hb
    rw [hk, Nat.add_sub_cancel] at h ⊢
    exact ⟨h.1, testBit_top_mono hab hb h.2⟩
  | slightlySigned =>
    simp only [hsign] at h ⊢
    simp only [topBit_eq hw (show 0 < 1 by decide), topBit_eq hw (show 0 < 2 by decide),
      Bool.and_eq_true, decide_eq_true_eq] at h ⊢
    obtain ⟨⟨hone, htop⟩, htwo, hbelow⟩ := h
    obtain ⟨k, hk⟩ := Nat.exists_eq_add_of_le' htwo
    have hwidth : f.width - 1 = k + 1 := by omega
    rw [hwidth] at htop ⊢
    rw [hk] at hb
    rw [show f.width - 2 = k by omega] at hbelow ⊢
    exact ⟨⟨hone, testBit_top_mono hab hb htop⟩, htwo, testBit_below_mono hab hb htop hbelow⟩
  | ultraSigned => rfl

/-! ## Indices -/

/-- Some contents of the field stand for this index. -/
def HoldsIndex (f : Field) (i : Nat) : Prop := ∃ p, (f.contents p).toNat = i

/-- The part of a look-up table that is searched: as many entries as the stored bits can tell
    apart. -/
def reach (f : Field) (lut : List Word) : List Word :=
  if f.stored < 32 then lut.take (1 <<< f.stored) else lut

/-- The entry of the look-up table that stands for a number. -/
def entry (f : Field) (v pc : Word) : Word := (v - f.addend - f.origin pc) ^^^ f.invert

/-- A field with a look-up table. Every bit of the number counts, the spans can be written and do
    not overlap, and the table is no longer than a memory can be. -/
structure Tabled (f : Field) (lut : List Word) : Prop where
  lut_eq : f.lut = some lut
  length_le : lut.length ≤ 2 ^ 63
  wraps_eq : f.wraps = false
  storable : f.Storable
  disjoint : ∀ i, f.low.Covers i → ¬ f.high.Covers i

/-- Without a scale, the indices that contents can stand for have no gaps. -/
theorem HoldsIndex.of_le (hf : f.Storable)
    (hdisjoint : ∀ i, f.low.Covers i → ¬ f.high.Covers i) (hscale : f.scale = 0)
    (h : f.HoldsIndex j) (hj : j < 2 ^ 63) (hij : i ≤ j) : f.HoldsIndex i := by
  obtain ⟨p, hp⟩ := h
  have hw := hf.width_le
  have hlt : (f.contents p).toNat < 2 ^ 63 := hp ▸ hj
  rw [contents_eq_raw hw hlt] at hp
  have hi : (BitVec.ofNat 64 i).toNat = i := by
    rw [BitVec.toNat_ofNat]
    omega
  -- the smaller index can be stored, and nothing of it is lost
  obtain ⟨q, hq⟩ := exists_store hf hdisjoint (BitVec.ofNat 64 i)
  have hraw : f.raw q = BitVec.ofNat 64 i := by
    refine raw_store_eq hw hscale ?_ hq
    have hlt := raw_lt (f := f) p
    omega
  refine ⟨q, ?_⟩
  -- it does not count as negative, because the larger one does not
  have hcontents : f.contents q = f.raw q := by
    by_cases hword : f.width = 64
    · exact contents_of_width hword q
    · have hpos := not_negative_of_lt (by omega) hlt
      apply contents_of_not_negative
      by_contra hneg
      have hmono : f.isNegative (f.raw p) = true := by
        refine isNegative_mono hw ?_ (raw_lt p) (by simpa using hneg)
        rw [hraw, hi, hp]
        exact hij
      rw [hpos] at hmono
      simp at hmono
  rw [hcontents, hraw, hi]

theorem lookup?_of_lut (h : f.lut = some lut) (num : Word) :
    f.lookup? num = ((f.reach lut).idxOf? num).map (BitVec.ofNat 64) := by
  unfold lookup? reach
  rw [h]

theorem getElem?_of_reach (h : (f.reach lut)[i]? = some num) : lut[i]? = some num := by
  unfold reach at h
  split at h
  · rw [List.getElem?_take] at h
    split at h
    · exact h
    · simp at h
  · exact h

theorem getElem?_reach_of_lt (h : (f.reach lut)[i]? = some num) (hji : j < i) :
    (f.reach lut)[j]? = lut[j]? := by
  unfold reach at h ⊢
  split at h
  · next hstored =>
    rw [if_pos hstored]
    rw [List.getElem?_take] at h ⊢
    split at h
    · next hi => rw [if_pos (by omega)]
    · simp at h
  · next hstored => rw [if_neg hstored]

/-- What is done to an entry when it is read is undone when it is looked for. -/
theorem eq_entry_iff : (num ^^^ f.invert) + f.origin pc + f.addend = v ↔ num = f.entry v pc := by
  unfold entry
  constructor
  · rintro rfl
    rw [BitVec.add_sub_cancel, BitVec.add_sub_cancel, BitVec.xor_assoc, BitVec.xor_self,
      BitVec.xor_zero]
  · rintro rfl
    rw [BitVec.xor_assoc, BitVec.xor_self, BitVec.xor_zero, BitVec.sub_add_cancel,
      BitVec.sub_add_cancel]

theorem decode_eq_some_iff (h : f.lut = some lut) :
    f.decode p pc = some v ↔ lut[(f.contents p).toNat]? = some (f.entry v pc) := by
  unfold decode look
  rw [h, Option.map_eq_some_iff]
  constructor
  · intro ⟨num, hnum, hv⟩
    rw [← eq_entry_iff.1 hv]
    exact hnum
  · intro hentry
    exact ⟨f.entry v pc, hentry, eq_entry_iff.2 rfl⟩

/-! ## Reading and writing -/

theorem exists_decode_iff (hf : f.Tabled lut) :
    (∃ p, f.decode p pc = some v) ↔
      ∃ i, lut[i]? = some (f.entry v pc) ∧ f.HoldsIndex i := by
  constructor
  · intro ⟨p, hp⟩
    exact ⟨_, (decode_eq_some_iff hf.lut_eq).1 hp, p, rfl⟩
  · intro ⟨i, hi, p, hp⟩
    refine ⟨p, (decode_eq_some_iff hf.lut_eq).2 ?_⟩
    rw [hp]
    exact hi

/-- A number is written if the first index that is found is one that contents can stand for. -/
theorem exists_encode_iff (hf : f.Tabled lut) :
    (∃ q, f.encode Pattern.empty v pc = some q) ↔
      ∃ i, (f.reach lut).idxOf? (f.entry v pc) = some i ∧ f.HoldsIndex i := by
  have hw := hf.storable.width_le
  constructor
  · intro ⟨q, hq⟩
    have hback := decode_of_encode hf.wraps_eq hq
    obtain ⟨num, back, hnum, hstore, _⟩ := encode_eq_some.1 hq
    change f.lookup? (f.entry v pc) = some num at hnum
    rw [lookup?_of_lut hf.lut_eq, Option.map_eq_some_iff] at hnum
    obtain ⟨i, hfirst, rfl⟩ := hnum
    obtain ⟨hlt, hget, hbefore⟩ := List.idxOf?_eq_some_iff.1 hfirst
    have hentry : (f.reach lut)[i]? = some (f.entry v pc) := by
      rw [List.getElem?_eq_getElem hlt, hget]
    refine ⟨i, hfirst, q, ?_⟩
    -- the contents lead to an entry, so they are small
    have hread := (decode_eq_some_iff hf.lut_eq).1 hback
    have hlength := hf.length_le
    have hsmall : (f.contents q).toNat < lut.length := (List.getElem?_eq_some_iff.1 hread).1
    have hraw := contents_eq_raw hw (by omega : (f.contents q).toNat < 2 ^ 63)
    have hle : (f.contents q).toNat ≤ i := by
      rw [hraw]
      refine Nat.le_trans (raw_store_le hw hstore) ?_
      rw [BitVec.toNat_ofNat]
      exact Nat.mod_le i _
    -- and an entry before the first one would have been found
    by_contra hne
    have hji : (f.contents q).toNat < i := by omega
    rw [← getElem?_reach_of_lt hentry hji] at hread
    obtain ⟨hjlt, hjget⟩ := List.getElem?_eq_some_iff.1 hread
    exact hbefore _ hji hjget
  · intro ⟨i, hfirst, p, hp⟩
    obtain ⟨hlt, hget, _⟩ := List.idxOf?_eq_some_iff.1 hfirst
    have hentry : (f.reach lut)[i]? = some (f.entry v pc) := by
      rw [List.getElem?_eq_getElem hlt, hget]
    have hread : f.decode p pc = some v := by
      rw [decode_eq_some_iff hf.lut_eq, hp]
      exact getElem?_of_reach hentry
    -- storing the index copies the contents that stand for it
    obtain ⟨q, hstore, hcopies⟩ := store_contents hf.storable p
    have hindex : f.lookup? (f.entry v pc) = some (f.contents p) := by
      rw [lookup?_of_lut hf.lut_eq, hfirst, Option.map_some, ← hp, BitVec.ofNat_toNat,
        BitVec.setWidth_eq]
    exact ⟨q, encode_eq_some.2
      ⟨f.contents p, v, hindex, hstore, (hcopies.decode_eq pc).trans hread, agrees_refl f v⟩⟩

/-- Without a scale, an entry that contents lead to is found, if not there then before. -/
theorem exists_idxOf?_of_holdsIndex (hf : f.Tabled lut) (hscale : f.scale = 0)
    (h : lut[j]? = some num) (hj : f.HoldsIndex j) :
    ∃ i, (f.reach lut).idxOf? num = some i ∧ i ≤ j := by
  obtain ⟨p, hp⟩ := hj
  have hlength := hf.length_le
  have hlt : j < lut.length := (List.getElem?_eq_some_iff.1 h).1
  have hraw := contents_eq_raw hf.storable.width_le (by omega : (f.contents p).toNat < 2 ^ 63)
  have hreach : (f.reach lut)[j]? = some num := by
    unfold reach
    split
    · -- the contents are below the number of entries that are searched
      have hbound := raw_lt (f := f) p
      have hwidth : f.width = f.stored := by
        unfold width
        rw [hscale, Nat.zero_add]
      rw [← hraw, hp, hwidth] at hbound
      rw [List.getElem?_take, Nat.one_shiftLeft, if_pos hbound]
      exact h
    · exact h
  obtain ⟨hjlt, hjget⟩ := List.getElem?_eq_some_iff.1 hreach
  have hmem : num ∈ f.reach lut := hjget ▸ List.getElem_mem hjlt
  obtain ⟨i, hi⟩ := Option.isSome_iff_exists.1 (List.isSome_idxOf?.2 hmem)
  refine ⟨i, hi, ?_⟩
  by_contra hlater
  obtain ⟨_, _, hbefore⟩ := List.idxOf?_eq_some_iff.1 hi
  exact hbefore j (by omega) hjget

end Field

/-- **Which numbers a look-up table lets through.** In a field with a look-up table, at any
    position:

    * a number can be written exactly if the first index at which it is found, in the part of the
      table that is searched, is one that contents can stand for;
    * what was written is read back;
    * a number can be read exactly if it is anywhere in the table at such an index;
    * so, if there is no scale, the numbers that can be written are those that can be read. -/
theorem lookUp_encode_iff {f : Field} {lut : List Word} (hf : f.Tabled lut) (v pc : Word) :
    ((∃ q, f.encode Pattern.empty v pc = some q) ↔
      ∃ i, (f.reach lut).idxOf? (f.entry v pc) = some i ∧ f.HoldsIndex i) ∧
    (∀ q, f.encode Pattern.empty v pc = some q → f.decode q pc = some v) ∧
    ((∃ p, f.decode p pc = some v) ↔
      ∃ i, lut[i]? = some (f.entry v pc) ∧ f.HoldsIndex i) ∧
    (f.scale = 0 →
      ((∃ q, f.encode Pattern.empty v pc = some q) ↔ ∃ p, f.decode p pc = some v)) := by
  have hback : ∀ q, f.encode Pattern.empty v pc = some q → f.decode q pc = some v := by
    intro q hq
    exact Field.decode_of_encode hf.wraps_eq hq
  refine ⟨Field.exists_encode_iff hf, hback, Field.exists_decode_iff hf, ?_⟩
  intro hscale
  constructor
  · intro ⟨q, hq⟩
    exact ⟨q, hback q hq⟩
  · intro hread
    obtain ⟨j, hj, hholds⟩ := (Field.exists_decode_iff hf).1 hread
    obtain ⟨i, hi, hij⟩ := Field.exists_idxOf?_of_holdsIndex hf hscale hj hholds
    have hlength := hf.length_le
    have hjlt : j < lut.length := (List.getElem?_eq_some_iff.1 hj).1
    have hfirst : f.HoldsIndex i :=
      hholds.of_le hf.storable hf.disjoint hscale (by omega) hij
    exact (Field.exists_encode_iff hf).2 ⟨i, hi, hfirst⟩

/-- A split field without a scale, with an entry that comes twice. -/
def repeatedTable : Field where
  low := ⟨4, 2⟩
  high := ⟨12, 1⟩
  sign := .slightlySigned
  addend := 3
  lut := some [5, 7, 7, 9, 11]
  pcrel := some 1

/-- The second index of the entry is read, and the first one is written. -/
theorem lookUp_encode_iff_repeated :
    repeatedTable.Tabled [5, 7, 7, 9, 11] ∧ repeatedTable.decode ⟨0x20, 0⟩ 0x20 = some 0x2B ∧
    ∃ q, repeatedTable.encode Pattern.empty 0x2B 0x20 = some q ∧ q.value = 0x10 ∧
      repeatedTable.decode q 0x20 = some 0x2B := by
  have hf : repeatedTable.Tabled [5, 7, 7, 9, 11] := by
    refine ⟨rfl, by decide, rfl, ⟨by decide, by decide, by decide⟩, ?_⟩
    intro i hlow hhigh
    simp only [repeatedTable, Span.Covers] at hlow hhigh
    omega
  have hread : repeatedTable.decode ⟨0x20, 0⟩ 0x20 = some 0x2B := by decide
  obtain ⟨_, hback, _, hsame⟩ := lookUp_encode_iff hf 0x2B 0x20
  obtain ⟨q, hq⟩ := (hsame rfl).2 ⟨_, hread⟩
  have hvalue : ∀ q ∈ repeatedTable.encode Pattern.empty 0x2B 0x20, q.value = 0x10 := by decide
  exact ⟨hf, hread, q, hq, hvalue q hq, hback q hq⟩

/-- One bit is stored, for the indices 0 and 2. -/
def shortTable : Field := { low := ⟨0, 1⟩, scale := 1, lut := some [10, 20, 30] }

/-- Two bits are stored, for the indices 0, 2, 4 and 6. -/
def hiddenTable : Field := { low := ⟨0, 2⟩, scale := 1, lut := some [9, 7, 7] }

/-- **Numbers that can be read and not written.** With a scale, an index that contents can stand
    for may be past the part of the table that is searched, or it may be hidden by an earlier index
    that contents cannot stand for. -/
theorem scaledTables_miss :
    (shortTable.Tabled [10, 20, 30] ∧ shortTable.decode ⟨1, 0⟩ 0 = some 30 ∧
      shortTable.encode Pattern.empty 30 0 = none) ∧
    (hiddenTable.Tabled [9, 7, 7] ∧ hiddenTable.decode ⟨1, 0⟩ 0 = some 7 ∧
      hiddenTable.encode Pattern.empty 7 0 = none) := by
  refine ⟨⟨⟨rfl, by decide, rfl, ⟨by decide, by decide, by decide⟩, ?_⟩, by decide, by decide⟩,
    ⟨rfl, by decide, rfl, ⟨by decide, by decide, by decide⟩, ?_⟩, by decide, by decide⟩
  · intro i hlow hhigh
    simp only [shortTable, Span.Covers] at hlow hhigh
    omega
  · intro i hlow hhigh
    simp only [hiddenTable, Span.Covers] at hlow hhigh
    omega

end TableAsm
