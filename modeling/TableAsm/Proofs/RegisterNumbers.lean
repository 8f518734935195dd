import Mathlib.Data.List.Basic
import TableAsm.Proofs.RoundTrip
import TableAsm.Table

/-! # Register numbers

  A register operand is a name, a decimal numeral and an ending. What is
  stored in its field is a number that the numeral and the ending stand
  for together.

  - `RegisterPart` is what the ending says: the whole register, or one of
    its halves.
  - `Register.Spells` is the form of an operand, said without reading it.
    An operand has one form at most (`Register.Spells.unique`), and
    `Register.spelled?_eq_some` says that reading it finds this form.
  - `register_numbers_written` is the result. The number is computed in a
    word, and half registers are counted twice as far as whole ones. So
    halves of the registers from `2 ^ 63` on are written as halves of other
    registers (`wrappedHalf_written`).
-/

namespace TableAsm

/-! ## Numerals -/

namespace Word

theorem shl_one (n : Word) : shl n 1 = BitVec.ofNat 64 (2 * n.toNat) := by
  apply BitVec.eq_of_toNat_eq
  rw [shl_eq, BitVec.toNat_shiftLeft, BitVec.toNat_ofNat, Nat.shiftLeft_eq, Nat.mul_comm]

theorem shl_one_or_one (n : Word) : shl n 1 ||| 1 = BitVec.ofNat 64 (2 * n.toNat + 1) := by
  -- the lowest bit is free after the shift
  have hfree : shl n 1 &&& 1 = 0 := by
    apply BitVec.eq_of_getLsbD_eq
    intro i _
    rw [BitVec.getLsbD_and, getLsbD_shl]
    by_cases hi : i = 0
    · simp [hi]
    · simp [BitVec.getLsbD_one, hi]
  rw [← BitVec.add_eq_or_of_and_eq_zero _ _ hfree, shl_one, BitVec.ofNat_add]
  rfl

end Word

namespace Numeral

/-- One decimal digit or more, and nothing else. -/
def IsDecimal (digits : List Char) : Prop := digits ≠ [] ∧ digits.all Char.isDigit = true

instance (digits : List Char) : Decidable (IsDecimal digits) :=
  inferInstanceAs (Decidable (_ ∧ _))

theorem word?_eq_some {digits : List Char} {n : Word} :
    word? digits = some n ↔ IsDecimal digits ∧ value digits = n.toNat := by
  have hsize : UInt64.size = 2 ^ 64 := rfl
  unfold word? IsDecimal
  constructor
  · intro h
    split at h
    · next hok =>
      obtain ⟨hne, hall, hlt⟩ := hok
      obtain rfl := Option.some.inj h
      rw [BitVec.toNat_ofNat, Nat.mod_eq_of_lt (hsize ▸ hlt)]
      exact ⟨⟨hne, hall⟩, rfl⟩
    · simp at h
  · rintro ⟨⟨hne, hall⟩, hvalue⟩
    have hlt : value digits < UInt64.size := by
      rw [hvalue, hsize]
      exact n.isLt
    rw [if_pos ⟨hne, hall, hlt⟩, hvalue, BitVec.ofNat_toNat, BitVec.setWidth_eq]

end Numeral

/-- The field is read as this number at position 0, and at every other position unless it counts
    from there. -/
def Field.Shows (f : Field) (p : Pattern) (v : Word) : Prop :=
  ∀ pc, f.pcrel = none ∨ pc = 0 → f.decode p pc = some v

theorem Field.shows_of_decode {f : Field} {p : Pattern} {v : Word} (h : f.decode p 0 = some v) :
    f.Shows p v := by
  rintro pc (hpcrel | rfl)
  · have horigin : f.origin pc = f.origin 0 := by
      unfold Field.origin
      rw [hpcrel]
    unfold Field.decode at h ⊢
    rw [horigin, h]
  · exact h

/-! ## Spellings -/

/-- The part of a register that an operand names. -/
inductive RegisterPart where
  | whole
  | low
  | high
deriving DecidableEq, Repr

namespace RegisterPart

/-- What an operand for this part ends in. -/
def ending (r : Register) : RegisterPart → List Char
  | .whole => r.suffix.toList
  | .low => ['l']
  | .high => ['h']

/-- The number of this part of register `n`. -/
def number (n : Nat) : RegisterPart → Nat
  | .whole => n
  | .low => 2 * n
  | .high => 2 * n + 1

/-- Do the operands of `r` name parts of this kind? -/
def Suits (r : Register) (part : RegisterPart) : Prop := part = .whole ↔ r.halves = false

instance (r : Register) (part : RegisterPart) : Decidable (part.Suits r) :=
  inferInstanceAs (Decidable (_ ↔ _))

variable {r : Register} {part part' : RegisterPart} {n n' : Nat}

/-- The operands of a register name halves or whole registers, and the ending says which half. -/
theorem ending_inj (h : part.Suits r) (h' : part'.Suits r)
    (heq : part.ending r = part'.ending r) : part = part' := by
  unfold Suits at h h'
  cases part <;> cases part' <;> simp_all [ending]

theorem number_inj (h : part.Suits r) (h' : part'.Suits r)
    (heq : part.number n = part'.number n') : n = n' ∧ part = part' := by
  unfold Suits at h h'
  cases part <;> cases part' <;> simp_all [number] <;> omega

end RegisterPart

namespace Register

/-- The operand is the register's name, these digits and the ending of this part. The numeral
    takes all the digits there are. -/
structure Spells (r : Register) (s : String) (digits : List Char) (part : RegisterPart) : Prop where
  text : s.toList = r.name.toList ++ (digits ++ part.ending r)
  decimal : Numeral.IsDecimal digits
  suits : part.Suits r
  stops : ∀ c ∈ (part.ending r).head?, c.isDigit = false

variable {r : Register} {s : String} {digits digits' : List Char} {part part' : RegisterPart}

theorem Spells.takeWhile_eq (h : r.Spells s digits part) :
    (digits ++ part.ending r).takeWhile Char.isDigit = digits := by
  have hall : ∀ c ∈ digits, c.isDigit = true := List.all_eq_true.1 h.decimal.2
  rw [List.takeWhile_append_of_pos hall]
  cases hend : part.ending r with
  | nil => simp
  | cons c rest => simp [h.stops c (by simp [hend])]

theorem Spells.dropWhile_eq (h : r.Spells s digits part) :
    (digits ++ part.ending r).dropWhile Char.isDigit = part.ending r := by
  have hsplit := List.takeWhile_append_dropWhile (p := Char.isDigit) (l := digits ++ part.ending r)
  rw [h.takeWhile_eq] at hsplit
  exact List.append_cancel_left hsplit

/-- An operand has one form at most. -/
theorem Spells.unique (h : r.Spells s digits part) (h' : r.Spells s digits' part') :
    digits = digits' ∧ part = part' := by
  have htext : digits ++ part.ending r = digits' ++ part'.ending r :=
    List.append_cancel_left (h.text.symm.trans h'.text)
  have hdigits : digits = digits' := by
    rw [← h.takeWhile_eq, htext, h'.takeWhile_eq]
  have hending : part.ending r = part'.ending r := by
    rw [← h.dropWhile_eq, htext, h'.dropWhile_eq]
  exact ⟨hdigits, RegisterPart.ending_inj h.suits h'.suits hending⟩

/-! ## Reading an operand -/

theorem finish?_eq_some {n m : Word} {ending : List Char} :
    r.finish? n ending = some m ↔
      ∃ part : RegisterPart, part.Suits r ∧ ending = part.ending r ∧
        m = BitVec.ofNat 64 (part.number n.toNat) := by
  unfold finish? RegisterPart.Suits
  constructor
  · intro h
    split at h
    · next hhalves =>
      split at h
      · next hlow =>
        obtain rfl := Option.some.inj h
        exact ⟨.low, by simp [hhalves], hlow, Word.shl_one n⟩
      · split at h
        · next hhigh =>
          obtain rfl := Option.some.inj h
          exact ⟨.high, by simp [hhalves], hhigh, Word.shl_one_or_one n⟩
        · simp at h
    · next hwhole =>
      split at h
      · next hsuffix =>
        obtain rfl := Option.some.inj h
        exact ⟨.whole, by simpa using hwhole, hsuffix, by simp [RegisterPart.number]⟩
      · simp at h
  · rintro ⟨part, hsuits, rfl, rfl⟩
    cases part with
    | whole => simp [hsuits.1 rfl, RegisterPart.ending, RegisterPart.number]
    | low =>
      have hhalves : r.halves = true := by simpa using hsuits
      simp [hhalves, RegisterPart.ending, RegisterPart.number, Word.shl_one]
    | high =>
      have hhalves : r.halves = true := by simpa using hsuits
      simpa [hhalves, RegisterPart.ending, RegisterPart.number] using Word.shl_one_or_one n

/-- Reading an operand finds its form. The number behind it is cut to a word. -/
theorem spelled?_eq_some (hfield : r.field.isSome = true) {m : Word} :
    r.spelled? s = some m ↔
      ∃ digits part, r.Spells s digits part ∧ Numeral.value digits < 2 ^ 64 ∧
        m = BitVec.ofNat 64 (part.number (Numeral.value digits)) := by
  simp only [spelled?, Option.bind_eq_bind, Option.bind_eq_some_iff,
    List.isPrefixOf?_eq_some_iff_append_eq]
  constructor
  · rintro ⟨rest, hrest, n, hindex, hfinish⟩
    obtain ⟨part, hsuits, hending, rfl⟩ := finish?_eq_some.1 hfinish
    have hword : Numeral.word? (rest.takeWhile Char.isDigit) = some n := by
      unfold index? at hindex
      split at hindex
      · simp at hindex
      · exact hindex
    obtain ⟨hdecimal, hvalue⟩ := Numeral.word?_eq_some.1 hword
    refine ⟨rest.takeWhile Char.isDigit, part, ⟨?_, hdecimal, hsuits, ?_⟩, ?_, ?_⟩
    · rw [← hending, List.takeWhile_append_dropWhile]
      exact hrest.symm
    · intro c hc
      have hhead := List.head?_dropWhile_not Char.isDigit rest
      rw [hending, Option.mem_def.1 hc] at hhead
      exact hhead
    · rw [hvalue]
      exact n.isLt
    · rw [hvalue]
  · rintro ⟨digits, part, hspells, hlt, rfl⟩
    refine ⟨digits ++ part.ending r, hspells.text.symm, BitVec.ofNat 64 (Numeral.value digits),
      ?_, ?_⟩
    · have hvalue : Numeral.value digits = (BitVec.ofNat 64 (Numeral.value digits)).toNat := by
        rw [BitVec.toNat_ofNat, Nat.mod_eq_of_lt hlt]
      rw [hspells.takeWhile_eq, index?, if_neg hspells.decimal.1]
      exact Numeral.word?_eq_some.2 ⟨hspells.decimal, hvalue⟩
    · refine finish?_eq_some.2 ⟨part, hspells.suits, hspells.dropWhile_eq, ?_⟩
      rw [BitVec.toNat_ofNat, Nat.mod_eq_of_lt hlt]

/-- No special spelling that is in effect takes the operand. -/
def Regular (sel : Selector) (r : Register) (s : String) : Prop :=
  ∀ special ∈ r.specials, sel.accepts special.features 0 = true → special.spelling ≠ .named s

instance (sel : Selector) (r : Register) (s : String) : Decidable (r.Regular sel s) :=
  inferInstanceAs (Decidable (∀ special ∈ r.specials, _ → _))

variable {sel : Selector} {f : Field} {p q q' : Pattern}

theorem number?_of_regular (h : r.Regular sel s) : r.number? sel (.reg s) = r.spelled? s := by
  have hspecial : r.special? sel (.reg s) = none := by
    rw [special?, Option.map_eq_none_iff, List.find?_eq_none]
    intro special hmem htaken
    obtain ⟨haccepts, hspelled⟩ := Bool.and_eq_true_iff.1 htaken
    have hne := h special hmem haccepts
    cases halias : special.spelling with
    | named name =>
      rw [halias] at hspelled hne
      simp [Alias.spelledBy] at hspelled
      exact hne (by rw [hspelled])
    | _ => simp [halias, Alias.spelledBy] at hspelled
  simp [number?, hspecial]

/-- What has to be there for an operand to be written. -/
theorem encode_eq_some (hfield : r.field = some f) (h : r.Regular sel s) :
    r.encode sel (.reg s) p = some q ↔
      ∃ digits part, r.Spells s digits part ∧ Numeral.value digits < 2 ^ 64 ∧
        f.encode p (BitVec.ofNat 64 (part.number (Numeral.value digits))) 0 = some q := by
  have hsome : r.field.isSome = true := by simp [hfield]
  rw [encode, number?_of_regular h, Option.bind_eq_some_iff]
  simp only [store, hfield, spelled?_eq_some hsome]
  constructor
  · rintro ⟨m, ⟨digits, part, hspells, hlt, rfl⟩, hq⟩
    exact ⟨digits, part, hspells, hlt, hq⟩
  · rintro ⟨digits, part, hspells, hlt, hq⟩
    exact ⟨_, ⟨digits, part, hspells, hlt, rfl⟩, hq⟩

/-- The operand is the register's, and this is what has been written for it. -/
theorem encode_of_spells (hfield : r.field = some f) (h : r.Regular sel s)
    (hspells : r.Spells s digits part) (hq : r.encode sel (.reg s) p = some q) :
    Numeral.value digits < 2 ^ 64 ∧
      f.encode p (BitVec.ofNat 64 (part.number (Numeral.value digits))) 0 = some q := by
  obtain ⟨digits', part', hspells', hlt, hencode⟩ := (encode_eq_some hfield h).1 hq
  obtain ⟨rfl, rfl⟩ := hspells.unique hspells'
  exact ⟨hlt, hencode⟩

/-! ## Numbers that a word can hold -/

/-- The number of this part is not cut when it is put into a word. -/
def Exact (digits : List Char) (part : RegisterPart) : Prop :=
  part = .whole ∨ Numeral.value digits < 2 ^ 63

theorem Exact.number_mod (h : Exact digits part) (hlt : Numeral.value digits < 2 ^ 64) :
    part.number (Numeral.value digits) % 2 ^ 64 = part.number (Numeral.value digits) := by
  apply Nat.mod_eq_of_lt
  rcases h with rfl | hhalf
  · exact hlt
  · cases part with
    | whole => exact hlt
    | low =>
      show 2 * Numeral.value digits < 2 ^ 64
      omega
    | high =>
      show 2 * Numeral.value digits + 1 < 2 ^ 64
      omega

end Register

/-! ## The result -/

/-- **What is written for a register operand.** Let the register have a field that keeps every bit
    of a number, and let no special spelling take the operand.

    * The atom writes the operand into an empty pattern.
    * This succeeds exactly if the operand is spelled as a register or half register, with a
      numeral that fits a word, and the field can hold the number in question, cut to a word.
    * The number is then read back. It is the number of the register or half register, except for
      halves of the registers from `2 ^ 63` on.
    * Two operands are written alike exactly if their numbers are equal when cut to words. So, with
      the same exception, they have numerals of the same value and name the same part. -/
theorem register_numbers_written {r : Register} {f : Field} (hfield : r.field = some f)
    (hwraps : f.wraps = false) {sel : Selector} {s : String} (hs : r.Regular sel s) :
    (∀ (items : List Item) (pos : Nat), items[pos]? = some (.expr (.reg s)) →
      (Leaf.reg r).candidate? sel items pos =
        (r.encode sel (.reg s) Pattern.empty).map fun q => { pattern := q, pos := pos + 1 }) ∧
    (∀ q, r.encode sel (.reg s) Pattern.empty = some q ↔
      ∃ digits part, r.Spells s digits part ∧ Numeral.value digits < 2 ^ 64 ∧
        f.encode Pattern.empty (BitVec.ofNat 64 (part.number (Numeral.value digits))) 0 =
          some q) ∧
    (∀ q digits part, r.encode sel (.reg s) Pattern.empty = some q → r.Spells s digits part →
      (∃ v, f.Shows q v ∧ v.toNat = part.number (Numeral.value digits) % 2 ^ 64 ∧
        (Register.Exact digits part → v.toNat = part.number (Numeral.value digits))) ∧
      ∀ t q' digits' part', r.Regular sel t → r.encode sel (.reg t) Pattern.empty = some q' →
        r.Spells t digits' part' →
        (q = q' ↔ part.number (Numeral.value digits) % 2 ^ 64 =
          part'.number (Numeral.value digits') % 2 ^ 64) ∧
        (Register.Exact digits part → Register.Exact digits' part' → q = q' →
          Numeral.value digits = Numeral.value digits' ∧ part = part')) := by
  refine ⟨?_, fun q => Register.encode_eq_some hfield hs, ?_⟩
  · intro items pos hitem
    simp only [Leaf.candidate?, hitem, Option.bind_some]
    rfl
  · intro q digits part hq hspells
    obtain ⟨hlt, hencode⟩ := Register.encode_of_spells hfield hs hspells hq
    have hdecode := Field.decode_of_encode hwraps hencode
    refine ⟨⟨_, Field.shows_of_decode hdecode, BitVec.toNat_ofNat _ _, ?_⟩, ?_⟩
    · intro hexact
      rw [BitVec.toNat_ofNat, hexact.number_mod hlt]
    · intro t q' digits' part' ht hq' hspells'
      obtain ⟨hlt', hencode'⟩ := Register.encode_of_spells hfield ht hspells' hq'
      have hdecode' := Field.decode_of_encode hwraps hencode'
      -- equal patterns are read as equal words, and equal words leave equal patterns
      have hiff : q = q' ↔ part.number (Numeral.value digits) % 2 ^ 64 =
          part'.number (Numeral.value digits') % 2 ^ 64 := by
        rw [← BitVec.toNat_ofNat, ← BitVec.toNat_ofNat, BitVec.toNat_inj]
        constructor
        · rintro rfl
          exact Option.some.inj (hdecode.symm.trans hdecode')
        · intro heq
          rw [heq] at hencode
          exact Option.some.inj (hencode.symm.trans hencode')
      refine ⟨hiff, fun hexact hexact' heq => ?_⟩
      have hnumber := hiff.1 heq
      rw [hexact.number_mod hlt, hexact'.number_mod hlt'] at hnumber
      exact RegisterPart.number_inj hspells.suits hspells'.suits hnumber

/-- Halves of registers in six bits. -/
def halfRegister : Register where
  field := some (Field.ofSpan 0 6)
  name := "$h"
  specials := [⟨0, .named "$hz", 4⟩]
  halves := true

/-- The high half of register 31 is number 63, also with a leading zero. -/
theorem register_numbers_written_half :
    halfRegister.Regular {} "$h031h" ∧ halfRegister.Spells "$h031h" ['0', '3', '1'] .high ∧
    ∃ q, halfRegister.encode {} (.reg "$h031h") Pattern.empty = some q ∧
      (Leaf.reg halfRegister).candidate? {} [.expr (.reg "$h031h")] 0 =
        some { pattern := q, pos := 1 } ∧
      ∃ v, (Field.ofSpan 0 6).Shows q v ∧ v.toNat = 63 := by
  have hregular : halfRegister.Regular {} "$h031h" := by decide
  have hspells : halfRegister.Spells "$h031h" ['0', '3', '1'] .high :=
    ⟨by decide, by decide, by decide, by simp [RegisterPart.ending]⟩
  obtain ⟨hatom, _, hread⟩ := register_numbers_written (r := halfRegister) rfl rfl hregular
  obtain ⟨q, hq⟩ : ∃ q, halfRegister.encode {} (.reg "$h031h") Pattern.empty = some q :=
    Option.isSome_iff_exists.1 (by decide)
  obtain ⟨⟨v, hv, _, hexact⟩, _⟩ := hread q _ _ hq hspells
  refine ⟨hregular, hspells, q, hq, ?_, v, hv, hexact (.inr (by decide))⟩
  rw [hatom [.expr (.reg "$h031h")] 0 rfl, hq]
  rfl

/-- **Halves that are written as other halves.** The low half of register `2 ^ 63` has the number
    `2 ^ 64`, which no word can hold. What is written is number 0, the low half of register 0. -/
theorem wrappedHalf_written :
    halfRegister.Regular {} "$h9223372036854775808l" ∧
    halfRegister.Spells "$h9223372036854775808l" "9223372036854775808".toList .low ∧
    RegisterPart.number (Numeral.value "9223372036854775808".toList) .low = 2 ^ 64 ∧
    ∃ q, halfRegister.encode {} (.reg "$h9223372036854775808l") Pattern.empty = some q ∧
      halfRegister.encode {} (.reg "$h0l") Pattern.empty = some q ∧
      (Field.ofSpan 0 6).decode q 0 = some 0 := by
  obtain ⟨q, hq⟩ : ∃ q, halfRegister.encode {} (.reg "$h0l") Pattern.empty = some q :=
    Option.isSome_iff_exists.1 (by decide)
  have hsame : halfRegister.encode {} (.reg "$h9223372036854775808l") Pattern.empty =
      halfRegister.encode {} (.reg "$h0l") Pattern.empty := by
    decide
  have hread : ∀ q ∈ halfRegister.encode {} (.reg "$h0l") Pattern.empty,
      (Field.ofSpan 0 6).decode q 0 = some 0 := by
    decide
  have hspells : halfRegister.Spells "$h9223372036854775808l" "9223372036854775808".toList .low :=
    ⟨by decide, by decide, by decide, by simp [RegisterPart.ending]⟩
  exact ⟨by decide, hspells, by decide, q, hsame.trans hq, hq, hread q hq⟩

end TableAsm
