import TableAsm.Field
import TableAsm.Proofs.Pattern

/-! # Fields that are written

  - `Field.encode_eq_some` lists what a write into a field has to get
    through, and `Field.Agrees` is the comparison at its end.
  - A write keeps what is decided (`Field.le_encode`) and decides both
    spans of the field (`Field.claims_encode`).
  - What is read from a field depends on its spans alone
    (`Field.decode_congr`). So a field that has been written reads the same
    for ever after (`Field.decode_of_le`).
-/

namespace TableAsm

theorem Word.toNat_and_lowMask {n : Nat} (h : n < 64) (v : Word) :
    (v &&& Word.lowMask n).toNat = v.toNat % 2 ^ n := by
  rw [BitVec.toNat_and, Word.toNat_lowMask h, Nat.and_two_pow_sub_one_eq_mod]

namespace Field

/-- The field does not tell the numbers apart: they are equal, at least in the bits that are
    known if the field wraps. -/
def Agrees (f : Field) (back v : Word) : Prop :=
  if f.wraps = true ∧ f.width < 64 then back.toNat % 2 ^ f.width = v.toNat % 2 ^ f.width
  else back = v

theorem and_checked_eq_iff (f : Field) (back v : Word) :
    back &&& f.checked = v &&& f.checked ↔ f.Agrees back v := by
  unfold checked Agrees
  split
  · next h => rw [← BitVec.toNat_inj, Word.toNat_and_lowMask h.2, Word.toNat_and_lowMask h.2]
  · rw [BitVec.and_allOnes, BitVec.and_allOnes]

variable {f : Field} {p q : Pattern} {v pc num : Word}

theorem store_eq_some :
    f.store p num = some q ↔
      ∃ p₁, p.write f.low (Word.shr num f.scale) = some p₁ ∧
        p₁.write f.high (Word.shr (Word.shr num f.scale) f.low.len) = some q :=
  Option.bind_eq_some_iff

/-- What a write into a field has to get through. -/
theorem encode_eq_some :
    f.encode p v pc = some q ↔
      ∃ num back, f.lookup? ((v - f.addend - f.origin pc) ^^^ f.invert) = some num ∧
        f.store p num = some q ∧ f.decode q pc = some back ∧ f.Agrees back v := by
  simp only [encode, Option.bind_eq_bind, Option.bind_eq_some_iff]
  constructor
  · rintro ⟨num, hnum, q', hstore, back, hback, hif⟩
    split at hif
    · next hagrees =>
      simp only [Option.some.injEq] at hif
      subst hif
      exact ⟨num, back, hnum, hstore, hback, (and_checked_eq_iff f back v).1 hagrees⟩
    · simp at hif
  · rintro ⟨num, back, hnum, hstore, hback, hagrees⟩
    exact ⟨num, hnum, q, hstore, back, hback, if_pos ((and_checked_eq_iff f back v).2 hagrees)⟩

theorem le_store (h : f.store p num = some q) : p ≤ q := by
  obtain ⟨p₁, hlow, hhigh⟩ := store_eq_some.1 h
  exact Pattern.le_trans (Pattern.le_write hlow) (Pattern.le_write hhigh)

theorem claims_store (h : f.store p num = some q) : q.Claims f.low ∧ q.Claims f.high := by
  obtain ⟨p₁, hlow, hhigh⟩ := store_eq_some.1 h
  exact ⟨(Pattern.claims_write hlow).mono (Pattern.le_write hhigh), Pattern.claims_write hhigh⟩

theorem le_encode (h : f.encode p v pc = some q) : p ≤ q := by
  obtain ⟨num, back, _, hstore, _⟩ := encode_eq_some.1 h
  exact le_store hstore

theorem claims_encode (h : f.encode p v pc = some q) : q.Claims f.low ∧ q.Claims f.high := by
  obtain ⟨num, back, _, hstore, _⟩ := encode_eq_some.1 h
  exact claims_store hstore

/-- What is read depends on the spans of the field alone. -/
theorem decode_congr (hlow : q.read f.low = p.read f.low) (hhigh : q.read f.high = p.read f.high)
    (pc : Word) : f.decode q pc = f.decode p pc := by
  unfold decode contents raw
  rw [hlow, hhigh]

/-- A field that is decided reads the same whatever is written later. -/
theorem decode_of_le (hle : p ≤ q) (hclaims : p.Claims f.low ∧ p.Claims f.high) (pc : Word) :
    f.decode q pc = f.decode p pc :=
  decode_congr (Pattern.read_of_le hle hclaims.1) (Pattern.read_of_le hle hclaims.2) pc

end Field

end TableAsm
