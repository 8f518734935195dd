import Mathlib.Algebra.Group.Nat.Defs
import TableAsm.Pattern

/-! # Patterns bit by bit

  What the operations on patterns do is said here one bit at a time.

  - `p ≤ q` means that `q` keeps everything that `p` has decided.
  - `Pattern.write_spec` says what a write does to every bit. A write goes
    up in the order (`Pattern.le_write`), and it decides its whole span
    (`Pattern.claims_write`).
  - What is read from a span that is decided does not change any more
    (`Pattern.read_of_le`).
  - `Pattern.load` puts bytes into a pattern, and bytes that were taken
    from a pattern give back its bits (`Pattern.getLsbD_load_bytes`).
-/

namespace TableAsm

theorem Word.toNat_lowMask {n : Nat} (h : n < 64) : (Word.lowMask n).toNat = 2 ^ n - 1 := by
  have hlt : 2 ^ n < 2 ^ 64 := Nat.pow_lt_pow_right (by decide) h
  have hpos : 0 < 2 ^ n := Nat.two_pow_pos n
  have hshl : ((1 : Word) <<< n).toNat = 2 ^ n := by
    rw [BitVec.toNat_shiftLeft, Nat.shiftLeft_eq]
    show 1 * 2 ^ n % 2 ^ 64 = 2 ^ n
    rw [Nat.one_mul, Nat.mod_eq_of_lt hlt]
  unfold Word.lowMask
  rw [if_pos h, BitVec.toNat_sub_of_le]
  · rw [hshl]
    rfl
  · rw [BitVec.le_def, hshl]
    exact hpos

theorem Word.getLsbD_lowMask (n i : Nat) :
    (Word.lowMask n).getLsbD i = decide (i < n ∧ i < 64) := by
  by_cases h : n < 64
  · rw [← BitVec.testBit_toNat, Word.toNat_lowMask h, Nat.testBit_two_pow_sub_one,
      decide_eq_decide]
    omega
  · unfold Word.lowMask
    rw [if_neg h, BitVec.getLsbD_allOnes, decide_eq_decide]
    omega

/-! ## Spans -/

/-- Is a bit one of those that a span is made of? -/
def Span.Covers (s : Span) (i : Nat) : Prop := s.pos ≤ i ∧ i < s.pos + s.len

instance (s : Span) (i : Nat) : Decidable (s.Covers i) :=
  inferInstanceAs (Decidable (_ ∧ _))

namespace Pattern

theorem getLsbD_read (p : Pattern) (s : Span) (i : Nat) :
    (p.read s).getLsbD i = (decide (i < s.len ∧ i < 64) && p.value.getLsbD (s.pos + i)) := by
  unfold read
  split
  · rw [BitVec.getLsbD_and, Word.getLsbD_lowMask, BitVec.getLsbD_setWidth,
      BitVec.getLsbD_ushiftRight]
    by_cases hi : i < 64
    · simp [hi, Bool.and_comm]
    · simp [hi]
  · -- a span past the end reads as zero, and so does each of its bits
    next h =>
    have hge : p.value.getLsbD (s.pos + i) = false := by
      apply BitVec.getLsbD_of_ge
      simp only [bits] at h
      omega
    simp [hge]

theorem getLsbD_spanMask {s : Span} (hlen : s.len ≤ 64) (hend : s.pos + s.len ≤ bits) (i : Nat) :
    (spanMask s).getLsbD i = decide (s.Covers i) := by
  simp only [bits] at hend
  unfold spanMask
  rw [BitVec.getLsbD_shiftLeft, BitVec.getLsbD_setWidth, Word.getLsbD_lowMask]
  by_cases hc : s.Covers i
  · obtain ⟨hlo, hhi⟩ := hc
    have h1 : i < 128 := by omega
    have h2 : ¬ i < s.pos := by omega
    have h3 : i - s.pos < 128 := by omega
    have h4 : i - s.pos < s.len ∧ i - s.pos < 64 := by omega
    simp [Span.Covers, h1, h2, h3, h4, hlo, hhi]
  · have h1 : i < s.pos ∨ ¬ i - s.pos < s.len := by
      unfold Span.Covers at hc
      omega
    rcases h1 with h1 | h1
    · simp [hc, h1]
    · simp [hc, h1]

theorem getLsbD_spanBits {s : Span} (hlen : s.len ≤ 64) (hend : s.pos + s.len ≤ bits)
    (num : Word) (i : Nat) :
    (spanBits s num).getLsbD i = (decide (s.Covers i) && num.getLsbD (i - s.pos)) := by
  rw [← getLsbD_spanMask hlen hend]
  unfold spanBits spanMask
  simp only [BitVec.getLsbD_shiftLeft, BitVec.getLsbD_setWidth, BitVec.getLsbD_and]
  cases num.getLsbD (i - s.pos) <;> simp

/-! ## Writing -/

/-- Bits put in place of those of a span. -/
theorem getLsbD_put {s : Span} (hlen : s.len ≤ 64) (hend : s.pos + s.len ≤ bits)
    (v : BitVec 128) (num : Word) (i : Nat) :
    ((v &&& ~~~ spanMask s) ||| spanBits s num).getLsbD i =
      if s.Covers i then num.getLsbD (i - s.pos) else v.getLsbD i := by
  rw [BitVec.getLsbD_or, BitVec.getLsbD_and, BitVec.getLsbD_not, getLsbD_spanMask hlen hend,
    getLsbD_spanBits hlen hend]
  by_cases hc : s.Covers i
  · simp [hc]
  · by_cases hi : i < 128
    · simp [hc, hi]
    · simp [hc, BitVec.getLsbD_of_ge v i (by omega)]

/-- A write that is not refused finds no claimed bit with another value. -/
theorem agree_of_free {p : Pattern} {s : Span} {num : Word} (hlen : s.len ≤ 64)
    (hend : s.pos + s.len ≤ bits)
    (hfree : (p.value ^^^ spanBits s num) &&& p.claimed &&& spanMask s = 0) {i : Nat}
    (hi : p.isClaimed i = true) (hc : s.Covers i) :
    p.value.getLsbD i = num.getLsbD (i - s.pos) := by
  have hbit := congrArg (fun v : BitVec 128 => v.getLsbD i) hfree
  have hcl : p.claimed.getLsbD i = true := hi
  simpa [getLsbD_spanMask hlen hend, getLsbD_spanBits hlen hend, hc, hcl] using hbit

/-- What a write does to every bit. Its span holds the number and is claimed, the other bits are
    as they were, and no claimed bit had another value. -/
theorem write_spec {p q : Pattern} {s : Span} {num : Word} (h : p.write s num = some q) (i : Nat) :
    q.isClaimed i = (p.isClaimed i || decide (s.Covers i)) ∧
    q.value.getLsbD i = (if s.Covers i then num.getLsbD (i - s.pos) else p.value.getLsbD i) ∧
    (p.isClaimed i = true → s.Covers i → p.value.getLsbD i = num.getLsbD (i - s.pos)) := by
  unfold write at h
  split at h
  · next hzero =>
    -- an empty span covers nothing
    have hc : ¬ s.Covers i := by
      unfold Span.Covers
      omega
    simp only [Option.some.injEq] at h
    subst h
    simp [hc]
  · split at h
    · simp at h
    · -- the span is one that can be written
      next hfit =>
      have hlen : s.len ≤ 64 := by omega
      have hend : s.pos + s.len ≤ bits := by omega
      split at h
      · next hfree =>
        simp only [Option.some.injEq] at h
        subst h
        refine ⟨?_, getLsbD_put hlen hend p.value num i, agree_of_free hlen hend hfree⟩
        rw [isClaimed, BitVec.getLsbD_or, getLsbD_spanMask hlen hend]
        rfl
      · simp at h

/-! ## The order -/

/-- Everything that the one has decided, the other has decided in the same way. -/
instance : LE Pattern where
  le p q := ∀ i, p.isClaimed i = true → q.isClaimed i = true ∧ q.value.getLsbD i = p.value.getLsbD i

protected theorem le_refl (p : Pattern) : p ≤ p := fun _ h => ⟨h, rfl⟩

protected theorem le_trans {p q r : Pattern} (hpq : p ≤ q) (hqr : q ≤ r) : p ≤ r := by
  intro i hi
  obtain ⟨hq, hpqv⟩ := hpq i hi
  obtain ⟨hr, hqrv⟩ := hqr i hq
  exact ⟨hr, hqrv.trans hpqv⟩

theorem le_write {p q : Pattern} {s : Span} {num : Word} (h : p.write s num = some q) : p ≤ q := by
  intro i hi
  obtain ⟨hcl, hval, hagree⟩ := write_spec h i
  refine ⟨by rw [hcl, hi]; rfl, ?_⟩
  rw [hval]
  split
  · next hc => exact (hagree hi hc).symm
  · rfl

/-- All bits of a span are decided. -/
def Claims (p : Pattern) (s : Span) : Prop := ∀ i, s.Covers i → p.isClaimed i = true

theorem claims_write {p q : Pattern} {s : Span} {num : Word} (h : p.write s num = some q) :
    q.Claims s := by
  intro i hi
  rw [(write_spec h i).1]
  simp [hi]

theorem Claims.mono {p q : Pattern} {s : Span} (h : p.Claims s) (hle : p ≤ q) : q.Claims s :=
  fun i hi => (hle i (h i hi)).1

/-! ## Reading -/

/-- What is read depends on the bits of the span alone. -/
theorem read_congr {p q : Pattern} {s : Span}
    (h : ∀ i, s.Covers i → q.value.getLsbD i = p.value.getLsbD i) : q.read s = p.read s := by
  apply BitVec.eq_of_getLsbD_eq
  intro i _
  rw [getLsbD_read, getLsbD_read]
  by_cases hi : i < s.len
  · rw [h (s.pos + i) ⟨by omega, by omega⟩]
  · simp [hi]

theorem read_of_le {p q : Pattern} {s : Span} (hle : p ≤ q) (hs : p.Claims s) :
    q.read s = p.read s :=
  read_congr fun i hi => (hle i (hs i hi)).2

/-! ## Loading bytes -/

/-- The number that bytes spell, the least significant first. -/
def loadBits : List UInt8 → BitVec 128
  | [] => 0
  | b :: rest => b.toBitVec.setWidth 128 ||| loadBits rest <<< 8

/-- The pattern that holds some bytes, the least significant first, and nothing else. -/
def load (bytes : List UInt8) : Pattern :=
  ⟨loadBits bytes, loadBits (bytes.map fun _ => 0xFF)⟩

theorem getLsbD_loadBits (bytes : List UInt8) {i : Nat} (hi : i < 128) :
    (loadBits bytes).getLsbD i = (bytes[i / 8]?.getD 0).toBitVec.getLsbD (i % 8) := by
  induction bytes generalizing i with
  | nil => simp [loadBits]
  | cons b rest ih =>
    rw [loadBits, BitVec.getLsbD_or, BitVec.getLsbD_setWidth, BitVec.getLsbD_shiftLeft]
    by_cases h8 : i < 8
    · -- the bit is in the first byte
      have hdiv : i / 8 = 0 := by omega
      have hmod : i % 8 = i := by omega
      simp [hdiv, hmod, h8, hi]
    · -- it is in one of the others, eight bits further down
      have hdiv : i / 8 = (i - 8) / 8 + 1 := by omega
      have hmod : i % 8 = (i - 8) % 8 := by omega
      have hb : b.toBitVec.getLsbD i = false := BitVec.getLsbD_of_ge _ _ (by omega)
      rw [ih (show i - 8 < 128 by omega), hdiv, hmod, hb]
      simp [h8, hi]

/-- The first bytes of a pattern hold its low bits. -/
theorem getLsbD_load_bytes (p : Pattern) {n i : Nat} (hn : n ≤ maxBytes) (hi : i < 8 * n) :
    (load (p.bytes n)).value.getLsbD i = p.value.getLsbD i := by
  have hi128 : i < 128 := by
    simp only [maxBytes] at hn
    omega
  have hbyte : (p.bytes n)[i / 8]? =
      some (UInt8.ofBitVec ((p.value >>> (8 * (i / 8))).setWidth 8)) := by
    have hlt : i / 8 < min n maxBytes := by omega
    simp [bytes, hlt]
  have hsum : 8 * (i / 8) + i % 8 = i := by omega
  have hmod : i % 8 < 8 := Nat.mod_lt _ (by decide)
  show (loadBits (p.bytes n)).getLsbD i = _
  rw [getLsbD_loadBits _ hi128, hbyte]
  simp [hsum, hmod]

end Pattern

end TableAsm
