import TableAsm.Proofs.Writes

/-! # Writes into spans, bit by bit

  All bits come into a pattern through spans. A span may start anywhere,
  lie across the two words of the pattern, be a whole word long, and share
  bits with what was written before.

  - `Pattern.attempt` is a write as a step: the pattern afterwards, and
    whether the write was accepted.
  - `Pattern.attempt_accepted` says when it is. The condition is about the
    claimed bits of the span alone.
  - `Pattern.HoldsSpan` is what an accepted write leaves behind.
  - `span_writes_bitwise` collects this, together with the invariant that
    the operations keep: a bit that is set has been claimed.
-/

namespace TableAsm

namespace Pattern

variable {p q : Pattern} {s : Span} {num : Word}

/-- The pattern after a write has been tried, and whether it was accepted. -/
def attempt (p : Pattern) (s : Span) (num : Word) : Pattern × Bool :=
  ((p.write s num).getD p, (p.write s num).isSome)

theorem attempt_of_write (h : p.write s num = some q) : p.attempt s num = (q, true) := by
  simp [attempt, h]

theorem attempt_of_refused (h : p.write s num = none) : p.attempt s num = (p, false) := by
  simp [attempt, h]

/-- The second pattern is the first one with the low bits of a number in a span. -/
structure HoldsSpan (s : Span) (num : Word) (p q : Pattern) : Prop where
  /-- The span is claimed, and has the bits of the number. -/
  inside : ∀ i < s.len,
    q.isClaimed (s.pos + i) = true ∧ q.value.getLsbD (s.pos + i) = num.getLsbD i
  /-- What is read from it is the number, as far as the span can hold it. -/
  contents : (q.read s).toNat = num.toNat % 2 ^ s.len
  /-- The other bits are what they were. -/
  outside : ∀ i, ¬ s.Covers i →
    q.isClaimed i = p.isClaimed i ∧ q.value.getLsbD i = p.value.getLsbD i

/-- A span reads as the number that its bits were taken from. -/
theorem toNat_read (hlen : s.len ≤ 64)
    (h : ∀ i < s.len, q.value.getLsbD (s.pos + i) = num.getLsbD i) :
    (q.read s).toNat = num.toNat % 2 ^ s.len := by
  apply Nat.eq_of_testBit_eq
  intro i
  rw [BitVec.testBit_toNat, getLsbD_read, Nat.testBit_mod_two_pow, BitVec.testBit_toNat]
  by_cases hi : i < s.len
  · have hword : i < 64 := by omega
    simp [hi, hword, h i hi]
  · simp [hi]

theorem fits_of_write (h : p.write s num = some q) : s.Fits := (exists_write_iff.1 ⟨q, h⟩).1

theorem holdsSpan_of_write (h : p.write s num = some q) : HoldsSpan s num p q := by
  have hinside : ∀ i < s.len,
      q.isClaimed (s.pos + i) = true ∧ q.value.getLsbD (s.pos + i) = num.getLsbD i := by
    intro i hi
    obtain ⟨hclaimed, hvalue, _⟩ := write_spec h (s.pos + i)
    have hcovers : s.Covers (s.pos + i) := ⟨by omega, by omega⟩
    rw [hclaimed, hvalue, if_pos hcovers, Nat.add_sub_cancel_left]
    simp [hcovers]
  have hlen : s.len ≤ 64 := by
    have hfits := fits_of_write h
    unfold Span.Fits at hfits
    omega
  refine ⟨hinside, toNat_read hlen fun i hi => (hinside i hi).2, ?_⟩
  intro i hi
  obtain ⟨hclaimed, hvalue, _⟩ := write_spec h i
  rw [hclaimed, hvalue, if_neg hi]
  simp [hi]

/-- A write is accepted if the span can be written and no claimed bit of it has another value. -/
theorem attempt_accepted :
    (p.attempt s num).2 = true ↔
      s.len = 0 ∨ (s.len ≤ 64 ∧ s.pos + s.len ≤ bits ∧
        ∀ i < s.len, p.isClaimed (s.pos + i) = true →
          p.value.getLsbD (s.pos + i) = num.getLsbD i) := by
  have haccepted : (p.attempt s num).2 = true ↔ ∃ q, p.write s num = some q :=
    Option.isSome_iff_exists
  rw [haccepted, exists_write_iff]
  constructor
  · intro ⟨hfits, hagree⟩
    rcases hfits with hzero | ⟨hlen, hend⟩
    · exact .inl hzero
    · refine .inr ⟨hlen, hend, fun i hi hclaimed => ?_⟩
      have hbit := hagree (s.pos + i) hclaimed ⟨by omega, by omega⟩
      rwa [Nat.add_sub_cancel_left] at hbit
  · intro h
    rcases h with hzero | ⟨hlen, hend, hagree⟩
    · refine ⟨.inl hzero, fun i _ hcovers => ?_⟩
      -- an empty span has no bits
      unfold Span.Covers at hcovers
      omega
    · refine ⟨.inr ⟨hlen, hend⟩, fun i hclaimed hcovers => ?_⟩
      obtain ⟨hlo, hhi⟩ := hcovers
      have hsplit : s.pos + (i - s.pos) = i := by omega
      have hbit := hagree (i - s.pos) (by omega)
      rw [hsplit] at hbit
      exact hbit hclaimed

end Pattern

/-- **The meaning of a write.** In a pattern that the operations can build, every bit that is set
    has been claimed, even after joins of patterns that disagree. A write into a span of any
    pattern is accepted exactly if the span is empty, or at most a word long and inside the
    pattern, with no claimed bit of another value. Then the span is claimed and holds the low bits
    of the number, it reads as the number modulo its size, and nothing else has changed. An empty
    span and a refused write change nothing at all. -/
theorem span_writes_bitwise :
    (∀ p : Pattern, p.Reachable → ∀ i, p.value.getLsbD i = true → p.isClaimed i = true) ∧
    ∀ (p : Pattern) (s : Span) (num : Word),
      ((p.attempt s num).2 = true ↔
        s.len = 0 ∨ (s.len ≤ 64 ∧ s.pos + s.len ≤ Pattern.bits ∧
          ∀ i < s.len, p.isClaimed (s.pos + i) = true →
            p.value.getLsbD (s.pos + i) = num.getLsbD i)) ∧
      ((p.attempt s num).2 = true → 0 < s.len →
        Pattern.HoldsSpan s num p (p.attempt s num).1) ∧
      (s.len = 0 → (p.attempt s num).1 = p) ∧
      ((p.attempt s num).2 = false → (p.attempt s num).1 = p) := by
  refine ⟨?_, fun p s num => ⟨Pattern.attempt_accepted, ?_, ?_, ?_⟩⟩
  · intro p hp i hi
    by_contra hfree
    have hzero := hp.wellFormed i (Bool.eq_false_iff.2 hfree)
    rw [hzero] at hi
    simp at hi
  · intro haccepted _
    obtain ⟨q, hq⟩ := Option.isSome_iff_exists.1 haccepted
    rw [Pattern.attempt_of_write hq]
    exact Pattern.holdsSpan_of_write hq
  · intro hzero
    have hwrite : p.write s num = some p := if_pos hzero
    rw [Pattern.attempt_of_write hwrite]
  · intro hrefused
    cases hwrite : p.write s num with
    | none => rw [Pattern.attempt_of_refused hwrite]
    | some q => simp [Pattern.attempt_of_write hwrite] at hrefused

/-- Two patterns that disagree, joined all the same. -/
def forcedJoin : Pattern := (Pattern.fixed 0x5 0xF).union (Pattern.fixed 0x16 0x1F)

/-- A span across both words, half of which is written a second time. -/
theorem span_writes_bitwise_straddling :
    (∀ i, forcedJoin.value.getLsbD i = true → forcedJoin.isClaimed i = true) ∧
    ∃ q, forcedJoin.attempt ⟨60, 8⟩ 0xA5 = (q, true) ∧ (q.read ⟨60, 8⟩).toNat = 0xA5 ∧
      (q.attempt ⟨64, 64⟩ 0x1A).2 = true ∧ (q.attempt ⟨64, 64⟩ 0x1B).1 = q := by
  obtain ⟨hset, hwrite⟩ := span_writes_bitwise
  have hjoin : forcedJoin.Reachable := .union (.fixed 0x5 0xF) (.fixed 0x16 0x1F)
  obtain ⟨_, hholds, _, _⟩ := hwrite forcedJoin ⟨60, 8⟩ 0xA5
  have haccepted : (forcedJoin.attempt ⟨60, 8⟩ 0xA5).2 = true := by decide
  have hcontents := (hholds haccepted (by decide)).contents
  refine ⟨hset forcedJoin hjoin, _, Prod.ext rfl haccepted, hcontents, by decide, ?_⟩
  exact (hwrite _ ⟨64, 64⟩ 0x1B).2.2.2 (by decide)

end TableAsm
