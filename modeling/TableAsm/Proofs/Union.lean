import TableAsm.Proofs.Pattern

/-! # Patterns that are joined

  Two patterns that agree can be joined, and a write is nothing else than
  such a join: the pattern is joined with the one that has the written
  bits and no others.

  - `Pattern.WellFormed` says that the bits which nobody has claimed are
    zero. All operations keep this.
  - `Pattern.compatible_union_left` says what a join agrees with: with
    whatever both of its parts agree with. Together with `union_comm` and
    `union_assoc` it makes patterns a partial commutative monoid.
  - `Pattern.unionAll` joins a whole family. By `pairwise_union_cons`, a
    family without disagreement can be joined step by step.
  - `Pattern.exists_write_iff` says when a write is not refused, and
    `Pattern.write_eq_union` is the law above.
-/

namespace TableAsm

/-- Can a span be written at all? It is empty, or at most a word long and inside the pattern. -/
def Span.Fits (s : Span) : Prop := s.len = 0 ∨ (s.len ≤ 64 ∧ s.pos + s.len ≤ Pattern.bits)

instance (s : Span) : Decidable s.Fits :=
  inferInstanceAs (Decidable (_ ∨ _))

namespace Pattern

variable {p q r : Pattern} {s : Span} {num : Word}

/-! ## Bits that nobody has claimed -/

/-- Every bit that is set has been claimed. -/
def WellFormed (p : Pattern) : Prop := ∀ i, p.isClaimed i = false → p.value.getLsbD i = false

/-- A pattern is known by its bits. -/
theorem eq_of_bits (hclaimed : ∀ i, p.isClaimed i = q.isClaimed i)
    (hvalue : ∀ i, p.value.getLsbD i = q.value.getLsbD i) : p = q := by
  obtain ⟨pv, pc⟩ := p
  obtain ⟨qv, qc⟩ := q
  have hv : pv = qv := BitVec.eq_of_getLsbD_eq fun i _ => hvalue i
  have hc : pc = qc := BitVec.eq_of_getLsbD_eq fun i _ => hclaimed i
  rw [hv, hc]

@[simp] theorem isClaimed_empty (i : Nat) : empty.isClaimed i = false := by
  show (0 : BitVec 128).getLsbD i = false
  simp

@[simp] theorem getLsbD_empty (i : Nat) : empty.value.getLsbD i = false := by
  show (0 : BitVec 128).getLsbD i = false
  simp

theorem wellFormed_empty : empty.WellFormed := fun i _ => getLsbD_empty i

theorem wellFormed_fixed (val mask : Word) : (fixed val mask).WellFormed := by
  intro i hi
  simp only [isClaimed, fixed, BitVec.getLsbD_setWidth, Bool.and_eq_false_iff] at hi
  simp only [fixed, BitVec.getLsbD_setWidth, BitVec.getLsbD_and]
  rcases hi with hi | hi
  · simp [hi]
  · simp [hi]

theorem WellFormed.write (hp : p.WellFormed) (h : p.write s num = some q) : q.WellFormed := by
  intro i hi
  obtain ⟨hclaimed, hvalue, _⟩ := write_spec h i
  rw [hclaimed, Bool.or_eq_false_iff] at hi
  -- the bit is outside the span, so it is what it was
  have hout : ¬ s.Covers i := of_decide_eq_false hi.2
  rw [hvalue, if_neg hout]
  exact hp i hi.1

/-! ## Joins -/

theorem isClaimed_union (i : Nat) :
    (p.union q).isClaimed i = (p.isClaimed i || q.isClaimed i) :=
  BitVec.getLsbD_or

theorem getLsbD_union (i : Nat) :
    (p.union q).value.getLsbD i = (p.value.getLsbD i || q.value.getLsbD i) :=
  BitVec.getLsbD_or

theorem WellFormed.union (hp : p.WellFormed) (hq : q.WellFormed) : (p.union q).WellFormed := by
  intro i hi
  rw [isClaimed_union, Bool.or_eq_false_iff] at hi
  rw [getLsbD_union, hp i hi.1, hq i hi.2]
  rfl

theorem union_comm (p q : Pattern) : p.union q = q.union p := by
  unfold union
  rw [BitVec.or_comm p.value, BitVec.or_comm p.claimed]

theorem union_assoc (p q r : Pattern) : (p.union q).union r = p.union (q.union r) := by
  unfold union
  rw [BitVec.or_assoc, BitVec.or_assoc]

@[simp] theorem union_empty (p : Pattern) : p.union empty = p := by
  apply eq_of_bits
  · intro i
    rw [isClaimed_union, isClaimed_empty, Bool.or_false]
  · intro i
    rw [getLsbD_union, getLsbD_empty, Bool.or_false]

@[simp] theorem empty_union (p : Pattern) : empty.union p = p := by
  rw [union_comm, union_empty]

/-- Compatible patterns agree on every bit that both have claimed. -/
theorem compatible_iff :
    p.Compatible q ↔
      ∀ i, p.isClaimed i = true → q.isClaimed i = true →
        p.value.getLsbD i = q.value.getLsbD i := by
  unfold Compatible
  constructor
  · intro h i hp hq
    have hbit := congrArg (fun v : BitVec 128 => v.getLsbD i) h
    have hpc : p.claimed.getLsbD i = true := hp
    have hqc : q.claimed.getLsbD i = true := hq
    simpa [hpc, hqc] using hbit
  · intro h
    apply BitVec.eq_of_getLsbD_eq
    intro i _
    rw [BitVec.getLsbD_and, BitVec.getLsbD_and, BitVec.getLsbD_xor]
    have hi : p.claimed.getLsbD i = true → q.claimed.getLsbD i = true →
        p.value.getLsbD i = q.value.getLsbD i := h i
    -- only a bit that both have claimed is looked at
    by_cases hp : p.claimed.getLsbD i = true
    · by_cases hq : q.claimed.getLsbD i = true
      · simp [hi hp hq]
      · simp [hq]
    · simp [hp]

theorem Compatible.symm (h : p.Compatible q) : q.Compatible p :=
  compatible_iff.2 fun i hq hp => (compatible_iff.1 h i hp hq).symm

theorem compatible_empty (p : Pattern) : p.Compatible empty :=
  compatible_iff.2 fun i _ h => by simp at h

/-- The join goes up in the order. -/
theorem le_union_left (hq : q.WellFormed) (h : p.Compatible q) : p ≤ p.union q := by
  intro i hi
  rw [isClaimed_union, getLsbD_union, hi]
  refine ⟨rfl, ?_⟩
  cases hc : q.isClaimed i with
  | false => rw [hq i hc, Bool.or_false]
  | true => rw [← compatible_iff.1 h i hi hc, Bool.or_self]

theorem le_union_right (hp : p.WellFormed) (h : p.Compatible q) : q ≤ p.union q := by
  rw [union_comm]
  exact le_union_left hp h.symm

theorem Compatible.of_le {p' : Pattern} (h : p'.Compatible q) (hle : p ≤ p') : p.Compatible q := by
  refine compatible_iff.2 fun i hp hq => ?_
  obtain ⟨hp', hvalue⟩ := hle i hp
  rw [← hvalue]
  exact compatible_iff.1 h i hp' hq

/-- A join agrees with exactly what both of its parts agree with. -/
theorem compatible_union_left (hp : p.WellFormed) (hq : q.WellFormed) (h : p.Compatible q) :
    (p.union q).Compatible r ↔ p.Compatible r ∧ q.Compatible r := by
  constructor
  · intro hr
    exact ⟨hr.of_le (le_union_left hq h), hr.of_le (le_union_right hp h)⟩
  · intro ⟨hpr, hqr⟩
    refine compatible_iff.2 fun i hi hri => ?_
    rw [isClaimed_union, Bool.or_eq_true] at hi
    -- the join has the bit of the part that has claimed it
    rcases hi with hi | hi
    · rw [(le_union_left hq h i hi).2]
      exact compatible_iff.1 hpr i hi hri
    · rw [(le_union_right hp h i hi).2]
      exact compatible_iff.1 hqr i hi hri

theorem compatible_union_right (hq : q.WellFormed) (hr : r.WellFormed) (h : q.Compatible r) :
    p.Compatible (q.union r) ↔ p.Compatible q ∧ p.Compatible r := by
  constructor
  · intro hp
    obtain ⟨hpq, hpr⟩ := (compatible_union_left hq hr h).1 hp.symm
    exact ⟨hpq.symm, hpr.symm⟩
  · intro ⟨hpq, hpr⟩
    exact ((compatible_union_left hq hr h).2 ⟨hpq.symm, hpr.symm⟩).symm

/-- Three patterns can be joined in either grouping, and in each if and only if no two of them
    disagree. -/
theorem compatible_assoc (hp : p.WellFormed) (hq : q.WellFormed) (hr : r.WellFormed) :
    (p.Compatible q ∧ (p.union q).Compatible r) ↔ (q.Compatible r ∧ p.Compatible (q.union r)) := by
  constructor
  · intro ⟨hpq, h⟩
    obtain ⟨hpr, hqr⟩ := (compatible_union_left hp hq hpq).1 h
    exact ⟨hqr, (compatible_union_right hq hr hqr).2 ⟨hpq, hpr⟩⟩
  · intro ⟨hqr, h⟩
    obtain ⟨hpq, hpr⟩ := (compatible_union_right hq hr hqr).1 h
    exact ⟨hpq, (compatible_union_left hp hq hpq).2 ⟨hpr, hqr⟩⟩

/-! ## Families -/

/-- Everything that some pattern of a list has decided. -/
def unionAll : List Pattern → Pattern
  | [] => empty
  | p :: rest => p.union (unionAll rest)

/-- A join can take the place of its two parts in a family. -/
theorem pairwise_union_cons {ps : List Pattern} (hp : p.WellFormed) (hq : q.WellFormed) :
    (p :: q :: ps).Pairwise Compatible ↔
      p.Compatible q ∧ (p.union q :: ps).Pairwise Compatible := by
  simp only [List.pairwise_cons, List.forall_mem_cons]
  constructor
  · intro ⟨⟨hpq, hps⟩, hqs, hrest⟩
    refine ⟨hpq, ?_, hrest⟩
    intro r hr
    exact (compatible_union_left hp hq hpq).2 ⟨hps r hr, hqs r hr⟩
  · intro ⟨hpq, hjoin, hrest⟩
    have hboth : ∀ r ∈ ps, p.Compatible r ∧ q.Compatible r := by
      intro r hr
      exact (compatible_union_left hp hq hpq).1 (hjoin r hr)
    exact ⟨⟨hpq, fun r hr => (hboth r hr).1⟩, fun r hr => (hboth r hr).2, hrest⟩

/-! ## A write is a join -/

/-- The bits that a write puts into an empty pattern. -/
def spanned (s : Span) (num : Word) : Pattern := ⟨spanBits s num, spanMask s⟩

theorem empty_write (hlen : s.len ≠ 0) (hfit : ¬ (64 < s.len ∨ bits < s.pos + s.len)) :
    empty.write s num = some (spanned s num) := by
  unfold write
  rw [if_neg hlen, if_neg hfit, if_pos (by simp [empty])]
  simp [empty, spanned]

/-- A span is put over a pattern that agrees with it. -/
theorem put_eq_union (hp : p.WellFormed) (hfit : ¬ (64 < s.len ∨ bits < s.pos + s.len))
    (h : p.Compatible (spanned s num)) :
    (⟨(p.value &&& ~~~ spanMask s) ||| spanBits s num, p.claimed ||| spanMask s⟩ : Pattern) =
      p.union (spanned s num) := by
  have hlen : s.len ≤ 64 := by omega
  have hend : s.pos + s.len ≤ bits := by omega
  apply eq_of_bits
  · intro i
    rfl
  · intro i
    rw [getLsbD_union]
    show ((p.value &&& ~~~ spanMask s) ||| spanBits s num).getLsbD i =
      (p.value.getLsbD i || (spanBits s num).getLsbD i)
    rw [getLsbD_put hlen hend, getLsbD_spanBits hlen hend]
    by_cases hc : s.Covers i
    · -- inside the span the pattern has this bit already, or it has a zero there
      cases hi : p.isClaimed i with
      | false => simp [hc, hp i hi]
      | true =>
        have hclaimed : (spanned s num).isClaimed i = true := by
          show (spanMask s).getLsbD i = true
          rw [getLsbD_spanMask hlen hend]
          exact decide_eq_true hc
        have hbit : p.value.getLsbD i = (spanBits s num).getLsbD i :=
          compatible_iff.1 h i hi hclaimed
        rw [getLsbD_spanBits hlen hend] at hbit
        simp [hc, hbit]
    · simp [hc]

/-- A write is refused only if the span cannot be written or a claimed bit of it has another
    value. -/
theorem exists_write_iff :
    (∃ q, p.write s num = some q) ↔
      s.Fits ∧ ∀ i, p.isClaimed i = true → s.Covers i →
        p.value.getLsbD i = num.getLsbD (i - s.pos) := by
  constructor
  · intro ⟨q, h⟩
    refine ⟨?_, fun i => (write_spec h i).2.2⟩
    by_cases hfits : s.Fits
    · exact hfits
    · -- such a span takes nothing
      unfold Span.Fits at hfits
      unfold write at h
      rw [if_neg (by omega), if_pos (by omega)] at h
      simp at h
  · intro ⟨hfits, hagree⟩
    by_cases hzero : s.len = 0
    · exact ⟨p, if_pos hzero⟩
    · obtain ⟨hlen, hend⟩ := hfits.resolve_left hzero
      -- every bit that both have claimed is one of the span
      have hfree : p.Compatible (spanned s num) := by
        refine compatible_iff.2 fun i hp hs => ?_
        have hc : s.Covers i := by
          have hmask : (spanMask s).getLsbD i = true := hs
          rw [getLsbD_spanMask hlen hend] at hmask
          exact of_decide_eq_true hmask
        show p.value.getLsbD i = (spanBits s num).getLsbD i
        rw [getLsbD_spanBits hlen hend, hagree i hp hc]
        simp [hc]
      unfold write
      rw [if_neg hzero, if_neg (by omega)]
      exact ⟨_, if_pos hfree⟩

/-- **A write is a join.** It succeeds if the same write into an empty pattern does and what
    this gives agrees with the pattern, and the result is the join of the two. -/
theorem write_eq_union (hp : p.WellFormed) :
    p.write s num = some q ↔
      ∃ w, empty.write s num = some w ∧ p.Compatible w ∧ q = p.union w := by
  by_cases hlen : s.len = 0
  · -- an empty span adds nothing
    have hwrite : ∀ p' : Pattern, p'.write s num = some p' := fun p' => if_pos hlen
    rw [hwrite, hwrite]
    constructor
    · intro h
      exact ⟨empty, rfl, compatible_empty p, by rw [union_empty]; exact (Option.some.inj h).symm⟩
    · rintro ⟨w, hw, _, rfl⟩
      rw [← Option.some.inj hw, union_empty]
  · by_cases hfit : 64 < s.len ∨ bits < s.pos + s.len
    · -- a span that cannot be written is refused by both
      have hwrite : ∀ p' : Pattern, p'.write s num = none := by
        intro p'
        unfold write
        rw [if_neg hlen, if_pos hfit]
      simp [hwrite]
    · -- the test of the write is the one for compatibility
      rw [empty_write hlen hfit]
      unfold write
      rw [if_neg hlen, if_neg hfit]
      have htest : (p.value ^^^ spanBits s num) &&& p.claimed &&& spanMask s = 0 ↔
          p.Compatible (spanned s num) := Iff.rfl
      by_cases h : p.Compatible (spanned s num)
      · rw [if_pos (htest.2 h), put_eq_union hp hfit h]
        simp [h, eq_comm]
      · rw [if_neg (mt htest.1 h)]
        simp [h]

end Pattern

end TableAsm
