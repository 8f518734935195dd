import TableAsm.Proofs.Deferral
import TableAsm.Proofs.Failure
import TableAsm.Proofs.Provenance

/-! # Constants that cannot be folded

  An instruction without an encoding is told that it divides by zero if
  the look through its operands finds such a division. That look is a
  recursion of its own. It never asks for the value of an operand, only
  for those of divisors.

  - `Expr.not_dividesByZero_of_eval` says that it finds nothing in what
    has a value under some labels.
  - `Expr.dividesByZero_of_eval_error` says that it misses nothing if
    there are no labels at all: an immediate that is `Closed` and has no
    value has a division by zero somewhere, and the first one that
    evaluation meets has a constant divisor.
  - `folding_failure_diagnosed` puts the two together.
-/

namespace TableAsm

variable {labels : LabelTable} {e : Expr} {v : Word}

namespace Expr

/-- No label occurs in the expression. -/
def Closed (e : Expr) : Prop := ∀ name, ¬ e.Mentions name

theorem closed_num (n : Word) : (num n).Closed := by
  intro name h
  cases h

theorem closed_bin {op : BinOp} {a b : Expr} : (bin op a b).Closed ↔ a.Closed ∧ b.Closed := by
  constructor
  · intro h
    exact ⟨fun name ha => h name (.left ha), fun name hb => h name (.right hb)⟩
  · intro ⟨ha, hb⟩ name h
    cases h with
    | left h => exact ha name h
    | right h => exact hb name h

/-- An immediate is evaluated to the end, or as far as to an error of its own. -/
theorem eval_ne_notImmediate (himm : e.isImm = true) (labels : LabelTable) :
    e.eval labels ≠ .error .notImmediate := by
  intro h
  rcases (ImmOver.self himm).eval_eq_error h with herr | ⟨name, herr, _⟩
  · simp at herr
  · simp at herr

/-! ## Divisions by zero -/

theorem dividesByZero_bin {op : BinOp} {a b : Expr} :
    (bin op a b).dividesByZero = true ↔
      (op = .div ∧ b.const? = some 0) ∨ a.dividesByZero = true ∨ b.dividesByZero = true := by
  simp [dividesByZero, or_assoc]

/-- What has a value does not divide by zero, wherever in it one looks. -/
theorem not_dividesByZero_of_eval (h : e.eval labels = .ok v) : ¬ e.dividesByZero = true := by
  fun_induction Expr.eval labels e generalizing v with
  | case1 n => simp [dividesByZero]
  | case2 name w hw => simp [dividesByZero]
  | case3 name hnone => simp at h
  | case4 e ih =>
    obtain ⟨w, hw, _⟩ := bind_eq_ok.1 h
    simpa [dividesByZero] using ih hw
  | case5 e ih =>
    obtain ⟨w, hw, _⟩ := bind_eq_ok.1 h
    simpa [dividesByZero] using ih hw
  | case6 op a b iha ihb =>
    obtain ⟨x, hx, hrest⟩ := bind_eq_ok.1 h
    obtain ⟨y, hy, hop⟩ := bind_eq_ok.1 hrest
    rw [dividesByZero_bin]
    rintro (⟨hdiv, hconst⟩ | ha | hb)
    · -- a constant divisor has the same value here, so this division has failed
      have hzero : y = 0 := Except.ok.inj (hy.symm.trans (eval_of_const? hconst labels))
      have herror : op.apply x y = .error .divisionByZero :=
        BinOp.apply_eq_error.2 ⟨hdiv, hzero, rfl⟩
      rw [herror] at hop
      simp at hop
    · exact iha hx ha
    · exact ihb hy hb
  | case7 => simp at h

theorem const?_eq_none : e.const? = none ↔ ∃ err, e.eval LabelTable.empty = .error err := by
  unfold const?
  cases e.eval LabelTable.empty with
  | error err => simp
  | ok w => simp

/-- A closed immediate without a value divides by zero. Evaluation stops at the first division that
    fails, and by then it has the value of its divisor: a constant, since there are no labels. -/
theorem dividesByZero_of_eval_error {err : EvalError} (himm : e.isImm = true) (hclosed : e.Closed)
    (h : e.eval LabelTable.empty = .error err) : e.dividesByZero = true := by
  fun_induction Expr.isImm e with
  | case1 n => simp [eval] at h
  | case2 name => exact absurd .label (hclosed name)
  | case3 e ih =>
    exact ih himm (fun name hname => hclosed name (.neg hname)) (bind_pure_eq_error.1 h)
  | case4 e ih =>
    exact ih himm (fun name hname => hclosed name (.not hname)) (bind_pure_eq_error.1 h)
  | case5 op a b iha ihb =>
    rw [Bool.and_eq_true] at himm
    rw [closed_bin] at hclosed
    rw [dividesByZero_bin]
    rcases bind_eq_error.1 h with ha | ⟨x, _, hrest⟩
    · exact .inr (.inl (iha himm.1 hclosed.1 ha))
    · rcases bind_eq_error.1 hrest with hb | ⟨y, hy, hop⟩
      · exact .inr (.inr (ihb himm.2 hclosed.2 hb))
      · obtain ⟨hdiv, rfl, _⟩ := BinOp.apply_eq_error.1 hop
        exact .inl ⟨hdiv, const?_eq_some.2 hy⟩
  | case6 => simp at himm

theorem dividesByZero_iff_const? (himm : e.isImm = true) (hclosed : e.Closed) :
    e.dividesByZero = true ↔ e.const? = none := by
  constructor
  · intro hdiv
    rw [Option.eq_none_iff_forall_ne_some]
    intro v hv
    exact not_dividesByZero_of_eval (const?_eq_some.1 hv) hdiv
  · intro hnone
    obtain ⟨err, herr⟩ := const?_eq_none.1 hnone
    exact dividesByZero_of_eval_error himm hclosed herr

end Expr

/-- **A division by zero is blamed where folding fails.**

    * An immediate with a division by zero has no value, whatever labels there are.
    * An immediate without labels has such a division exactly if it cannot be folded.
    * What has a value is an immediate, and keeps the value when more labels are bound. An
      immediate is never rejected for not being one.
    * Take an instruction in which a division by zero can only stand in an immediate without
      labels. When it has no encoding, the division is blamed exactly if such an operand could not
      be folded. -/
theorem folding_failure_diagnosed :
    (∀ e : Expr, e.isImm = true → e.dividesByZero = true →
      ∀ labels, ∃ err, e.eval labels = .error err) ∧
    (∀ e : Expr, e.isImm = true → e.Closed → (e.dividesByZero = true ↔ e.const? = none)) ∧
    (∀ (e : Expr) (labels : LabelTable) (v : Word), e.eval labels = .ok v →
      e.isImm = true ∧ ∀ labels', labels ≤ labels' → e.eval labels' = .ok v) ∧
    (∀ e : Expr, e.isImm = true → ∀ labels, e.eval labels ≠ .error .notImmediate) ∧
    (∀ items : List Item,
      (∀ e, .expr e ∈ items → (e.isImm = true ∧ e.Closed) ∨ e.dividesByZero = false) →
      (unmatched items = .eval .divisionByZero ↔
        ∃ e, .expr e ∈ items ∧ e.isImm = true ∧ e.Closed ∧ e.const? = none)) := by
  refine ⟨?_, fun e => Expr.dividesByZero_iff_const?, ?_, fun e => Expr.eval_ne_notImmediate, ?_⟩
  · intro e _ hdiv labels
    cases h : e.eval labels with
    | error err => exact ⟨err, rfl⟩
    | ok v => exact absurd hdiv (Expr.not_dividesByZero_of_eval h)
  · intro e labels v h
    exact ⟨Expr.isImm_of_eval h, fun labels' hle => Expr.eval_mono hle h⟩
  · intro items hitems
    rw [unmatched_eq_divisionByZero]
    constructor
    · intro ⟨e, he, hdiv⟩
      rcases hitems e he with ⟨himm, hclosed⟩ | hno
      · exact ⟨e, he, himm, hclosed, (Expr.dividesByZero_iff_const? himm hclosed).1 hdiv⟩
      · simp [hno] at hdiv
    · intro ⟨e, he, himm, hclosed, hnone⟩
      exact ⟨e, he, (Expr.dividesByZero_iff_const? himm hclosed).2 hnone⟩

/-- A quotient whose divisor is again a quotient, by a zero that has to be computed. -/
def nestedQuotient : Expr :=
  .bin .div (.num 1) (.bin .div (.num 2) (.bin .sub (.num 3) (.num 3)))

/-- The divisor of the outer division has no value, so the inner one is blamed. A label that may be
    undefined in front of it makes no difference. -/
theorem folding_failure_diagnosed_nested :
    nestedQuotient.const? = none ∧ nestedQuotient.dividesByZero = true ∧
    (∀ labels, ∃ err, (Expr.bin .add (.label "L") nestedQuotient).eval labels = .error err) ∧
    unmatched [.name "mov", .expr (.reg "$r1"), .expr nestedQuotient] =
      .eval .divisionByZero := by
  obtain ⟨hfails, hfolds, _, _, hblame⟩ := folding_failure_diagnosed
  have hclosed : nestedQuotient.Closed := by
    simp [nestedQuotient, Expr.closed_bin, Expr.closed_num]
  have hnone : nestedQuotient.const? = none := rfl
  refine ⟨hnone, (hfolds nestedQuotient rfl hclosed).2 hnone, hfails _ rfl (by decide), ?_⟩
  refine (hblame _ ?_).2 ⟨nestedQuotient, by simp, rfl, hclosed, hnone⟩
  intro e he
  simp only [List.mem_cons, Item.expr.injEq, reduceCtorEq, List.not_mem_nil, or_false,
    false_or] at he
  rcases he with rfl | rfl
  · exact .inr rfl
  · exact .inl ⟨rfl, hclosed⟩

end TableAsm
