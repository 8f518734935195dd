import TableAsm.Proofs.Labels
import TableAsm.Proofs.Matching

/-! # Where relocations come from

  What an encoding leaves open is written when the labels are known, many
  steps after the instruction was matched. It is still arithmetic, over
  names that stand in the instruction.

  - `Expr.ImmOver.eval_eq_error` says that an immediate has a value unless
    it divides by zero or one of its names is not bound.
  - `Isa.relocsFrom_encodings` says that every relocation of an encoding
    is an immediate over the names of one of the operands.
-/

namespace TableAsm

/-! ## Values of immediates -/

variable {P : String → Prop} {labels : LabelTable} {e : Expr}

/-- Of the operators only division can fail, and only if the divisor is zero. -/
theorem BinOp.apply_eq_error {op : BinOp} {x y : Word} {err : EvalError} :
    op.apply x y = .error err ↔ op = .div ∧ y = 0 ∧ err = .divisionByZero := by
  cases op with
  | div =>
    simp only [apply]
    split
    · next h => simp [h, eq_comm]
    · next h => exact ⟨fun herror => by simp at herror, fun hzero => absurd hzero.2.1 h⟩
  | _ => simp [apply]

namespace Expr.ImmOver

/-- The two ways in which an immediate has no value. -/
theorem eval_eq_error {err : EvalError} (he : e.ImmOver P) (h : e.eval labels = .error err) :
    err = .divisionByZero ∨
      ∃ name, err = .undefinedLabel name ∧ P name ∧ labels.get? name = none := by
  fun_induction Expr.eval labels e with
  | case1 n => simp at h
  | case2 name w hw => simp at h
  | case3 name hnone =>
    exact .inr ⟨name, (Except.error.inj h).symm, he.names name .label, hnone⟩
  | case4 e ih =>
    exact ih ⟨he.isImm, fun name h => he.names name (.neg h)⟩ (bind_pure_eq_error.1 h)
  | case5 e ih =>
    exact ih ⟨he.isImm, fun name h => he.names name (.not h)⟩ (bind_pure_eq_error.1 h)
  | case6 op a b iha ihb =>
    have himm : a.isImm = true ∧ b.isImm = true := by
      simpa [Expr.isImm] using he.isImm
    rcases bind_eq_error.1 h with ha | ⟨x, _, hrest⟩
    · exact iha ⟨himm.1, fun name h => he.names name (.left h)⟩ ha
    · rcases bind_eq_error.1 hrest with hb | ⟨y, _, hop⟩
      · exact ihb ⟨himm.2, fun name h => he.names name (.right h)⟩ hb
      · exact .inl (BinOp.apply_eq_error.1 hop).2.2
  | case7 e hnum hlabel hneg hnot hbin =>
    -- an immediate is one of the above
    have himm := he.isImm
    unfold Expr.isImm at himm
    split at himm
    all_goals simp_all

end Expr.ImmOver

/-! ## Atoms and tables -/

/-- Everything that a candidate leaves open is an immediate that comes from one operand of the
    instruction: it has no other names than that. -/
def Candidate.RelocsFrom (items : List Item) (c : Candidate) : Prop :=
  ∀ r ∈ c.relocs, ∃ e, .expr e ∈ items ∧ r.expr.ImmOver e.Mentions

namespace Candidate

variable {sel : Selector} {items : List Item} {c d : Candidate}

theorem relocsFrom_at (pos : Nat) (length : Option Nat) (p : Pattern) :
    RelocsFrom items { pattern := p, pos, length } := by
  intro r hr
  simp at hr

theorem RelocsFrom.join {x : Candidate} (hc : c.RelocsFrom items) (hd : d.RelocsFrom items)
    (h : c.join d = some x) : x.RelocsFrom items := by
  obtain ⟨_, _, rfl⟩ := join_eq_some.1 h
  intro r hr
  rcases List.mem_append.1 hr with hr | hr
  · exact hc r hr
  · exact hd r hr

end Candidate

/-- What an atom leaves open comes from the item that it takes. -/
theorem Leaf.relocsFrom_candidate? {sel : Selector} {items : List Item} {pos : Nat} {l : Leaf}
    {c : Candidate} (h : l.candidate? sel items pos = some c) : c.RelocsFrom items := by
  rcases candidate?_cases h with ⟨length, rfl⟩ | ⟨it, hit, hl⟩
  · exact Candidate.relocsFrom_at pos length _
  · rcases item?_cases hl with rfl | ⟨e, rfl, htakes⟩
    · exact Candidate.relocsFrom_at (pos + 1) none _
    · intro r hr
      refine ⟨e, List.mem_of_getElem? hit, ?_⟩
      rcases htakes.relocs with hrelocs | ⟨_, f, _, x, hx, hrelocs⟩
      · rw [hrelocs] at hr
        cases hr
      · rw [hrelocs] at hr
        obtain rfl := List.mem_singleton.1 hr
        exact hx

theorem Part.relocsFrom_candidate? {sel : Selector} {items : List Item} {pos : Nat} {part : Part}
    {c : Candidate} (h : part.candidate? sel items pos = some c) : c.RelocsFrom items := by
  cases part with
  | fixed val mask => exact Option.some.inj h ▸ Candidate.relocsFrom_at _ none _
  | leaf l => exact Leaf.relocsFrom_candidate? h

/-- What the encodings of an instruction leave open comes from its operands. -/
theorem Isa.relocsFrom_encodings {isa : Isa} {sel : Selector} {items : List Item} {c : Candidate}
    (h : c ∈ isa.encodings sel items) : c.RelocsFrom items := by
  obtain ⟨⟨r, _, hr⟩, _⟩ := Isa.mem_encodings.1 h
  exact Candidate.extend_induction (fun _ _ _ _ => Part.relocsFrom_candidate?)
    Candidate.RelocsFrom.join (Candidate.relocsFrom_at 0 none _) hr

/-! ## Writing what was left open -/

namespace Candidate

theorem resolveAll_eq_error {relocs : List Reloc} {p : Pattern} {pc : Word} {err : EvalError}
    (h : resolveAll labels pc relocs p = .error err) :
    ∃ r ∈ relocs, r.expr.eval labels = .error err := by
  induction relocs generalizing p with
  | nil => simp [resolveAll] at h
  | cons r rest ih =>
    rcases bind_eq_error.1 h with hr | ⟨v, _, hrest⟩
    · exact ⟨r, List.mem_cons_self, hr⟩
    · split at hrest
      · obtain ⟨r', hr', herr⟩ := ih hrest
        exact ⟨r', List.mem_cons_of_mem r hr', herr⟩
      · simp [pure, Except.pure] at hrest

end Candidate

end TableAsm
