import TableAsm.Proofs.Passes

/-! # Where a run fails

  A program is rejected while its lines are checked, while a pass binds
  the labels, or while a pass writes the bytes. Each of these goes line by
  line, and a failure is that of the first line that fails.

  - `Step.ofLine_eq_error`, `Layout.step_eq_error` and
    `Emission.step_eq_error` list the ways in which one line fails.
  - `Step.ofLines_eq_error`, `Layout.walk_eq_error` and
    `Emission.walk_eq_error_iff` find the line.
  - `Step.ofLines_cause` and `layout_cause` list the causes that can arise
    before any bytes are written.
  - `assemble_eq_error_iff` says that a program is rejected exactly if the
    check fails or some number of dirty passes is followed by a pass that
    fails.
-/

namespace TableAsm

variable {isa : Isa} {sel : Selector} {labels : LabelTable} {line : Nat} {d : Diagnostic}

/-! ## Checking the lines -/

theorem Directive.parse_eq_error {name : String} {args : List Expr} {c : Cause}
    (h : Directive.parse name args = .error c) :
    c = .badDirective name ∨ c = .unknownDirective name := by
  unfold Directive.parse at h
  simp only at h
  repeat' split at h
  all_goals simp_all

theorem Directive.data_of_parse {name : String} {args exprs : List Expr} {kind : DataKind}
    {width : Nat} (h : Directive.parse name args = .ok (.data kind width exprs)) :
    dataKind? name.toList = some (kind, width) ∧ args.all Expr.isImm = true ∧ exprs = args := by
  unfold Directive.parse at h
  simp only at h
  repeat' split at h
  all_goals simp_all

theorem Directive.isImm_of_parse {name s : String} {args : List Expr} {value : Expr}
    (h : Directive.parse name args = .ok (.equ s value)) : value.isImm = true := by
  unfold Directive.parse at h
  simp only at h
  repeat' split at h
  all_goals simp_all

theorem unmatched_eq (items : List Item) :
    unmatched items = .noMatch ∨ unmatched items = .eval .divisionByZero :=
  ite_eq_or_eq _ _ _

/-- A division by zero is blamed if some operand has one. -/
theorem unmatched_eq_divisionByZero {items : List Item} :
    unmatched items = .eval .divisionByZero ↔
      ∃ e, .expr e ∈ items ∧ e.dividesByZero = true := by
  unfold unmatched
  rw [ite_eq_right_iff, List.all_eq_true]
  constructor
  · intro h
    by_contra hnone
    have hall : ∀ e, .expr e ∈ items → e.dividesByZero = false := by
      intro e he
      by_contra hdiv
      exact hnone ⟨e, he, by simpa using hdiv⟩
    refine absurd (h fun it hit => ?_) (by simp)
    cases it with
    | expr e => simp [hall e hit]
    | _ => rfl
  · intro ⟨e, he, hdiv⟩ hall
    have hfolds := hall _ he
    simp [hdiv] at hfolds

theorem Step.ofLine_eq_error {l : Line} {c : Cause} (h : Step.ofLine isa sel l = .error c) :
    (∃ items, l = .insn items ∧ isa.encodings sel items = [] ∧ c = unmatched items) ∨
    (∃ name args, l = .directive name args ∧ Directive.parse name args = .error c) := by
  cases l with
  | insn items =>
    simp only [Step.ofLine] at h
    split at h
    · next hnone => exact .inl ⟨items, rfl, hnone, (Except.error.inj h).symm⟩
    · simp at h
  | label name => simp [Step.ofLine] at h
  | directive name args => exact .inr ⟨name, args, rfl, bind_pure_eq_error.1 h⟩

theorem Step.ofLines_eq_error {program : Program}
    (h : Step.ofLines isa sel line program = .error d) :
    ∃ before l after, program = before ++ l :: after ∧ d.line = line + before.length ∧
      Step.ofLine isa sel l = .error d.cause := by
  induction program generalizing line with
  | nil => simp [Step.ofLines] at h
  | cons l rest ih =>
    simp only [Step.ofLines] at h
    split at h
    · next cause hcause =>
      obtain rfl := Except.error.inj h
      exact ⟨[], l, rest, rfl, rfl, hcause⟩
    · obtain ⟨before, l', after, rfl, hline, hl'⟩ := ih (bind_pure_eq_error.1 h)
      refine ⟨l :: before, l', after, rfl, ?_, hl'⟩
      rw [hline, List.length_cons]
      omega

/-- What is wrong with a line can be seen without the others. -/
theorem Step.ofLines_cause {program : Program}
    (h : Step.ofLines isa sel line program = .error d) :
    d.cause = .noMatch ∨ d.cause = .eval .divisionByZero ∨
      ∃ name, d.cause = .badDirective name ∨ d.cause = .unknownDirective name := by
  obtain ⟨before, l, after, _, _, hl⟩ := Step.ofLines_eq_error h
  rcases Step.ofLine_eq_error hl with ⟨items, _, _, hcause⟩ | ⟨name, args, _, hparse⟩
  · rw [hcause]
    rcases unmatched_eq items with hitems | hitems
    · exact .inl hitems
    · exact .inr (.inl hitems)
  · exact .inr (.inr ⟨name, Directive.parse_eq_error hparse⟩)

/-! ## Binding the labels -/

namespace Layout

theorem step_eq_error {l : Layout} {s : Step} (h : l.step isa line s = .error d) :
    d.line = line ∧
      ((∃ name, (s = .label name ∨ ∃ value, s = .directive (.equ name value)) ∧
          (l.labels.get? name).isSome = true ∧ d.cause = .labelRedeclared name) ∨
       (∃ name value err, s = .directive (.equ name value) ∧
          value.eval l.labels = .error err ∧ d.cause = .eval err)) := by
  unfold step at h
  split at h
  · simp at h
  · next name =>
    obtain ⟨hsome, rfl⟩ := LabelTable.declare_eq_error.1 (bind_pure_eq_error.1 h)
    exact ⟨rfl, .inl ⟨name, .inl rfl, hsome, rfl⟩⟩
  · next name value =>
    split at h
    · next err herr =>
      obtain rfl := Except.error.inj h
      exact ⟨rfl, .inr ⟨name, value, err, rfl, herr, rfl⟩⟩
    · obtain ⟨hsome, rfl⟩ := LabelTable.declare_eq_error.1 (bind_pure_eq_error.1 h)
      exact ⟨rfl, .inl ⟨name, .inr ⟨value, rfl⟩, hsome, rfl⟩⟩
  · simp at h
  · simp at h

theorem walk_eq_error {l : Layout} {steps : List Step} (h : walk isa line l steps = .error d) :
    ∃ pre s post l', steps = pre ++ s :: post ∧ walk isa line l pre = .ok l' ∧
      l'.step isa (line + pre.length) s = .error d := by
  induction steps generalizing line l with
  | nil => simp [walk] at h
  | cons s rest ih =>
    rcases bind_eq_error.1 h with herror | ⟨l₁, hl₁, hrest⟩
    · exact ⟨[], s, rest, l, rfl, rfl, herror⟩
    · obtain ⟨pre, s', post, l', rfl, hpre, hs'⟩ := ih hrest
      refine ⟨s :: pre, s', post, l', rfl, walk_cons_eq_ok.2 ⟨l₁, hl₁, hpre⟩, ?_⟩
      rw [List.length_cons, show line + (pre.length + 1) = line + 1 + pre.length from by omega]
      exact hs'

end Layout

theorem layout_cause {steps : List Step} (h : layout isa steps = .error d) :
    (∃ name, d.cause = .labelRedeclared name) ∨ ∃ err, d.cause = .eval err := by
  obtain ⟨pre, s, post, l', _, _, hstep⟩ := Layout.walk_eq_error (bind_pure_eq_error.1 h)
  rcases (Layout.step_eq_error hstep).2 with ⟨name, _, _, hcause⟩ | ⟨name, value, err, _, _, hcause⟩
  · exact .inl ⟨name, hcause⟩
  · exact .inr ⟨err, hcause⟩

/-! ## Writing the bytes -/

theorem DataKind.fits_bits (width : Nat) (v : Word) : DataKind.bits.fits width v = true :=
  ite_self true

theorem dataBytes_eq_error {kind : DataKind} {width index : Nat} {args : List Expr} {c : Cause}
    (h : dataBytes labels kind width index args = .error c) :
    (∃ e ∈ args, ∃ err, e.eval labels = .error err ∧ c = .eval err) ∨
    (∃ i e v, args[i]? = some e ∧ e.eval labels = .ok v ∧ kind.fits width v = false ∧
      c = .dataOverflow (Directive.dataName kind width) (index + i)) := by
  induction args generalizing index with
  | nil => simp [dataBytes] at h
  | cons e rest ih =>
    simp only [dataBytes] at h
    split at h
    · next err herr =>
      exact .inl ⟨e, List.mem_cons_self, err, herr, (Except.error.inj h).symm⟩
    · next v hv =>
      split at h
      · rcases ih (bind_pure_eq_error.1 h) with
          ⟨e', he', hcause⟩ | ⟨i, e', v', hi, hv', hfits, hcause⟩
        · exact .inl ⟨e', List.mem_cons_of_mem e he', hcause⟩
        · refine .inr ⟨i + 1, e', v', hi, hv', hfits, ?_⟩
          rw [hcause, show index + 1 + i = index + (i + 1) from by omega]
      · next hfits =>
        exact .inr ⟨0, e, v, rfl, hv, by simpa using hfits, (Except.error.inj h).symm⟩

namespace Emission

theorem board_eq_error_iff {size : Nat} {e : Emission} :
    e.board isa line size = .error d ↔
      isa.misaligned size e.image.offset = true ∧ realign? isa.unit e.done = none ∧
        d = ⟨line, .unalignable⟩ := by
  unfold board
  cases hm : isa.misaligned size e.image.offset with
  | false => simp
  | true =>
    cases hr : realign? isa.unit e.done with
    | none => simp [eq_comm]
    | some done => simp

theorem insn_eq_error {slot : Slot} {e : Emission} (h : e.insn isa labels line slot = .error d) :
    d.line = line ∧
      ((∃ err, slot.chosen.resolve labels (e.image.address isa.posUnit) = .error err ∧
          d.cause = .eval err) ∨
       (slot.chosen.resolve labels (e.image.address isa.posUnit) = .ok none ∧
          slot.next? = none ∧ d.cause = .relocationFailed)) := by
  simp only [insn] at h
  split at h
  · next err herr =>
    obtain rfl := Except.error.inj h
    exact ⟨rfl, .inl ⟨err, herr, rfl⟩⟩
  · simp at h
  · next hnone =>
    split at h
    · next hnext =>
      obtain rfl := Except.error.inj h
      exact ⟨rfl, .inr ⟨hnone, hnext, rfl⟩⟩
    · simp at h

/-- The ways in which one line fails: an instruction cannot be put on its boundary, or it cannot
    be written there, or data cannot be stored. -/
theorem step_eq_error {e : Emission} {s : Step} (h : e.step isa labels line s = .error d) :
    (∃ slot, s = .insn slot ∧
      e.board isa line (slot.chosen.size isa.unit) = .error d) ∨
    (∃ slot e₁, s = .insn slot ∧ e.board isa line (slot.chosen.size isa.unit) = .ok e₁ ∧
      e₁.insn isa labels line slot = .error d) ∨
    (∃ kind width args, s = .directive (.data kind width args) ∧ d.line = line ∧
      dataBytes labels kind width 0 args = .error d.cause) := by
  unfold step at h
  split at h
  · next slot =>
    rcases bind_eq_error.1 h with hboard | ⟨e₁, hboard, hinsn⟩
    · exact .inl ⟨slot, rfl, hboard⟩
    · exact .inr (.inl ⟨slot, e₁, rfl, hboard, hinsn⟩)
  · simp at h
  · next kind width args =>
    split at h
    · next cause hcause =>
      obtain rfl := Except.error.inj h
      exact .inr (.inr ⟨kind, width, args, rfl, rfl, hcause⟩)
    · simp at h
  · simp at h

theorem line_of_step_eq_error {e : Emission} {s : Step}
    (h : e.step isa labels line s = .error d) : d.line = line := by
  rcases step_eq_error h with ⟨slot, _, hboard⟩ | ⟨slot, e₁, _, _, hinsn⟩ | ⟨_, _, _, _, hd, _⟩
  · obtain ⟨_, _, rfl⟩ := board_eq_error_iff.1 hboard
    rfl
  · exact (insn_eq_error hinsn).1
  · exact hd

/-- A walk fails exactly where a line fails and those before it do not. -/
theorem walk_eq_error_iff {e : Emission} {steps : List Step} :
    walk isa labels line e steps = .error d ↔
      ∃ pre s post e', steps = pre ++ s :: post ∧ walk isa labels line e pre = .ok e' ∧
        e'.step isa labels (line + pre.length) s = .error d := by
  constructor
  · intro h
    induction steps generalizing line e with
    | nil => simp [walk] at h
    | cons s rest ih =>
      rcases bind_eq_error.1 h with herror | ⟨e₁, he₁, hrest⟩
      · exact ⟨[], s, rest, e, rfl, rfl, herror⟩
      · obtain ⟨pre, s', post, e', rfl, hpre, hs'⟩ := ih hrest
        refine ⟨s :: pre, s', post, e', rfl, walk_cons_eq_ok.2 ⟨e₁, he₁, hpre⟩, ?_⟩
        rw [List.length_cons, show line + (pre.length + 1) = line + 1 + pre.length from by omega]
        exact hs'
  · rintro ⟨pre, s, post, e', rfl, hpre, hs⟩
    rw [walk_append]
    exact bind_eq_error.2 (.inr ⟨e', hpre, bind_eq_error.2 (.inl hs)⟩)

end Emission

/-! ## The whole run -/

theorem relax_of_passes {n : Nat} {start last : List Step} (h : Passes isa n start last)
    (k : Nat) : relax isa k start = relax isa (k + n) last := by
  induction h generalizing k with
  | refl steps => rfl
  | @cons n start next last hpass _ ih =>
    -- relaxation makes this pass, too, and goes on from where it leads
    obtain ⟨labels, e, hlayout, hemit, hdirty, rfl⟩ := hpass
    rw [relax]
    simp only [hlayout]
    split
    · next d herror => simp [hemit] at herror
    · next e' hok =>
      obtain rfl : e = e' := Except.ok.inj (hemit.symm.trans hok)
      rw [dif_pos hdirty, ih, show k + 1 + n = k + (n + 1) from by omega]

theorem relax_of_failedPass {steps : List Step} (h : FailedPass isa steps d) (k : Nat) :
    relax isa k steps = .error d := by
  rw [relax]
  rcases h with hlayout | ⟨labels, hlayout, hemit⟩
  · simp [hlayout]
  · simp only [hlayout]
    split
    · next d' herror =>
      obtain rfl := Except.error.inj (hemit.symm.trans herror)
      rfl
    · next e hok => simp [hemit] at hok

theorem relax_of_cleanPass {steps : List Step} {sections : List Section} {labels : LabelTable}
    (h : CleanPass isa steps sections labels) (k : Nat) :
    relax isa k steps = .ok ⟨sections, labels, k + 1⟩ := by
  obtain ⟨e, hlayout, hemit, hclean, rfl⟩ := h
  rw [relax]
  simp only [hlayout]
  split
  · next d herror => simp [hemit] at herror
  · next e' hok =>
    obtain rfl : e = e' := Except.ok.inj (hemit.symm.trans hok)
    rw [dif_neg (by simp [hclean])]

/-- A program is rejected exactly if its check fails or relaxation comes to a pass that fails. -/
theorem assemble_eq_error_iff {program : Program} :
    assemble isa sel program = .error d ↔
      Step.ofLines isa sel 1 program = .error d ∨
      ∃ steps n last, Step.ofLines isa sel 1 program = .ok steps ∧ Passes isa n steps last ∧
        FailedPass isa last d := by
  unfold assemble
  rw [bind_eq_error]
  constructor
  · rintro (hcheck | ⟨steps, hsteps, hrelax⟩)
    · exact .inl hcheck
    · -- the run ends, and it does not end well
      obtain ⟨n, last, hpasses, hend⟩ := relax_spec isa 0 steps
      rcases hend with ⟨d', hfail, hd'⟩ | ⟨sections, labels, _, hok⟩
      · obtain rfl := Except.error.inj (hrelax.symm.trans hd')
        exact .inr ⟨steps, n, last, hsteps, hpasses, hfail⟩
      · simp [hrelax] at hok
  · rintro (hcheck | ⟨steps, n, last, hsteps, hpasses, hfail⟩)
    · exact .inl hcheck
    · refine .inr ⟨steps, hsteps, ?_⟩
      rw [relax_of_passes hpasses]
      exact relax_of_failedPass hfail _

end TableAsm
