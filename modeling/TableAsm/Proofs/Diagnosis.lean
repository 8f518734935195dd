import TableAsm.Proofs.Account
import TableAsm.Proofs.Failure
import TableAsm.Proofs.Provenance

/-! # Diagnostics and the lines they name

  A diagnostic gives a line and a cause, and the two belong together: an
  instruction is not told that it is no directive, a name that is called
  undefined stands in the line and is nowhere defined, and so on.

  - `Cause.Suits` says this for every cause. The causes that do not arise
    when a program is assembled suit no line.
  - `Layout.isSome_walk` says which names a pass has bound: those that the
    lines so far define, whatever encodings are chosen.
  - `Step.suits_of_ofLine`, `Layout.suits_of_step` and
    `Emission.suits_of_step` go through the ways in which a line fails.
  - `diagnostics_well_placed` is the result for whole programs.
-/

namespace TableAsm

/-! ## What a line is about -/

/-- The expressions of which a line needs the value. -/
inductive Line.Evaluates : Line → Expr → Prop
  | operand {items : List Item} {e : Expr} (he : .expr e ∈ items) :
    Line.Evaluates (.insn items) e
  | value {written name : String} {args : List Expr} {e : Expr}
    (h : Directive.parse written args = .ok (.equ name e)) :
    Line.Evaluates (.directive written args) e
  | datum {written : String} {args : List Expr} {kind : DataKind} {width : Nat} {e : Expr}
    (h : Directive.parse written args = .ok (.data kind width args)) (he : e ∈ args) :
    Line.Evaluates (.directive written args) e

/-- Some line defines the name. -/
def Defined (program : Program) (name : String) : Prop :=
  ∃ l ∈ program, l.defines? = some name

/-- The cause can be that of the line `l`, between these other lines. -/
def Cause.Suits (isa : Isa) (sel : Selector) (before : Program) (l : Line) (after : Program) :
    Cause → Prop
  | .noMatch => ∃ items, l = .insn items ∧ isa.encodings sel items = []
  | .relocationFailed => ∃ items, l = .insn items ∧ isa.encodings sel items ≠ []
  | .unalignable => isa.alignLong = true ∧ ∃ items, l = .insn items
  | .badDirective name =>
    ∃ args, l = .directive name args ∧ Directive.parse name args = .error (.badDirective name)
  | .unknownDirective name =>
    ∃ args, l = .directive name args ∧ Directive.parse name args = .error (.unknownDirective name)
  | .dataOverflow name i =>
    ∃ written kind width args, l = .directive written args ∧
      Directive.parse written args = .ok (.data kind width args) ∧ kind ≠ .bits ∧
      name = Directive.dataName kind width ∧ i < args.length
  | .labelRedeclared name => l.defines? = some name ∧ Defined before name
  | .eval .divisionByZero => ∃ e, l.Evaluates e
  -- a line that defines a name itself sees only the names before it
  | .eval (.undefinedLabel name) =>
    (∃ e, l.Evaluates e ∧ e.Mentions name) ∧ ¬ Defined before name ∧
      (l.defines? = none → ¬ Defined after name)
  | .eval .notImmediate => False
  | .ambiguous _ => False
  | .notAWord _ _ => False

variable {isa : Isa} {sel : Selector} {labels : LabelTable} {line : Nat} {d : Diagnostic}

theorem defined_append {program more : Program} {name : String} :
    Defined (program ++ more) name ↔ Defined program name ∨ Defined more name := by
  simp [Defined, or_and_right, exists_or]

theorem defined_cons {l : Line} {rest : Program} {name : String} :
    Defined (l :: rest) name ↔ l.defines? = some name ∨ Defined rest name := by
  simp [Defined]

/-! ## Checking the lines -/

theorem Step.suits_of_ofLine {l : Line} {c : Cause} {before after : Program}
    (h : Step.ofLine isa sel l = .error c) : c.Suits isa sel before l after := by
  rcases Step.ofLine_eq_error h with ⟨items, rfl, hnone, hcause⟩ | ⟨name, args, rfl, hparse⟩
  · rcases unmatched_eq items with hitems | hitems
    · rw [hcause, hitems]
      exact ⟨items, rfl, hnone⟩
    · obtain ⟨e, he, _⟩ := unmatched_eq_divisionByZero.1 hitems
      rw [hcause, hitems]
      exact ⟨e, .operand he⟩
  · rcases Directive.parse_eq_error hparse with rfl | rfl
    · exact ⟨args, rfl, hparse⟩
    · exact ⟨args, rfl, hparse⟩

/-! ## Binding the labels -/

namespace Layout

/-- A step binds the name that its line defines. -/
theorem isSome_step {l l' : Layout} {ln : Line} {s : Step} (hs : Step.Answers isa sel ln s)
    (h : l.step isa line s = .ok l') (name : String) :
    (l'.labels.get? name).isSome = true ↔
      (l.labels.get? name).isSome = true ∨ ln.defines? = some name := by
  -- binding a name adds just this name
  have hdeclare : ∀ {other : String} {value : Word} {t : LabelTable},
      l.labels.declare line other value = .ok t →
      ((t.get? name).isSome = true ↔
        (l.labels.get? name).isSome = true ∨ some other = some name) := by
    intro other value t ht
    rw [LabelTable.get?_define? (LabelTable.declare_eq_ok.1 ht) name]
    by_cases heq : name = other
    · simp [heq]
    · simp [heq, Ne.symm heq]
  cases hs with
  | insn _ =>
    obtain rfl := Except.ok.inj h
    simp [Line.defines?]
  | label other =>
    obtain ⟨t, ht, rfl⟩ := bind_pure_eq_ok.1 h
    exact hdeclare ht
  | @directive written args d hparse =>
    simp only [Line.defines?, hparse]
    cases d with
    | equ other value =>
      simp only [step] at h
      split at h
      · simp at h
      · obtain ⟨t, ht, rfl⟩ := bind_pure_eq_ok.1 h
        exact hdeclare ht
    | _ =>
      obtain rfl := Except.ok.inj h
      simp

/-- The names that are bound are those that the lines so far define. -/
theorem isSome_walk {l l' : Layout} {program : Program} {steps : List Step}
    (hc : Checked isa sel program steps) (h : walk isa line l steps = .ok l') (name : String) :
    (l'.labels.get? name).isSome = true ↔
      (l.labels.get? name).isSome = true ∨ Defined program name := by
  induction hc generalizing line l with
  | nil =>
    obtain rfl := Except.ok.inj h
    simp [Defined]
  | cons hs _ ih =>
    obtain ⟨l₁, hstep, hrest⟩ := walk_cons_eq_ok.1 h
    rw [ih hrest, isSome_step hs hstep name, defined_cons, or_assoc]

end Layout

theorem isSome_layout {program : Program} {steps : List Step}
    (hc : Checked isa sel program steps) (h : layout isa steps = .ok labels) (name : String) :
    (labels.get? name).isSome = true ↔ Defined program name := by
  obtain ⟨l, hl, rfl⟩ := bind_pure_eq_ok.1 h
  rw [Layout.isSome_walk hc hl name]
  simp

/-- The line that fails when the labels are bound, after lines that define these names. -/
theorem Layout.suits_of_step {l : Layout} {ln : Line} {s : Step} {before after : Program}
    (hs : Step.Answers isa sel ln s)
    (hl : ∀ name, (l.labels.get? name).isSome = true ↔ Defined before name)
    (h : l.step isa line s = .error d) : d.cause.Suits isa sel before ln after := by
  rcases (Layout.step_eq_error h).2 with
    ⟨name, hdef, hsome, hcause⟩ | ⟨name, value, err, rfl, herr, hcause⟩
  · rw [hcause]
    refine ⟨?_, (hl name).1 hsome⟩
    rcases hdef with rfl | ⟨value, rfl⟩
    · cases hs with
      | label => rfl
    · cases hs with
      | directive hparse => simp [Line.defines?, hparse]
  · rw [hcause]
    cases hs with
    | @directive written args _ hparse =>
      have himm : value.ImmOver value.Mentions :=
        Expr.ImmOver.self (Directive.isImm_of_parse hparse)
      rcases himm.eval_eq_error herr with rfl | ⟨other, rfl, hmentions, hnone⟩
      · exact ⟨value, .value hparse⟩
      · refine ⟨⟨value, .value hparse, hmentions⟩, ?_, ?_⟩
        · rw [← hl other, hnone]
          simp
        · intro hdefines
          simp [Line.defines?, hparse] at hdefines

/-! ## Writing the bytes -/

/-- A name that a pass has not bound is defined by no line before or after. -/
theorem undefined_of_layout {steps : List Step} {before after : Program} {l : Line} {name : String}
    (hc : Checked isa sel (before ++ l :: after) steps) (h : layout isa steps = .ok labels)
    (hnone : labels.get? name = none) : ¬ Defined before name ∧ ¬ Defined after name := by
  have hundefined : ¬ Defined (before ++ l :: after) name := by
    rw [← isSome_layout hc h name, hnone]
    simp
  rw [defined_append, defined_cons] at hundefined
  exact ⟨fun hb => hundefined (.inl hb), fun ha => hundefined (.inr (.inr ha))⟩

/-- The line that fails when the bytes are written. -/
theorem Emission.suits_of_step {e : Emission} {l : Line} {s : Step} {before after : Program}
    (hs : Step.Answers isa sel l s)
    (hl : ∀ name, labels.get? name = none → ¬ Defined before name ∧ ¬ Defined after name)
    (h : e.step isa labels line s = .error d) : d.cause.Suits isa sel before l after := by
  -- an immediate from an expression of the line has no value, for one of two reasons
  have hvalue : ∀ {x y : Expr} {err : EvalError}, l.Evaluates x → y.ImmOver x.Mentions →
      y.eval labels = .error err → (Cause.eval err).Suits isa sel before l after := by
    intro x y err hx hy herr
    rcases hy.eval_eq_error herr with rfl | ⟨name, rfl, hname, hnone⟩
    · exact ⟨x, hx⟩
    · exact ⟨⟨x, hx, hname⟩, (hl name hnone).1, fun _ => (hl name hnone).2⟩
  rcases step_eq_error h with
    ⟨slot, rfl, hboard⟩ | ⟨slot, e₁, rfl, _, hinsn⟩ | ⟨kind, width, args, rfl, _, hdata⟩
  · -- the instruction cannot be put on its boundary
    obtain ⟨hm, _, rfl⟩ := board_eq_error_iff.1 hboard
    cases hs with
    | @insn items _ _ =>
      have halign : isa.alignLong = true := by
        unfold Isa.misaligned at hm
        simp only [Bool.and_eq_true] at hm
        exact hm.1.1
      exact ⟨halign, items, rfl⟩
  · -- it cannot be written there
    cases hs with
    | @insn items _ hsuf =>
      have hmem : slot.chosen ∈ isa.encodings sel items := hsuf.subset List.mem_cons_self
      rcases (insn_eq_error hinsn).2 with ⟨err, herr, hcause⟩ | ⟨_, _, hcause⟩
      · obtain ⟨r, hr, hreloc⟩ := Candidate.resolveAll_eq_error herr
        obtain ⟨x, hx, himm⟩ := Isa.relocsFrom_encodings hmem r hr
        rw [hcause]
        exact hvalue (.operand hx) himm hreloc
      · rw [hcause]
        exact ⟨items, rfl, List.ne_nil_of_mem hmem⟩
  · -- data cannot be stored
    cases hs with
    | @directive written args' _ hparse =>
      obtain ⟨_, himm, rfl⟩ := Directive.data_of_parse hparse
      rcases dataBytes_eq_error hdata with
        ⟨x, hx, err, herr, hcause⟩ | ⟨i, x, v, hi, _, hfits, hcause⟩
      · rw [hcause]
        have hx' : x.ImmOver x.Mentions := Expr.ImmOver.self (List.all_eq_true.1 himm x hx)
        exact hvalue (.datum hparse hx) hx' herr
      · rw [hcause, Nat.zero_add]
        refine ⟨written, kind, width, args, rfl, hparse, ?_, rfl, ?_⟩
        · rintro rfl
          simp [DataKind.fits_bits] at hfits
        · exact (List.getElem?_eq_some_iff.1 hi).1

/-! ## The whole run -/

/-- The line that a failed pass names. -/
theorem FailedPass.suits {program : Program} {steps : List Step}
    (hc : Checked isa sel program steps) (h : FailedPass isa steps d) :
    ∃ before l after, program = before ++ l :: after ∧ d.line = before.length + 1 ∧
      d.cause.Suits isa sel before l after := by
  rcases h with hlayout | ⟨labels, hlayout, hemit⟩
  · obtain ⟨pre, s, post, l', rfl, hwalk, hstep⟩ :=
      Layout.walk_eq_error (bind_pure_eq_error.1 hlayout)
    obtain ⟨before, l, after, rfl, hlength, hbefore, hs⟩ := hc.split
    refine ⟨before, l, after, rfl, ?_, Layout.suits_of_step hs ?_ hstep⟩
    · rw [(Layout.step_eq_error hstep).1]
      omega
    · intro name
      rw [Layout.isSome_walk hbefore hwalk name]
      simp
  · obtain ⟨pre, s, post, e, rfl, hwalk, hstep⟩ := Emission.walk_eq_error_iff.1 hemit
    obtain ⟨before, l, after, rfl, hlength, _, hs⟩ := hc.split
    refine ⟨before, l, after, rfl, ?_, Emission.suits_of_step hs ?_ hstep⟩
    · rw [Emission.line_of_step_eq_error hstep]
      omega
    · intro name hnone
      exact undefined_of_layout hc hlayout hnone

/-- **Diagnostics are well placed.** If a program is rejected, the diagnostic names one of its
    lines, and the cause is one that this line can have, among these other lines. -/
theorem diagnostics_well_placed {program : Program} (h : assemble isa sel program = .error d) :
    1 ≤ d.line ∧ d.line ≤ program.length ∧
      ∃ before l after, program = before ++ l :: after ∧ d.line = before.length + 1 ∧
        d.cause.Suits isa sel before l after := by
  have hplace : ∃ before l after, program = before ++ l :: after ∧ d.line = before.length + 1 ∧
      d.cause.Suits isa sel before l after := by
    rcases assemble_eq_error_iff.1 h with hcheck | ⟨steps, n, last, hsteps, hpasses, hfail⟩
    · obtain ⟨before, l, after, hsplit, hline, hl⟩ := Step.ofLines_eq_error hcheck
      exact ⟨before, l, after, hsplit, by omega, Step.suits_of_ofLine hl⟩
    · -- whichever pass fails, its steps stand for the lines of the program
      exact hfail.suits ((checked_of_ofLines hsteps).later (later_of_passes hpasses))
  refine ⟨?_, ?_, hplace⟩
  · obtain ⟨before, _, _, _, hline, _⟩ := hplace
    omega
  · obtain ⟨before, l, after, rfl, hline, _⟩ := hplace
    simp only [List.length_append, List.length_cons]
    omega

/-- The operand of the second line needs a name that no line defines. -/
def undefinedProgram : Program :=
  [.label "L",
   .insn [.name "mov", .expr (.reg "$r1"), .expr (.bin .add (.label "M") (.num 1))],
   .directive ".u8" [.label "L"]]

theorem diagnostics_well_placed_undefinedProgram :
    assemble Isa.demo {} undefinedProgram = .error ⟨2, .eval (.undefinedLabel "M")⟩ ∧
      ∃ before l after, undefinedProgram = before ++ l :: after ∧ 2 = before.length + 1 ∧
        (∃ e, l.Evaluates e ∧ e.Mentions "M") ∧ ¬ Defined before "M" ∧
        (l.defines? = none → ¬ Defined after "M") := by
  have hrejected : (assemble Isa.demo {} undefinedProgram).map Assembly.passes =
      .error ⟨2, .eval (.undefinedLabel "M")⟩ := by
    decide +kernel
  have h := eq_error_of_map hrejected
  exact ⟨h, (diagnostics_well_placed h).2.2⟩

end TableAsm
