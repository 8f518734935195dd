import TableAsm.Proofs.Failure
import TableAsm.Proofs.Renaming

/-! # Label names carry no meaning

  Two programs that differ only in the names of their labels are assembled
  alike, step for step: every line is checked with the same outcome, both
  walks of every pass go side by side, and so the same passes are made.
  What comes out is the same but for the names.

  - `Line.rename` renames the labels of a program, and the functions
    beside it those in everything that the assembler keeps on its way.
  - Each function of the assembler commutes with them, down to the errors
    that it reports: `Step.ofLines_rename`, `layout_rename`,
    `emit_rename`, `relax_rename`.
  - `assemble_rename` is the conclusion.
-/

namespace TableAsm

/-! ## Programs and errors -/

/-- Does a directive of this name have arguments with labels? Those are `.equ` and the directives
    that store data. -/
def Directive.hasLabels (name : String) : Bool :=
  name == ".equ" || (Directive.dataKind? name.toList).isSome

/-- Renames all labels in a line. The names of sections are no labels. -/
def Line.rename (ρ : String → String) : Line → Line
  | .insn items => .insn (items.map (Item.rename ρ))
  | .label name => .label (ρ name)
  | .directive name args =>
    .directive name (if Directive.hasLabels name then args.map (Expr.rename ρ) else args)

/-- Renames the label that an error is about. -/
def Cause.rename (ρ : String → String) : Cause → Cause
  | .eval e => .eval (e.rename ρ)
  | .labelRedeclared name => .labelRedeclared (ρ name)
  | cause => cause

/-- Renames the label that a diagnostic is about. -/
def Diagnostic.rename (ρ : String → String) (d : Diagnostic) : Diagnostic :=
  { d with cause := d.cause.rename ρ }

/-- Renames all labels in a directive. -/
def Directive.rename (ρ : String → String) : Directive → Directive
  | .equ name value => .equ (ρ name) (value.rename ρ)
  | .data kind width args => .data kind width (args.map (Expr.rename ρ))
  | d => d

/-- Renames all labels in the encodings of an instruction. -/
def Slot.rename (ρ : String → String) (s : Slot) : Slot :=
  ⟨s.chosen.rename ρ, s.spare.map (Candidate.rename ρ)⟩

/-- Renames all labels in a step. -/
def Step.rename (ρ : String → String) : Step → Step
  | .insn slot => .insn (slot.rename ρ)
  | .label name => .label (ρ name)
  | .directive d => .directive (d.rename ρ)

/-- Renames all labels of a result. -/
def Assembly.rename (ρ : String → String) (a : Assembly) : Assembly :=
  { a with labels := a.labels.rename ρ }

variable {ρ : String → String} {isa : Isa} {sel : Selector}

/-! ## Checking lines -/

theorem unmatched_rename (hρ : Function.Injective ρ) (items : List Item) :
    unmatched (items.map (Item.rename ρ)) = (unmatched items).rename ρ := by
  have hall : ∀ f : Item → Bool, (∀ it, f (it.rename ρ) = f it) →
      (items.map (Item.rename ρ)).all f = items.all f := by
    intro f hf
    rw [List.all_map]
    congr 1
    funext it
    exact hf it
  simp only [unmatched]
  rw [hall]
  · split <;> rfl
  · intro it
    cases it with
    | expr e => simp only [Item.rename, Expr.dividesByZero_rename hρ]
    | _ => rfl

theorem Directive.parse_rename (name : String) (args : List Expr) :
    Directive.parse name
        (if Directive.hasLabels name then args.map (Expr.rename ρ) else args) =
      mapBoth (Cause.rename ρ) (Directive.rename ρ) (Directive.parse name args) := by
  by_cases hsection : name = ".section"
  · subst hsection
    rw [show hasLabels ".section" = false from by decide]
    unfold parse
    simp only [if_true, Bool.false_eq_true, if_false]
    split <;> rfl
  by_cases halign : name = ".align"
  · subst halign
    rw [show hasLabels ".align" = false from by decide]
    simp only [parse, String.reduceEq, if_true, if_false, Bool.false_eq_true]
    cases padding? args with
    | none => rfl
    | some n =>
      simp only
      split <;> rfl
  by_cases hskip : name = ".skip"
  · subst hskip
    rw [show hasLabels ".skip" = false from by decide]
    simp only [parse, String.reduceEq, if_true, if_false, Bool.false_eq_true]
    cases padding? args <;> rfl
  by_cases hequ : name = ".equ"
  · subst hequ
    rw [show hasLabels ".equ" = true from by decide]
    simp only [parse, String.reduceEq, if_true, if_false]
    -- the same shape of arguments before and after
    cases args with
    | nil => rfl
    | cons a rest =>
      cases rest with
      | nil => cases a <;> rfl
      | cons e rest =>
        cases rest with
        | cons e' rest => cases a <;> rfl
        | nil =>
          cases a with
          | label s =>
            simp only [List.map_cons, List.map_nil, Expr.rename, Expr.isImm_rename]
            split <;> rfl
          | _ => rfl
  · -- a directive that stores data, or none at all
    have hlabels : hasLabels name = (dataKind? name.toList).isSome := by
      simp [hasLabels, hequ]
    simp only [parse, hsection, halign, hskip, hequ, if_false, hlabels]
    cases dataKind? name.toList with
    | none => rfl
    | some kind =>
      have hall : (args.map (Expr.rename ρ)).all Expr.isImm = args.all Expr.isImm := by
        rw [List.all_map]
        congr 1
        funext e
        exact Expr.isImm_rename ρ e
      simp only [Option.isSome_some, if_true, hall]
      split <;> rfl

namespace Step

theorem ofLine_rename (hisa : isa.KeywordFree) (hρ : Function.Injective ρ) (l : Line) :
    ofLine isa sel (l.rename ρ) = mapBoth (Cause.rename ρ) (rename ρ) (ofLine isa sel l) := by
  cases l with
  | insn items =>
    simp only [Line.rename, ofLine, isa.encodings_rename hisa hρ, unmatched_rename hρ]
    cases isa.encodings sel items <;> rfl
  | label name => rfl
  | directive name args =>
    simp only [Line.rename, ofLine, Directive.parse_rename]
    exact mapBoth_bind fun _ _ => rfl

/-- A renamed program is checked with the same outcome. -/
theorem ofLines_rename (hisa : isa.KeywordFree) (hρ : Function.Injective ρ) (line : Nat)
    (program : Program) :
    ofLines isa sel line (program.map (Line.rename ρ)) =
      mapBoth (Diagnostic.rename ρ) (List.map (rename ρ)) (ofLines isa sel line program) := by
  induction program generalizing line with
  | nil => rfl
  | cons l rest ih =>
    simp only [List.map_cons, ofLines, ofLine_rename hisa hρ]
    cases ofLine isa sel l with
    | error cause => rfl
    | ok s =>
      show ofLines isa sel (line + 1) (rest.map (Line.rename ρ)) >>= _ = _
      rw [ih]
      exact mapBoth_bind fun _ _ => rfl

end Step

/-! ## Binding labels -/

theorem LabelTable.declare_rename (hρ : Function.Injective ρ) (t : LabelTable) (line : Nat)
    (name : String) (value : Word) :
    (t.rename ρ).declare line (ρ name) value =
      mapBoth (Diagnostic.rename ρ) (LabelTable.rename ρ) (t.declare line name value) := by
  unfold LabelTable.declare LabelTable.define?
  rw [LabelTable.get?_rename hρ]
  cases t.get? name <;> rfl

/-- Renames all labels that are bound so far. -/
def Layout.rename (ρ : String → String) (l : Layout) : Layout :=
  { l with labels := l.labels.rename ρ }

namespace Layout

theorem step_rename (hρ : Function.Injective ρ) (line : Nat) (l : Layout) (s : Step) :
    (l.rename ρ).step isa line (s.rename ρ) =
      mapBoth (Diagnostic.rename ρ) (rename ρ) (l.step isa line s) := by
  cases s with
  | insn slot => rfl
  | label name =>
    show (l.labels.rename ρ).declare line (ρ name) _ >>= _ = _
    rw [LabelTable.declare_rename hρ]
    exact mapBoth_bind fun _ _ => rfl
  | directive d =>
    cases d with
    | equ name value =>
      simp only [Step.rename, Directive.rename, step, rename, Expr.eval_rename hρ]
      cases value.eval l.labels with
      | error e => rfl
      | ok v =>
        show (l.labels.rename ρ).declare line (ρ name) v >>= _ = _
        rw [LabelTable.declare_rename hρ]
        exact mapBoth_bind fun _ _ => rfl
    | data kind width args =>
      simp only [Step.rename, Directive.rename, step, List.length_map]
      rfl
    | _ => rfl

theorem walk_rename (hρ : Function.Injective ρ) (line : Nat) (l : Layout) (steps : List Step) :
    walk isa line (l.rename ρ) (steps.map (Step.rename ρ)) =
      mapBoth (Diagnostic.rename ρ) (rename ρ) (walk isa line l steps) := by
  induction steps generalizing line l with
  | nil => rfl
  | cons s rest ih =>
    show (l.rename ρ).step isa line (s.rename ρ) >>= _ = _
    rw [step_rename hρ]
    exact mapBoth_bind fun l' _ => ih (line + 1) l'

end Layout

/-- The same labels are bound, under their new names. -/
theorem layout_rename (hρ : Function.Injective ρ) (steps : List Step) :
    layout isa (steps.map (Step.rename ρ)) =
      mapBoth (Diagnostic.rename ρ) (LabelTable.rename ρ) (layout isa steps) := by
  have hwalk : Layout.walk isa 1 {} (steps.map (Step.rename ρ)) =
      mapBoth (Diagnostic.rename ρ) (Layout.rename ρ) (Layout.walk isa 1 {} steps) :=
    Layout.walk_rename hρ 1 {} steps
  unfold layout
  rw [hwalk]
  exact mapBoth_bind fun _ _ => rfl

/-! ## Writing bytes -/

theorem Candidate.resolveAll_rename (hρ : Function.Injective ρ) (labels : LabelTable) (pc : Word)
    (relocs : List Reloc) (p : Pattern) :
    Candidate.resolveAll (labels.rename ρ) pc (relocs.map (Reloc.rename ρ)) p =
      mapBoth (EvalError.rename ρ) id (Candidate.resolveAll labels pc relocs p) := by
  induction relocs generalizing p with
  | nil => rfl
  | cons r rest ih =>
    show (r.expr.rename ρ).eval (labels.rename ρ) >>= _ = _
    rw [Expr.eval_rename hρ]
    refine mapBoth_bind fun v _ => ?_
    simp only [id_eq, Reloc.rename]
    cases r.field.encode p v pc with
    | none => rfl
    | some q => exact ih q

theorem dataBytes_rename (hρ : Function.Injective ρ) (labels : LabelTable) (kind : DataKind)
    (width index : Nat) (args : List Expr) :
    dataBytes (labels.rename ρ) kind width index (args.map (Expr.rename ρ)) =
      mapBoth (Cause.rename ρ) id (dataBytes labels kind width index args) := by
  induction args generalizing index with
  | nil => rfl
  | cons e rest ih =>
    simp only [List.map_cons, dataBytes, Expr.eval_rename hρ]
    cases e.eval labels with
    | error err => rfl
    | ok v =>
      show (if kind.fits width v then _ else _) = mapBoth _ _ (if kind.fits width v then _ else _)
      split
      · rw [ih]
        exact mapBoth_bind fun _ _ => rfl
      · rfl

/-- Renames all labels in the steps so far. -/
def Emission.rename (ρ : String → String) (e : Emission) : Emission :=
  { e with done := e.done.map (Step.rename ρ) }

theorem Slot.realign?_rename (unit : Nat) (s : Slot) :
    (s.rename ρ).realign? unit = (s.realign? unit).map (Slot.rename ρ) := by
  have hsame : (fun c => !Slot.shifts (c.size unit) ((s.chosen.rename ρ).size unit)) ∘
      Candidate.rename ρ = fun c => !Slot.shifts (c.size unit) (s.chosen.size unit) := rfl
  unfold Slot.realign? Slot.rename
  simp only [List.dropWhile_map, hsame]
  cases s.spare.dropWhile fun c => !Slot.shifts (c.size unit) (s.chosen.size unit) <;> rfl

namespace Emission

theorem realign?_rename (unit : Nat) (steps : List Step) :
    realign? unit (steps.map (Step.rename ρ)) =
      (realign? unit steps).map (List.map (Step.rename ρ)) := by
  induction steps with
  | nil => rfl
  | cons s rest ih =>
    cases s with
    | insn slot =>
      show ((slot.rename ρ).realign? unit).map _ = ((slot.realign? unit).map _).map _
      rw [Slot.realign?_rename]
      cases slot.realign? unit <;> rfl
    | label name =>
      show (realign? unit (rest.map (Step.rename ρ))).map _ = ((realign? unit rest).map _).map _
      rw [ih]
      cases realign? unit rest <;> rfl
    | directive d => rfl

theorem board_rename (line size : Nat) (e : Emission) :
    (e.rename ρ).board isa line size =
      mapBoth (Diagnostic.rename ρ) (rename ρ) (e.board isa line size) := by
  unfold board
  show (if isa.misaligned size e.image.offset then _ else _) = _
  split
  · simp only [rename, realign?_rename]
    cases realign? isa.unit e.done <;> rfl
  · rfl

theorem insn_rename (hρ : Function.Injective ρ) (labels : LabelTable) (line : Nat) (slot : Slot)
    (e : Emission) :
    (e.rename ρ).insn isa (labels.rename ρ) line (slot.rename ρ) =
      mapBoth (Diagnostic.rename ρ) (rename ρ) (e.insn isa labels line slot) := by
  have hresolve : (slot.rename ρ).chosen.resolve (labels.rename ρ) (e.image.address isa.posUnit) =
      mapBoth (EvalError.rename ρ) id
        (slot.chosen.resolve labels (e.image.address isa.posUnit)) :=
    Candidate.resolveAll_rename hρ labels _ slot.chosen.relocs slot.chosen.pattern
  have hnext : (slot.rename ρ).next? = slot.next?.map (Slot.rename ρ) := by
    unfold Slot.next? Slot.rename
    cases slot.spare <;> rfl
  unfold insn
  simp only [rename, hresolve, hnext]
  cases slot.chosen.resolve labels (e.image.address isa.posUnit) with
  | error err => rfl
  | ok p =>
    cases p with
    | some p => rfl
    | none =>
      cases slot.next? <;> rfl

theorem step_rename (hρ : Function.Injective ρ) (labels : LabelTable) (line : Nat) (e : Emission)
    (s : Step) :
    (e.rename ρ).step isa (labels.rename ρ) line (s.rename ρ) =
      mapBoth (Diagnostic.rename ρ) (rename ρ) (e.step isa labels line s) := by
  cases s with
  | insn slot =>
    show (e.rename ρ).board isa line (slot.chosen.size isa.unit) >>= _ = _
    rw [board_rename]
    exact mapBoth_bind fun e' _ => insn_rename hρ labels line slot e'
  | label name => rfl
  | directive d =>
    cases d with
    | data kind width args =>
      simp only [Step.rename, Directive.rename, step, dataBytes_rename hρ]
      cases dataBytes labels kind width 0 args <;> rfl
    | _ => rfl

theorem walk_rename (hρ : Function.Injective ρ) (labels : LabelTable) (line : Nat) (e : Emission)
    (steps : List Step) :
    walk isa (labels.rename ρ) line (e.rename ρ) (steps.map (Step.rename ρ)) =
      mapBoth (Diagnostic.rename ρ) (rename ρ) (walk isa labels line e steps) := by
  induction steps generalizing line e with
  | nil => rfl
  | cons s rest ih =>
    show (e.rename ρ).step isa (labels.rename ρ) line (s.rename ρ) >>= _ = _
    rw [step_rename hρ]
    exact mapBoth_bind fun e' _ => ih (line + 1) e'

end Emission

/-- A renamed pass writes the same bytes and abandons the same encodings. -/
theorem emit_rename (hρ : Function.Injective ρ) (labels : LabelTable) (steps : List Step) :
    emit isa (labels.rename ρ) (steps.map (Step.rename ρ)) =
      mapBoth (Diagnostic.rename ρ) (Emission.rename ρ) (emit isa labels steps) :=
  Emission.walk_rename hρ labels 1 {} steps

/-! ## All passes -/

section Passes

variable {now next : List Step}

theorem DirtyPass.rename (hρ : Function.Injective ρ) (h : DirtyPass isa now next) :
    DirtyPass isa (now.map (Step.rename ρ)) (next.map (Step.rename ρ)) := by
  obtain ⟨labels, e, hlayout, hemit, hdirty, rfl⟩ := h
  have hlayout' := eq_ok_of_mapBoth (layout_rename hρ now) hlayout
  have hemit' := eq_ok_of_mapBoth (emit_rename hρ labels now) hemit
  exact ⟨labels.rename ρ, e.rename ρ, hlayout', hemit', hdirty, List.map_reverse⟩

theorem CleanPass.rename (hρ : Function.Injective ρ) {sections : List Section}
    {labels : LabelTable} (h : CleanPass isa now sections labels) :
    CleanPass isa (now.map (Step.rename ρ)) sections (labels.rename ρ) := by
  obtain ⟨e, hlayout, hemit, hclean, hsections⟩ := h
  have hlayout' := eq_ok_of_mapBoth (layout_rename hρ now) hlayout
  have hemit' := eq_ok_of_mapBoth (emit_rename hρ labels now) hemit
  exact ⟨e.rename ρ, hlayout', hemit', hclean, hsections⟩

theorem FailedPass.rename (hρ : Function.Injective ρ) {d : Diagnostic}
    (h : FailedPass isa now d) : FailedPass isa (now.map (Step.rename ρ)) (d.rename ρ) := by
  rcases h with hlayout | ⟨labels, hlayout, hemit⟩
  · exact .inl (eq_error_of_mapBoth (layout_rename hρ now) hlayout)
  · have hlayout' := eq_ok_of_mapBoth (layout_rename hρ now) hlayout
    have hemit' := eq_error_of_mapBoth (emit_rename hρ labels now) hemit
    exact .inr ⟨labels.rename ρ, hlayout', hemit'⟩

theorem Passes.rename (hρ : Function.Injective ρ) {n : Nat} {start last : List Step}
    (h : Passes isa n start last) :
    Passes isa n (start.map (Step.rename ρ)) (last.map (Step.rename ρ)) := by
  induction h with
  | refl steps => exact .refl _
  | cons hpass _ ih => exact .cons (hpass.rename hρ) ih

end Passes

/-- Relaxation makes the same passes, and ends in the same way. -/
theorem relax_rename (hρ : Function.Injective ρ) (k : Nat) (steps : List Step) :
    relax isa k (steps.map (Step.rename ρ)) =
      mapBoth (Diagnostic.rename ρ) (Assembly.rename ρ) (relax isa k steps) := by
  obtain ⟨n, last, hpasses, hend⟩ := relax_spec isa k steps
  rw [relax_of_passes (hpasses.rename hρ)]
  rcases hend with ⟨d, hfail, hd⟩ | ⟨sections, labels, hclean, hok⟩
  · rw [hd, relax_of_failedPass (hfail.rename hρ)]
    rfl
  · rw [hok, relax_of_cleanPass (hclean.rename hρ)]
    rfl

/-- **Label names carry no meaning.** If no table asks for a label of a certain name, and different
    labels get different names, then a renamed program is assembled like the program itself: into
    the same sections, with the same bytes and in as many passes, and its labels are those of the
    program, renamed. If one of the two is rejected, then so is the other, in the same line and
    for the same reason, but for the name of the label that it is about. -/
theorem assemble_rename {isa : Isa} (hisa : isa.KeywordFree) {ρ : String → String}
    (hρ : Function.Injective ρ) (sel : Selector) (program : Program) :
    assemble isa sel (program.map (Line.rename ρ)) =
      mapBoth (Diagnostic.rename ρ) (Assembly.rename ρ) (assemble isa sel program) := by
  unfold assemble
  rw [Step.ofLines_rename hisa hρ]
  exact mapBoth_bind fun steps _ => relax_rename hρ 0 steps

/-- Puts a character in front of a name. -/
def marked (name : String) : String := "_" ++ name

theorem assemble_rename_marked :
    Isa.demo.KeywordFree ∧ Function.Injective marked ∧
      ∃ a, assemble Isa.demo {} demoProgram = .ok a ∧
        assemble Isa.demo {} (demoProgram.map (Line.rename marked)) = .ok (a.rename marked) ∧
        a.labels.get? "_K" = none ∧ (a.rename marked).labels.get? "_K" = some 0x12345 := by
  have hisa : Isa.demo.KeywordFree := by decide +kernel
  have hmarked : Function.Injective marked := by
    intro a b hab
    exact (String.append_right_inj "_").1 hab
  obtain ⟨a, ha, hlabels⟩ : ∃ a, assemble Isa.demo {} demoProgram = .ok a ∧
      (a.labels.get? "_K", (a.rename marked).labels.get? "_K") = (none, some 0x12345) :=
    exists_ok_of_map (by decide +kernel)
  obtain ⟨hbefore, hafter⟩ := Prod.mk.inj hlabels
  refine ⟨hisa, hmarked, a, ha, ?_, hbefore, hafter⟩
  rw [assemble_rename hisa hmarked, ha]
  rfl

end TableAsm
