import Mathlib.Algebra.GroupWithZero.Nat
import TableAsm.Assembly
import TableAsm.Isa.Demo
import TableAsm.Proofs.Lockstep

/-! # Runs of passes

  Relaxation makes passes until one of them abandons nothing. A run is
  followed here from pass to pass.

  - `Checked` ties the steps of a run to the lines of the program: an
    instruction holds a tail of the list of its encodings. Checking a
    program gives such steps (`checked_of_ofLines`), and they stay so while
    choices move on (`Checked.later`).
  - `DirtyPass` is a pass that abandons something and `Passes` a run of
    them. `relax_spec` says that relaxation is such a run, followed by a
    pass that fails or by one that is not dirty.
  - `Line.index` is the place of the chosen encoding in its list. The sum
    of all places goes up with every dirty pass
    (`indexSum_lt_of_dirtyPass`), and this is what ends a run
    (`relaxation_ends`).
-/

namespace TableAsm

/-! ## Steps and the lines they stand for -/

/-- A step stands for a line: it is the line after the check, and an instruction may have lost
    encodings since. -/
inductive Step.Answers (isa : Isa) (sel : Selector) : Line → Step → Prop
  | insn {items : List Item} {slot : Slot} (h : slot.candidates <:+ isa.encodings sel items) :
    Step.Answers isa sel (.insn items) (.insn slot)
  | label (name : String) : Step.Answers isa sel (.label name) (.label name)
  | directive {name : String} {args : List Expr} {d : Directive}
    (h : Directive.parse name args = .ok d) :
    Step.Answers isa sel (.directive name args) (.directive d)

/-- The steps stand for the lines of a program, one by one. -/
abbrev Checked (isa : Isa) (sel : Selector) : Program → List Step → Prop :=
  List.Forall₂ (Step.Answers isa sel)

variable {isa : Isa} {sel : Selector} {program : Program}

theorem answers_of_ofLine {line : Line} {s : Step} (h : Step.ofLine isa sel line = .ok s) :
    Step.Answers isa sel line s := by
  unfold Step.ofLine at h
  split at h
  · split at h
    · simp at h
    · next c rest hc =>
      simp only [Except.ok.injEq] at h
      subst h
      refine .insn ?_
      rw [hc]
      exact List.suffix_rfl
  · simp only [Except.ok.injEq] at h
    subst h
    exact .label _
  · obtain ⟨d, hd, rfl⟩ := bind_pure_eq_ok.1 h
    exact .directive hd

theorem checked_of_ofLines {line : Nat} {steps : List Step}
    (h : Step.ofLines isa sel line program = .ok steps) : Checked isa sel program steps := by
  induction program generalizing line steps with
  | nil =>
    simp only [Step.ofLines, Except.ok.injEq] at h
    subst h
    exact .nil
  | cons l rest ih =>
    simp only [Step.ofLines] at h
    split at h
    · simp at h
    · next s hs =>
      obtain ⟨more, hmore, rfl⟩ := bind_pure_eq_ok.1 h
      exact .cons (answers_of_ofLine hs) (ih hmore)

theorem Step.Answers.later {line : Line} {s s' : Step} (h : Step.Answers isa sel line s)
    (hl : s.Later s') : Step.Answers isa sel line s' := by
  cases hl with
  | insn hsuf =>
    cases h with
    | insn h => exact .insn (hsuf.trans h)
  | label name => exact h
  | directive d => exact h

theorem Checked.later {now next : List Step} (h : Checked isa sel program now)
    (hl : Step.AllLater now next) : Checked isa sel program next := by
  induction h generalizing next with
  | nil =>
    cases hl
    exact .nil
  | cons h _ ih =>
    cases hl with
    | cons hl hrest => exact .cons (h.later hl) (ih hrest)

theorem Step.Answers.bounded {line : Line} {s : Step} (h : Step.Answers isa sel line s) :
    s.Bounded isa := by
  cases h with
  | insn h =>
    intro c hc
    -- encodings that are too long were dropped when the line was matched
    have hmem := h.subset hc
    simp only [Isa.encodings, List.mem_filter, Bool.and_eq_true, decide_eq_true_eq] at hmem
    exact Nat.le_trans hmem.2.2 (Nat.min_le_right _ _)
  | label name => trivial
  | directive h => trivial

theorem Checked.bounded {steps : List Step} (h : Checked isa sel program steps) :
    ∀ s ∈ steps, s.Bounded isa := by
  induction h with
  | nil => simp
  | cons h _ ih =>
    intro s hs
    rcases List.mem_cons.1 hs with rfl | hs
    · exact h.bounded
    · exact ih s hs

/-! ## Runs -/

/-- A pass that changes the choices from `now` to `next`. -/
def DirtyPass (isa : Isa) (now next : List Step) : Prop :=
  ∃ labels e, layout isa now = .ok labels ∧ emit isa labels now = .ok e ∧ e.dirty = true ∧
    next = e.done.reverse

/-- A pass that changes nothing and gives these sections and labels. -/
def CleanPass (isa : Isa) (now : List Step) (sections : List Section) (labels : LabelTable) :
    Prop :=
  ∃ e, layout isa now = .ok labels ∧ emit isa labels now = .ok e ∧ e.dirty = false ∧
    sections = e.image.sections

/-- A pass that fails. -/
def FailedPass (isa : Isa) (now : List Step) (d : Diagnostic) : Prop :=
  layout isa now = .error d ∨ ∃ labels, layout isa now = .ok labels ∧ emit isa labels now = .error d

/-- Some number of dirty passes leads from the first choices to the last. -/
inductive Passes (isa : Isa) : Nat → List Step → List Step → Prop
  | refl (steps : List Step) : Passes isa 0 steps steps
  | cons {n : Nat} {start next last : List Step} (hpass : DirtyPass isa start next)
    (hrest : Passes isa n next last) : Passes isa (n + 1) start last

theorem later_of_dirtyPass {now next : List Step} (h : DirtyPass isa now next) :
    Step.AllLater now next := by
  obtain ⟨labels, e, _, hemit, _, rfl⟩ := h
  simpa [Emission.inForce] using Emission.later_inForce hemit []

theorem later_of_passes {n : Nat} {start last : List Step} (h : Passes isa n start last) :
    Step.AllLater start last := by
  induction h with
  | refl steps => exact Step.AllLater.refl steps
  | cons hpass _ ih => exact (later_of_dirtyPass hpass).trans ih

/-- What relaxation does: some dirty passes, and then one that fails or one that is clean. -/
theorem relax_spec (isa : Isa) (k : Nat) (steps : List Step) :
    ∃ n last, Passes isa n steps last ∧
      ((∃ d, FailedPass isa last d ∧ relax isa k steps = .error d) ∨
       (∃ sections labels, CleanPass isa last sections labels ∧
          relax isa k steps = .ok ⟨sections, labels, k + n + 1⟩)) := by
  fun_induction relax isa k steps with
  | case1 k steps d hlayout =>
    -- the labels cannot be bound
    exact ⟨0, steps, .refl steps, .inl ⟨d, .inl hlayout, rfl⟩⟩
  | case2 k steps labels hlayout d hemit =>
    -- the bytes cannot be written
    exact ⟨0, steps, .refl steps, .inl ⟨d, .inr ⟨labels, hlayout, hemit⟩, rfl⟩⟩
  | case3 k steps labels hlayout e hemit hdirty ih =>
    -- one dirty pass, and then the run from the choices that it leaves
    obtain ⟨n, last, hpasses, hend⟩ := ih
    refine ⟨n + 1, last, .cons ⟨labels, e, hlayout, hemit, hdirty, rfl⟩ hpasses, ?_⟩
    rw [show k + (n + 1) + 1 = k + 1 + n + 1 from by omega]
    exact hend
  | case4 k steps labels hlayout e hemit hdirty =>
    -- the pass that is returned
    have hclean : e.dirty = false := by simpa using hdirty
    exact ⟨0, steps, .refl steps,
      .inr ⟨e.image.sections, labels, ⟨e, hlayout, hemit, hclean, rfl⟩, rfl⟩⟩

/-! ## The places of the chosen encodings -/

/-- The place of the chosen encoding in the list of all. -/
def Slot.index (s : Slot) (all : List Candidate) : Nat := all.length - s.candidates.length

/-- The place of the chosen encoding of a line; 0 for a line without encodings. -/
def Line.index (isa : Isa) (sel : Selector) : Line → Step → Nat
  | .insn items, .insn slot => slot.index (isa.encodings sel items)
  | _, _ => 0

/-- The last place that the chosen encoding of a line can come to. -/
def Line.lastIndex (isa : Isa) (sel : Selector) : Line → Nat
  | .insn items => (isa.encodings sel items).length - 1
  | _ => 0

/-- The sum of the places of all chosen encodings. -/
def indexSum (isa : Isa) (sel : Selector) (program : Program) (steps : List Step) : Nat :=
  (List.zipWith (Line.index isa sel) program steps).sum

/-- The sum of the last places of all lines. -/
def lastIndexSum (isa : Isa) (sel : Selector) (program : Program) : Nat :=
  (program.map (Line.lastIndex isa sel)).sum

theorem Slot.length_candidates (s : Slot) : s.candidates.length = s.spare.length + 1 := rfl

/-- The place is one of the list, and the chosen encoding stands there. -/
theorem Slot.getElem?_index {s : Slot} {all : List Candidate} (h : s.candidates <:+ all) :
    s.index all < all.length ∧ all[s.index all]? = some s.chosen := by
  obtain ⟨front, rfl⟩ := h
  -- what is in front has been abandoned
  have hidx : s.index (front ++ s.candidates) = front.length := by
    simp [Slot.index]
  rw [hidx]
  constructor
  · simp [Slot.length_candidates]
  · simp [Slot.candidates]

theorem Slot.index_le_index {s s' : Slot} (h : s'.candidates <:+ s.candidates)
    (all : List Candidate) : s.index all ≤ s'.index all := by
  have hle := h.length_le
  unfold Slot.index
  omega

theorem index_add_spare {line : Line} {s : Step} (h : Step.Answers isa sel line s) :
    Line.index isa sel line s + s.spare = Line.lastIndex isa sel line := by
  cases h with
  | @insn items slot h =>
    have hle := h.length_le
    simp only [Line.index, Line.lastIndex, Step.spare, Slot.index, Slot.length_candidates] at hle ⊢
    omega
  | label name => rfl
  | directive h => rfl

/-- What has been gone through and what is left make up the whole. -/
theorem indexSum_add_spare {steps : List Step} (h : Checked isa sel program steps) :
    indexSum isa sel program steps + spare steps = lastIndexSum isa sel program := by
  induction h with
  | nil => rfl
  | @cons line s lines steps h _ ih =>
    have hs := index_add_spare h
    simp only [indexSum, lastIndexSum, List.zipWith_cons_cons, List.map_cons, List.sum_cons,
      spare_cons] at ih ⊢
    omega

/-- A dirty pass moves the sum of all places up. -/
theorem indexSum_lt_of_dirtyPass {now next : List Step} (hc : Checked isa sel program now)
    (h : DirtyPass isa now next) :
    indexSum isa sel program now < indexSum isa sel program next := by
  -- places and spare encodings make up the same sum before and after, and some were lost
  have hnow := indexSum_add_spare hc
  have hnext := indexSum_add_spare (hc.later (later_of_dirtyPass h))
  obtain ⟨labels, e, _, hemit, hdirty, rfl⟩ := h
  have hlt := spare_emit_lt hemit hdirty
  omega

/-- So a run has at most as many dirty passes as the sum has gone up by. -/
theorem passes_le_indexSum {n : Nat} {start last : List Step} (hc : Checked isa sel program start)
    (h : Passes isa n start last) :
    indexSum isa sel program start + n ≤ indexSum isa sel program last := by
  induction h with
  | refl steps => exact Nat.le_refl _
  | cons hpass _ ih =>
    have hlt := indexSum_lt_of_dirtyPass hc hpass
    have hle := ih (hc.later (later_of_dirtyPass hpass))
    omega

/-! ## Single lines -/

theorem getElem?_of_forall₂ {α β : Type} {R : α → β → Prop} {as : List α} {bs : List β}
    (h : List.Forall₂ R as bs) {i : Nat} {a : α} (ha : as[i]? = some a) :
    ∃ b, bs[i]? = some b ∧ R a b := by
  induction h generalizing i with
  | nil => simp at ha
  | cons h _ ih =>
    cases i with
    | zero =>
      simp only [List.getElem?_cons_zero, Option.some.injEq] at ha
      subst ha
      exact ⟨_, rfl, h⟩
    | succ i => exact ih ha

theorem Checked.insn_at {steps : List Step} (h : Checked isa sel program steps) {i : Nat}
    {items : List Item} (hi : program[i]? = some (.insn items)) :
    ∃ slot, steps[i]? = some (.insn slot) ∧ slot.candidates <:+ isa.encodings sel items := by
  obtain ⟨s, hs, hans⟩ := getElem?_of_forall₂ h hi
  cases hans with
  | insn hsuf => exact ⟨_, hs, hsuf⟩

/-- A step of a run stands for the line at its place. -/
theorem Checked.split {pre post : List Step} {s : Step}
    (h : Checked isa sel program (pre ++ s :: post)) :
    ∃ before l after, program = before ++ l :: after ∧ before.length = pre.length ∧
      Checked isa sel before pre ∧ Step.Answers isa sel l s := by
  have hbefore := List.forall₂_take_append _ _ _ h
  obtain ⟨l, after, hl, _, hdrop⟩ :=
    List.forall₂_cons_right_iff.1 (List.forall₂_drop_append _ _ _ h)
  refine ⟨program.take pre.length, l, after, ?_, hbefore.length_eq, hbefore, hl⟩
  rw [← hdrop, List.take_append_drop]

/-- Every instruction's place in its list of encodings is in range, and it has not gone down
    since `now`. -/
def IndicesGrow (isa : Isa) (sel : Selector) (program : Program) (now next : List Step) : Prop :=
  ∀ (i : Nat) (items : List Item), program[i]? = some (.insn items) →
    ∃ slot slot', now[i]? = some (.insn slot) ∧ next[i]? = some (.insn slot') ∧
      slot.index (isa.encodings sel items) ≤ slot'.index (isa.encodings sel items) ∧
      slot'.index (isa.encodings sel items) < (isa.encodings sel items).length ∧
      (isa.encodings sel items)[slot'.index (isa.encodings sel items)]? = some slot'.chosen

theorem indicesGrow_of_later {now next : List Step} (hc : Checked isa sel program now)
    (hl : Step.AllLater now next) : IndicesGrow isa sel program now next := by
  intro i items hi
  obtain ⟨slot, hslot, _⟩ := hc.insn_at hi
  obtain ⟨slot', hslot', hans⟩ := (hc.later hl).insn_at hi
  -- the step at this place is the same one, seen from both lists
  obtain ⟨s, hs, hlater⟩ := getElem?_of_forall₂ hl hslot
  obtain rfl : Step.insn slot' = s := Option.some.inj (hslot'.symm.trans hs)
  cases hlater with
  | insn hsuf =>
    obtain ⟨hlt, hget⟩ := Slot.getElem?_index hans
    exact ⟨slot, slot', hslot, hslot', Slot.index_le_index hsuf _, hlt, hget⟩

/-! ## The run ends -/

/-- **Relaxation ends.** For every program that passes the check:

    * from one moment of a pass to a later one, every instruction's place in its list of
      encodings stays in range and does not go down;
    * a dirty pass moves the sum of all places up;
    * so relaxation ends after some number of dirty passes, which is at most the sum of the
      places that were reached, and that is at most the sum of the last places. The pass after
      them fails, or it is clean and is the last one that is counted. -/
theorem relaxation_ends {steps : List Step}
    (h : Step.ofLines isa sel 1 program = .ok steps) :
    (∀ n now, Passes isa n steps now →
      (∀ (labels : LabelTable) (behind between ahead : List Step) (e e' : Emission),
        now = behind ++ between ++ ahead →
        Emission.walk isa labels 1 {} behind = .ok e →
        Emission.walk isa labels 1 {} (behind ++ between) = .ok e' →
        IndicesGrow isa sel program (e.inForce (between ++ ahead)) (e'.inForce ahead)) ∧
      (∀ next, DirtyPass isa now next →
        indexSum isa sel program now < indexSum isa sel program next)) ∧
    ∃ n last, Passes isa n steps last ∧
      n ≤ indexSum isa sel program last ∧
      indexSum isa sel program last ≤ lastIndexSum isa sel program ∧
      ((∃ d, FailedPass isa last d ∧ relax isa 0 steps = .error d) ∨
       (∃ a, CleanPass isa last a.sections a.labels ∧ relax isa 0 steps = .ok a ∧
          a.passes = 1 + n ∧ a.passes ≤ 1 + indexSum isa sel program last)) := by
  have hc := checked_of_ofLines h
  refine ⟨?_, ?_⟩
  · intro n now hpasses
    have hnow := hc.later (later_of_passes hpasses)
    refine ⟨?_, fun next hpass => indexSum_lt_of_dirtyPass hnow hpass⟩
    intro labels behind between ahead e e' hsplit hwalk hwalk'
    -- the second walk is the first one, continued
    rw [Emission.walk_append] at hwalk'
    obtain ⟨e₁, he₁, hrest⟩ := bind_eq_ok.1 hwalk'
    obtain rfl : e = e₁ := Except.ok.inj (hwalk.symm.trans he₁)
    have hstart : Step.AllLater now (e.inForce (between ++ ahead)) := by
      rw [hsplit, List.append_assoc]
      exact Emission.later_inForce hwalk (between ++ ahead)
    exact indicesGrow_of_later (hnow.later hstart) (Emission.later_inForce hrest ahead)
  · -- the run that relaxation makes, with the bound from its dirty passes
    obtain ⟨n, last, hpasses, hend⟩ := relax_spec isa 0 steps
    have hle := passes_le_indexSum hc hpasses
    have hsum := indexSum_add_spare (hc.later (later_of_passes hpasses))
    refine ⟨n, last, hpasses, by omega, by omega, ?_⟩
    rcases hend with hfail | ⟨sections, labels, hclean, hrelax⟩
    · exact .inl hfail
    · refine .inr ⟨_, hclean, hrelax, ?_, ?_⟩
      · show 0 + n + 1 = 1 + n
        omega
      · show 0 + n + 1 ≤ 1 + indexSum isa sel program last
        omega

/-- A program in two sections, with an instruction whose first encoding has no room for its
    immediate. -/
def demoProgram : Program :=
  [.directive ".equ" [.label "K", .num 0x12345],
   .insn [.name "mov", .expr (.reg "$r1"), .expr (.label "K")],
   .label "L",
   .directive ".section" [.label "data", .num 0x100],
   .directive ".u16" [.label "L", .num 7],
   .directive ".skip" [.num 1],
   .directive ".align" [.num 8],
   .insn [.name "bra", .expr (.label "L")],
   .label "M",
   .directive ".section" [.label "default"],
   .insn [.name "exit"]]

theorem assemble_demoProgram : ∃ a, assemble Isa.demo {} demoProgram = .ok a ∧ a.passes = 2 :=
  exists_ok_of_map (by decide +kernel)

/-- Two passes, where the bound allows four. -/
theorem relaxation_ends_demoProgram :
    ∃ steps a, Step.ofLines Isa.demo {} 1 demoProgram = .ok steps ∧
      relax Isa.demo 0 steps = .ok a ∧ a.passes = 2 ∧
      a.passes ≤ 1 + lastIndexSum Isa.demo {} demoProgram ∧
      lastIndexSum Isa.demo {} demoProgram = 3 := by
  obtain ⟨a, ha, hpasses⟩ := assemble_demoProgram
  obtain ⟨steps, hsteps, hrelax⟩ := bind_eq_ok.1 ha
  obtain ⟨_, n, last, _, hn, hsum, hend⟩ := relaxation_ends hsteps
  refine ⟨steps, a, hsteps, hrelax, hpasses, ?_, by decide +kernel⟩
  -- relaxation has one result only
  rcases hend with ⟨d, _, herror⟩ | ⟨a', _, hok, _, hle⟩
  · rw [hrelax] at herror
    simp at herror
  · rw [hrelax, Except.ok.injEq] at hok
    subst hok
    omega

end TableAsm
