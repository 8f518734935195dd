import TableAsm.Proofs.Account

/-! # The result of relaxation is a fixed point

  The pass that ends a relaxation has left every choice alone. So its
  labels were bound with the very choices that its bytes were written
  with, and one account tells both.

  - `Account.entry_of_step` turns a step of such a pass into an entry.
  - `Account.binds_step` follows the labels, which the layout binds.
  - `Account.explains_of_cleanPass` joins the two along the program, and
    `assemble_explained` is the result.
-/

namespace TableAsm

/-- The encoding that is chosen for an instruction. -/
def Step.chosen? : Step → Option Candidate
  | .insn slot => some slot.chosen
  | .label _ => none
  | .directive _ => none

variable {isa : Isa} {sel : Selector} {labels : LabelTable}

/-! ## What directives put out -/

theorem Image.padding_spec {n : Nat} (hn : 0 < n) (offset : Nat) :
    Image.padding offset n < n ∧ n ∣ offset + Image.padding offset n := by
  unfold Image.padding
  refine ⟨Nat.mod_lt _ hn, ?_⟩
  have hlt := Nat.mod_lt offset hn
  by_cases hzero : offset % n = 0
  · rw [hzero, Nat.sub_zero, Nat.mod_self, Nat.add_zero]
    exact Nat.dvd_of_mod_eq_zero hzero
  · rw [Nat.mod_eq_of_lt (show n - offset % n < n by omega)]
    -- the rest and the padding make up one more multiple
    have hsum : offset + (n - offset % n) = n * (offset / n + 1) := by
      have hdiv := Nat.div_add_mod offset n
      rw [Nat.mul_add, Nat.mul_one]
      omega
    rw [hsum]
    exact Nat.dvd_mul_right _ _

theorem Directive.align_pos {name : String} {args : List Expr} {n : Nat}
    (h : Directive.parse name args = .ok (.align n)) : 0 < n := by
  unfold Directive.parse at h
  simp only at h
  repeat' split at h
  all_goals simp_all

theorem Image.append_nil (im : Image) : im.append #[] = im := by
  unfold Image.append
  simp

/-! ## A step of a clean pass is an entry -/

namespace Account

/-- The entry of a directive. -/
theorem entry_of_directive {line : Nat} {e e' : Emission} {acc : Account} {name : String}
    {args : List Expr} {d : Directive} (hacc : Straight isa sel labels acc)
    (hparse : Directive.parse name args = .ok d)
    (h : e.step isa labels line (.directive d) = .ok e') (him : e.image = image acc) :
    ∃ bytes, d.Emits labels (offset acc) bytes ∧
      e'.image =
        image (acc ++ [⟨.directive name args, currentSection (lines acc), none, bytes⟩]) := by
  cases d with
  | «section» s base =>
    simp only [Emission.step, Except.ok.injEq] at h
    subst h
    refine ⟨[], .section s base, ?_⟩
    have hline : (Line.directive name args).mention? = some (s, base.getD 0) := by
      simp [Line.mention?, hparse]
    rw [image_switch hacc hline rfl, ← him]
    rfl
  | align n =>
    simp only [Emission.step, Except.ok.injEq] at h
    subst h
    obtain ⟨hlt, hdvd⟩ := Image.padding_spec (Directive.align_pos hparse) (offset acc)
    refine ⟨_, .align hlt hdvd, ?_⟩
    have hline : (Line.directive name args).mention? = none := by
      simp [Line.mention?, hparse]
    rw [image_append hline rfl]
    simp only [Image.place, Image.align, Image.zeros, him, offset_image, List.toArray_replicate]
  | skip n =>
    simp only [Emission.step, Except.ok.injEq] at h
    subst h
    refine ⟨_, .skip n, ?_⟩
    have hline : (Line.directive name args).mention? = none := by
      simp [Line.mention?, hparse]
    rw [image_append hline rfl]
    simp only [Image.place, Image.zeros, him, List.toArray_replicate]
  | equ s value =>
    simp only [Emission.step, Except.ok.injEq] at h
    subst h
    refine ⟨_, .equ s value, ?_⟩
    have hline : (Line.directive name args).mention? = none := by
      simp [Line.mention?, hparse]
    rw [image_append hline rfl, ← him]
    exact (Image.append_nil _).symm
  | data kind width exprs =>
    simp only [Emission.step] at h
    split at h
    · simp at h
    · next bytes hbytes =>
      simp only [Except.ok.injEq] at h
      subst h
      obtain ⟨values, hvalues, rfl⟩ := dataBytes_eq_ok hbytes
      refine ⟨_, .data hvalues, ?_⟩
      have hline : (Line.directive name args).mention? = none := by
        simp [Line.mention?, hparse]
      rw [image_append hline rfl, ← him]

/-- The entry of any line, if the pass is clean. -/
theorem entry_of_step {line : Nat} {e e' : Emission} {acc : Account} {l : Line} {s : Step}
    (hacc : Straight isa sel labels acc) (hans : Step.Answers isa sel l s)
    (h : e.step isa labels line s = .ok e') (hclean : e'.dirty = false)
    (him : e.image = image acc) :
    ∃ entry : Entry, entry.line = l ∧ entry.choice = s.chosen? ∧
      Straight isa sel labels (acc ++ [entry]) ∧ e'.image = image (acc ++ [entry]) := by
  have hbounded := hans.bounded
  cases hans with
  | @insn items slot hsuf =>
    obtain ⟨e₁, hb, hi⟩ := Emission.step_insn_eq_ok.1 h
    rcases Emission.insn_eq_ok.1 hi with ⟨p, hp, rfl⟩ | ⟨slot', _, _, rfl⟩
    · rcases Emission.board_eq_ok.1 hb with ⟨hm, rfl⟩ | ⟨_, done, _, rfl⟩
      · -- the instruction stands where it is and is written
        have hchosen : slot.chosen ∈ slot.candidates := List.mem_cons_self
        rw [him, offset_image] at hm
        rw [him, address_image] at hp
        have hlen : (p.bytes (slot.chosen.size isa.unit)).length = slot.chosen.size isa.unit := by
          rw [Pattern.length_bytes]
          exact Nat.min_eq_left (hbounded _ hchosen)
        refine ⟨⟨.insn items, currentSection (lines acc), some slot.chosen,
          p.bytes (slot.chosen.size isa.unit)⟩, rfl, rfl,
          straight_append.2 ⟨hacc, rfl, .insn (hsuf.subset hchosen) hm hp hlen⟩, ?_⟩
        rw [image_append rfl rfl, ← him]
      · -- moving the line in front would have made the pass dirty
        simp at hclean
    · -- and so would abandoning this encoding
      simp at hclean
  | label name =>
    simp only [Emission.step, Except.ok.injEq] at h
    subst h
    refine ⟨⟨.label name, currentSection (lines acc), none, []⟩, rfl, rfl,
      straight_append.2 ⟨hacc, rfl, .label name⟩, ?_⟩
    rw [image_append rfl rfl, ← him]
    exact (Image.append_nil _).symm
  | @directive name args d hparse =>
    obtain ⟨bytes, hemits, himage⟩ := entry_of_directive hacc hparse h him
    exact ⟨⟨.directive name args, currentSection (lines acc), none, bytes⟩, rfl, rfl,
      straight_append.2 ⟨hacc, rfl, .directive hparse hemits⟩, himage⟩

/-! ## What the layout binds -/

variable {acc : Account} {entry : Entry} {t t' : LabelTable}

theorem names_append : names (acc ++ [entry]) = names acc ++ entry.line.defines?.toList := by
  unfold names
  rw [lines_append, List.filterMap_append]
  cases h : entry.line.defines? with
  | none => simp [h]
  | some name => simp [h]

/-- A line that defines nothing leaves the table as it is. -/
theorem binds_append_of_none (hb : Binds isa t acc) (hline : entry.line.defines? = none) :
    Binds isa t (acc ++ [entry]) := by
  have hnames : names (acc ++ [entry]) = names acc := by
    rw [names_append, hline]
    simp
  refine ⟨?_, ?_, ?_, ?_⟩
  · intro before e after name heq hlabel
    rcases append_singleton_eq_split heq with ⟨rfl, rfl⟩ | ⟨after', hsplit⟩
    · rw [hlabel] at hline
      simp [Line.defines?] at hline
    · exact hb.label before e after' name hsplit hlabel
  · intro before e after directive args name value heq hdir hparse
    rcases append_singleton_eq_split heq with ⟨rfl, rfl⟩ | ⟨after', hsplit⟩
    · rw [hdir] at hline
      simp [Line.defines?, hparse] at hline
    · exact hb.equ before e after' directive args name value hsplit hdir hparse
  · intro name
    rw [hnames]
    exact hb.defined name
  · rw [hnames]
    exact hb.once

/-- A line that defines a name, to the value that it should have, adds it to the table. -/
theorem binds_append_of_some {name : String} {v : Word} (hb : Binds isa t acc)
    (hdef : t.define? name v = some t') (hline : entry.line.defines? = some name)
    (hlabel : ∀ label, entry.line = .label label → v = address isa acc)
    (hequ : ∀ directive args s value, entry.line = .directive directive args →
      Directive.parse directive args = .ok (.equ s value) → value.eval t = .ok v) :
    Binds isa t' (acc ++ [entry]) := by
  have hle := LabelTable.le_define? hdef
  have hnew : t'.get? name = some v := by
    rw [LabelTable.get?_define? hdef, if_pos rfl]
  have hnames : names (acc ++ [entry]) = names acc ++ [name] := by
    rw [names_append, hline]
    rfl
  -- a name can be bound only once
  have hfresh : name ∉ names acc := by
    intro hmem
    have hsome := (hb.defined name).2 hmem
    rw [LabelTable.get?_of_define? hdef] at hsome
    simp at hsome
  refine ⟨?_, ?_, ?_, ?_⟩
  · intro before e after label heq hl
    rcases append_singleton_eq_split heq with ⟨rfl, rfl⟩ | ⟨after', hsplit⟩
    · rw [hl] at hline
      obtain rfl : label = name := Option.some.inj hline
      rw [hnew, hlabel label hl]
    · exact hle _ _ (hb.label before e after' label hsplit hl)
  · intro before e after directive args s value heq hdir hparse
    rcases append_singleton_eq_split heq with ⟨rfl, rfl⟩ | ⟨after', hsplit⟩
    · rw [hdir] at hline
      simp only [Line.defines?, hparse, Option.some.injEq] at hline
      subst hline
      have hval := hequ directive args s value hdir hparse
      -- the table had the names from before and no others
      have hrestrict : t ≤ t'.restrict (names before) := by
        intro other w hw
        rw [LabelTable.get?_restrict, if_pos ((hb.defined other).1 (by rw [hw]; rfl))]
        exact hle other w hw
      exact ⟨v, hnew, Expr.eval_mono hle hval, Expr.eval_mono hrestrict hval⟩
    · obtain ⟨w, hget, hall, hbefore⟩ :=
        hb.equ before e after' directive args s value hsplit hdir hparse
      exact ⟨w, hle _ _ hget, Expr.eval_mono hle hall,
        Expr.eval_mono (LabelTable.restrict_mono hle _) hbefore⟩
  · intro other
    rw [hnames, LabelTable.get?_define? hdef, List.mem_append, List.mem_singleton]
    by_cases heq : other = name
    · simp [heq]
    · simp only [heq, if_false, or_false]
      exact hb.defined other
  · rw [hnames, List.nodup_append]
    refine ⟨hb.once, by simp, ?_⟩
    intro a ha b hbmem
    rw [List.mem_singleton] at hbmem
    rintro rfl
    exact hfresh (hbmem ▸ ha)

theorem binds_step {line : Nat} {l l' : Layout} {s : Step}
    (hans : Step.Answers isa sel entry.line s) (h : l.step isa line s = .ok l')
    (hb : Binds isa l.labels acc) (hpos : l.image.address isa.posUnit = address isa acc) :
    Binds isa l'.labels (acc ++ [entry]) := by
  -- only labels and definitions touch the table
  generalize hl : entry.line = ln at hans
  cases hans with
  | insn _ =>
    simp only [Layout.step, Except.ok.injEq] at h
    subst h
    exact binds_append_of_none hb (by rw [hl]; rfl)
  | label name =>
    obtain ⟨labels', hdecl, rfl⟩ := bind_pure_eq_ok.1 h
    refine binds_append_of_some hb (LabelTable.declare_eq_ok.1 hdecl) (by rw [hl]; rfl)
      (fun _ _ => hpos) ?_
    intro directive args s value hdir
    rw [hl] at hdir
    simp at hdir
  | @directive dname args d hparse =>
    cases d with
    | equ name value =>
      simp only [Layout.step] at h
      split at h
      · simp at h
      · next v hv =>
        obtain ⟨labels', hdecl, rfl⟩ := bind_pure_eq_ok.1 h
        refine binds_append_of_some hb (LabelTable.declare_eq_ok.1 hdecl)
          (by rw [hl]; simp [Line.defines?, hparse]) ?_ ?_
        · intro label hlabel
          rw [hl] at hlabel
          simp at hlabel
        · intro directive args' s value' hdir hparse'
          rw [hl] at hdir
          simp only [Line.directive.injEq] at hdir
          obtain ⟨rfl, rfl⟩ := hdir
          rw [hparse] at hparse'
          simp only [Except.ok.injEq, Directive.equ.injEq] at hparse'
          obtain ⟨rfl, rfl⟩ := hparse'
          exact hv
    | _ =>
      simp only [Layout.step, Except.ok.injEq] at h
      subst h
      exact binds_append_of_none hb (by rw [hl]; simp [Line.defines?, hparse])

theorem binds_nil : Binds isa LabelTable.empty [] := by
  refine ⟨?_, ?_, ?_, ?_⟩
  · intro before e after name heq
    simp at heq
  · intro before e after directive args name value heq
    simp at heq
  · intro name
    simp [names, lines]
  · exact List.nodup_nil

/-! ## The whole pass -/

/-- An account tells the whole output of a program. -/
structure Explains (isa : Isa) (sel : Selector) (program : Program) (a : Assembly)
    (acc : Account) : Prop where
  lines_eq : lines acc = program
  straight : Straight isa sel a.labels acc
  /-- The sections are those that the program mentions, each with the bytes of its lines. -/
  sections_eq : a.sections = (heads program).map fun m => ⟨m.1, m.2, (content acc m.1).toArray⟩
  binds : Binds isa a.labels acc

/-- Both walks of a clean pass, from any line on: the account goes on to the end. -/
theorem account_of_walks {program : Program} {steps : List Step} {line : Nat} {l l' : Layout}
    {e e' : Emission} (hc : Checked isa sel program steps)
    (hlay : Layout.walk isa line l steps = .ok l')
    (hem : Emission.walk isa labels line e steps = .ok e') (hclean : e'.dirty = false)
    (him : e.image = image acc) (hout : e.image.outline = l.image.outline)
    (hacc : Straight isa sel labels acc) (hb : Binds isa l.labels acc) :
    ∃ rest : Account, lines rest = program ∧ rest.map Entry.choice = steps.map Step.chosen? ∧
      Straight isa sel labels (acc ++ rest) ∧ e'.image = image (acc ++ rest) ∧
      Binds isa l'.labels (acc ++ rest) := by
  induction hc generalizing line l e acc with
  | nil =>
    simp only [Layout.walk, Emission.walk, Except.ok.injEq] at hlay hem
    subst hlay hem
    refine ⟨[], rfl, rfl, ?_, ?_, ?_⟩
    · rwa [List.append_nil]
    · rwa [List.append_nil]
    · rwa [List.append_nil]
  | @cons ln s program steps hans _ ih =>
    obtain ⟨l₁, hstep, hlrest⟩ := Layout.walk_cons_eq_ok.1 hlay
    obtain ⟨e₁, hestep, herest⟩ := Emission.walk_cons_eq_ok.1 hem
    have hclean₁ := (Emission.done_of_clean herest hclean).1
    -- a pass that is clean at the end has been clean here
    obtain ⟨entry, hline, hchoice, hstraight, himage⟩ :=
      entry_of_step hacc hans hestep hclean₁ him
    -- the layout stands where the emission stands, so it binds what the account says
    have hpos : l.image.address isa.posUnit = address isa acc := by
      rw [← Image.address_congr hout, him, address_image]
    have hb₁ : Binds isa l₁.labels (acc ++ [entry]) :=
      binds_step (hline ▸ hans) hstep hb hpos
    have hout₁ : e₁.image.outline = l₁.image.outline := by
      rw [Emission.outline_step hestep hans.bounded hout, Layout.image_step hstep]
    obtain ⟨rest, hlines, hchoices, hstraight', himage', hb'⟩ :=
      ih hlrest herest himage hout₁ hstraight hb₁
    rw [List.append_assoc] at hstraight' himage' hb'
    refine ⟨entry :: rest, ?_, ?_, hstraight', himage', hb'⟩
    · show entry.line :: lines rest = ln :: program
      rw [hline, hlines]
    · rw [List.map_cons, List.map_cons, hchoice, hchoices]

/-- A clean pass has an account, with the choices that it was made with. -/
theorem explains_of_cleanPass {program : Program} {last : List Step} {a : Assembly}
    (hc : Checked isa sel program last) (h : CleanPass isa last a.sections a.labels) :
    ∃ acc, Explains isa sel program a acc ∧ acc.map Entry.choice = last.map Step.chosen? := by
  obtain ⟨e, hlayout, hemit, hclean, hsections⟩ := h
  obtain ⟨l, hwalk, hlabels⟩ := bind_pure_eq_ok.1 hlayout
  -- both walks start with nothing, and so does the account
  have hstart : ({} : Emission).image = image [] := rfl
  obtain ⟨acc, hlines, hchoices, hstraight, himage, hbinds⟩ :=
    account_of_walks hc hwalk hemit hclean hstart rfl straight_nil binds_nil
  rw [List.nil_append] at hstraight himage hbinds
  refine ⟨acc, ⟨hlines, hstraight, ?_, hlabels ▸ hbinds⟩, hchoices⟩
  rw [hsections, himage, ← hlines]
  rfl

end Account

/-! ## The result -/

theorem assemble_eq_ok {program : Program} {a : Assembly}
    (h : assemble isa sel program = .ok a) :
    ∃ steps n last, Step.ofLines isa sel 1 program = .ok steps ∧ Passes isa n steps last ∧
      Checked isa sel program last ∧ CleanPass isa last a.sections a.labels ∧
      a.passes = n + 1 := by
  obtain ⟨steps, hsteps, hrelax⟩ := bind_eq_ok.1 h
  obtain ⟨n, last, hpasses, hend⟩ := relax_spec isa 0 steps
  have hlast := (checked_of_ofLines hsteps).later (later_of_passes hpasses)
  rcases hend with ⟨d, _, hd⟩ | ⟨sections, labels, hclean, hok⟩
  · rw [hrelax] at hd
    simp at hd
  · rw [hrelax, Except.ok.injEq] at hok
    subst hok
    exact ⟨steps, n, last, hsteps, hpasses, hlast, hclean, by simp⟩

/-- **The output is explained by one straight walk.** Whatever the assembler returns, there is an
    account of it: an encoding for every instruction, out of those that the instruction has, such
    that every line puts out its bytes where the lines before it end, with no padding between,
    the sections are those that the program mentions, in that order and with these bytes, and the
    labels are the positions and values that the lines define. -/
theorem assemble_explained {program : Program} {a : Assembly}
    (h : assemble isa sel program = .ok a) :
    (∃ acc, Account.Explains isa sel program a acc) ∧
      (heads program).head? = some (Section.defaultName, 0) ∧
      (a.sections.map Section.name).Nodup := by
  obtain ⟨_, _, last, _, _, hlast, hclean, _⟩ := assemble_eq_ok h
  obtain ⟨acc, hacc, _⟩ := Account.explains_of_cleanPass hlast hclean
  refine ⟨⟨acc, hacc⟩, head?_heads program, ?_⟩
  rw [hacc.sections_eq, List.map_map]
  exact nodup_heads program

theorem assemble_explained_demoProgram :
    ∃ a acc, assemble Isa.demo {} demoProgram = .ok a ∧ a.passes = 2 ∧
      Account.Explains Isa.demo {} demoProgram a acc ∧
      (a.sections.map Section.name).Nodup := by
  obtain ⟨a, ha, hpasses⟩ := assemble_demoProgram
  obtain ⟨⟨acc, hacc⟩, _, hnodup⟩ := assemble_explained ha
  exact ⟨a, acc, ha, hpasses, hacc, hnodup⟩

end TableAsm
