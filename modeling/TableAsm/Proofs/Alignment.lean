import Mathlib.Data.List.TakeWhile
import TableAsm.Proofs.Failure
import TableAsm.Proofs.Relocation

/-! # Long instructions and their boundaries

  A pass that comes to a long instruction off its boundary moves the
  instruction in front of it to another encoding, and goes on with zeros
  in between. Such a pass is dirty, so it is never the one that is
  returned: in what is returned, every long instruction is on its boundary
  (`long_instructions_aligned`).

  The program is rejected if there is no encoding that helps. Two views of
  the program meet here.

  - Where the instruction stands is a matter of the choices that the pass
    *started* with: positions are not corrected when a line loses its
    encoding (`Emission.offset_walk`).
  - Which encodings the line in front has left is a matter of the choices
    *in force*, of which some may have changed in this very pass
    (`Stuck`).

  `alignment_failure_iff` gives the condition for a rejection. As long as
  the pass has changed nothing, the two views are one, and the instruction
  is really misaligned. After a change they can differ: `movedProgram` is
  rejected although the line in front has just got the length that aligns
  the instruction (`movedProgram_rejected`).
-/

namespace TableAsm

variable {isa : Isa} {sel : Selector} {labels : LabelTable} {line : Nat}

/-- The offset at which the layout puts the line after some steps, before any padding. It depends
    on the lengths of the chosen encodings and on no label (`Layout.offset_walk`). -/
def placement (isa : Isa) (steps : List Step) : Nat :=
  (steps.foldl (Image.advance isa) Image.empty).offset

theorem Layout.offset_walk {l : Layout} {steps : List Step}
    (h : Layout.walk isa line {} steps = .ok l) : l.image.offset = placement isa steps := by
  rw [Layout.image_walk h]
  rfl

/-- A pass stands where the layout of its first choices puts it. -/
theorem Emission.offset_walk {e : Emission} {steps : List Step}
    (h : Emission.walk isa labels line {} steps = .ok e) (hs : ∀ s ∈ steps, s.Bounded isa) :
    e.image.offset = placement isa steps :=
  Image.offset_congr (Emission.outline_walk h hs rfl)

/-! ## The line in front -/

/-- Is this a label? -/
def Step.isLabel : Step → Bool
  | .label _ => true
  | _ => false

/-- Of the lines behind, the latest first, the nearest one that is no label cannot help: it is no
    instruction, or it has no encoding left that moves what follows by half a long instruction. -/
def Stuck (unit : Nat) (behind : List Step) : Prop :=
  ∀ slot, behind.find? (!·.isLabel) = some (.insn slot) →
    ∀ c ∈ slot.spare, Slot.shifts (c.size unit) (slot.chosen.size unit) = false

theorem Slot.realign?_eq_none {unit : Nat} {s : Slot} :
    s.realign? unit = none ↔
      ∀ c ∈ s.spare, Slot.shifts (c.size unit) (s.chosen.size unit) = false := by
  unfold Slot.realign?
  cases hd : s.spare.dropWhile fun c => !Slot.shifts (c.size unit) (s.chosen.size unit) with
  | nil => simpa using List.dropWhile_eq_nil_iff.1 hd
  | cons c rest =>
    have hne : ¬ ∀ c ∈ s.spare, (!Slot.shifts (c.size unit) (s.chosen.size unit)) = true := by
      rw [← List.dropWhile_eq_nil_iff, hd]
      simp
    simpa using hne

theorem Emission.realign?_eq_none {unit : Nat} {behind : List Step} :
    Emission.realign? unit behind = none ↔ Stuck unit behind := by
  induction behind with
  | nil => simp [Emission.realign?, Stuck]
  | cons s rest ih =>
    cases s with
    | label name =>
      simp only [Emission.realign?, Option.map_eq_none_iff, ih]
      rfl
    | insn slot =>
      simp only [Emission.realign?, Option.map_eq_none_iff, Slot.realign?_eq_none]
      simp [Stuck, Step.isLabel]
    | directive d => simp [Emission.realign?, Stuck, Step.isLabel]

/-! ## Rejection -/

/-- A pass over `pre`, the instruction `slot` and `post` stops at the instruction, because it is
    long and cannot be put on its boundary. The pass then stands at `e`. -/
structure Stranded (isa : Isa) (labels : LabelTable) (pre : List Step) (slot : Slot)
    (post : List Step) (e : Emission) : Prop where
  layout_eq : layout isa (pre ++ .insn slot :: post) = .ok labels
  walk_eq : Emission.walk isa labels 1 {} pre = .ok e
  alignLong : isa.alignLong = true
  size_eq : slot.chosen.size isa.unit = 8
  /-- With the choices that the pass started with, the instruction is off its boundary. -/
  off : ¬ 8 ∣ placement isa pre
  /-- With the choices in force, the line in front cannot help. -/
  stuck : Stuck isa.unit e.done

theorem misaligned_iff {size offset : Nat} :
    isa.misaligned size offset = true ↔ isa.alignLong = true ∧ size = 8 ∧ ¬ 8 ∣ offset := by
  unfold Isa.misaligned
  rw [Nat.dvd_iff_mod_eq_zero]
  simp [and_assoc]

/-- Only an instruction that cannot be put on its boundary fails in this way. -/
theorem Emission.step_unalignable_iff {e : Emission} {s : Step} {k : Nat} :
    e.step isa labels line s = .error ⟨k, .unalignable⟩ ↔
      ∃ slot, s = .insn slot ∧ k = line ∧
        isa.misaligned (slot.chosen.size isa.unit) e.image.offset = true ∧
        Stuck isa.unit e.done := by
  constructor
  · intro h
    rcases step_eq_error h with
      ⟨slot, rfl, hboard⟩ | ⟨slot, e₁, _, _, hinsn⟩ | ⟨kind, width, args, _, _, hdata⟩
    · -- the boundary cannot be reached
      obtain ⟨hm, hr, hd⟩ := board_eq_error_iff.1 hboard
      exact ⟨slot, rfl, congrArg Diagnostic.line hd, hm, realign?_eq_none.1 hr⟩
    · -- what can go wrong after that has other causes
      rcases (insn_eq_error hinsn).2 with ⟨err, _, hcause⟩ | ⟨_, _, hcause⟩
      · simp at hcause
      · simp at hcause
    · rcases dataBytes_eq_error hdata with ⟨_, _, err, _, hcause⟩ | ⟨_, _, _, _, _, _, hcause⟩
      · simp at hcause
      · simp at hcause
  · rintro ⟨slot, rfl, rfl, hm, hstuck⟩
    exact bind_eq_error.2 (.inl (board_eq_error_iff.2 ⟨hm, realign?_eq_none.2 hstuck, rfl⟩))

theorem layout_ne_unalignable {steps : List Step} {k : Nat} :
    layout isa steps ≠ .error ⟨k, .unalignable⟩ := by
  intro h
  simpa using layout_cause h

theorem Step.ofLines_ne_unalignable {program : Program} {k : Nat} :
    Step.ofLines isa sel line program ≠ .error ⟨k, .unalignable⟩ := by
  intro h
  simpa using Step.ofLines_cause h

theorem failedPass_unalignable_iff {start : List Step} {k : Nat}
    (hs : ∀ s ∈ start, s.Bounded isa) :
    FailedPass isa start ⟨k, .unalignable⟩ ↔
      ∃ pre slot post labels e, start = pre ++ .insn slot :: post ∧ k = pre.length + 1 ∧
        Stranded isa labels pre slot post e := by
  constructor
  · rintro (hlayout | ⟨labels, hlayout, hemit⟩)
    · exact absurd hlayout layout_ne_unalignable
    · obtain ⟨pre, s, post, e, rfl, hwalk, hstep⟩ := Emission.walk_eq_error_iff.1 hemit
      obtain ⟨slot, rfl, hk, hm, hstuck⟩ := Emission.step_unalignable_iff.1 hstep
      have hpre : ∀ s ∈ pre, s.Bounded isa := fun s hmem => hs s (List.mem_append_left _ hmem)
      -- the pass stands where the layout of its first choices puts the line
      rw [Emission.offset_walk hwalk hpre, misaligned_iff] at hm
      obtain ⟨halign, hsize, hoff⟩ := hm
      exact ⟨pre, slot, post, labels, e, rfl, by omega,
        ⟨hlayout, hwalk, halign, hsize, hoff, hstuck⟩⟩
  · rintro ⟨pre, slot, post, labels, e, rfl, rfl, h⟩
    have hpre : ∀ s ∈ pre, s.Bounded isa := fun s hmem => hs s (List.mem_append_left _ hmem)
    refine .inr ⟨labels, h.layout_eq, Emission.walk_eq_error_iff.2
      ⟨pre, .insn slot, post, e, rfl, h.walk_eq, Emission.step_unalignable_iff.2
        ⟨slot, rfl, by omega, ?_, h.stuck⟩⟩⟩
    rw [Emission.offset_walk h.walk_eq hpre, misaligned_iff]
    exact ⟨h.alignLong, h.size_eq, h.off⟩

/-- The choices in force are those that the pass started with exactly as long as it is not
    dirty. -/
theorem Emission.dirty_iff {e : Emission} {steps : List Step}
    (h : Emission.walk isa labels line {} steps = .ok e) :
    e.dirty = true ↔ e.done.reverse ≠ steps := by
  constructor
  · intro hdirty heq
    -- a pass that is dirty has fewer encodings left
    rcases (spare_walk h).2 hdirty with hstart | hlt
    · simp at hstart
    · rw [← spare_reverse e.done, heq] at hlt
      simp [spare] at hlt
  · intro hne
    by_contra hclean
    have hdone := (done_of_clean h (by simpa using hclean)).2
    rw [hdone] at hne
    simp at hne

/-- **When a program is rejected for a long instruction off its boundary.** This is so exactly if
    after some dirty passes there is one that strands at the line: the instruction is off its
    boundary in the layout of the choices that this pass started with, and the line in front, with
    its choice in force, has nothing to offer. If the layout of the choices in force has the
    instruction on its boundary all the same, then this pass has changed a choice before. -/
theorem alignment_failure_iff (isa : Isa) (sel : Selector) (program : Program) (k : Nat) :
    assemble isa sel program = .error ⟨k, .unalignable⟩ ↔
      ∃ checked n pre slot post labels e, Step.ofLines isa sel 1 program = .ok checked ∧
        Passes isa n checked (pre ++ .insn slot :: post) ∧ k = pre.length + 1 ∧
        Stranded isa labels pre slot post e ∧
        (8 ∣ placement isa e.done.reverse → e.dirty = true ∧ e.done.reverse ≠ pre) := by
  rw [assemble_eq_error_iff]
  constructor
  · rintro (hcheck | ⟨checked, n, start, hchecked, hpasses, hfail⟩)
    · exact absurd hcheck Step.ofLines_ne_unalignable
    · have hbounded := ((checked_of_ofLines hchecked).later (later_of_passes hpasses)).bounded
      obtain ⟨pre, slot, post, labels, e, rfl, hk, h⟩ :=
        (failedPass_unalignable_iff hbounded).1 hfail
      refine ⟨checked, n, pre, slot, post, labels, e, hchecked, hpasses, hk, h, ?_⟩
      intro hon
      -- as long as nothing has changed, both layouts are the same
      have hne : e.done.reverse ≠ pre := by
        intro heq
        rw [heq] at hon
        exact h.off hon
      exact ⟨(Emission.dirty_iff h.walk_eq).2 hne, hne⟩
  · rintro ⟨checked, n, pre, slot, post, labels, e, hchecked, hpasses, hk, h, _⟩
    have hbounded := ((checked_of_ofLines hchecked).later (later_of_passes hpasses)).bounded
    exact .inr ⟨checked, n, _, hchecked, hpasses,
      (failedPass_unalignable_iff hbounded).2 ⟨pre, slot, post, labels, e, rfl, hk, h⟩⟩

/-- The first `mov` has no room for its immediate in the short encoding that is tried first, and
    the second one has no short encoding at all. -/
def movedProgram : Program :=
  [.directive ".equ" [.label "K", .num 0x12345],
   .insn [.name "mov", .expr (.reg "$r1"), .expr (.label "K")],
   .insn [.name "mov", .expr (.reg "$r2"), .expr (.num 0x12345)]]

/-- **A rejection that is not called for.** When the first pass comes to the last line, the line
    in front has just been moved to its long encoding, so with the choices in force the last line
    is on its boundary, and relaxation would end with the next pass. But the pass still counts
    from the short encoding, looks for a length that aligns the last line, and finds none. -/
theorem movedProgram_rejected :
    assemble Isa.demo {} movedProgram = .error ⟨3, .unalignable⟩ ∧
      ∃ pre slot labels e, Step.ofLines Isa.demo {} 1 movedProgram = .ok (pre ++ [.insn slot]) ∧
        Stranded Isa.demo labels pre slot [] e ∧ 8 ∣ placement Isa.demo e.done.reverse ∧
        ∃ a, relax Isa.demo 1 (e.inForce [.insn slot]) = .ok a ∧ a.passes = 2 := by
  obtain ⟨equ, front, slot, labels, e, hsteps, hlayout, hwalk, hsize, hoff, hreal, hon, hrelax⟩ :
      ∃ equ front slot labels e,
        Step.ofLines Isa.demo {} 1 movedProgram = .ok [equ, front, .insn slot] ∧
        layout Isa.demo [equ, front, .insn slot] = .ok labels ∧
        Emission.walk Isa.demo labels 1 {} [equ, front] = .ok e ∧
        slot.chosen.size Isa.demo.unit = 8 ∧ ¬ 8 ∣ placement Isa.demo [equ, front] ∧
        Emission.realign? Isa.demo.unit e.done = none ∧ 8 ∣ placement Isa.demo e.done.reverse ∧
        (relax Isa.demo 1 (e.inForce [.insn slot])).toOption.map Assembly.passes = some 2 :=
    ⟨_, _, _, _, _, rfl, rfl, rfl, rfl, by decide +kernel, rfl, by decide +kernel,
      by decide +kernel⟩
  have hstranded : Stranded Isa.demo labels [equ, front] slot [] e :=
    ⟨hlayout, hwalk, rfl, hsize, hoff, Emission.realign?_eq_none.1 hreal⟩
  have hbounded := (checked_of_ofLines hsteps).bounded
  refine ⟨?_, [equ, front], slot, labels, e, hsteps, hstranded, hon, exists_ok_of_map hrelax⟩
  exact assemble_eq_error_iff.2 (.inr ⟨_, 0, _, hsteps, .refl _,
    (failedPass_unalignable_iff hbounded).2 ⟨_, slot, [], labels, e, rfl, rfl, hstranded⟩⟩)

/-! ## Programs that are not rejected -/

/-- What an instruction puts out: as many bytes as one of its encodings is long, at a place where
    this encoding may stand. -/
theorem Line.Emits.of_insn {offset : Nat} {pc : Word} {items : List Item}
    {choice : Option Candidate} {bytes : List UInt8}
    (h : Line.Emits isa sel labels offset pc (.insn items) choice bytes) :
    ∃ c, choice = some c ∧ c ∈ isa.encodings sel items ∧ bytes.length = c.size isa.unit ∧
      isa.misaligned (c.size isa.unit) offset = false := by
  cases h with
  | @insn _ c p hmem hplace _ hlength => exact ⟨c, rfl, hmem, hlength, hplace⟩

/-- **Long instructions are aligned.** Let the assembler return something for an instruction set
    whose long instructions have boundaries, and let `last` be the choices that relaxation ended
    with. The account of the result has these choices, and every instruction has its bytes in its
    section where the account says. If the chosen encoding is long, this is on a boundary,
    whatever lines, in whatever sections, come before. -/
theorem long_instructions_aligned {program : Program} {a : Assembly}
    (h : assemble isa sel program = .ok a) (halign : isa.alignLong = true) :
    ∃ steps n last acc, Step.ofLines isa sel 1 program = .ok steps ∧ Passes isa n steps last ∧
      CleanPass isa last a.sections a.labels ∧ Account.Explains isa sel program a acc ∧
      acc.map Entry.choice = last.map Step.chosen? ∧
      ∀ (before : Account) (entry : Entry) (after : Account) (items : List Item),
        acc = before ++ entry :: after → entry.line = .insn items →
        ∃ c, entry.choice = some c ∧ c ∈ isa.encodings sel items ∧
          (∃ s ∈ a.sections, s.name = currentSection (Account.lines before) ∧
            (s.bytes.toList.drop (Account.offset before)).take (c.size isa.unit) = entry.bytes) ∧
          (c.size isa.unit = 8 → 8 ∣ Account.offset before) := by
  obtain ⟨steps, n, last, hsteps, hpasses, hlast, hclean, _⟩ := assemble_eq_ok h
  obtain ⟨acc, hacc, hchoices⟩ := Account.explains_of_cleanPass hlast hclean
  refine ⟨steps, n, last, acc, hsteps, hpasses, hclean, hacc, hchoices, ?_⟩
  intro before entry after items hsplit hline
  obtain ⟨_, hemits⟩ := hacc.straight before entry after hsplit
  rw [hline] at hemits
  obtain ⟨c, hchoice, hmem, hlength, hplace⟩ := hemits.of_insn
  refine ⟨c, hchoice, hmem, ?_, ?_⟩
  · obtain ⟨s, hs, hname, _, hbytes⟩ := Account.Explains.section_at (hsplit ▸ hacc)
    exact ⟨s, hs, hname, hlength ▸ hbytes⟩
  · intro hsize
    -- the entries of an account are where the pass left them, and there nothing had to be moved
    by_contra hoff
    have hmis := misaligned_iff.2 ⟨halign, hsize, hoff⟩
    rw [hplace] at hmis
    simp at hmis

/-- The second instruction has only a long encoding, and the first one starts with a short one. -/
def shiftedProgram : Program :=
  [.directive ".section" [.label "code"],
   .insn [.name "nop"],
   .label "L",
   .insn [.name "mov", .expr (.reg "$r1"), .expr (.num 0x12345)]]

/-- One more pass puts the second instruction on its boundary. -/
theorem long_instructions_aligned_shiftedProgram :
    ∃ a acc before entry, assemble Isa.demo {} shiftedProgram = .ok a ∧ a.passes = 2 ∧
      Account.Explains Isa.demo {} shiftedProgram a acc ∧ acc = before ++ [entry] ∧
      entry.line = .insn [.name "mov", .expr (.reg "$r1"), .expr (.num 0x12345)] ∧
      8 ∣ Account.offset before := by
  obtain ⟨a, ha, hpasses⟩ : ∃ a, assemble Isa.demo {} shiftedProgram = .ok a ∧ a.passes = 2 :=
    exists_ok_of_map (by decide +kernel)
  obtain ⟨_, _, _, acc, _, _, _, hacc, _, hall⟩ := long_instructions_aligned ha rfl
  -- the last entry of the account is that of the last line
  have hlines : acc.map Entry.line = shiftedProgram := hacc.lines_eq
  obtain ⟨before, entry, rfl⟩ : ∃ before entry, acc = before ++ [entry] := by
    rcases List.eq_nil_or_concat' acc with rfl | hconcat
    · simp [shiftedProgram] at hlines
    · exact hconcat
  have hline : entry.line = .insn [.name "mov", .expr (.reg "$r1"), .expr (.num 0x12345)] := by
    have hlast := congrArg List.getLast? hlines
    simpa [shiftedProgram] using hlast
  obtain ⟨c, _, hmem, _, hboundary⟩ := hall before entry [] _ rfl hline
  have hlong : ∀ c ∈ Isa.demo.encodings {}
      [.name "mov", .expr (.reg "$r1"), .expr (.num 0x12345)], c.size Isa.demo.unit = 8 := by
    decide +kernel
  exact ⟨a, before ++ [entry], before, entry, ha, hpasses, hacc, rfl, hline,
    hboundary (hlong c hmem)⟩

end TableAsm
