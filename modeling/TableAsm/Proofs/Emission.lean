import Mathlib.Data.List.Forall2
import TableAsm.Emission
import TableAsm.Proofs.Labels

/-! # What a pass can do to the choices

  A pass goes over the program once and may abandon encodings on the way.
  This module says what each of its steps can do, and derives how the
  choices of a program change in a pass.

  - `Emission.board_eq_ok` and `Emission.insn_eq_ok` list the ways in which
    an instruction is written.
  - `Step.Later` holds between a line and the same line further on in a
    run. Encodings are dropped from the front of the list, and nothing
    else changes.
  - `Emission.inForce` are the choices in the middle of a pass: those of
    the lines behind may have changed, those of the lines ahead have not.
    They only move on (`Emission.later_inForce`), and a pass that is not
    dirty has moved none (`Emission.done_of_clean`).
-/

namespace TableAsm

/-! ## Choices that move on -/

/-- The chosen encoding and those that are left. -/
def Slot.candidates (s : Slot) : List Candidate := s.chosen :: s.spare

theorem Slot.suffix_of_next? {s s' : Slot} (h : s.next? = some s') :
    s'.candidates <:+ s.candidates := by
  unfold Slot.next? at h
  split at h
  · simp at h
  · next c rest hs =>
    simp only [Option.some.injEq] at h
    subst h
    simp only [Slot.candidates, hs]
    exact List.suffix_cons _ _

theorem Slot.suffix_of_realign? {unit : Nat} {s s' : Slot} (h : s.realign? unit = some s') :
    s'.candidates <:+ s.candidates := by
  unfold Slot.realign? at h
  split at h
  · simp at h
  · next c rest hs =>
    simp only [Option.some.injEq] at h
    subst h
    -- what is chosen now heads what is left of the spare encodings
    have hsuf := List.dropWhile_suffix (l := s.spare) fun c =>
      !Slot.shifts (c.size unit) (s.chosen.size unit)
    rw [hs] at hsuf
    exact hsuf.trans (List.suffix_cons _ _)

/-- The second step is the first one later in a run: an instruction may have lost encodings. -/
inductive Step.Later : Step → Step → Prop
  | insn {slot slot' : Slot} (h : slot'.candidates <:+ slot.candidates) :
    Step.Later (.insn slot) (.insn slot')
  | label (name : String) : Step.Later (.label name) (.label name)
  | directive (d : Directive) : Step.Later (.directive d) (.directive d)

namespace Step

theorem Later.refl (s : Step) : s.Later s := by
  cases s with
  | insn slot => exact .insn List.suffix_rfl
  | label name => exact .label name
  | directive d => exact .directive d

theorem Later.trans {s s' s'' : Step} (h : s.Later s') (h' : s'.Later s'') : s.Later s'' := by
  cases h with
  | insn h =>
    cases h' with
    | insn h' => exact .insn (h'.trans h)
  | label name => exact h'
  | directive d => exact h'

/-- Every step of a program is the same step of the other one, later in a run. -/
abbrev AllLater : List Step → List Step → Prop := List.Forall₂ Step.Later

theorem AllLater.refl (steps : List Step) : AllLater steps steps :=
  List.forall₂_same.2 fun s _ => Later.refl s

theorem AllLater.trans {a b c : List Step} (hab : AllLater a b) (hbc : AllLater b c) :
    AllLater a c := by
  induction hab generalizing c with
  | nil => exact hbc
  | cons h _ ih =>
    cases hbc with
    | cons h' hrest => exact .cons (h.trans h') (ih hrest)

end Step

/-! ## The ways to write an instruction -/

namespace Emission

/-- An instruction stands where it is, or the one in front of it is changed and this pass goes on
    from the next boundary. -/
theorem board_eq_ok {isa : Isa} {line size : Nat} {e e' : Emission} :
    e.board isa line size = .ok e' ↔
      (isa.misaligned size e.image.offset = false ∧ e' = e) ∨
      (isa.misaligned size e.image.offset = true ∧
        ∃ done, realign? isa.unit e.done = some done ∧ e' = ⟨done, e.image.align 8, true⟩) := by
  unfold board
  cases hm : isa.misaligned size e.image.offset with
  | false => simp [eq_comm]
  | true =>
    cases hr : realign? isa.unit e.done with
    | none => simp
    | some done => simp [eq_comm]

/-- An instruction is written with its chosen encoding, or that encoding is abandoned. -/
theorem insn_eq_ok {isa : Isa} {labels : LabelTable} {line : Nat} {slot : Slot}
    {e e' : Emission} :
    e.insn isa labels line slot = .ok e' ↔
      (∃ p, slot.chosen.resolve labels (e.image.address isa.posUnit) = .ok (some p) ∧
        e' = ⟨.insn slot :: e.done,
          e.image.append (p.bytes (slot.chosen.size isa.unit)).toArray, e.dirty⟩) ∨
      (∃ slot', slot.chosen.resolve labels (e.image.address isa.posUnit) = .ok none ∧
        slot.next? = some slot' ∧
        e' = ⟨.insn slot' :: e.done, e.image.zeros (slot.chosen.size isa.unit), true⟩) := by
  unfold insn
  cases hr : slot.chosen.resolve labels (e.image.address isa.posUnit) with
  | error err => simp
  | ok r =>
    cases r with
    | some p => simp [eq_comm]
    | none =>
      cases hn : slot.next? with
      | none => simp
      | some slot' => simp [eq_comm]

theorem step_insn_eq_ok {isa : Isa} {labels : LabelTable} {line : Nat} {slot : Slot}
    {e e' : Emission} :
    e.step isa labels line (.insn slot) = .ok e' ↔
      ∃ e₁, e.board isa line (slot.chosen.size isa.unit) = .ok e₁ ∧
        e₁.insn isa labels line slot = .ok e' :=
  bind_eq_ok

/-- A line that is no instruction changes no choice. -/
theorem step_of_not_insn {isa : Isa} {labels : LabelTable} {line : Nat} {e e' : Emission}
    {s : Step} (h : e.step isa labels line s = .ok e') (hs : ∀ slot, s ≠ .insn slot) :
    e'.done = s :: e.done ∧ e'.dirty = e.dirty := by
  unfold step at h
  split at h
  · next slot => exact absurd rfl (hs slot)
  · simp only [Except.ok.injEq] at h
    subst h
    exact ⟨rfl, rfl⟩
  · split at h
    · simp at h
    · simp only [Except.ok.injEq] at h
      subst h
      exact ⟨rfl, rfl⟩
  · simp only [Except.ok.injEq] at h
    subst h
    exact ⟨rfl, rfl⟩

theorem walk_cons_eq_ok {isa : Isa} {labels : LabelTable} {line : Nat} {s : Step}
    {rest : List Step} {e e' : Emission} :
    walk isa labels line e (s :: rest) = .ok e' ↔
      ∃ e₁, e.step isa labels line s = .ok e₁ ∧ walk isa labels (line + 1) e₁ rest = .ok e' :=
  bind_eq_ok

theorem walk_append {isa : Isa} {labels : LabelTable} {line : Nat} {pre post : List Step}
    {e : Emission} :
    walk isa labels line e (pre ++ post) =
      (walk isa labels line e pre >>= fun e₁ => walk isa labels (line + pre.length) e₁ post) := by
  induction pre generalizing line e with
  | nil => rfl
  | cons s rest ih =>
    show (e.step isa labels line s >>= fun e₁ => walk isa labels (line + 1) e₁ (rest ++ post)) = _
    cases hs : e.step isa labels line s with
    | error d => simp [walk, hs, bind, Except.bind]
    | ok e₁ =>
      have hlen : line + 1 + rest.length = line + (rest.length + 1) := by omega
      simp only [walk, hs, bind, Except.bind] at ih ⊢
      rw [ih, List.length_cons, hlen]

/-! ## Choices in the middle of a pass -/

theorem later_realign? {unit : Nat} {steps steps' : List Step}
    (h : realign? unit steps = some steps') : Step.AllLater steps steps' := by
  induction steps generalizing steps' with
  | nil => simp [realign?] at h
  | cons s rest ih =>
    cases s with
    | label name =>
      obtain ⟨rest', hr, rfl⟩ := Option.map_eq_some_iff.1 h
      exact .cons (.label name) (ih hr)
    | insn slot =>
      obtain ⟨slot', hs, rfl⟩ := Option.map_eq_some_iff.1 h
      exact .cons (.insn (Slot.suffix_of_realign? hs)) (Step.AllLater.refl rest)
    | directive d => simp [realign?] at h

theorem later_board {isa : Isa} {line size : Nat} {e e' : Emission}
    (h : e.board isa line size = .ok e') : Step.AllLater e.done e'.done := by
  rcases board_eq_ok.1 h with ⟨_, rfl⟩ | ⟨_, done, hr, rfl⟩
  · exact Step.AllLater.refl _
  · exact later_realign? hr

/-- A step may change the choices of the lines behind it, and its own. -/
theorem later_step {isa : Isa} {labels : LabelTable} {line : Nat} {e e' : Emission} {s : Step}
    (h : e.step isa labels line s = .ok e') : Step.AllLater (s :: e.done) e'.done := by
  cases s with
  | insn slot =>
    obtain ⟨e₁, hb, hi⟩ := step_insn_eq_ok.1 h
    have hdone := later_board hb
    rcases insn_eq_ok.1 hi with ⟨p, _, rfl⟩ | ⟨slot', _, hn, rfl⟩
    · exact .cons (Step.Later.refl _) hdone
    · exact .cons (.insn (Slot.suffix_of_next? hn)) hdone
  | label name =>
    rw [(step_of_not_insn h nofun).1]
    exact Step.AllLater.refl _
  | directive d =>
    rw [(step_of_not_insn h nofun).1]
    exact Step.AllLater.refl _

theorem later_walk {isa : Isa} {labels : LabelTable} {line : Nat} {e e' : Emission}
    {steps : List Step} (h : walk isa labels line e steps = .ok e') :
    Step.AllLater (steps.reverse ++ e.done) e'.done := by
  induction steps generalizing line e with
  | nil =>
    simp only [walk, Except.ok.injEq] at h
    subst h
    exact Step.AllLater.refl _
  | cons s rest ih =>
    obtain ⟨e₁, hs, hrest⟩ := walk_cons_eq_ok.1 h
    -- first this step moves the lines behind it, then the others go on
    have hhead : Step.AllLater (rest.reverse ++ s :: e.done) (rest.reverse ++ e₁.done) :=
      List.rel_append (Step.AllLater.refl _) (later_step hs)
    rw [List.reverse_cons, List.append_assoc]
    exact hhead.trans (ih hrest)

/-- The choices of a whole program in the middle of a pass, with these lines ahead. -/
def inForce (e : Emission) (ahead : List Step) : List Step := e.done.reverse ++ ahead

/-- Going on with a pass only ever moves choices on. -/
theorem later_inForce {isa : Isa} {labels : LabelTable} {line : Nat} {e e' : Emission}
    {steps : List Step} (h : walk isa labels line e steps = .ok e') (ahead : List Step) :
    Step.AllLater (e.inForce (steps ++ ahead)) (e'.inForce ahead) := by
  have hrev := List.rel_reverse (later_walk h)
  rw [List.reverse_append, List.reverse_reverse] at hrev
  unfold inForce
  rw [← List.append_assoc]
  exact List.rel_append hrev (Step.AllLater.refl ahead)

/-! ## Passes that are not dirty -/

theorem step_of_clean {isa : Isa} {labels : LabelTable} {line : Nat} {e e' : Emission} {s : Step}
    (h : e.step isa labels line s = .ok e') (hd : e'.dirty = false) :
    e.dirty = false ∧ e'.done = s :: e.done := by
  cases s with
  | insn slot =>
    obtain ⟨e₁, hb, hi⟩ := step_insn_eq_ok.1 h
    rcases insn_eq_ok.1 hi with ⟨p, _, rfl⟩ | ⟨slot', _, _, rfl⟩
    · rcases board_eq_ok.1 hb with ⟨_, rfl⟩ | ⟨_, done, _, rfl⟩
      · exact ⟨hd, rfl⟩
      · -- the line in front was changed
        simp at hd
    · -- the encoding was abandoned
      simp at hd
  | label name =>
    obtain ⟨hdone, hdirty⟩ := step_of_not_insn h nofun
    exact ⟨hdirty ▸ hd, hdone⟩
  | directive d =>
    obtain ⟨hdone, hdirty⟩ := step_of_not_insn h nofun
    exact ⟨hdirty ▸ hd, hdone⟩

/-- A pass that is not dirty has left every choice alone. -/
theorem done_of_clean {isa : Isa} {labels : LabelTable} {line : Nat} {e e' : Emission}
    {steps : List Step} (h : walk isa labels line e steps = .ok e') (hd : e'.dirty = false) :
    e.dirty = false ∧ e'.done = steps.reverse ++ e.done := by
  induction steps generalizing line e with
  | nil =>
    simp only [walk, Except.ok.injEq] at h
    subst h
    exact ⟨hd, rfl⟩
  | cons s rest ih =>
    obtain ⟨e₁, hs, hrest⟩ := walk_cons_eq_ok.1 h
    obtain ⟨hd₁, hdone⟩ := ih hrest
    obtain ⟨hd₀, hdone₁⟩ := step_of_clean hs hd₁
    refine ⟨hd₀, ?_⟩
    rw [hdone, hdone₁]
    simp

end Emission

end TableAsm
