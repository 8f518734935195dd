import TableAsm.Candidate
import TableAsm.Proofs.Labels
import TableAsm.Proofs.Writes

/-! # Constants that are written at once

  An immediate that is a constant goes into its field when the instruction
  is matched, and any other one waits as a relocation until the labels are
  known. A constant could wait as well, and the instruction would come to
  the same.

  - `Expr.eval_of_const?` says that a constant has the same value whatever
    labels there are.
  - `Candidate.resolveAll_eq_applyAll` says that relocations are writes,
    once their expressions have values. So they can be made in any order,
    and the one that waited can come first.
  - `Candidate.place_const` says what is written at once, and
    `constants_may_wait` is the result.
-/

namespace TableAsm

variable {labels : LabelTable} {e : Expr} {v pc : Word}

/-! ## Constants -/

theorem LabelTable.empty_le (t : LabelTable) : LabelTable.empty ≤ t := by
  intro name w h
  simp at h

namespace Expr

theorem const?_eq_some : e.const? = some v ↔ e.eval LabelTable.empty = .ok v := by
  unfold const?
  cases e.eval LabelTable.empty with
  | error err => simp
  | ok w => simp

theorem eval_of_const? (h : e.const? = some v) (labels : LabelTable) : e.eval labels = .ok v :=
  eval_mono (LabelTable.empty_le labels) (const?_eq_some.1 h)

/-- Only arithmetic over numbers and labels has a value. -/
theorem isImm_of_eval (h : e.eval labels = .ok v) : e.isImm = true := by
  fun_induction Expr.eval labels e generalizing v with
  | case1 n => rfl
  | case2 name w hw => rfl
  | case3 name hnone => simp at h
  | case4 e ih =>
    obtain ⟨w, hw, _⟩ := bind_eq_ok.1 h
    exact ih hw
  | case5 e ih =>
    obtain ⟨w, hw, _⟩ := bind_eq_ok.1 h
    exact ih hw
  | case6 op a b iha ihb =>
    obtain ⟨x, hx, hrest⟩ := bind_eq_ok.1 h
    obtain ⟨y, hy, _⟩ := bind_eq_ok.1 hrest
    show (a.isImm && b.isImm) = true
    rw [iha hx, ihb hy]
    rfl
  | case7 => simp at h

end Expr

/-- A field that is not pc-relative is written in the same way at every position. -/
theorem Field.encode_pc {f : Field} (hf : f.pcrel = none) (p : Pattern) (v pc : Word) :
    f.encode p v pc = f.encode p v 0 := by
  have horigin : ∀ pc, f.origin pc = 0 := by
    intro pc
    unfold Field.origin
    rw [hf]
  unfold Field.encode Field.decode
  rw [horigin pc, horigin 0]

namespace Candidate

/-- A constant is written at once. -/
theorem place_const {f : Field} (he : e.const? = some v) (hf : f.pcrel = none) (c : Candidate) :
    c.place f e = (f.encode c.pattern v 0).map fun p => { c with pattern := p } := by
  have himm : e.isImm = true := Expr.isImm_of_eval (Expr.const?_eq_some.1 he)
  unfold place
  rw [if_pos himm, he, hf]

end Candidate

/-! ## Relocations are writes -/

/-- The write that a relocation comes to at position `pc`. It means something only if the
    expression has a value. -/
def Reloc.write (labels : LabelTable) (pc : Word) (r : Reloc) : Write :=
  ⟨r.field, (r.expr.eval labels).toOption.getD 0, pc⟩

theorem Reloc.write_eq {r : Reloc} (h : r.expr.eval labels = .ok v) :
    r.write labels pc = ⟨r.field, v, pc⟩ := by
  unfold Reloc.write
  rw [h]
  rfl

namespace Candidate

variable {relocs before after : List Reloc} {p : Pattern}

theorem resolveAll_eq_applyAll (h : ∀ r ∈ relocs, ∃ w, r.expr.eval labels = .ok w) :
    resolveAll labels pc relocs p =
      .ok (Write.applyAll (relocs.map (Reloc.write labels pc)) p) := by
  induction relocs generalizing p with
  | nil => rfl
  | cons r rest ih =>
    obtain ⟨w, hw⟩ := h r List.mem_cons_self
    have hrest : ∀ r ∈ rest, ∃ w, r.expr.eval labels = .ok w := by
      intro r' hr'
      exact h r' (List.mem_cons_of_mem r hr')
    simp only [resolveAll, List.map_cons, Write.applyAll, Reloc.write_eq hw, Write.apply]
    rw [hw]
    -- the expression has a value, and the rest depends on whether it fits
    show Except.bind (.ok w) _ = _
    simp only [Except.bind]
    cases hq : r.field.encode p w pc with
    | none => rfl
    | some q => exact ih hrest

/-- A relocation may be made before all others. -/
theorem resolveAll_middle {r : Reloc} {w : Word} (hp : p.WellFormed)
    (hr : r.expr.eval labels = .ok w)
    (h : ∀ r ∈ before ++ after, ∃ w, r.expr.eval labels = .ok w) :
    resolveAll labels pc (before ++ r :: after) p =
      .ok ((r.field.encode p w pc).bind
        (Write.applyAll ((before ++ after).map (Reloc.write labels pc)))) := by
  have hall : ∀ r' ∈ before ++ r :: after, ∃ w, r'.expr.eval labels = .ok w := by
    intro r' hr'
    rcases List.mem_cons.1 (List.perm_middle.mem_iff.1 hr') with rfl | hmem
    · exact ⟨w, hr⟩
    · exact h r' hmem
  have hperm : ((before ++ r :: after).map (Reloc.write labels pc)).Perm
      ((r :: (before ++ after)).map (Reloc.write labels pc)) :=
    List.perm_middle.map _
  rw [resolveAll_eq_applyAll hall, Write.applyAll_perm hperm hp, List.map_cons, Reloc.write_eq hr]
  rfl

end Candidate

/-- **A constant may wait.** Let `c` be the rest of an encoding, with the relocations `before` and
    `after`, and let a constant go into a field that is not pc-relative. The constant has the same
    value under all labels, and what is written at once is the encoding of that value in an empty
    pattern. If the relocations of `c` have values, then at every position:

    * where there is no such encoding, or one that disagrees with `c`, so that the candidate is
      given up when it is matched, the relocation that waited would not fit either;
    * in all other cases the relocation that waited gives the same as the bits that were written
      and joined at once. -/
theorem constants_may_wait {f : Field} (he : e.const? = some v) (hf : f.pcrel = none)
    {c : Candidate} (hc : c.pattern.Reachable) {before after : List Reloc}
    (h : ∀ r ∈ before ++ after, ∃ w, r.expr.eval labels = .ok w) (pc : Word) :
    e.eval labels = .ok v ∧
    (∀ pos, Candidate.place { pos } f e =
      (f.encode Pattern.empty v 0).map fun w => { pattern := w, pos }) ∧
    ((∀ w, f.encode Pattern.empty v 0 = some w → ¬ c.pattern.Compatible w) →
      Candidate.resolve { c with relocs := before ++ ⟨f, e⟩ :: after } labels pc = .ok none) ∧
    (∀ w, f.encode Pattern.empty v 0 = some w → c.pattern.Compatible w →
      Candidate.resolve { c with relocs := before ++ ⟨f, e⟩ :: after } labels pc =
        Candidate.resolve { c with pattern := c.pattern.union w, relocs := before ++ after }
          labels pc) := by
  have hwf := hc.wellFormed
  have hvalue : (⟨f, e⟩ : Reloc).expr.eval labels = .ok v := Expr.eval_of_const? he labels
  -- the relocation that waited is made first, and at any position
  have hwaited : Candidate.resolve { c with relocs := before ++ ⟨f, e⟩ :: after } labels pc =
      .ok ((f.encode c.pattern v 0).bind
        (Write.applyAll ((before ++ after).map (Reloc.write labels pc)))) := by
    rw [← Field.encode_pc hf c.pattern v pc]
    exact Candidate.resolveAll_middle hwf hvalue h
  refine ⟨hvalue, fun pos => Candidate.place_const he hf _, ?_, ?_⟩
  · intro hgone
    have hnone : f.encode c.pattern v 0 = none := by
      rw [Option.eq_none_iff_forall_ne_some]
      intro q hq
      obtain ⟨w, hw, hcompatible, _⟩ := (Field.encode_eq_union hwf).1 hq
      exact hgone w hw hcompatible
    rw [hwaited, hnone]
    rfl
  · intro w hw hcompatible
    have hjoined : f.encode c.pattern v 0 = some (c.pattern.union w) :=
      (Field.encode_eq_union hwf).2 ⟨w, hw, hcompatible, rfl⟩
    rw [hwaited, hjoined]
    exact (Candidate.resolveAll_eq_applyAll h).symm

/-- An encoding with two relocations, and a constant that waits between them. The last relocation
    shares four bits with the constant. -/
def waitingCandidate : Candidate where
  pattern := Pattern.fixed 0x5 0xF
  pos := 3
  relocs := [⟨Field.ofSpan 16 8, .label "L"⟩,
    ⟨Field.ofSpan 4 8, .bin .mul (.num 3) (.num 0x11)⟩,
    ⟨{ low := ⟨8, 8⟩, pcrel := some 1 }, .label "L"⟩]

theorem constants_may_wait_between :
    ∃ q, waitingCandidate.resolve ⟨[("L", 0x54)]⟩ 0x40 = .ok (some q) ∧
      Candidate.resolve
        { pattern := (Pattern.fixed 0x5 0xF).union (Pattern.fixed 0x330 0xFF0), pos := 3,
          relocs := [⟨Field.ofSpan 16 8, .label "L"⟩,
            ⟨{ low := ⟨8, 8⟩, pcrel := some 1 }, .label "L"⟩] }
        ⟨[("L", 0x54)]⟩ 0x40 = .ok (some q) := by
  have hvalues : ∀ r ∈ [(⟨Field.ofSpan 16 8, .label "L"⟩ : Reloc)] ++
      [⟨{ low := ⟨8, 8⟩, pcrel := some 1 }, .label "L"⟩],
      ∃ w, r.expr.eval ⟨[("L", 0x54)]⟩ = .ok w := by
    intro r hr
    simp only [List.cons_append, List.nil_append, List.mem_cons, List.not_mem_nil, or_false] at hr
    rcases hr with rfl | rfl
    · exact ⟨0x54, rfl⟩
    · exact ⟨0x54, rfl⟩
  have hc : (⟨Pattern.fixed 0x5 0xF, 3, none, []⟩ : Candidate).pattern.Reachable := .fixed 0x5 0xF
  have hconst : (Expr.bin .mul (.num 3) (.num 0x11)).const? = some 0x33 := rfl
  have hfield : (Field.ofSpan 4 8).pcrel = none := rfl
  obtain ⟨_, _, _, hsame⟩ := constants_may_wait hconst hfield hc hvalues 0x40
  have hjoined := hsame (Pattern.fixed 0x330 0xFF0) (by decide) (by decide)
  exact ⟨_, hjoined, rfl⟩

end TableAsm
