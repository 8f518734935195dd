import TableAsm.Proofs.Alignment
import TableAsm.Proofs.StoredData

/-! # Passes from any choices

  A run starts with the first encoding of every instruction, but a pass can
  start from any others: `chooseAll` takes the encodings at given places,
  line by line.

  - `Layout.get?_label` finds the value of a label in the table of the whole
    layout: it is the address at which the walk came to the line.
  - Wherever a pass starts, its two walks keep in step
    (`walks_keep_in_step`). When the emission abandons an encoding, it goes on
    as if it had not. So it comes to every line where the layout was, which
    may no longer be where the choices in force would put the line.
-/

namespace TableAsm

variable {isa : Isa} {sel : Selector} {labels : LabelTable} {line : Nat}

/-! ## Choosing encodings -/

/-- The slot with encoding number `k` chosen, counted from 0, and those after it left. -/
def Slot.choose (k : Nat) (s : Slot) : Slot :=
  ⟨s.candidates.getD k s.chosen, s.candidates.drop (k + 1)⟩

namespace Step

/-- Is there an encoding number `k`, if the step is an instruction? -/
def HasPlace (k : Nat) : Step → Prop
  | .insn slot => k < slot.candidates.length
  | .label _ => True
  | .directive _ => True

instance (k : Nat) : (s : Step) → Decidable (s.HasPlace k)
  | .insn slot => inferInstanceAs (Decidable (k < slot.candidates.length))
  | .label _ => isTrue trivial
  | .directive _ => isTrue trivial

/-- The step with encoding number `k` chosen, if it is an instruction. -/
def choose (k : Nat) : Step → Step
  | .insn slot => .insn (slot.choose k)
  | .label name => .label name
  | .directive d => .directive d

end Step

/-- Every place is below the length of its list of encodings. -/
def InRange (places : Nat → Nat) (steps : List Step) : Prop :=
  ∀ (i : Nat) (_ : i < steps.length), steps[i].HasPlace (places i)

instance (places : Nat → Nat) (steps : List Step) : Decidable (InRange places steps) :=
  inferInstanceAs (Decidable (∀ (i : Nat) (_ : i < steps.length), steps[i].HasPlace (places i)))

/-- The steps with the encodings at these places chosen. The place for a line is found under its
    index; those for other lines than instructions are not looked at. -/
def chooseAll (places : Nat → Nat) (steps : List Step) : List Step :=
  steps.mapIdx fun i s => s.choose (places i)

theorem Slot.candidates_choose {k : Nat} {s : Slot} (h : k < s.candidates.length) :
    (s.choose k).candidates = s.candidates.drop k := by
  have hget : s.candidates.getD k s.chosen = s.candidates[k] := by
    rw [List.getD_eq_getElem?_getD, List.getElem?_eq_getElem h, Option.getD_some]
  rw [List.drop_eq_getElem_cons h, ← hget]
  rfl

theorem Step.later_choose {k : Nat} {s : Step} (h : s.HasPlace k) : s.Later (s.choose k) := by
  cases s with
  | insn slot =>
    refine .insn ?_
    rw [Slot.candidates_choose h]
    exact List.drop_suffix k _
  | label name => exact .label name
  | directive d => exact .directive d

theorem later_chooseAll {places : Nat → Nat} {steps : List Step} (h : InRange places steps) :
    Step.AllLater steps (chooseAll places steps) := by
  refine List.forall₂_iff_get.2 ⟨by simp [chooseAll], ?_⟩
  intro i hi _
  simpa [chooseAll] using Step.later_choose (h i hi)

theorem getElem?_chooseAll (places : Nat → Nat) (steps : List Step) (i : Nat) :
    (chooseAll places steps)[i]? = steps[i]?.map (·.choose (places i)) :=
  List.getElem?_mapIdx

/-- Another place for one line changes this line only. -/
theorem chooseAll_update {places : Nat → Nat} {steps : List Step} {j k : Nat} {s : Step}
    (hj : steps[j]? = some s) :
    chooseAll (Function.update places j k) steps = (chooseAll places steps).set j (s.choose k) := by
  have hlt : j < (chooseAll places steps).length := by
    simpa [chooseAll] using (List.getElem?_eq_some_iff.1 hj).1
  apply List.ext_getElem?
  intro i
  rw [getElem?_chooseAll, List.getElem?_set, Function.update_apply]
  by_cases hi : i = j
  · simp [hi, hj, hlt]
  · simp [hi, Ne.symm hi, getElem?_chooseAll]

theorem InRange.update {places : Nat → Nat} {steps : List Step} {j k : Nat} {s : Step}
    (h : InRange places steps) (hj : steps[j]? = some s) (hk : s.HasPlace k) :
    InRange (Function.update places j k) steps := by
  intro i hi
  rw [Function.update_apply]
  by_cases heq : i = j
  · subst heq
    obtain ⟨_, hget⟩ := List.getElem?_eq_some_iff.1 hj
    simpa [hget] using hk
  · simpa [heq] using h i hi

/-- Any choices in range stand for the lines of the program. -/
theorem checked_chooseAll {program : Program} {checked : List Step} {places : Nat → Nat}
    (h : Step.ofLines isa sel 1 program = .ok checked) (hp : InRange places checked) :
    Checked isa sel program (chooseAll places checked) :=
  (checked_of_ofLines h).later (later_chooseAll hp)

/-! ## Labels are bound once -/

theorem LabelTable.le_refl (t : LabelTable) : t ≤ t := fun _ _ hv => hv

namespace Layout

theorem le_step {l l' : Layout} {s : Step} (h : l.step isa line s = .ok l') :
    l.labels ≤ l'.labels := by
  unfold step at h
  split at h
  · obtain rfl := Except.ok.inj h
    exact LabelTable.le_refl _
  · obtain ⟨t, ht, rfl⟩ := bind_pure_eq_ok.1 h
    exact LabelTable.le_define? (LabelTable.declare_eq_ok.1 ht)
  · split at h
    · simp at h
    · obtain ⟨t, ht, rfl⟩ := bind_pure_eq_ok.1 h
      exact LabelTable.le_define? (LabelTable.declare_eq_ok.1 ht)
  · obtain rfl := Except.ok.inj h
    exact LabelTable.le_refl _
  · obtain rfl := Except.ok.inj h
    exact LabelTable.le_refl _

theorem le_walk {l l' : Layout} {steps : List Step} (h : walk isa line l steps = .ok l') :
    l.labels ≤ l'.labels := by
  induction steps generalizing line l with
  | nil =>
    obtain rfl := Except.ok.inj h
    exact LabelTable.le_refl _
  | cons s rest ih =>
    obtain ⟨l₁, hstep, hrest⟩ := walk_cons_eq_ok.1 h
    exact fun name v hv => ih hrest name v (le_step hstep name v hv)

/-- A label has the address at which the walk came to it, and keeps it to the end. -/
theorem get?_label {l lEnd : Layout} {name : String} {ahead : List Step}
    (h : walk isa line l (.label name :: ahead) = .ok lEnd) :
    lEnd.labels.get? name = some (l.image.address isa.posUnit) := by
  obtain ⟨l₁, hstep, hrest⟩ := walk_cons_eq_ok.1 h
  obtain ⟨t, ht, rfl⟩ := bind_pure_eq_ok.1 hstep
  apply le_walk hrest
  rw [LabelTable.get?_define? (LabelTable.declare_eq_ok.1 ht), if_pos rfl]

end Layout

/-! ## Both walks -/

theorem outline_eq_of_walks {program : Program} {behind ahead : List Step} {l : Layout}
    {e : Emission} (hc : Checked isa sel program (behind ++ ahead))
    (hl : Layout.walk isa line {} behind = .ok l)
    (he : Emission.walk isa labels line {} behind = .ok e) :
    e.image.outline = l.image.outline := by
  have hbounded : ∀ s ∈ behind, s.Bounded isa :=
    fun s hs => hc.bounded s (List.mem_append_left _ hs)
  rw [Emission.outline_walk he hbounded rfl, Layout.image_walk hl]

/-- **The two walks of a pass keep in step.** Let a pass start from any choices that a program has.

    * As long as neither walk fails, both come to every line with the same sections (names, bases
      and sizes) and with the same one current, also after the emission has abandoned encodings.
      For this the labels that the emission works with do not matter.
    * If the layout succeeds, it has come to every line, and the value that it gives to a label is
      the address at which the emission comes to the line. -/
theorem walks_keep_in_step {program : Program} {checked : List Step} {places : Nat → Nat}
    (h : Step.ofLines isa sel 1 program = .ok checked) (hp : InRange places checked) :
    (∀ (behind ahead : List Step) (labels : LabelTable) (l : Layout) (e : Emission),
      chooseAll places checked = behind ++ ahead →
      Layout.walk isa 1 {} behind = .ok l →
      Emission.walk isa labels 1 {} behind = .ok e →
      e.image.outline = l.image.outline) ∧
    ∀ labels, layout isa (chooseAll places checked) = .ok labels →
      ∀ behind ahead, chooseAll places checked = behind ++ ahead →
        (∃ l, Layout.walk isa 1 {} behind = .ok l) ∧
        ∀ (name : String) (rest : List Step) (e : Emission), ahead = .label name :: rest →
          Emission.walk isa labels 1 {} behind = .ok e →
          labels.get? name =
            some (BitVec.ofNat 64 (e.image.offset / isa.posUnit) + e.image.here.base) := by
  have hc := checked_chooseAll h hp
  refine ⟨?_, ?_⟩
  · intro behind ahead labels l e hsplit hl he
    rw [hsplit] at hc
    exact outline_eq_of_walks hc hl he
  · intro labels hlayout behind ahead hsplit
    rw [hsplit] at hc hlayout
    obtain ⟨lEnd, hwalk, rfl⟩ := bind_pure_eq_ok.1 hlayout
    obtain ⟨l, hl, hrest⟩ := Layout.walk_append.1 hwalk
    refine ⟨⟨l, hl⟩, ?_⟩
    intro name rest e hahead he
    rw [hahead] at hrest
    rw [Layout.get?_label hrest, ← Image.address_congr (outline_eq_of_walks hc hl he)]
    rfl

/-- A short `mov` that cannot hold its immediate stands between a `nop` and a label. -/
def outgrownProgram : Program :=
  [.directive ".equ" [.label "K", .num 0x12345],
   .directive ".section" [.label "code", .num 0x100],
   .insn [.name "nop"],
   .insn [.name "mov", .expr (.reg "$r1"), .expr (.label "K")],
   .label "L"]

/-- The second encoding of the `nop`, which is long, and the first one of the `mov`. -/
def longNop (i : Nat) : Nat := if i = 2 then 1 else 0

/-- When the emission comes to the label, the `mov` has just lost its short encoding, and with the
    choices in force the label would be further on. The label is where both walks are. -/
theorem walks_keep_in_step_outgrownProgram :
    ∃ checked labels behind l e, Step.ofLines Isa.demo {} 1 outgrownProgram = .ok checked ∧
      InRange longNop checked ∧
      layout Isa.demo (chooseAll longNop checked) = .ok labels ∧
      chooseAll longNop checked = behind ++ [.label "L"] ∧
      Layout.walk Isa.demo 1 {} behind = .ok l ∧
      Emission.walk Isa.demo labels 1 {} behind = .ok e ∧ e.dirty = true ∧
      e.image.offset = 12 ∧ placement Isa.demo e.done.reverse = 16 ∧
      e.image.outline = l.image.outline ∧ labels.get? "L" = some 0x103 := by
  obtain ⟨checked, labels, behind, e, hchecked, hrange, hlayout, hsplit, hwalk, hdirty, hoffset,
      hbase, hmoved⟩ :
      ∃ checked labels behind e, Step.ofLines Isa.demo {} 1 outgrownProgram = .ok checked ∧
        InRange longNop checked ∧
        layout Isa.demo (chooseAll longNop checked) = .ok labels ∧
        chooseAll longNop checked = behind ++ [.label "L"] ∧
        Emission.walk Isa.demo labels 1 {} behind = .ok e ∧ e.dirty = true ∧
        e.image.offset = 12 ∧ e.image.here.base = 0x100 ∧
        placement Isa.demo e.done.reverse = 16 :=
    ⟨_, _, [_, _, _, _], _, rfl, by decide +kernel, rfl, rfl, rfl, rfl, by decide +kernel,
      by decide +kernel, by decide +kernel⟩
  obtain ⟨hstep, hlabels⟩ := walks_keep_in_step hchecked hrange
  obtain ⟨⟨l, hl⟩, hlabel⟩ := hlabels labels hlayout behind _ hsplit
  refine ⟨checked, labels, behind, l, e, hchecked, hrange, hlayout, hsplit, hl, hwalk, hdirty,
    hoffset, hmoved, hstep behind _ labels l e hsplit hl hwalk, ?_⟩
  rw [hlabel "L" [] e rfl hwalk, hoffset, hbase]
  rfl

end TableAsm
