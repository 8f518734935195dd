import TableAsm.Proofs.Choices

/-! # Moving the line in front

  A long instruction that is half its length off a boundary is put on it by
  another encoding of the instruction in front. This module says what the
  move does to the choices, and to the layout.

  - Bytes that are added move the offset by their number
    (`Image.offset_append`). This needs that the current section exists, as
    it does in every layout (`Image.hasCurrent_foldl`).
  - `Image.dvd_offset_advance` is the arithmetic: a length that differs by
    half a long instruction takes what follows to the boundary, also if one
    of the two lengths is itself that of a long instruction.
  - `Emission.realign?_eq_some` finds the line that is moved. Only labels
    come after it, so the layout gets as far as before
    (`Layout.walk_moved`).
  - `Precedes` says which line this is in the program, and `realign_repairs`
    puts these together.
-/

namespace TableAsm

variable {isa : Isa} {sel : Selector} {line : Nat}

/-! ## The section that is current -/

namespace Image

/-- The current section is there. -/
def HasCurrent (im : Image) : Prop := (im.find? im.current).isSome = true

theorem find?_append (im : Image) (bytes : Array UInt8) (name : String) :
    (im.append bytes).find? name = (im.find? name).map fun s =>
      if s.name = im.current then { s with bytes := s.bytes ++ bytes } else s := by
  unfold find? append
  rw [List.find?_map]
  congr 2
  funext s
  by_cases hs : s.name = im.current
  · simp [hs]
  · simp [hs]

theorem HasCurrent.append {im : Image} (h : im.HasCurrent) (bytes : Array UInt8) :
    (im.append bytes).HasCurrent := by
  show ((im.append bytes).find? im.current).isSome = true
  rw [find?_append, Option.isSome_map]
  exact h

/-- Bytes that are added move the offset by their number. -/
theorem offset_append {im : Image} (h : im.HasCurrent) (bytes : Array UInt8) :
    (im.append bytes).offset = im.offset + bytes.size := by
  obtain ⟨s, hs⟩ := Option.isSome_iff_exists.1 h
  have hname : s.name = im.current := by simpa using List.find?_some hs
  show (((im.append bytes).find? im.current).getD _).bytes.size =
    ((im.find? im.current).getD _).bytes.size + bytes.size
  rw [find?_append, hs]
  simp [hname]

theorem offset_zeros {im : Image} (h : im.HasCurrent) (n : Nat) :
    (im.zeros n).offset = im.offset + n := by
  rw [zeros, offset_append h, Array.size_replicate]

theorem dvd_offset_align {im : Image} (h : im.HasCurrent) {n : Nat} (hn : 0 < n) :
    n ∣ (im.align n).offset := by
  rw [align, offset_zeros h]
  exact (padding_spec hn im.offset).2

theorem hasCurrent_switch (im : Image) (name : String) (base : Option Word) :
    (im.switch name base).HasCurrent := by
  unfold Image.switch
  split
  · next hold => exact hold
  · -- a new section stands at the end
    show (List.find? _ (im.sections ++ [_])).isSome = true
    rw [List.find?_append]
    simp

/-- The layout pads in front of a long instruction that is off its boundary, and nowhere else. -/
theorem advance_insn (isa : Isa) (im : Image) (slot : Slot) :
    (isa.misaligned (slot.chosen.size isa.unit) im.offset = true ∧
      im.advance isa (.insn slot) = (im.align 8).zeros (slot.chosen.size isa.unit)) ∨
    (isa.misaligned (slot.chosen.size isa.unit) im.offset = false ∧
      im.advance isa (.insn slot) = im.zeros (slot.chosen.size isa.unit)) := by
  cases hm : isa.misaligned (slot.chosen.size isa.unit) im.offset with
  | true => exact .inl ⟨rfl, by simp [advance, hm]⟩
  | false => exact .inr ⟨rfl, by simp [advance, hm]⟩

theorem HasCurrent.advance {im : Image} (h : im.HasCurrent) (s : Step) :
    (im.advance isa s).HasCurrent := by
  cases s with
  | insn slot =>
    rcases im.advance_insn isa slot with ⟨_, heq⟩ | ⟨_, heq⟩
    · rw [heq]
      exact (h.append _).append _
    · rw [heq]
      exact h.append _
  | label name => exact h
  | directive d =>
    cases d with
    | «section» name base => exact hasCurrent_switch im name base
    | align n => exact h.append _
    | skip n => exact h.append _
    | equ name value => exact h
    | data kind width args => exact h.append _

theorem hasCurrent_foldl (steps : List Step) :
    (steps.foldl (Image.advance isa) Image.empty).HasCurrent := by
  induction steps using List.reverseRecOn with
  | nil => rfl
  | append_singleton rest s ih =>
    rw [List.foldl_append]
    exact ih.advance s

/-! ## Another length for the line in front -/

theorem current_advance_insn (im : Image) (slot : Slot) :
    (im.advance isa (.insn slot)).current = im.current := by
  rcases im.advance_insn isa slot with ⟨_, heq⟩ | ⟨_, heq⟩
  · rw [heq]
    rfl
  · rw [heq]
    rfl

/-- A long instruction that was off its boundary ends on one. Any other ends as far from its place
    as it is long. -/
theorem offset_advance_insn (isa : Isa) {im : Image} (h : im.HasCurrent) (slot : Slot) :
    8 ∣ (im.advance isa (.insn slot)).offset ∨
      (im.advance isa (.insn slot)).offset = im.offset + slot.chosen.size isa.unit := by
  rcases im.advance_insn isa slot with ⟨hm, heq⟩ | ⟨_, heq⟩
  · left
    obtain ⟨_, hsize, _⟩ := misaligned_iff.1 hm
    have halign : (im.align 8).HasCurrent := h.append _
    rw [heq, offset_zeros halign, hsize]
    exact Nat.dvd_add (dvd_offset_align h (by decide)) (Nat.dvd_refl 8)
  · right
    rw [heq, offset_zeros h]

/-- What stands half a long instruction off a boundary comes to one if the instruction in front
    changes its length by half a long instruction. -/
theorem dvd_offset_advance {im : Image} (h : im.HasCurrent) {old new : Slot}
    (hoff : (im.advance isa (.insn old)).offset % 8 = 4)
    (hshift : Slot.shifts (new.chosen.size isa.unit) (old.chosen.size isa.unit) = true) :
    8 ∣ (im.advance isa (.insn new)).offset := by
  rcases offset_advance_insn isa h new with hdvd | hnew
  · -- the new encoding is long and has been put on a boundary itself
    exact hdvd
  · rcases offset_advance_insn isa h old with hdvd | hold
    · -- the old one cannot have been, or what follows would have been on a boundary
      omega
    · simp only [Slot.shifts, beq_iff_eq] at hshift
      omega

theorem foldl_advance_labels (im : Image) (names : List String) :
    (names.map Step.label).foldl (Image.advance isa) im = im := by
  induction names with
  | nil => rfl
  | cons name rest ih => exact ih

end Image

/-! ## The line that is moved -/

/-- The next encoding is one of those that are left, and it moves what follows. -/
theorem Slot.realign?_eq_some {unit : Nat} {s s' : Slot} (h : s.realign? unit = some s') :
    s'.candidates <:+ s.spare ∧ Slot.shifts (s'.chosen.size unit) (s.chosen.size unit) = true := by
  unfold Slot.realign? at h
  split at h
  · simp at h
  · next c rest hdrop =>
    obtain rfl := Option.some.inj h
    have hsuffix := List.dropWhile_suffix (l := s.spare) fun c =>
      !Slot.shifts (c.size unit) (s.chosen.size unit)
    have hhead := List.head?_dropWhile_not
      (fun c => !Slot.shifts (c.size unit) (s.chosen.size unit)) s.spare
    rw [hdrop] at hsuffix hhead
    exact ⟨hsuffix, by simpa using hhead⟩

/-- Of the lines behind, the latest first, the first one that is no label is moved. -/
theorem Emission.realign?_eq_some {unit : Nat} {behind done : List Step}
    (h : Emission.realign? unit behind = some done) :
    ∃ (names : List String) (old new : Slot) (front : List Step),
      behind = names.map Step.label ++ .insn old :: front ∧
      old.realign? unit = some new ∧ done = names.map Step.label ++ .insn new :: front := by
  induction behind generalizing done with
  | nil => simp [realign?] at h
  | cons s rest ih =>
    cases s with
    | label name =>
      obtain ⟨done', hdone, rfl⟩ := Option.map_eq_some_iff.1 h
      obtain ⟨names, old, new, front, rfl, hnew, rfl⟩ := ih hdone
      exact ⟨name :: names, old, new, front, rfl, hnew, rfl⟩
    | insn slot =>
      obtain ⟨slot', hslot, rfl⟩ := Option.map_eq_some_iff.1 h
      exact ⟨[], slot, slot', rest, rfl, hslot, rfl⟩
    | directive d => simp [realign?] at h

/-- The same with the lines in order. -/
theorem Emission.reverse_realign? {unit : Nat} {behind done : List Step}
    (h : Emission.realign? unit behind.reverse = some done) :
    ∃ (front : List Step) (old new : Slot) (names : List String),
      behind = front ++ .insn old :: names.map Step.label ∧ old.realign? unit = some new ∧
      done.reverse = front ++ .insn new :: names.map Step.label := by
  obtain ⟨names, old, new, front, hbehind, hnew, rfl⟩ := realign?_eq_some h
  refine ⟨front.reverse, old, new, names.reverse, ?_, hnew, ?_⟩
  · rw [← List.reverse_reverse behind, hbehind]
    simp
  · simp

namespace Layout

/-- Whether labels can be bound depends on the names that are taken, and on no position. -/
theorem exists_walk_labels {l l₁ l' : Layout} {names : List String}
    (hfree : ∀ name, l.labels.get? name = none → l₁.labels.get? name = none)
    (h : walk isa line l (names.map Step.label) = .ok l') :
    ∃ l₁', walk isa line l₁ (names.map Step.label) = .ok l₁' := by
  induction names generalizing line l l₁ with
  | nil => exact ⟨l₁, rfl⟩
  | cons name rest ih =>
    obtain ⟨_, hstep, hrest⟩ := walk_cons_eq_ok.1 h
    obtain ⟨t, ht, rfl⟩ := bind_pure_eq_ok.1 hstep
    have hdefine := LabelTable.declare_eq_ok.1 ht
    have hnone := hfree name (LabelTable.get?_of_define? hdefine)
    obtain ⟨t₁, ht₁⟩ : ∃ t₁, l₁.labels.define? name (l₁.image.address isa.posUnit) = some t₁ := by
      simp [LabelTable.define?, hnone]
    -- the same name is taken now on both sides
    have hnext : ∀ other, t.get? other = none →
        ({ l₁ with labels := t₁ } : Layout).labels.get? other = none := by
      intro other
      rw [LabelTable.get?_define? hdefine, LabelTable.get?_define? ht₁]
      by_cases heq : other = name
      · simp [heq]
      · simpa [heq] using hfree other
    obtain ⟨l₁', hl₁'⟩ := ih hnext hrest
    exact ⟨l₁', walk_cons_eq_ok.2
      ⟨_, bind_pure_eq_ok.2 ⟨t₁, LabelTable.declare_eq_ok.2 ht₁, rfl⟩, hl₁'⟩⟩

/-- With another encoding for the last instruction in front, the layout comes to the same line. -/
theorem walk_moved {front : List Step} {old : Slot} {names : List String} {l : Layout}
    (h : walk isa line {} (front ++ .insn old :: names.map Step.label) = .ok l) (new : Slot) :
    ∃ l₀ l', walk isa line {} front = .ok l₀ ∧
      walk isa line {} (front ++ .insn new :: names.map Step.label) = .ok l' ∧
      l.image = l₀.image.advance isa (.insn old) ∧
      l'.image = l₀.image.advance isa (.insn new) := by
  obtain ⟨l₀, hl₀, hrest⟩ := walk_append.1 h
  obtain ⟨l₁, hold, hlabels⟩ := walk_cons_eq_ok.1 hrest
  -- an instruction binds no name
  obtain ⟨l₂, hnew, hfree⟩ : ∃ l₂, l₀.step isa (line + front.length) (.insn new) = .ok l₂ ∧
      ∀ name, l₁.labels.get? name = none → l₂.labels.get? name = none := by
    obtain rfl := Except.ok.inj hold
    exact ⟨_, rfl, fun _ hnone => hnone⟩
  obtain ⟨l', hl'⟩ := exists_walk_labels hfree hlabels
  refine ⟨l₀, l', hl₀, walk_append.2 ⟨l₀, hl₀, walk_cons_eq_ok.2 ⟨l₂, hnew, hl'⟩⟩, ?_, ?_⟩
  · rw [image_walk hlabels, Image.foldl_advance_labels, image_step hold]
  · rw [image_walk hl', Image.foldl_advance_labels, image_step hnew]

end Layout

/-! ## One place moved on -/

theorem Slot.eq_of_candidates {s s' : Slot} (h : s.candidates = s'.candidates) : s = s' := by
  obtain ⟨chosen, spare⟩ := s
  obtain ⟨chosen', spare'⟩ := s'
  obtain ⟨rfl, rfl⟩ := List.cons.inj h
  rfl

/-- What is left of a list of encodings has its chosen one at a later place. -/
theorem Slot.exists_place {s s' : Slot} {k : Nat} (h : s'.candidates <:+ (s.choose k).spare) :
    ∃ k', k < k' ∧ k' < s.candidates.length ∧ s' = s.choose k' := by
  obtain ⟨gone, hgone⟩ := h
  have hdrop : s.candidates.drop (k + 1 + gone.length) = s'.candidates := by
    rw [← List.drop_drop]
    show (s.choose k).spare.drop gone.length = s'.candidates
    rw [← hgone, List.drop_left]
  have hlt : k + 1 + gone.length < s.candidates.length := by
    have hlen := congrArg List.length hdrop
    rw [List.length_drop, Slot.length_candidates s'] at hlen
    omega
  refine ⟨k + 1 + gone.length, by omega, hlt, Slot.eq_of_candidates ?_⟩
  rw [Slot.candidates_choose hlt, hdrop]

theorem insn_of_chooseAll {places : Nat → Nat} {steps : List Step} {i : Nat} {slot : Slot}
    (h : (chooseAll places steps)[i]? = some (.insn slot)) :
    ∃ first, steps[i]? = some (.insn first) ∧ slot = first.choose (places i) := by
  rw [getElem?_chooseAll] at h
  obtain ⟨s, hs, hchoose⟩ := Option.map_eq_some_iff.1 h
  cases s with
  | insn first => exact ⟨first, hs, (Step.insn.inj hchoose).symm⟩
  | label name => simp [Step.choose] at hchoose
  | directive d => simp [Step.choose] at hchoose

theorem Checked.line_at {program : Program} {steps : List Step}
    (h : Checked isa sel program steps) {i : Nat} {s : Step} (hi : steps[i]? = some s) :
    ∃ l, program[i]? = some l ∧ Step.Answers isa sel l s :=
  getElem?_of_forall₂ (List.Forall₂.flip (R := flip (Step.Answers isa sel)) h) hi

/-- The line `j` is the last one before the line `i` that is no label, and it is an instruction. -/
structure Precedes (program : Program) (j i : Nat) : Prop where
  lt : j < i
  insn : ∃ items, program[j]? = some (.insn items)
  label : ∀ m, j < m → m < i → ∃ name, program[m]? = some (.label name)

/-- An instruction precedes whatever follows it with only labels between. -/
theorem Checked.precedes {program : Program} {front rest : List Step} {slot : Slot}
    {names : List String}
    (h : Checked isa sel program (front ++ .insn slot :: names.map Step.label ++ rest)) :
    Precedes program front.length (front ++ .insn slot :: names.map Step.label).length := by
  refine ⟨by simp, ?_, ?_⟩
  · have hstep : (front ++ .insn slot :: names.map Step.label ++ rest)[front.length]? =
        some (.insn slot) := by simp
    obtain ⟨l, hline, hans⟩ := h.line_at hstep
    cases hans with
    | insn => exact ⟨_, hline⟩
  · intro m hm hlt
    obtain ⟨n, rfl⟩ := Nat.exists_eq_add_of_lt hm
    have hn : n < names.length := by
      simp at hlt
      omega
    have hsub : front.length + n + 1 - front.length = n + 1 := by omega
    have hstep : (front ++ .insn slot :: names.map Step.label ++ rest)[front.length + n + 1]? =
        some (.label names[n]) := by
      rw [List.getElem?_append_left hlt, List.getElem?_append_right (by omega)]
      simp [hsub, hn]
    obtain ⟨l, hline, hans⟩ := h.line_at hstep
    cases hans with
    | label => exact ⟨_, hline⟩

/-- **A move repairs the misalignment.** Let the layout of any choices in range come to an
    instruction half a long instruction off a boundary, and let the line in front be moved.

    * One place has changed, and it is a later one. It is that of the nearest line in front that is
      no label, which is an instruction, and the section there is the same.
    * The layout of the new choices comes to the instruction too, in the same section, and there
      it stands on a boundary.

    This is so for any instruction set and for an instruction of any length. -/
theorem realign_repairs {program : Program} {checked behind ahead done : List Step}
    {places : Nat → Nat} {slot : Slot} {l : Layout}
    (h : Step.ofLines isa sel 1 program = .ok checked) (hp : InRange places checked)
    (hnow : chooseAll places checked = behind ++ .insn slot :: ahead)
    (hl : Layout.walk isa 1 {} behind = .ok l) (hoff : l.image.offset % 8 = 4)
    (hdone : Emission.realign? isa.unit behind.reverse = some done) :
    ∃ j k l₀ l', Precedes program j behind.length ∧ places j < k ∧
      InRange (Function.update places j k) checked ∧
      chooseAll (Function.update places j k) checked = done.reverse ++ .insn slot :: ahead ∧
      Layout.walk isa 1 {} (behind.take j) = .ok l₀ ∧ l₀.image.current = l.image.current ∧
      Layout.walk isa 1 {} done.reverse = .ok l' ∧ l'.image.current = l.image.current ∧
      8 ∣ l'.image.offset := by
  obtain ⟨front, old, new, names, rfl, hnew, hrev⟩ := Emission.reverse_realign? hdone
  obtain ⟨hsuffix, hshift⟩ := Slot.realign?_eq_some hnew
  have hc := checked_chooseAll h hp
  rw [hnow] at hc
  -- the line that is moved, as it was checked, and its new place
  have hat : (chooseAll places checked)[front.length]? = some (.insn old) := by
    rw [hnow]
    simp
  obtain ⟨first, hfirst, rfl⟩ := insn_of_chooseAll hat
  obtain ⟨k, hlt, hk, rfl⟩ := Slot.exists_place hsuffix
  -- both layouts, up to the line and after it
  obtain ⟨l₀, l', hl₀, hl', himage, himage'⟩ := Layout.walk_moved hl (first.choose k)
  have hcurrent : l₀.image.HasCurrent := by
    rw [Layout.image_walk hl₀]
    exact Image.hasCurrent_foldl front
  refine ⟨front.length, k, l₀, l', hc.precedes, hlt, hp.update hfirst hk, ?_, ?_, ?_, ?_, ?_, ?_⟩
  · rw [chooseAll_update hfirst, hnow, hrev]
    simp [Step.choose]
  · simpa using hl₀
  · rw [himage, Image.current_advance_insn]
  · rw [hrev]
    exact hl'
  · rw [himage, himage', Image.current_advance_insn, Image.current_advance_insn]
  · rw [himage] at hoff
    rw [himage']
    exact Image.dvd_offset_advance hcurrent hoff hshift

/-- After a long `nop` and a short one, the `mov`, which has only a long encoding, is off its
    boundary. -/
def crowdedProgram : Program :=
  [.directive ".section" [.label "code", .num 0x100],
   .label "start",
   .insn [.name "nop"],
   .insn [.name "nop"],
   .label "L",
   .insn [.name "mov", .expr (.reg "$r1"), .expr (.num 0x12345)]]

/-- The short `nop` is moved, and the `mov` gets from the offset 12 to a boundary. -/
theorem realign_repairs_crowdedProgram :
    ∃ checked behind slot l done, Step.ofLines Isa.demo {} 1 crowdedProgram = .ok checked ∧
      InRange longNop checked ∧ chooseAll longNop checked = behind ++ [.insn slot] ∧
      slot.chosen.size Isa.demo.unit = 8 ∧ Layout.walk Isa.demo 1 {} behind = .ok l ∧
      l.image.offset = 12 ∧ Emission.realign? Isa.demo.unit behind.reverse = some done ∧
      ∃ j k l', Precedes crowdedProgram j behind.length ∧ longNop j < k ∧
        chooseAll (Function.update longNop j k) checked = done.reverse ++ [.insn slot] ∧
        Layout.walk Isa.demo 1 {} done.reverse = .ok l' ∧ 8 ∣ l'.image.offset := by
  obtain ⟨checked, behind, slot, l, done, hchecked, hrange, hnow, hsize, hl, hoffset, hdone⟩ :
      ∃ checked behind slot l done, Step.ofLines Isa.demo {} 1 crowdedProgram = .ok checked ∧
        InRange longNop checked ∧ chooseAll longNop checked = behind ++ [.insn slot] ∧
        slot.chosen.size Isa.demo.unit = 8 ∧ Layout.walk Isa.demo 1 {} behind = .ok l ∧
        l.image.offset = 12 ∧ Emission.realign? Isa.demo.unit behind.reverse = some done :=
    ⟨_, [_, _, _, _, _], _, _, _, rfl, by decide +kernel, rfl, rfl, rfl, by decide +kernel, rfl⟩
  obtain ⟨j, k, _, l', hj, hlt, _, hnext, _, _, hl', _, hdvd⟩ :=
    realign_repairs hchecked hrange hnow hl (by rw [hoffset]) hdone
  exact ⟨checked, behind, slot, l, done, hchecked, hrange, hnow, hsize, hl, hoffset, hdone,
    j, k, l', hj, hlt, hnext, hl', hdvd⟩

end TableAsm
