import TableAsm.Layout
import TableAsm.Proofs.Emission

/-! # The two walks keep in step

  A pass walks over the program twice. The layout accounts for every line
  by zeros, and the emission writes the bytes. Both see the same positions.

  - The `outline` of an image is what positions depend on: names, bases and
    sizes of the sections, and which one is current.
  - `Image.advance` is how the layout moves over a line. It looks at no
    label (`Layout.image_walk`).
  - The emission moves the outline in the same way, even where it abandons
    encodings (`Emission.outline_walk`). This needs that no encoding is
    longer than a pattern (`Step.Bounded`).
-/

namespace TableAsm

/-! ## Outlines -/

/-- Name, base and size of a section. -/
def Section.outline (s : Section) : String × Word × Nat := (s.name, s.base, s.bytes.size)

namespace Image

/-- What positions in an image depend on. -/
def outline (im : Image) : List (String × Word × Nat) × String :=
  (im.sections.map Section.outline, im.current)

theorem outline_here (im : Image) :
    im.here.outline =
      (im.outline.1.find? (·.1 == im.outline.2)).getD (im.outline.2, 0, 0) := by
  unfold here find? outline
  rw [List.find?_map]
  cases hf : im.sections.find? (·.name == im.current) with
  | none =>
    have hf' : im.sections.find? ((·.1 == im.current) ∘ Section.outline) = none := hf
    simp only [hf']
    rfl
  | some s =>
    have hf' : im.sections.find? ((·.1 == im.current) ∘ Section.outline) = some s := hf
    simp only [hf']
    rfl

theorem outline_here_congr {im im' : Image} (h : im.outline = im'.outline) :
    im.here.outline = im'.here.outline := by
  rw [outline_here, outline_here, h]

theorem offset_congr {im im' : Image} (h : im.outline = im'.outline) : im.offset = im'.offset :=
  congrArg (fun o => o.2.2) (outline_here_congr h)

theorem address_congr {im im' : Image} (h : im.outline = im'.outline) (unit : Nat) :
    im.address unit = im'.address unit := by
  have hbase : im.here.base = im'.here.base := congrArg (fun o => o.2.1) (outline_here_congr h)
  unfold address
  rw [offset_congr h, hbase]

/-- The outline after bytes have been added depends on their number only. -/
theorem outline_append (im : Image) (bytes : Array UInt8) :
    (im.append bytes).outline =
      (im.outline.1.map fun o =>
        if o.1 = im.outline.2 then (o.1, o.2.1, o.2.2 + bytes.size) else o, im.outline.2) := by
  unfold append outline
  simp only [List.map_map, Prod.mk.injEq, and_true]
  apply List.map_congr_left
  intro s _
  by_cases hs : s.name = im.current
  · simp [Section.outline, hs]
  · simp [Section.outline, hs]

theorem outline_append_congr {im im' : Image} (h : im.outline = im'.outline)
    {bytes bytes' : Array UInt8} (hsize : bytes.size = bytes'.size) :
    (im.append bytes).outline = (im'.append bytes').outline := by
  rw [outline_append, outline_append, h, hsize]

theorem outline_zeros_congr {im im' : Image} (h : im.outline = im'.outline) (n : Nat) :
    (im.zeros n).outline = (im'.zeros n).outline :=
  outline_append_congr h rfl

theorem outline_align_congr {im im' : Image} (h : im.outline = im'.outline) (n : Nat) :
    (im.align n).outline = (im'.align n).outline := by
  unfold align
  rw [offset_congr h]
  exact outline_zeros_congr h _

theorem isSome_find? (im : Image) (name : String) :
    (im.find? name).isSome = im.outline.1.any (·.1 == name) := by
  unfold find? outline
  rw [List.any_map, Bool.eq_iff_iff, List.find?_isSome, List.any_eq_true]
  rfl

theorem outline_switch_congr {im im' : Image} (h : im.outline = im'.outline) (name : String)
    (base : Option Word) : (im.switch name base).outline = (im'.switch name base).outline := by
  have hs : im.sections.map Section.outline = im'.sections.map Section.outline :=
    congrArg Prod.fst h
  unfold switch
  -- whether the section is new depends on the outline too
  rw [isSome_find?, isSome_find?, h]
  split
  · exact Prod.ext hs rfl
  · refine Prod.ext ?_ rfl
    simp only [outline, List.map_append, hs]

theorem outline_place_congr {im im' : Image} (h : im.outline = im'.outline) (d : Directive) :
    (im.place d).outline = (im'.place d).outline := by
  cases d with
  | «section» name base => exact outline_switch_congr h name base
  | align n => exact outline_align_congr h n
  | skip n => exact outline_zeros_congr h n
  | equ name value => exact h
  | data kind width args => exact h

/-! ## Moving over a line -/

/-- How the layout moves over a step. -/
def advance (isa : Isa) (im : Image) : Step → Image
  | .insn slot =>
    let size := slot.chosen.size isa.unit
    (if isa.misaligned size im.offset then im.align 8 else im).zeros size
  | .label _ => im
  | .directive (.data _ width args) => im.zeros (width / 8 * args.length)
  | .directive d => im.place d

end Image

namespace Layout

theorem image_step {isa : Isa} {line : Nat} {l l' : Layout} {s : Step}
    (h : l.step isa line s = .ok l') : l'.image = l.image.advance isa s := by
  unfold step at h
  split at h
  · simp only [Except.ok.injEq] at h
    subst h
    rfl
  · obtain ⟨labels, _, rfl⟩ := bind_pure_eq_ok.1 h
    rfl
  · split at h
    · simp at h
    · obtain ⟨labels, _, rfl⟩ := bind_pure_eq_ok.1 h
      rfl
  · simp only [Except.ok.injEq] at h
    subst h
    rfl
  · simp only [Except.ok.injEq] at h
    subst h
    simp [Image.advance]

theorem walk_cons_eq_ok {isa : Isa} {line : Nat} {s : Step} {rest : List Step} {l l' : Layout} :
    walk isa line l (s :: rest) = .ok l' ↔
      ∃ l₁, l.step isa line s = .ok l₁ ∧ walk isa (line + 1) l₁ rest = .ok l' :=
  bind_eq_ok

/-- The positions of a layout do not depend on its labels. -/
theorem image_walk {isa : Isa} {line : Nat} {l l' : Layout} {steps : List Step}
    (h : walk isa line l steps = .ok l') :
    l'.image = steps.foldl (Image.advance isa) l.image := by
  induction steps generalizing line l with
  | nil =>
    simp only [walk, Except.ok.injEq] at h
    subst h
    rfl
  | cons s rest ih =>
    obtain ⟨l₁, hs, hrest⟩ := walk_cons_eq_ok.1 h
    rw [ih hrest, image_step hs, List.foldl_cons]

end Layout

/-! ## The emission moves in the same way -/

/-- No encoding of the step is longer than a pattern. -/
def Step.Bounded (isa : Isa) : Step → Prop
  | .insn slot => ∀ c ∈ slot.candidates, c.size isa.unit ≤ Pattern.maxBytes
  | .label _ => True
  | .directive _ => True

/-- Data that is stored has a value for every argument, and each of them fits. -/
theorem dataBytes_eq_ok {labels : LabelTable} {kind : DataKind} {width index : Nat}
    {args : List Expr} {bytes : List UInt8}
    (h : dataBytes labels kind width index args = .ok bytes) :
    ∃ values, List.Forall₂ (fun e v => e.eval labels = .ok v ∧ kind.fits width v = true)
        args values ∧
      bytes = values.flatMap (Word.leBytes · (width / 8)) := by
  induction args generalizing index bytes with
  | nil =>
    simp only [dataBytes, Except.ok.injEq] at h
    subst h
    exact ⟨[], .nil, rfl⟩
  | cons e rest ih =>
    simp only [dataBytes] at h
    split at h
    · simp at h
    · next v hv =>
      split at h
      · next hfits =>
        obtain ⟨more, hmore, rfl⟩ := bind_pure_eq_ok.1 h
        obtain ⟨values, hvalues, rfl⟩ := ih hmore
        exact ⟨v :: values, .cons ⟨hv, hfits⟩ hvalues, rfl⟩
      · simp at h

theorem length_dataBytes {labels : LabelTable} {kind : DataKind} {width index : Nat}
    {args : List Expr} {bytes : List UInt8}
    (h : dataBytes labels kind width index args = .ok bytes) :
    bytes.length = width / 8 * args.length := by
  obtain ⟨values, hvalues, rfl⟩ := dataBytes_eq_ok h
  rw [hvalues.length_eq, List.length_flatMap]
  simp [Word.length_leBytes, Nat.mul_comm]

namespace Emission

theorem outline_board {isa : Isa} {line size : Nat} {e e' : Emission} {im : Image}
    (h : e.board isa line size = .ok e') (him : e.image.outline = im.outline) :
    e'.image.outline =
      (if isa.misaligned size im.offset then im.align 8 else im).outline := by
  rcases board_eq_ok.1 h with ⟨hm, rfl⟩ | ⟨hm, done, _, rfl⟩
  · rw [Image.offset_congr him] at hm
    simpa [hm] using him
  · rw [Image.offset_congr him] at hm
    simpa [hm] using Image.outline_align_congr him 8

/-- Written or abandoned, an instruction takes up its size. -/
theorem outline_insn {isa : Isa} {labels : LabelTable} {line : Nat} {slot : Slot}
    {e e' : Emission} {im : Image} (h : e.insn isa labels line slot = .ok e')
    (hs : Step.Bounded isa (.insn slot)) (him : e.image.outline = im.outline) :
    e'.image.outline = (im.zeros (slot.chosen.size isa.unit)).outline := by
  rcases insn_eq_ok.1 h with ⟨p, _, rfl⟩ | ⟨slot', _, _, rfl⟩
  · apply Image.outline_append_congr him
    -- a pattern has enough bytes for any encoding
    have hle : slot.chosen.size isa.unit ≤ Pattern.maxBytes := hs _ (by simp [Slot.candidates])
    simp [hle]
  · -- zeros stand for what is abandoned
    exact Image.outline_zeros_congr him _

theorem outline_step {isa : Isa} {labels : LabelTable} {line : Nat} {e e' : Emission} {s : Step}
    {im : Image} (h : e.step isa labels line s = .ok e') (hs : s.Bounded isa)
    (him : e.image.outline = im.outline) :
    e'.image.outline = (im.advance isa s).outline := by
  unfold step at h
  split at h
  · next slot =>
    obtain ⟨e₁, hb, hi⟩ := bind_eq_ok.1 h
    exact outline_insn hi hs (outline_board hb him)
  · simp only [Except.ok.injEq] at h
    subst h
    exact him
  · split at h
    · simp at h
    · next bytes hbytes =>
      simp only [Except.ok.injEq] at h
      subst h
      apply Image.outline_append_congr him
      simp [length_dataBytes hbytes]
  · -- the other directives do the same in both walks
    next d hdata =>
    simp only [Except.ok.injEq] at h
    subst h
    cases d with
    | data kind width args => exact absurd rfl (hdata kind width args)
    | _ => exact Image.outline_place_congr him _

/-- After the same steps, layout and emission agree on all positions. -/
theorem outline_walk {isa : Isa} {labels : LabelTable} {line : Nat} {e e' : Emission}
    {steps : List Step} {im : Image} (h : walk isa labels line e steps = .ok e')
    (hs : ∀ s ∈ steps, s.Bounded isa) (him : e.image.outline = im.outline) :
    e'.image.outline = (steps.foldl (Image.advance isa) im).outline := by
  induction steps generalizing line e im with
  | nil =>
    simp only [walk, Except.ok.injEq] at h
    subst h
    exact him
  | cons s rest ih =>
    obtain ⟨e₁, hstep, hrest⟩ := walk_cons_eq_ok.1 h
    rw [List.foldl_cons]
    exact ih hrest (fun s' hs' => hs s' (List.mem_cons_of_mem s hs'))
      (outline_step hstep (hs s List.mem_cons_self) him)

end Emission

end TableAsm
