import TableAsm.Proofs.Failure

/-! # Range checks on data

  A data directive of the kinds `.uN` and `.sN` wants its numbers in range.
  The numbers depend on labels, labels move from pass to pass, and the
  check is made in every pass, also in one that is dirty by then or will
  be.

  - `OutOfRange` says which argument of a directive fails its check under
    given labels, and `Reaches` that a run comes to a line, in which pass
    and with which labels.
  - `Step.Unchecks` relates a line to the same line without its check. The
    check has no other effect: as long as it is passed, a run with it and
    a run without it make the same passes (`Passes.unchecks`).
  - `data_overflow_iff` says when a program is rejected for a number out of
    range, and what the run without the check does there. If this run goes
    on after that pass, the labels need not be those that it ends with:
    `transientProgram` is rejected for a number that is in range in the end
    (`transientProgram_rejected`).
-/

namespace TableAsm

variable {isa : Isa} {sel : Selector} {labels : LabelTable} {line : Nat}

/-! ## Arguments out of range -/

/-- The argument `i` of a data directive is the first one that is out of range, and those before
    it have values. -/
def OutOfRange (labels : LabelTable) (kind : DataKind) (width : Nat) (args : List Expr) (i : Nat) :
    Prop :=
  (∀ j < i, ∃ e v, args[j]? = some e ∧ e.eval labels = .ok v ∧ kind.fits width v = true) ∧
  ∃ e v, args[i]? = some e ∧ e.eval labels = .ok v ∧ kind.fits width v = false

section

variable {kind : DataKind} {width : Nat} {e : Expr} {rest : List Expr} {v : Word}

theorem not_outOfRange_nil {i : Nat} : ¬ OutOfRange labels kind width [] i := by
  rintro ⟨_, e, v, he, _⟩
  simp at he

theorem outOfRange_zero (hv : e.eval labels = .ok v) :
    OutOfRange labels kind width (e :: rest) 0 ↔ kind.fits width v = false := by
  constructor
  · rintro ⟨_, e', v', he', hv', hfits⟩
    obtain rfl : e = e' := Option.some.inj he'
    obtain rfl : v = v' := Except.ok.inj (hv.symm.trans hv')
    exact hfits
  · intro hfits
    exact ⟨fun j hj => absurd hj (Nat.not_lt_zero j), e, v, rfl, hv, hfits⟩

theorem outOfRange_succ {i : Nat} :
    OutOfRange labels kind width (e :: rest) (i + 1) ↔
      (∃ v, e.eval labels = .ok v ∧ kind.fits width v = true) ∧
        OutOfRange labels kind width rest i := by
  constructor
  · rintro ⟨hbefore, hout⟩
    obtain ⟨e', v, he', hv⟩ := hbefore 0 (Nat.succ_pos i)
    obtain rfl : e = e' := Option.some.inj he'
    exact ⟨⟨v, hv⟩, fun j hj => hbefore (j + 1) (Nat.succ_lt_succ hj), hout⟩
  · rintro ⟨⟨v, hv⟩, hbefore, hout⟩
    refine ⟨?_, hout⟩
    intro j hj
    cases j with
    | zero => exact ⟨e, v, rfl, hv⟩
    | succ j => exact hbefore j (Nat.lt_of_succ_lt_succ hj)

/-- Storing data fails its check at the first argument that is out of range. -/
theorem dataBytes_overflow_iff {args : List Expr} {name : String} {index k : Nat} :
    dataBytes labels kind width index args = .error (.dataOverflow name k) ↔
      name = Directive.dataName kind width ∧
        ∃ i, k = index + i ∧ OutOfRange labels kind width args i := by
  induction args generalizing index with
  | nil => simp [dataBytes, not_outOfRange_nil]
  | cons e rest ih =>
    cases hv : e.eval labels with
    | error err =>
      -- an argument without a value is another error, and hides what comes after it
      have hnone : ∀ i, ¬ OutOfRange labels kind width (e :: rest) i := by
        intro i h
        cases i with
        | zero =>
          obtain ⟨_, e', v, he', hv', _⟩ := h
          obtain rfl : e = e' := Option.some.inj he'
          simp [hv] at hv'
        | succ i =>
          obtain ⟨⟨v, hv', _⟩, _⟩ := outOfRange_succ.1 h
          simp [hv] at hv'
      simp [dataBytes, hv, hnone]
    | ok v =>
      cases hfits : kind.fits width v with
      | false =>
        have hout : ∀ i, OutOfRange labels kind width (e :: rest) i ↔ i = 0 := by
          intro i
          cases i with
          | zero => simp [outOfRange_zero hv, hfits]
          | succ i => simp [outOfRange_succ, hv, hfits]
        simp [dataBytes, hv, hfits, hout, eq_comm]
      | true =>
        have hrest : dataBytes labels kind width index (e :: rest) =
            .error (.dataOverflow name k) ↔
            dataBytes labels kind width (index + 1) rest = .error (.dataOverflow name k) := by
          simp only [dataBytes, hv, hfits, if_true]
          exact bind_pure_eq_error
        rw [hrest, ih]
        refine and_congr_right fun _ => ?_
        constructor
        · rintro ⟨i, rfl, hi⟩
          exact ⟨i + 1, by omega, outOfRange_succ.2 ⟨⟨v, hv, hfits⟩, hi⟩⟩
        · rintro ⟨i, rfl, hi⟩
          cases i with
          | zero => simp [outOfRange_zero hv, hfits] at hi
          | succ i => exact ⟨i, by omega, (outOfRange_succ.1 hi).2⟩

end

/-- Only a data directive with an argument out of range fails in this way. -/
theorem Emission.step_overflow_iff {e : Emission} {s : Step} {k i : Nat} {name : String} :
    e.step isa labels line s = .error ⟨k, .dataOverflow name i⟩ ↔
      ∃ kind width args, s = .directive (.data kind width args) ∧ k = line ∧
        name = Directive.dataName kind width ∧ OutOfRange labels kind width args i := by
  constructor
  · intro h
    rcases step_eq_error h with
      ⟨slot, _, hboard⟩ | ⟨slot, e₁, _, _, hinsn⟩ | ⟨kind, width, args, rfl, hk, hdata⟩
    · simpa using (board_eq_error_iff.1 hboard).2.2
    · simpa using (insn_eq_error hinsn).2
    · obtain ⟨hname, j, hj, hout⟩ := dataBytes_overflow_iff.1 hdata
      obtain rfl : i = j := hj.trans (Nat.zero_add j)
      exact ⟨kind, width, args, rfl, hk, hname, hout⟩
  · rintro ⟨kind, width, args, rfl, rfl, hname, hout⟩
    have hdata : dataBytes labels kind width 0 args = .error (.dataOverflow name i) :=
      dataBytes_overflow_iff.2 ⟨hname, i, (Nat.zero_add i).symm, hout⟩
    simp only [step, hdata]

/-! ## Runs that come to a line -/

/-- After `n` dirty passes, the next pass starts with these labels and gets over `j` lines. -/
def Reaches (isa : Isa) (sel : Selector) (program : Program) (n : Nat) (labels : LabelTable)
    (j : Nat) : Prop :=
  ∃ checked now e, Step.ofLines isa sel 1 program = .ok checked ∧ Passes isa n checked now ∧
    layout isa now = .ok labels ∧ Emission.walk isa labels 1 {} (now.take j) = .ok e

/-- The passes of a run are those that lead to its result. -/
theorem Reaches.of_assemble {program : Program} {n j : Nat} {a : Assembly}
    (h : Reaches isa sel program n labels j) (ha : assemble isa sel program = .ok a) :
    n < a.passes ∧ (a.passes = n + 1 → a.labels = labels) := by
  obtain ⟨checked, now, e, hchecked, hpasses, hlayout, _⟩ := h
  -- the run goes on from the choices that the passes lead to
  have hrelax : relax isa n now = .ok a := by
    obtain ⟨steps, hsteps, hok⟩ := bind_eq_ok.1 ha
    obtain rfl : checked = steps := Except.ok.inj (hchecked.symm.trans hsteps)
    rw [relax_of_passes hpasses, Nat.zero_add] at hok
    exact hok
  obtain ⟨m, last, hmore, hend⟩ := relax_spec isa n now
  rcases hend with ⟨d, _, hd⟩ | ⟨sections, labels', hclean, hok⟩
  · simp [hrelax] at hd
  · obtain rfl := Except.ok.inj (hrelax.symm.trans hok)
    refine ⟨by show n < n + m + 1; omega, ?_⟩
    intro hm
    have hm' : n + m + 1 = n + 1 := hm
    obtain rfl : m = 0 := by omega
    cases hmore with
    | refl =>
      -- the next pass is the clean one
      obtain ⟨e', hlayout', _⟩ := hclean
      exact Except.ok.inj (hlayout'.symm.trans hlayout)

/-! ## Runs without the check -/

/-- The second step is the first one, perhaps without its range check. -/
inductive Step.Unchecks : Step → Step → Prop
  | refl (s : Step) : Step.Unchecks s s
  | data (kind : DataKind) (width : Nat) (args : List Expr) :
    Step.Unchecks (.directive (.data kind width args)) (.directive (.data .bits width args))

/-- Every step of a program is the same step of the other one, perhaps with a range check. -/
abbrev Step.AllUncheck : List Step → List Step → Prop := List.Forall₂ Step.Unchecks

theorem Step.AllUncheck.refl (steps : List Step) : Step.AllUncheck steps steps :=
  List.forall₂_same.2 fun s _ => .refl s

/-- The layout has no use for the check. -/
theorem Layout.walk_unchecks {l : Layout} {steps steps' : List Step}
    (h : Step.AllUncheck steps steps') : walk isa line l steps' = walk isa line l steps := by
  induction h generalizing line l with
  | nil => rfl
  | @cons s s' rest rest' hs _ ih =>
    have hstep : l.step isa line s' = l.step isa line s := by
      cases hs with
      | refl => rfl
      | data => rfl
    simp only [walk, hstep, ih]

theorem layout_unchecks {steps steps' : List Step} (h : Step.AllUncheck steps steps') :
    layout isa steps' = layout isa steps := by
  unfold layout
  rw [Layout.walk_unchecks h]

/-- Where the check is passed, the bytes are those that are stored without it. -/
theorem dataBytes_unchecked {kind : DataKind} {width index : Nat} {args : List Expr}
    {bytes : List UInt8} (h : dataBytes labels kind width index args = .ok bytes) :
    dataBytes labels .bits width index args = .ok bytes := by
  induction args generalizing index bytes with
  | nil => exact h
  | cons e rest ih =>
    simp only [dataBytes] at h ⊢
    split at h
    · simp at h
    · next v hv =>
      split at h
      · obtain ⟨more, hmore, rfl⟩ := bind_pure_eq_ok.1 h
        rw [if_pos (DataKind.fits_bits width v)]
        exact bind_pure_eq_ok.2 ⟨more, ih hmore, rfl⟩
      · simp at h

namespace Emission

/-- The second pass is where the first one is, and some of its steps have no check. -/
structure Unchecks (e e' : Emission) : Prop where
  done : Step.AllUncheck e.done e'.done
  image_eq : e'.image = e.image
  dirty_eq : e'.dirty = e.dirty

theorem Unchecks.refl (e : Emission) : e.Unchecks e := ⟨Step.AllUncheck.refl _, rfl, rfl⟩

theorem realign?_unchecks {unit : Nat} {steps steps' done : List Step}
    (hs : Step.AllUncheck steps steps') (h : realign? unit steps = some done) :
    ∃ done', realign? unit steps' = some done' ∧ Step.AllUncheck done done' := by
  induction hs generalizing done with
  | nil => simp [realign?] at h
  | @cons s s' rest rest' hs hrest ih =>
    cases hs with
    | data kind width args => simp [realign?] at h
    | refl =>
      cases s with
      | label name =>
        obtain ⟨front, hfront, rfl⟩ := Option.map_eq_some_iff.1 h
        obtain ⟨front', hfront', hunchecks⟩ := ih hfront
        exact ⟨.label name :: front', Option.map_eq_some_iff.2 ⟨front', hfront', rfl⟩,
          .cons (.refl _) hunchecks⟩
      | insn slot =>
        obtain ⟨slot', hslot', rfl⟩ := Option.map_eq_some_iff.1 h
        exact ⟨.insn slot' :: rest', Option.map_eq_some_iff.2 ⟨slot', hslot', rfl⟩,
          .cons (.refl _) hrest⟩
      | directive d => simp [realign?] at h

variable {e e' e₁ : Emission}

theorem board_unchecks {size : Nat} (he : e.Unchecks e') (h : e.board isa line size = .ok e₁) :
    ∃ e₁', e'.board isa line size = .ok e₁' ∧ e₁.Unchecks e₁' := by
  rcases board_eq_ok.1 h with ⟨hm, rfl⟩ | ⟨hm, done, hdone, rfl⟩
  · exact ⟨e', board_eq_ok.2 (.inl ⟨he.image_eq ▸ hm, rfl⟩), he⟩
  · obtain ⟨done', hdone', hunchecks⟩ := realign?_unchecks he.done hdone
    have hm' : isa.misaligned size e'.image.offset = true := he.image_eq ▸ hm
    refine ⟨⟨done', e'.image.align 8, true⟩,
      board_eq_ok.2 (.inr ⟨hm', done', hdone', rfl⟩), hunchecks, ?_, rfl⟩
    rw [he.image_eq]

theorem insn_unchecks {slot : Slot} (he : e.Unchecks e')
    (h : e.insn isa labels line slot = .ok e₁) :
    ∃ e₁', e'.insn isa labels line slot = .ok e₁' ∧ e₁.Unchecks e₁' := by
  rcases insn_eq_ok.1 h with ⟨p, hp, rfl⟩ | ⟨slot', hnone, hnext, rfl⟩
  · refine ⟨_, insn_eq_ok.2 (.inl ⟨p, he.image_eq ▸ hp, rfl⟩), .cons (.refl _) he.done, ?_,
      he.dirty_eq⟩
    rw [he.image_eq]
  · refine ⟨_, insn_eq_ok.2 (.inr ⟨slot', he.image_eq ▸ hnone, hnext, rfl⟩),
      .cons (.refl _) he.done, ?_, rfl⟩
    rw [he.image_eq]

/-- A directive that stores no data cannot fail. -/
theorem step_of_not_data {d : Directive} (hd : ∀ kind width args, d ≠ .data kind width args) :
    e.step isa labels line (.directive d) =
      .ok { e with done := .directive d :: e.done, image := e.image.place d } := by
  cases d with
  | data kind width args => exact absurd rfl (hd kind width args)
  | _ => rfl

theorem step_data_eq_ok {kind : DataKind} {width : Nat} {args : List Expr} :
    e.step isa labels line (.directive (.data kind width args)) = .ok e₁ ↔
      ∃ bytes, dataBytes labels kind width 0 args = .ok bytes ∧
        e₁ = { e with
          done := .directive (.data kind width args) :: e.done
          image := e.image.append bytes.toArray } := by
  simp only [step]
  cases dataBytes labels kind width 0 args with
  | error c => simp
  | ok bytes => simp [eq_comm]

/-- One step: what the pass with the checks does, the other one does too. -/
theorem step_unchecks {s s' : Step} (hs : s.Unchecks s') (he : e.Unchecks e')
    (h : e.step isa labels line s = .ok e₁) :
    ∃ e₁', e'.step isa labels line s' = .ok e₁' ∧ e₁.Unchecks e₁' := by
  have himage := he.image_eq
  cases hs with
  | data kind width args =>
    -- with the check or without it, the same bytes are stored
    obtain ⟨bytes, hbytes, rfl⟩ := step_data_eq_ok.1 h
    refine ⟨_, step_data_eq_ok.2 ⟨bytes, dataBytes_unchecked hbytes, rfl⟩,
      .cons (.data kind width args) he.done, ?_, he.dirty_eq⟩
    rw [himage]
  | refl =>
    cases s with
    | insn slot =>
      obtain ⟨e₂, hboard, hinsn⟩ := step_insn_eq_ok.1 h
      obtain ⟨e₂', hboard', he₂⟩ := board_unchecks he hboard
      obtain ⟨e₁', hinsn', he₁⟩ := insn_unchecks he₂ hinsn
      exact ⟨e₁', step_insn_eq_ok.2 ⟨e₂', hboard', hinsn'⟩, he₁⟩
    | label name =>
      obtain rfl := Except.ok.inj h
      exact ⟨_, rfl, .cons (.refl _) he.done, himage, he.dirty_eq⟩
    | directive d =>
      by_cases hd : ∀ kind width args, d ≠ .data kind width args
      · rw [step_of_not_data hd, Except.ok.injEq] at h
        subst h
        refine ⟨_, step_of_not_data hd, .cons (.refl _) he.done, ?_, he.dirty_eq⟩
        rw [himage]
      · simp only [not_forall, not_not] at hd
        obtain ⟨kind, width, args, rfl⟩ := hd
        obtain ⟨bytes, hbytes, rfl⟩ := step_data_eq_ok.1 h
        refine ⟨_, step_data_eq_ok.2 ⟨bytes, hbytes, rfl⟩, .cons (.refl _) he.done, ?_,
          he.dirty_eq⟩
        rw [himage]

theorem walk_unchecks {steps steps' : List Step} (hs : Step.AllUncheck steps steps')
    (he : e.Unchecks e') (h : walk isa labels line e steps = .ok e₁) :
    ∃ e₁', walk isa labels line e' steps' = .ok e₁' ∧ e₁.Unchecks e₁' := by
  induction hs generalizing line e e' with
  | nil =>
    obtain rfl := Except.ok.inj h
    exact ⟨e', rfl, he⟩
  | cons hs _ ih =>
    obtain ⟨e₂, hstep, hrest⟩ := walk_cons_eq_ok.1 h
    obtain ⟨e₂', hstep', he₂⟩ := step_unchecks hs he hstep
    obtain ⟨e₁', hrest', he₁⟩ := ih he₂ hrest
    exact ⟨e₁', walk_cons_eq_ok.2 ⟨e₂', hstep', hrest'⟩, he₁⟩

end Emission

theorem DirtyPass.unchecks {now next now' : List Step} (h : DirtyPass isa now next)
    (hs : Step.AllUncheck now now') :
    ∃ next', DirtyPass isa now' next' ∧ Step.AllUncheck next next' := by
  obtain ⟨labels, e, hlayout, hemit, hdirty, rfl⟩ := h
  obtain ⟨e', hemit', he⟩ := Emission.walk_unchecks hs (.refl _) hemit
  refine ⟨e'.done.reverse, ⟨labels, e', ?_, hemit', he.dirty_eq.trans hdirty, rfl⟩,
    List.rel_reverse he.done⟩
  rw [layout_unchecks hs, hlayout]

/-- A run without checks makes the passes of the run with them, for as long as that lasts. -/
theorem Passes.unchecks {n : Nat} {start last start' : List Step} (h : Passes isa n start last)
    (hs : Step.AllUncheck start start') :
    ∃ last', Passes isa n start' last' ∧ Step.AllUncheck last last' := by
  induction h generalizing start' with
  | refl steps => exact ⟨start', .refl _, hs⟩
  | cons hpass _ ih =>
    obtain ⟨next', hpass', hnext⟩ := hpass.unchecks hs
    obtain ⟨last', hrest', hlast⟩ := ih hnext
    exact ⟨last', .cons hpass' hrest', hlast⟩

/-! ## Lines without the check -/

namespace Directive

/-- Widths are whole bytes, and at most a word. -/
theorem width_of_dataKind? {name : List Char} {kind : DataKind} {width : Nat}
    (h : dataKind? name = some (kind, width)) : 0 < width ∧ width ≤ 64 ∧ width % 8 = 0 := by
  unfold dataKind? at h
  split at h
  · obtain ⟨kind', _, hwidth⟩ := Option.bind_eq_some_iff.1 h
    simp only at hwidth
    split at hwidth
    · next hok =>
      obtain ⟨_, _, hok⟩ := hok
      simp only [Option.some.injEq, Prod.mk.injEq] at hwidth
      rw [← hwidth.2]
      exact hok
    · simp at hwidth
  · simp at h

/-- The name of a data directive can be read back. -/
theorem dataKind?_dataName {kind : DataKind} {width : Nat}
    (h : 0 < width ∧ width ≤ 64 ∧ width % 8 = 0) :
    dataKind? (dataName kind width).toList = some (kind, width) := by
  have hletter : DataKind.ofLetter? kind.letter = some kind := by
    cases kind <;> rfl
  have hdigits : (Nat.toDigits 10 width).all Char.isDigit = true := by
    rw [List.all_eq_true]
    intro c hc
    exact Nat.isDigit_of_mem_toDigits (by decide) (by decide) hc
  have hvalue : Nat.ofDigitChars 10 (Nat.toDigits 10 width) 0 = width :=
    Nat.ofDigitChars_ten_toDigits
  rw [dataName, String.toList_ofList]
  simp [dataKind?, hletter, hdigits, hvalue, h, Nat.toDigits_ne_nil]

theorem parse_dataName {kind : DataKind} {width : Nat} {args : List Expr}
    (h : 0 < width ∧ width ≤ 64 ∧ width % 8 = 0) (hargs : args.all Expr.isImm = true) :
    Directive.parse (dataName kind width) args = .ok (.data kind width args) := by
  have hkind : dataKind? (dataName kind width).toList = some (kind, width) :=
    dataKind?_dataName h
  -- the names of the other directives are no names of data directives
  have hne : ∀ other : String, dataKind? other.toList = none → dataName kind width ≠ other := by
    rintro other hnone rfl
    simp [hkind] at hnone
  simp [Directive.parse, hne ".section" (by decide), hne ".align" (by decide),
    hne ".skip" (by decide), hne ".equ" (by decide), hkind, hargs]

end Directive

/-- Another line in place of one that is checked alone. -/
theorem Step.ofLines_replace {before after : Program} {l l' : Line} {steps : List Step} {s' : Step}
    (h : Step.ofLines isa sel line (before ++ l :: after) = .ok steps)
    (hl' : Step.ofLine isa sel l' = .ok s') :
    ∃ pre s post, steps = pre ++ s :: post ∧ Step.ofLine isa sel l = .ok s ∧
      Step.ofLines isa sel line (before ++ l' :: after) = .ok (pre ++ s' :: post) := by
  induction before generalizing line steps with
  | nil =>
    simp only [List.nil_append, Step.ofLines] at h ⊢
    split at h
    · simp at h
    · next s hs =>
      obtain ⟨post, hpost, rfl⟩ := bind_pure_eq_ok.1 h
      refine ⟨[], s, post, rfl, hs, ?_⟩
      simp only [hl']
      exact bind_pure_eq_ok.2 ⟨post, hpost, rfl⟩
  | cons l₀ before ih =>
    simp only [List.cons_append, Step.ofLines] at h ⊢
    split at h
    · simp at h
    · next s₀ hs₀ =>
      obtain ⟨rest, hrest, rfl⟩ := bind_pure_eq_ok.1 h
      obtain ⟨pre, s, post, rfl, hs, hrest'⟩ := ih hrest
      exact ⟨s₀ :: pre, s, post, rfl, hs, bind_pure_eq_ok.2 ⟨_, hrest', rfl⟩⟩

/-- The program without the range check of one line comes wherever the program with it comes. -/
theorem Reaches.unchecks {before after : Program} {name : String} {kind : DataKind} {width : Nat}
    {args : List Expr} {n j : Nat}
    (hparse : Directive.parse name args = .ok (.data kind width args))
    (h : Reaches isa sel (before ++ .directive name args :: after) n labels j) :
    Reaches isa sel (before ++ .directive (Directive.dataName .bits width) args :: after) n labels
      j := by
  obtain ⟨checked, now, e, hchecked, hpasses, hlayout, hwalk⟩ := h
  obtain ⟨hkind, himm, _⟩ := Directive.data_of_parse hparse
  have hfree : Step.ofLine isa sel (.directive (Directive.dataName .bits width) args) =
      .ok (.directive (.data .bits width args)) := by
    simp only [Step.ofLine, Directive.parse_dataName (Directive.width_of_dataKind? hkind) himm]
    rfl
  obtain ⟨pre, s, post, rfl, hs, hchecked'⟩ := Step.ofLines_replace hchecked hfree
  obtain rfl : s = .directive (.data kind width args) := by
    simp only [Step.ofLine, hparse] at hs
    exact (Except.ok.inj hs).symm
  -- the two programs differ in this line only, and in its check only
  have hstart : Step.AllUncheck (pre ++ .directive (.data kind width args) :: post)
      (pre ++ .directive (.data .bits width args) :: post) :=
    List.rel_append (Step.AllUncheck.refl pre)
      (.cons (.data kind width args) (Step.AllUncheck.refl post))
  obtain ⟨now', hpasses', hnow⟩ := hpasses.unchecks hstart
  obtain ⟨e', hwalk', _⟩ := Emission.walk_unchecks (List.forall₂_take j hnow) (.refl _) hwalk
  exact ⟨_, now', e', hchecked', hpasses', (layout_unchecks hnow).trans hlayout, hwalk'⟩

/-! ## Rejection -/

/-- **When a program is rejected for a number out of range.** This is so exactly if after some
    dirty passes the next one comes to the line and finds the argument out of range, with the
    labels that this pass started with. The program without the check of this line comes there in
    the same pass with the same labels. So if it can be assembled, it takes at least this pass;
    and if it takes no other one, the labels are those that it ends with. -/
theorem data_overflow_iff (isa : Isa) (sel : Selector) (program : Program) (k : Nat)
    (name : String) (i : Nat) :
    assemble isa sel program = .error ⟨k, .dataOverflow name i⟩ ↔
      ∃ before written kind width args after n labels,
        program = before ++ .directive written args :: after ∧ k = before.length + 1 ∧
        Directive.parse written args = .ok (.data kind width args) ∧
        name = Directive.dataName kind width ∧
        Reaches isa sel program n labels before.length ∧
        OutOfRange labels kind width args i ∧
        Reaches isa sel (before ++ .directive (Directive.dataName .bits width) args :: after) n
          labels before.length ∧
        ∀ a, assemble isa sel
            (before ++ .directive (Directive.dataName .bits width) args :: after) = .ok a →
          n < a.passes ∧ (a.passes = n + 1 → a.labels = labels) := by
  rw [assemble_eq_error_iff]
  constructor
  · rintro (hcheck | ⟨checked, n, now, hchecked, hpasses, hfail⟩)
    · simpa using Step.ofLines_cause hcheck
    · rcases hfail with hlayout | ⟨labels, hlayout, hemit⟩
      · -- binding the labels fails for other causes
        simpa using layout_cause hlayout
      · obtain ⟨pre, s, post, e, rfl, hwalk, hstep⟩ := Emission.walk_eq_error_iff.1 hemit
        obtain ⟨kind, width, args, rfl, hk, hname, hout⟩ := Emission.step_overflow_iff.1 hstep
        have hnow := (checked_of_ofLines hchecked).later (later_of_passes hpasses)
        obtain ⟨before, l, after, rfl, hlength, _, hl⟩ := hnow.split
        cases hl with
        | @directive written args' _ hparse =>
          obtain rfl := (Directive.data_of_parse hparse).2.2
          have hreaches : Reaches isa sel (before ++ .directive written args :: after) n labels
              before.length := by
            refine ⟨checked, _, e, hchecked, hpasses, hlayout, ?_⟩
            rw [hlength, List.take_left]
            exact hwalk
          have hfree := hreaches.unchecks hparse
          exact ⟨before, written, kind, width, args, after, n, labels, rfl, by omega, hparse,
            hname, hreaches, hout, hfree, fun a ha => hfree.of_assemble ha⟩
  · rintro ⟨before, written, kind, width, args, after, n, labels, rfl, rfl, hparse, hname,
      ⟨checked, now, e, hchecked, hpasses, hlayout, hwalk⟩, hout, _⟩
    -- the line at this place is the directive, in every pass
    have hnow := (checked_of_ofLines hchecked).later (later_of_passes hpasses)
    obtain ⟨s, hs, hans⟩ := getElem?_of_forall₂ hnow
      (i := before.length) (a := .directive written args) (by simp)
    cases hans with
    | @directive _ _ d hd =>
      obtain rfl : .data kind width args = d := Except.ok.inj (hparse.symm.trans hd)
      obtain ⟨hlt, hget⟩ := List.getElem?_eq_some_iff.1 hs
      have hsplit : now = now.take before.length ++
          .directive (.data kind width args) :: now.drop (before.length + 1) := by
        rw [← hget, ← List.drop_eq_getElem_cons hlt, List.take_append_drop]
      refine .inr ⟨checked, n, now, hchecked, hpasses, .inr ⟨labels, hlayout,
        Emission.walk_eq_error_iff.2 ⟨_, _, _, e, hsplit, hwalk, Emission.step_overflow_iff.2
          ⟨kind, width, args, rfl, ?_, hname, hout⟩⟩⟩⟩
      rw [List.length_take, Nat.min_eq_left (Nat.le_of_lt hlt), Nat.add_comm]

/-- The `mov` has no room for its immediate in the short encoding that is tried first, so the
    label moves from 1 to 2 with the second pass. -/
def transientProgram (directive : String) : Program :=
  [.directive ".equ" [.label "K", .num 0x12345],
   .insn [.name "mov", .expr (.reg "$r1"), .expr (.label "K")],
   .label "L",
   .directive directive [.bin .sub (.label "L") (.num 2)]]

/-- **A rejection that is not called for.** In the first pass the number that is to be stored is
    negative, and with the labels of the second one it is 0. Without the check the second pass is
    the last, but with it the program does not get there. -/
theorem transientProgram_rejected :
    assemble Isa.demo {} (transientProgram ".u8") = .error ⟨4, .dataOverflow ".u8" 0⟩ ∧
      ∃ a, assemble Isa.demo {} (transientProgram ".b8") = .ok a ∧ a.passes = 2 ∧
        (Expr.bin .sub (.label "L") (.num 2)).eval a.labels = .ok 0 ∧
        DataKind.unsigned.fits 8 0 = true := by
  have hrejected : (assemble Isa.demo {} (transientProgram ".u8")).map Assembly.passes =
      .error ⟨4, .dataOverflow ".u8" 0⟩ := by
    decide +kernel
  obtain ⟨a, ha, hresult⟩ := exists_ok_of_map (x := assemble Isa.demo {} (transientProgram ".b8"))
    (f := fun a => (a.passes, (Expr.bin .sub (.label "L") (.num 2)).eval a.labels))
    (b := (2, .ok 0)) (by decide +kernel)
  obtain ⟨hpasses, hvalue⟩ := Prod.mk.inj hresult
  exact ⟨eq_error_of_map hrejected, a, ha, hpasses, hvalue, rfl⟩

end TableAsm
