import TableAsm.Proofs.Overflow
import TableAsm.Proofs.Relocation
import TableAsm.Proofs.RoundTrip

/-! # Stored data

  A data directive keeps the low bytes of its numbers. Whether nothing is
  lost depends on how the bytes are read back: without a sign for `.uN`,
  with one for `.sN`.

  - `leValue` is the number that bytes stand for, `zeroExtended` and
    `signExtended` are the two words that it can be extended to.
  - The range check of a kind is passed by the numbers that come back, and
    by no others (`DataKind.fits_iff_read`).
  - `Account.explains_at` stops both walks of a clean pass at one line. The
    layout leaves room there (`Reserves`) and the emission fills it
    (`PutsOut`).
  - `data_stored_exactly` puts the two together: what stands in a section
    for a data line reads back as the numbers of the line.
-/

namespace TableAsm

variable {isa : Isa} {sel : Selector} {labels : LabelTable}

/-! ## Reading bytes -/

/-- The number that bytes stand for, the least significant byte first. -/
def leValue : List UInt8 → Nat
  | [] => 0
  | b :: rest => b.toNat + 256 * leValue rest

/-- The word of bytes without a sign. -/
def zeroExtended (bytes : List UInt8) : Word := BitVec.ofNat 64 (leValue bytes)

/-- The word of bytes whose top bit is a sign. -/
def signExtended (bytes : List UInt8) : Word :=
  (BitVec.ofNat (8 * bytes.length) (leValue bytes)).signExtend 64

namespace Word

theorem leBytes_succ (v : Word) (n : Nat) :
    leBytes v (n + 1) = UInt8.ofBitVec (v.setWidth 8) :: leBytes (v >>> 8) n := by
  unfold leBytes
  rw [List.range_succ_eq_map, List.map_cons, List.map_map]
  congr 1
  apply List.map_congr_left
  intro j _
  have hshift : 8 * (j + 1) = 8 + 8 * j := by omega
  simp only [Function.comp_apply, Nat.succ_eq_add_one, shr_eq, hshift, BitVec.shiftRight_add]

/-- Bytes that were cut off a word stand for what is left of it. -/
theorem leValue_leBytes (v : Word) (n : Nat) :
    leValue (leBytes v n) = v.toNat % 2 ^ (8 * n) := by
  induction n generalizing v with
  | zero => simp [leBytes, leValue, Nat.mod_one]
  | succ n ih =>
    have hbyte : (UInt8.ofBitVec (v.setWidth 8)).toNat = v.toNat % 256 := by
      simp [UInt8.toNat, BitVec.toNat_setWidth]
    have hpow : 2 ^ (8 * (n + 1)) = 256 * 2 ^ (8 * n) := by
      rw [Nat.mul_succ, Nat.pow_add, Nat.mul_comm]
    rw [leBytes_succ, leValue, ih, hbyte, hpow, Nat.mod_mul, BitVec.toNat_ushiftRight,
      Nat.shiftRight_eq_div_pow]

theorem zeroExtended_leBytes (v : Word) (n : Nat) :
    zeroExtended (leBytes v n) = BitVec.ofNat 64 (v.toNat % 2 ^ (8 * n)) := by
  rw [zeroExtended, leValue_leBytes]

theorem signExtended_leBytes (v : Word) (n : Nat) :
    signExtended (leBytes v n) = (v.setWidth (8 * n)).signExtend 64 := by
  rw [signExtended, leValue_leBytes, length_leBytes]
  congr 1
  apply BitVec.eq_of_toNat_eq
  simp

end Word

/-! ## The range checks -/

namespace DataKind

variable {width : Nat}

/-- The numbers without a sign are those below the power of the width. -/
theorem fits_unsigned_iff (h : width ≤ 64) (v : Word) :
    DataKind.unsigned.fits width v = true ↔ v.toNat < 2 ^ width := by
  unfold fits
  by_cases hw : 64 ≤ width
  · obtain rfl : width = 64 := Nat.le_antisymm h hw
    simpa using v.isLt
  · simp only [if_neg hw, decide_eq_true_eq, BitVec.lt_def, Word.toNat_shl_one (Nat.not_le.1 hw)]

/-- The numbers with a sign are those of both signs below half of the power. -/
theorem fits_signed_iff (hpos : 0 < width) (h : width ≤ 64) (v : Word) :
    DataKind.signed.fits width v = true ↔
      -((2 ^ (width - 1) : Nat) : Int) ≤ v.toInt ∧ v.toInt < (2 ^ (width - 1) : Nat) := by
  unfold fits
  by_cases hw : 64 ≤ width
  · obtain rfl : width = 64 := Nat.le_antisymm h hw
    simpa using ⟨BitVec.le_toInt v, BitVec.toInt_lt⟩
  · -- the negation of the half is the word that is half below the end
    have hhalf : (Word.shl 1 (width - 1)).toNat = 2 ^ (width - 1) :=
      Word.toNat_shl_one (by omega)
    have hle : 2 ^ (width - 1) ≤ 2 ^ 62 := Nat.pow_le_pow_right (by decide) (by omega)
    have hone := Nat.two_pow_pos (width - 1)
    have hv := v.isLt
    simp only [if_neg hw, Bool.or_eq_true, decide_eq_true_eq, BitVec.lt_def, BitVec.le_def,
      BitVec.toNat_neg, hhalf]
    rw [BitVec.toInt_eq_toNat_cond]
    generalize 2 ^ (width - 1) = half at hle hone
    split <;> omega

/-- A number without a sign comes back from its low bytes if it passes the check, and only
    then. -/
theorem fits_unsigned_iff_zeroExtended {n : Nat} (h : 8 * n ≤ 64) (v : Word) :
    DataKind.unsigned.fits (8 * n) v = true ↔ zeroExtended (Word.leBytes v n) = v := by
  have hpow : 2 ^ (8 * n) ≤ 2 ^ 64 := Nat.pow_le_pow_right (by decide) h
  have hmod := Nat.mod_lt v.toNat (Nat.two_pow_pos (8 * n))
  rw [fits_unsigned_iff h, Word.zeroExtended_leBytes, ← BitVec.toNat_inj, BitVec.toNat_ofNat,
    Nat.mod_eq_of_lt (Nat.lt_of_lt_of_le hmod hpow)]
  constructor
  · exact Nat.mod_eq_of_lt
  · intro heq
    rwa [heq] at hmod

/-- The same for a number with a sign. -/
theorem fits_signed_iff_signExtended {n : Nat} (hpos : 0 < n) (h : 8 * n ≤ 64) (v : Word) :
    DataKind.signed.fits (8 * n) v = true ↔ signExtended (Word.leBytes v n) = v := by
  -- what comes back is the remainder that is nearest to zero
  have hback : ((v.setWidth (8 * n)).signExtend 64).toInt = v.toInt.bmod (2 ^ (8 * n)) := by
    rw [BitVec.toInt_signExtend_of_le h, BitVec.toInt_setWidth, BitVec.toInt_eq_toNat_bmod,
      Int.bmod_bmod_of_dvd (Nat.pow_dvd_pow 2 h)]
  have hhalf : 2 ^ (8 * n) = 2 * 2 ^ (8 * n - 1) := by
    rw [← Nat.pow_succ']
    congr 1
    omega
  have hlow := Int.le_bmod (x := v.toInt) (m := 2 ^ (8 * n)) (Nat.two_pow_pos _)
  have hhigh := Int.bmod_lt (x := v.toInt) (m := 2 ^ (8 * n)) (Nat.two_pow_pos _)
  rw [fits_signed_iff (by omega) h, Word.signExtended_leBytes, ← BitVec.toInt_inj, hback]
  constructor
  · rintro ⟨hle, hlt⟩
    exact Int.bmod_eq_of_le (by omega) (by omega)
  · intro heq
    rw [heq] at hlow hhigh
    omega

/-- The word that bytes of a kind are read as. -/
def read : DataKind → List UInt8 → Word
  | .signed => signExtended
  | _ => zeroExtended

/-- Reads numbers of `n` bytes, one after the other. -/
def readAll (kind : DataKind) (n : Nat) : Nat → List UInt8 → List Word
  | 0, _ => []
  | count + 1, bytes => kind.read (bytes.take n) :: kind.readAll n count (bytes.drop n)

theorem readAll_flatMap_leBytes (kind : DataKind) (n : Nat) (values : List Word) :
    kind.readAll n values.length (values.flatMap (Word.leBytes · n)) =
      values.map fun v => kind.read (Word.leBytes v n) := by
  induction values with
  | nil => rfl
  | cons v rest ih =>
    have hlen := Word.length_leBytes v n
    rw [List.length_cons, List.flatMap_cons, readAll, List.take_left' hlen,
      List.drop_left' hlen, ih, List.map_cons]

/-- The check of `.uN` and `.sN` is passed by the numbers that come back. -/
theorem fits_iff_read {kind : DataKind} (hkind : kind ≠ .bits) {n : Nat} (hpos : 0 < n)
    (h : 8 * n ≤ 64) (v : Word) :
    kind.fits (8 * n) v = true ↔ kind.read (Word.leBytes v n) = v := by
  cases kind with
  | bits => exact absurd rfl hkind
  | unsigned => exact fits_unsigned_iff_zeroExtended h v
  | signed => exact fits_signed_iff_signExtended hpos h v

end DataKind

/-! ## One line of a clean pass -/

theorem Layout.walk_append {line : Nat} {pre post : List Step} {l l' : Layout} :
    walk isa line l (pre ++ post) = .ok l' ↔
      ∃ l₁, walk isa line l pre = .ok l₁ ∧ walk isa (line + pre.length) l₁ post = .ok l' := by
  induction pre generalizing line l with
  | nil => simp [walk]
  | cons s rest ih =>
    have hlen : line + 1 + rest.length = line + (rest.length + 1) := by omega
    simp only [List.cons_append, walk_cons_eq_ok, ih, List.length_cons, hlen]
    constructor
    · rintro ⟨l₁, hs, l₂, hrest, hpost⟩
      exact ⟨l₂, ⟨l₁, hs, hrest⟩, hpost⟩
    · rintro ⟨l₂, ⟨l₁, hs, hrest⟩, hpost⟩
      exact ⟨l₁, hs, l₂, hrest, hpost⟩

/-- A list around one of its elements. -/
theorem eq_take_append_cons {α : Type} {xs : List α} {i : Nat} {x : α} (h : xs[i]? = some x) :
    xs = xs.take i ++ x :: xs.drop (i + 1) := by
  obtain ⟨hlt, hget⟩ := List.getElem?_eq_some_iff.1 h
  rw [← hget, List.getElem_cons_drop, List.take_append_drop]

theorem length_take_of_getElem? {α : Type} {xs : List α} {i : Nat} {x : α}
    (h : xs[i]? = some x) : (xs.take i).length = i :=
  List.length_take_of_le (Nat.le_of_lt (List.getElem?_eq_some_iff.1 h).1)

/-- The layout comes to a line, gets over it and goes on to the end. -/
theorem Layout.walk_at {steps : List Step} {i : Nat} {s : Step} {lEnd : Layout}
    (hs : steps[i]? = some s) (h : Layout.walk isa 1 {} steps = .ok lEnd) :
    ∃ l l', walk isa 1 {} (steps.take i) = .ok l ∧ l.step isa (i + 1) s = .ok l' ∧
      walk isa 1 {} (steps.take (i + 1)) = .ok l' ∧
      walk isa (i + 1 + 1) l' (steps.drop (i + 1)) = .ok lEnd := by
  have hlen : 1 + (steps.take i).length = i + 1 := by
    rw [length_take_of_getElem? hs, Nat.add_comm]
  rw [eq_take_append_cons hs] at h
  obtain ⟨l, hl, hrest⟩ := walk_append.1 h
  rw [hlen] at hrest
  obtain ⟨l', hl', hrest⟩ := walk_cons_eq_ok.1 hrest
  refine ⟨l, l', hl, hl', ?_, hrest⟩
  rw [List.take_add_one, hs]
  exact walk_append.2 ⟨l, hl, hlen ▸ walk_cons_eq_ok.2 ⟨l', hl', rfl⟩⟩

/-- So does the emission. -/
theorem Emission.walk_at {steps : List Step} {i : Nat} {s : Step} {eEnd : Emission}
    (hs : steps[i]? = some s) (h : Emission.walk isa labels 1 {} steps = .ok eEnd) :
    ∃ e e', walk isa labels 1 {} (steps.take i) = .ok e ∧
      e.step isa labels (i + 1) s = .ok e' ∧
      walk isa labels 1 {} (steps.take (i + 1)) = .ok e' ∧
      walk isa labels (i + 1 + 1) e' (steps.drop (i + 1)) = .ok eEnd := by
  have hlen : 1 + (steps.take i).length = i + 1 := by
    rw [length_take_of_getElem? hs, Nat.add_comm]
  rw [eq_take_append_cons hs, walk_append] at h
  obtain ⟨e, he, hrest⟩ := bind_eq_ok.1 h
  rw [hlen] at hrest
  obtain ⟨e', he', hrest⟩ := walk_cons_eq_ok.1 hrest
  refine ⟨e, e', he, he', ?_, hrest⟩
  rw [List.take_add_one, hs, walk_append, he]
  exact hlen ▸ walk_cons_eq_ok.2 ⟨e', he', rfl⟩

/-- The layout leaves `size` bytes at this offset for the line `i`. -/
def Reserves (isa : Isa) (steps : List Step) (i offset size : Nat) : Prop :=
  ∃ l l', Layout.walk isa 1 {} (steps.take i) = .ok l ∧
    Layout.walk isa 1 {} (steps.take (i + 1)) = .ok l' ∧
    l.image.offset = offset ∧ l'.image.offset = offset + size

/-- The emission adds these bytes at this offset for the line `i`. -/
def PutsOut (isa : Isa) (labels : LabelTable) (steps : List Step) (i offset : Nat)
    (bytes : List UInt8) : Prop :=
  ∃ e e', Emission.walk isa labels 1 {} (steps.take i) = .ok e ∧
    Emission.walk isa labels 1 {} (steps.take (i + 1)) = .ok e' ∧
    e.image.offset = offset ∧ e'.image.offset = offset + bytes.length ∧
    e'.image = e.image.append bytes.toArray

namespace Account

variable {program : Program} {last : List Step} {a : Assembly}

theorem offset_append {acc : Account} {entry : Entry} (hline : entry.line.mention? = none)
    (hhome : entry.home = currentSection (lines acc)) :
    offset (acc ++ [entry]) = offset acc + entry.bytes.length := by
  have hsame : currentSection (lines (acc ++ [entry])) = currentSection (lines acc) := by
    rw [lines_append, currentSection_append, hline]
    rfl
  unfold offset
  rw [hsame, content_append, if_pos hhome, List.length_append]

/-- A clean pass at one of its lines: both walks come to the line and get over it, an account
    of the whole pass has an entry for it, and before the line and after it the emission has the
    image of the account and the layout the same positions. -/
theorem explains_at (hc : Checked isa sel program last)
    (h : CleanPass isa last a.sections a.labels) {i : Nat} {line : Line}
    (hi : program[i]? = some line) :
    ∃ before entry after l l' e e', Explains isa sel program a (before ++ entry :: after) ∧
      lines before = program.take i ∧ entry.line = line ∧
      Layout.walk isa 1 {} (last.take i) = .ok l ∧
      Layout.walk isa 1 {} (last.take (i + 1)) = .ok l' ∧
      Emission.walk isa a.labels 1 {} (last.take i) = .ok e ∧
      Emission.walk isa a.labels 1 {} (last.take (i + 1)) = .ok e' ∧
      e.image = image before ∧ e'.image = image (before ++ [entry]) ∧
      e.image.outline = l.image.outline ∧ e'.image.outline = l'.image.outline := by
  obtain ⟨s, hs, hans⟩ := getElem?_of_forall₂ hc hi
  obtain ⟨eEnd, hlayout, hemit, hclean, hsections⟩ := h
  obtain ⟨lEnd, hlwalk, hlabels⟩ := bind_pure_eq_ok.1 hlayout
  obtain ⟨l, l', hl, hl', hlnext, hlrest⟩ := Layout.walk_at hs hlwalk
  obtain ⟨e, e', he, he', henext, herest⟩ := Emission.walk_at hs hemit
  have hclean' := (Emission.done_of_clean herest hclean).1
  have hclean₀ := (Emission.step_of_clean he' hclean').1
  -- the account of the lines before
  obtain ⟨before, hlines, _, hstraight, himage, hbinds⟩ :=
    account_of_walks (List.forall₂_take i hc) hl he hclean₀ rfl rfl straight_nil binds_nil
  rw [List.nil_append] at hstraight himage hbinds
  -- the entry of the line
  have hout : e.image.outline = l.image.outline := by
    have hbounded := Checked.bounded (List.forall₂_take i hc)
    rw [Emission.outline_walk he hbounded rfl, Layout.image_walk hl]
  have hout' : e'.image.outline = l'.image.outline := by
    rw [Emission.outline_step he' hans.bounded hout, Layout.image_step hl']
  obtain ⟨entry, hentry, _, hstraight', himage'⟩ :=
    entry_of_step hstraight hans he' hclean' himage
  have hbinds' : Binds isa l'.labels (before ++ [entry]) := by
    refine binds_step (hentry ▸ hans) hl' hbinds ?_
    rw [← Image.address_congr hout, himage, address_image]
  -- the account of the lines after it
  obtain ⟨after, hafter, _, hstraightEnd, himageEnd, hbindsEnd⟩ :=
    account_of_walks (List.forall₂_drop (i + 1) hc) hlrest herest hclean himage' hout' hstraight'
      hbinds'
  rw [List.append_assoc] at hstraightEnd himageEnd hbindsEnd
  have hall : lines (before ++ entry :: after) = program := by
    rw [eq_take_append_cons hi, ← hlines, ← hafter, ← hentry]
    simp [lines]
  refine ⟨before, entry, after, l, l', e, e', ⟨hall, hstraightEnd, ?_, hlabels ▸ hbindsEnd⟩,
    hlines, hentry, hl, hlnext, he, henext, himage, himage', hout, hout'⟩
  rw [hsections, himageEnd, ← hall]
  rfl

end Account

/-! ## Data lines -/

/-- Arguments with values, one by one, have these values together. -/
theorem mapM_eval_of_forall₂ {P : Word → Prop} {args : List Expr} {values : List Word}
    (h : List.Forall₂ (fun e v => e.eval labels = .ok v ∧ P v) args values) :
    args.mapM (Expr.eval labels) = .ok values ∧ ∀ v ∈ values, P v := by
  induction h with
  | nil => exact ⟨rfl, by simp⟩
  | cons hv _ ih =>
    refine ⟨?_, List.forall_mem_cons.2 ⟨hv.2, ih.2⟩⟩
    rw [List.mapM_cons, hv.1, ih.1]
    rfl

/-- A name that spells a kind and a width is that of a data directive and of nothing else. -/
theorem Directive.eq_data_of_parse {name : String} {args : List Expr} {d : Directive}
    {kind : DataKind} {width : Nat} (hkind : dataKind? name.toList = some (kind, width))
    (h : Directive.parse name args = .ok d) : d = .data kind width args := by
  have hne : ∀ other : String, dataKind? other.toList = none → name ≠ other := by
    rintro _ hnone rfl
    simp [hnone] at hkind
  simp only [parse, if_neg (hne ".section" (by decide)), if_neg (hne ".align" (by decide)),
    if_neg (hne ".skip" (by decide)), if_neg (hne ".equ" (by decide)), hkind] at h
  split at h
  · exact (Except.ok.inj h).symm
  · simp at h

/-- A data line puts out the bytes of its values, and leaves the section as it is. -/
theorem Line.Emits.of_data {offset : Nat} {pc : Word} {name : String} {args : List Expr}
    {kind : DataKind} {width : Nat} {choice : Option Candidate} {bytes : List UInt8}
    (hkind : Directive.dataKind? name.toList = some (kind, width))
    (h : Line.Emits isa sel labels offset pc (.directive name args) choice bytes) :
    Line.mention? (.directive name args) = none ∧
      ∃ values, List.Forall₂ (fun e v => e.eval labels = .ok v ∧ kind.fits width v = true)
          args values ∧ bytes = values.flatMap (Word.leBytes · (width / 8)) := by
  cases h with
  | directive hparse hemits =>
    obtain rfl := Directive.eq_data_of_parse hkind hparse
    refine ⟨by simp only [Line.mention?, hparse], ?_⟩
    cases hemits with
    | data hvalues => exact ⟨_, hvalues, rfl⟩

/-- Numbers that have passed the check are read back, and of the others what was kept. -/
theorem DataKind.readAll_of_fits {kind : DataKind} {n : Nat} (hpos : 0 < n) (h : 8 * n ≤ 64)
    {values : List Word} (hfits : ∀ v ∈ values, kind.fits (8 * n) v = true) :
    (kind ≠ .bits →
      kind.readAll n values.length (values.flatMap (Word.leBytes · n)) = values) ∧
    (kind = .bits →
      kind.readAll n values.length (values.flatMap (Word.leBytes · n)) =
        values.map fun v => BitVec.ofNat 64 (v.toNat % 2 ^ (8 * n))) := by
  rw [readAll_flatMap_leBytes]
  constructor
  · intro hkind
    calc values.map (fun v => kind.read (Word.leBytes v n))
        = values.map id :=
          List.map_congr_left fun v hv => (fits_iff_read hkind hpos h v).1 (hfits v hv)
      _ = values := List.map_id values
  · rintro rfl
    exact List.map_congr_left fun v _ => Word.zeroExtended_leBytes v n

/-- In a clean pass, the bytes of a data line stand in its section at the offset where the layout
    has left room for them, and they fill it. -/
theorem data_line_kept {program : Program} {last : List Step} {a : Assembly}
    (hc : Checked isa sel program last) (hclean : CleanPass isa last a.sections a.labels)
    {i : Nat} {name : String} {args : List Expr} {kind : DataKind} {width : Nat}
    (hi : program[i]? = some (.directive name args))
    (hkind : Directive.dataKind? name.toList = some (kind, width)) :
    ∃ offset bytes values, ∃ s ∈ a.sections, s.name = currentSection (program.take i) ∧
      (s.bytes.toList.drop offset).take bytes.length = bytes ∧
      Reserves isa last i offset bytes.length ∧ PutsOut isa a.labels last i offset bytes ∧
      List.Forall₂ (fun e v => e.eval a.labels = .ok v ∧ kind.fits width v = true) args values ∧
      bytes = values.flatMap (Word.leBytes · (width / 8)) := by
  obtain ⟨before, entry, after, l, l', e, e', hacc, hlines, hline, hl, hl', he, he', himage,
    himage', hout, hout'⟩ := Account.explains_at hc hclean hi
  obtain ⟨hhome, hemits⟩ := hacc.straight before entry after rfl
  rw [hline] at hemits
  obtain ⟨hmention, values, hvalues, hbytes⟩ := hemits.of_data hkind
  rw [← hline] at hmention
  obtain ⟨s, hs, hname, _, hplace⟩ := hacc.section_at
  -- the line adds its bytes to the section that is current
  have hoffset : e.image.offset = Account.offset before := by
    rw [himage, Account.offset_image]
  have hoffset' : e'.image.offset = Account.offset before + entry.bytes.length := by
    rw [himage', Account.offset_image, Account.offset_append hmention hhome]
  refine ⟨Account.offset before, entry.bytes, values, s, hs, hlines ▸ hname, hplace, ?_, ?_,
    hvalues, hbytes⟩
  · exact ⟨l, l', hl, hl', Image.offset_congr hout ▸ hoffset, Image.offset_congr hout' ▸ hoffset'⟩
  · refine ⟨e, e', he, he', hoffset, hoffset', ?_⟩
    rw [himage', himage, Account.image_append hmention hhome]

/-- **Data is stored exactly.** For every width that a data directive can have, a number passes
    the check of `.uN` if the bytes that are kept of it give it back without a sign, and that of
    `.sN` if they give it back with one, and not otherwise; `.bN` has no check and keeps the
    remainder.

    Hence, let the assembler return something, and let `last` be the choices that relaxation ended
    with. In the section of every data line, at the offset where the last layout has left room for
    it and as long as this room, the last emission has put the bytes from which the values of the
    arguments under the final labels are read back in order. -/
theorem data_stored_exactly (isa : Isa) (sel : Selector) :
    (∀ (name : String) (kind : DataKind) (width : Nat),
      Directive.dataKind? name.toList = some (kind, width) → ∀ v : Word,
        (DataKind.unsigned.fits width v = true ↔ zeroExtended (Word.leBytes v (width / 8)) = v) ∧
        (DataKind.signed.fits width v = true ↔ signExtended (Word.leBytes v (width / 8)) = v) ∧
        DataKind.bits.fits width v = true ∧
        leValue (Word.leBytes v (width / 8)) = v.toNat % 2 ^ width) ∧
    ∀ (program : Program) (a : Assembly), assemble isa sel program = .ok a →
      ∃ steps n last, Step.ofLines isa sel 1 program = .ok steps ∧ Passes isa n steps last ∧
        CleanPass isa last a.sections a.labels ∧
        ∀ (i : Nat) (name : String) (args : List Expr) (kind : DataKind) (width : Nat),
          program[i]? = some (.directive name args) →
          Directive.dataKind? name.toList = some (kind, width) →
          ∃ offset bytes values, ∃ s ∈ a.sections, s.name = currentSection (program.take i) ∧
            (s.bytes.toList.drop offset).take (width / 8 * args.length) = bytes ∧
            Reserves isa last i offset (width / 8 * args.length) ∧
            PutsOut isa a.labels last i offset bytes ∧
            bytes.length = width / 8 * args.length ∧
            args.mapM (Expr.eval a.labels) = .ok values ∧
            bytes = values.flatMap (Word.leBytes · (width / 8)) ∧
            (kind ≠ .bits → kind.readAll (width / 8) args.length bytes = values) ∧
            (kind = .bits → kind.readAll (width / 8) args.length bytes =
              values.map fun v => BitVec.ofNat 64 (v.toNat % 2 ^ width)) := by
  -- a width is a number of bytes
  have hbytewise : ∀ {name : List Char} {kind : DataKind} {width : Nat},
      Directive.dataKind? name = some (kind, width) →
      0 < width / 8 ∧ 8 * (width / 8) ≤ 64 ∧ 8 * (width / 8) = width := by
    intro name kind width hkind
    have := Directive.width_of_dataKind? hkind
    omega
  refine ⟨?_, ?_⟩
  · intro name kind width hkind v
    obtain ⟨hpos, hle, hwidth⟩ := hbytewise hkind
    have hunsigned := DataKind.fits_unsigned_iff_zeroExtended hle v
    have hsigned := DataKind.fits_signed_iff_signExtended hpos hle v
    have hvalue := Word.leValue_leBytes v (width / 8)
    rw [hwidth] at hunsigned hsigned hvalue
    exact ⟨hunsigned, hsigned, DataKind.fits_bits width v, hvalue⟩
  · intro program a h
    obtain ⟨steps, n, last, hsteps, hpasses, hlast, hclean, _⟩ := assemble_eq_ok h
    refine ⟨steps, n, last, hsteps, hpasses, hclean, ?_⟩
    intro i name args kind width hi hkind
    obtain ⟨hpos, hle, hwidth⟩ := hbytewise hkind
    obtain ⟨offset, bytes, values, s, hs, hname, hplace, hreserves, hputs, hvalues, hbytes⟩ :=
      data_line_kept hlast hclean hi hkind
    have hcount := hvalues.length_eq
    have hlength : bytes.length = width / 8 * args.length := by
      rw [hbytes, hcount, List.length_flatMap]
      simp [Nat.mul_comm]
    obtain ⟨heval, hfits⟩ := mapM_eval_of_forall₂ hvalues
    obtain ⟨hexact, hrest⟩ := DataKind.readAll_of_fits hpos hle (hwidth.symm ▸ hfits)
    rw [← hcount, ← hbytes] at hexact hrest
    rw [hwidth] at hrest
    rw [hlength] at hplace hreserves
    exact ⟨offset, bytes, values, s, hs, hname, hplace, hreserves, hputs, hlength,
      heval, hbytes, hexact, hrest⟩

/-- The least number of its width, and the negation of a label that is behind the data. -/
def signedArgs : List Expr := [.num (-0x8000), .neg (.label "end")]

def dataProgram : Program :=
  [.directive ".section" [.label "data", .num 0x80],
   .directive ".b8" [.num 0x1ff],
   .directive ".s16" signedArgs,
   .label "end"]

/-- The two numbers, one of them with the final label, come back from the section. -/
theorem data_stored_exactly_dataProgram :
    ∃ a s offset, assemble Isa.demo {} dataProgram = .ok a ∧ s ∈ a.sections ∧ s.name = "data" ∧
      a.labels.get? "end" = some 0x81 ∧
      DataKind.signed.readAll 2 2 ((s.bytes.toList.drop offset).take 4) = [-0x8000, -0x81] := by
  obtain ⟨a, ha, hvalues⟩ : ∃ a, assemble Isa.demo {} dataProgram = .ok a ∧
      (a.labels.get? "end", (signedArgs.mapM (Expr.eval a.labels)).toOption) =
        (some 0x81, some [-0x8000, -0x81]) :=
    exists_ok_of_map (by decide +kernel)
  obtain ⟨hend, hvalues⟩ := Prod.mk.inj hvalues
  obtain ⟨_, _, _, _, _, _, hall⟩ := (data_stored_exactly Isa.demo {}).2 dataProgram a ha
  obtain ⟨offset, bytes, values, s, hs, hname, hplace, _, _, _, heval, _, hexact, _⟩ :=
    hall 2 ".s16" signedArgs .signed 16 rfl (by decide)
  refine ⟨a, s, offset, ha, hs, hname.trans (by decide), hend, ?_⟩
  rw [heval] at hvalues
  obtain rfl : values = [-0x8000, -0x81] := Option.some.inj hvalues
  have hread := hexact (by decide)
  rw [← hplace] at hread
  exact hread

end TableAsm
