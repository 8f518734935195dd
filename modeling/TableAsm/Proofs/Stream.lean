import TableAsm.Isa.Demo
import TableAsm.Proofs.Extent

/-! # Streams of demonstration instructions

  Nothing in the bytes of a program marks where one instruction ends and
  the next begins. For the demonstration instruction set they can be told
  apart all the same: the lowest bit of an instruction says how long it
  is, and its lowest seven bits say which row of the table it is from.

  - `Demo.cut?` cuts bytes into instructions, and
    `Demo.cut?_flatten` says that it finds pieces that have the length
    which their first byte announces.
  - `Demo.rows_regular` and `Demo.nodup_opcodes` are all that has to be
    checked of the table. Everything about encodings follows
    (`Demo.exists_row`, `Demo.encodes_of_resolve`).
  - `demo_stream_self_delimiting` is the result for programs of
    instructions and labels.
-/

namespace TableAsm

/-! ## Cutting bytes -/

namespace Demo

/-- Length in bytes of a long or a short form. -/
def formLength (long : Bool) : Nat := if long then 8 else 4

/-- Length of the instruction that begins with this byte. -/
def lengthAt (first : UInt8) : Nat := formLength (first.toBitVec.getLsbD 0)

theorem formLength_pos (long : Bool) : 0 < formLength long := by
  cases long <;> decide

/-- Cuts bytes into instructions, from the first byte on. The last instruction has to be
    complete. -/
def cut? (bytes : List UInt8) : Option (List (List UInt8)) :=
  match bytes with
  | [] => some []
  | first :: rest =>
    if lengthAt first ≤ rest.length + 1 then
      (cut? (rest.drop (lengthAt first - 1))).map ((first :: rest).take (lengthAt first) :: ·)
    else none
termination_by bytes.length
decreasing_by
  rw [List.length_drop, List.length_cons]
  omega

/-- The bytes are as many as the first of them announces. -/
def Delimited (piece : List UInt8) : Prop :=
  ∃ first, piece.head? = some first ∧ piece.length = lengthAt first

theorem cut?_append {piece : List UInt8} (h : Delimited piece) (rest : List UInt8) :
    cut? (piece ++ rest) = (cut? rest).map (piece :: ·) := by
  obtain ⟨first, hhead, hlength⟩ := h
  cases piece with
  | nil => simp at hhead
  | cons b tail =>
    obtain rfl : b = first := Option.some.inj hhead
    rw [List.length_cons] at hlength
    rw [List.cons_append, cut?, ← hlength, Nat.add_sub_cancel, List.drop_left, List.take_succ_cons,
      List.take_left, if_pos (by simp)]

theorem cut?_flatten {pieces : List (List UInt8)} (h : ∀ piece ∈ pieces, Delimited piece) :
    cut? pieces.flatten = some pieces := by
  induction pieces with
  | nil =>
    rw [List.flatten_nil, cut?]
  | cons piece rest ih =>
    rw [List.flatten_cons, cut?_append (h piece List.mem_cons_self),
      ih fun p hp => h p (List.mem_cons_of_mem piece hp)]
    rfl

/-! ## Telling rows apart -/

/-- The lowest seven bits of an instruction. -/
def opcode (piece : List UInt8) : Word := (Pattern.load piece).word 0 &&& opMask

/-- Every row fixes the lowest seven bits and no others, sets the length that the lowest bit
    announces, and has nothing beyond. -/
theorem rows_regular : ∀ row ∈ rows, row.mask = opMask ∧ row.val &&& opMask = row.val ∧
    row.Sets (formLength (row.val.getLsbD 0)) ∧
    row.Inside (8 * formLength (row.val.getLsbD 0)) := by
  decide +kernel

/-- No two rows have the same fixed bits. -/
theorem nodup_opcodes : (rows.map Row.val).Nodup := by
  decide +kernel

variable {sel : Selector} {labels : LabelTable} {items : List Item} {c : Candidate} {row : Row}
  {p : Pattern} {n : Nat}

theorem getLsbD_opMask (i : Nat) : opMask.getLsbD i = decide (i < 7) := by
  have hmask : opMask = Word.lowMask 7 := by decide
  rw [hmask, Word.getLsbD_lowMask, decide_eq_decide]
  omega

/-- The fixed bits of a row are the lowest bits of everything built on them. -/
theorem getLsbD_of_fixed_le (h : Pattern.fixed row.val opMask ≤ p) {i : Nat} (hi : i < 7) :
    p.value.getLsbD i = row.val.getLsbD i := by
  have hclaimed : (Pattern.fixed row.val opMask).isClaimed i = true := by
    show (opMask.setWidth 128).getLsbD i = true
    rw [BitVec.getLsbD_setWidth, getLsbD_opMask]
    simp
    omega
  rw [(h i hclaimed).2]
  show ((row.val &&& opMask).setWidth 128).getLsbD i = _
  rw [BitVec.getLsbD_setWidth, BitVec.getLsbD_and, getLsbD_opMask]
  simp [hi]
  omega

theorem opcode_bytes (hval : row.val &&& opMask = row.val)
    (h : Pattern.fixed row.val opMask ≤ p) (hpos : 0 < n) (hn : n ≤ Pattern.maxBytes) :
    opcode (p.bytes n) = row.val := by
  rw [← hval]
  apply BitVec.eq_of_getLsbD_eq
  intro i hi
  unfold opcode Pattern.word
  rw [BitVec.getLsbD_and, BitVec.getLsbD_and, getLsbD_opMask]
  by_cases hlow : i < 7
  · have hbit : (Pattern.load (p.bytes n)).value.getLsbD i = row.val.getLsbD i := by
      rw [Pattern.getLsbD_load_bytes p hn (by omega), getLsbD_of_fixed_le h hlow]
    simp [hbit, hi]
  · simp [hlow]

theorem head?_bytes (hpos : 0 < n) :
    (p.bytes n).head? = some (UInt8.ofBitVec (p.value.setWidth 8)) := by
  have hne : min n Pattern.maxBytes ≠ 0 := by
    simp only [Pattern.maxBytes]
    omega
  unfold Pattern.bytes
  rw [List.head?_map, List.head?_range, if_neg hne]
  simp

/-- Every encoding comes from one of the rows, has the length that the row announces and nothing
    beyond, and begins with the row's bits. -/
theorem exists_row (h : c ∈ Isa.demo.encodings sel items) :
    ∃ row ∈ rows, c ∈ row.candidates sel items 0 ∧
      c.size Isa.demo.unit = formLength (row.val.getLsbD 0) ∧
      c.Inside (8 * c.size Isa.demo.unit) ∧ Pattern.fixed row.val opMask ≤ c.pattern := by
  obtain ⟨row, hrow, hc, _⟩ := Isa.mem_encodings_row h
  rcases List.mem_append.1 hrow with hrow | hrow
  · obtain ⟨hmask, _, hsets, hinside⟩ := rows_regular row hrow
    have hsize : c.size Isa.demo.unit = formLength (row.val.getLsbD 0) := by
      unfold Candidate.size
      rw [Row.length_candidates hsets hc]
      rfl
    refine ⟨row, hrow, hc, hsize, ?_, ?_⟩
    · rw [hsize]
      exact Row.inside_candidates hinside hc
    · rw [← hmask]
      exact Row.fixed_le_candidates hc
  · -- the row that never applies
    obtain rfl := List.mem_singleton.1 hrow
    simp [Isa.demo, Row.fail, Row.plain, Row.candidates, atomsCandidates, Atom.candidates,
      Leaf.candidate?, Candidate.joinAll] at hc

/-- The bytes are those of an encoding of the instruction at some position. It comes from a row of
    the table, and this is the one row that has the lowest seven bits of the bytes as its own. -/
def Encodes (sel : Selector) (labels : LabelTable) (pc : Word) (items : List Item)
    (piece : List UInt8) : Prop :=
  ∃ (i : Nat) (row : Row) (c : Candidate) (p : Pattern),
    rows[i]? = some row ∧ c ∈ row.candidates sel items 0 ∧
    c ∈ Isa.demo.encodings sel items ∧ c.resolve labels pc = .ok (some p) ∧
    piece = p.bytes (c.size Isa.demo.unit) ∧
    ∀ (j : Nat) (row' : Row), rows[j]? = some row' → (opcode piece = row'.val ↔ j = i)

theorem encodes_of_resolve {pc : Word} (h : c ∈ Isa.demo.encodings sel items)
    (hresolve : c.resolve labels pc = .ok (some p)) :
    Encodes sel labels pc items (p.bytes (c.size Isa.demo.unit)) ∧
      Delimited (p.bytes (c.size Isa.demo.unit)) := by
  obtain ⟨row, hrow, hc, hsize, _, hfixed⟩ := exists_row h
  have hle : Pattern.fixed row.val opMask ≤ p :=
    Pattern.le_trans hfixed (Candidate.resolve_spec hresolve).1
  have hpos : 0 < c.size Isa.demo.unit := hsize ▸ formLength_pos _
  have hmax : c.size Isa.demo.unit ≤ Pattern.maxBytes := by
    rw [hsize]
    cases row.val.getLsbD 0 <;> decide
  constructor
  · obtain ⟨i, hi⟩ := List.getElem?_of_mem hrow
    refine ⟨i, row, c, p, hi, hc, h, hresolve, rfl, ?_⟩
    intro j row' hj
    have hlt : j < (rows.map Row.val).length := by
      rw [List.length_map]
      exact (List.getElem?_eq_some_iff.1 hj).1
    -- the same fixed bits mean the same place in the table
    rw [opcode_bytes (rows_regular row hrow).2.1 hle hpos hmax,
      ← List.getElem?_inj hlt nodup_opcodes, List.getElem?_map, List.getElem?_map, hi, hj]
    simp [eq_comm]
  · refine ⟨_, head?_bytes hpos, ?_⟩
    rw [Pattern.length_bytes, Nat.min_eq_left hmax, hsize]
    have hbit : p.value.getLsbD 0 = row.val.getLsbD 0 := getLsbD_of_fixed_le hle (by decide)
    unfold lengthAt
    rw [← hbit, BitVec.getLsbD_setWidth]
    rfl

end Demo

/-! ## Programs of instructions and labels -/

/-- The items of an instruction line. -/
def Line.items? : Line → Option (List Item)
  | .insn items => some items
  | _ => none

/-- The instructions of a program, in order. -/
def instructions (program : Program) : List (List Item) := program.filterMap Line.items?

section Emits

variable {isa : Isa} {sel : Selector} {labels : LabelTable} {offset : Nat} {pc : Word}
  {choice : Option Candidate} {bytes : List UInt8}

/-- An instruction puts out the bytes of one of its encodings. -/
theorem Line.Emits.resolved {items : List Item}
    (h : Line.Emits isa sel labels offset pc (.insn items) choice bytes) :
    ∃ c p, c ∈ isa.encodings sel items ∧ c.resolve labels pc = .ok (some p) ∧
      bytes = p.bytes (c.size isa.unit) := by
  cases h with
  | @insn _ c p hmem _ hresolve _ => exact ⟨c, p, hmem, hresolve, rfl⟩

/-- A label puts nothing out. -/
theorem Line.Emits.of_label {name : String}
    (h : Line.Emits isa sel labels offset pc (.label name) choice bytes) : bytes = [] := by
  cases h
  rfl

end Emits

/-- Without directives there is only one section. -/
theorem mentions_of_no_directive {program : Program}
    (h : ∀ name args, .directive name args ∉ program) :
    mentions program = [(Section.defaultName, 0)] := by
  have hnone : ∀ line ∈ program, line.mention? = none := by
    intro line hline
    cases line with
    | directive name args => exact absurd hline (h name args)
    | _ => rfl
  unfold mentions
  rw [List.filterMap_eq_nil_iff.2 hnone]

theorem currentSection_of_no_directive {program : Program}
    (h : ∀ name args, .directive name args ∉ program) :
    currentSection program = Section.defaultName := by
  have hmentions := mentions_of_no_directive h
  unfold mentions at hmentions
  unfold currentSection
  rw [(List.cons.inj hmentions).2]
  rfl

theorem heads_of_no_directive {program : Program}
    (h : ∀ name args, .directive name args ∉ program) :
    heads program = [(Section.defaultName, 0)] := by
  unfold heads
  rw [mentions_of_no_directive h]
  rfl

namespace Demo

variable {sel : Selector} {labels : LabelTable}

/-- Bytes that are a sequence of pieces, one for each of some instructions. -/
structure Stream (sel : Selector) (labels : LabelTable) (insns : List (List Item))
    (pieces : List (List UInt8)) : Prop where
  length_eq : pieces.length = insns.length
  delimited : ∀ piece ∈ pieces, Delimited piece
  /-- The position of an instruction is the length of what stands before it. -/
  encodes : ∀ (k : Nat) (items : List Item) (piece : List UInt8), insns[k]? = some items →
    pieces[k]? = some piece →
    Encodes sel labels
      (BitVec.ofNat 64 ((pieces.take k).flatten.length / Isa.demo.posUnit)) items piece

theorem Stream.nil : Stream sel labels [] [] := ⟨rfl, by simp, by simp⟩

/-- One more instruction. -/
theorem Stream.append {insns : List (List Item)} {pieces : List (List UInt8)}
    (h : Stream sel labels insns pieces) {items : List Item} {piece : List UInt8}
    (hdelimited : Delimited piece)
    (hencodes : Encodes sel labels
      (BitVec.ofNat 64 (pieces.flatten.length / Isa.demo.posUnit)) items piece) :
    Stream sel labels (insns ++ [items]) (pieces ++ [piece]) := by
  refine ⟨by simp [h.length_eq], ?_, ?_⟩
  · intro q hq
    rcases List.mem_append.1 hq with hq | hq
    · exact h.delimited q hq
    · exact List.mem_singleton.1 hq ▸ hdelimited
  · intro k items' piece' hitems hpiece
    by_cases hk : k < pieces.length
    · -- an instruction from before stands where it stood
      rw [List.getElem?_append_left (h.length_eq ▸ hk)] at hitems
      rw [List.getElem?_append_left hk] at hpiece
      rw [List.take_append_of_le_length (Nat.le_of_lt hk)]
      exact h.encodes k items' piece' hitems hpiece
    · have hlt : k < (pieces ++ [piece]).length := (List.getElem?_eq_some_iff.1 hpiece).1
      obtain rfl : k = pieces.length := by
        rw [List.length_append, List.length_singleton] at hlt
        omega
      rw [h.length_eq, List.getElem?_concat_length] at hitems
      rw [List.getElem?_concat_length] at hpiece
      rw [List.take_left, ← Option.some.inj hitems, ← Option.some.inj hpiece]
      exact hencodes

theorem stream_of_straight {acc : Account} (hacc : Account.Straight Isa.demo sel labels acc)
    (hlines : ∀ name args, .directive name args ∉ acc.lines) :
    ∃ pieces, Stream sel labels (instructions acc.lines) pieces ∧
      pieces.flatten = acc.content Section.defaultName := by
  induction acc using List.reverseRecOn with
  | nil => exact ⟨[], .nil, rfl⟩
  | append_singleton acc entry ih =>
    obtain ⟨hacc, hhome, hemits⟩ := Account.straight_append.1 hacc
    have hbefore : ∀ name args, .directive name args ∉ Account.lines acc := by
      intro name args hmem
      apply hlines name args
      rw [Account.lines_append]
      exact List.mem_append_left _ hmem
    obtain ⟨pieces, hstream, hflatten⟩ := ih hacc hbefore
    have hcurrent := currentSection_of_no_directive hbefore
    have hoffset : Account.offset acc = pieces.flatten.length := by
      unfold Account.offset
      rw [hcurrent, hflatten]
    have haddress : Account.address Isa.demo acc =
        BitVec.ofNat 64 (pieces.flatten.length / Isa.demo.posUnit) := by
      unfold Account.address baseOf
      rw [hoffset, hcurrent, heads_of_no_directive hbefore]
      simp
    rw [hcurrent] at hhome
    rw [Account.lines_append, Account.content_append, if_pos hhome]
    rw [haddress] at hemits
    have hinstructions : instructions (Account.lines acc ++ [entry.line]) =
        instructions (Account.lines acc) ++ entry.line.items?.toList := by
      unfold instructions
      rw [List.filterMap_append]
      cases entry.line <;> rfl
    rw [hinstructions]
    cases hline : entry.line with
    | insn items =>
      rw [hline] at hemits
      obtain ⟨c, p, hmem, hresolve, hbytes⟩ := hemits.resolved
      obtain ⟨hencodes, hdelimited⟩ := encodes_of_resolve hmem hresolve
      refine ⟨pieces ++ [entry.bytes], hstream.append ?_ ?_, ?_⟩
      · exact hbytes ▸ hdelimited
      · exact hbytes ▸ hencodes
      · rw [List.flatten_append, hflatten, List.flatten_singleton]
    | label name =>
      rw [hline] at hemits
      refine ⟨pieces, ?_, ?_⟩
      · show Stream sel labels (_ ++ []) pieces
        rw [List.append_nil]
        exact hstream
      · rw [hflatten, hemits.of_label, List.append_nil]
    | directive name args =>
      refine absurd ?_ (hlines name args)
      rw [Account.lines_append, hline]
      exact List.mem_append_right _ List.mem_cons_self

end Demo

/-- **Streams of instructions can be cut.** Let the assembler return something for a program of
    instructions and labels. Then there is one section, and cutting its bytes by the lowest bit of
    every next byte gives one piece for each instruction, in order: the bytes of one of its
    encodings, at the position where the piece stands. The lowest seven bits of a piece are those
    of the row that the encoding comes from, and of no other row. Nothing is cut off from any
    encoding of the instructions, whatever the labels and its position. -/
theorem demo_stream_self_delimiting {sel : Selector} {program : Program} {a : Assembly}
    (hprogram : ∀ name args, .directive name args ∉ program)
    (h : assemble Isa.demo sel program = .ok a) :
    ∃ s pieces, a.sections = [s] ∧ s.name = Section.defaultName ∧
      Demo.cut? s.bytes.toList = some pieces ∧ pieces.flatten = s.bytes.toList ∧
      Demo.Stream sel a.labels (instructions program) pieces ∧
      ∀ items, .insn items ∈ program → ∀ c ∈ Isa.demo.encodings sel items, ∀ labels pc p,
        c.resolve labels pc = .ok (some p) → p.Inside (8 * c.size Isa.demo.unit) := by
  obtain ⟨steps, n, last, _, _, hlast, hclean, _⟩ := assemble_eq_ok h
  obtain ⟨acc, hacc, _⟩ := Account.explains_of_cleanPass hlast hclean
  have hlines := hacc.lines_eq
  obtain ⟨pieces, hstream, hflatten⟩ :=
    Demo.stream_of_straight hacc.straight (by rw [hlines]; exact hprogram)
  rw [hlines] at hstream
  refine ⟨⟨Section.defaultName, 0, (acc.content Section.defaultName).toArray⟩, pieces, ?_, rfl, ?_,
    hflatten, hstream, ?_⟩
  · rw [hacc.sections_eq, heads_of_no_directive hprogram]
    rfl
  · show Demo.cut? (acc.content Section.defaultName) = _
    rw [← hflatten]
    exact Demo.cut?_flatten hstream.delimited
  · intro items _ c hc labels pc p hresolve
    obtain ⟨_, _, _, _, hinside, _⟩ := Demo.exists_row hc
    exact hinside.resolve hresolve

/-- Instructions of both lengths, and a branch back over them. -/
def branchProgram : Program :=
  [.insn [.name "mov", .expr (.reg "$r1"), .expr (.num 0x12345)],
   .label "L",
   .insn [.name "add", .name "sat", .expr (.reg "$r1"), .expr (.reg "$r1"), .expr (.num 1)],
   .insn [.name "bra", .expr (.label "L")]]

/-- A long instruction and two short ones. -/
theorem demo_stream_self_delimiting_branchProgram :
    (∀ name args, .directive name args ∉ branchProgram) ∧
      ∃ a s pieces, assemble Isa.demo {} branchProgram = .ok a ∧ a.sections = [s] ∧
        s.bytes.size = 16 ∧ Demo.cut? s.bytes.toList = some pieces ∧ pieces.length = 3 := by
  have hprogram : ∀ name args, .directive name args ∉ branchProgram := by
    simp [branchProgram]
  obtain ⟨a, ha, hsizes⟩ : ∃ a, assemble Isa.demo {} branchProgram = .ok a ∧
      a.sections.map (·.bytes.size) = [16] := exists_ok_of_map (by decide +kernel)
  obtain ⟨s, pieces, hsections, _, hcut, _, hstream, _⟩ :=
    demo_stream_self_delimiting hprogram ha
  rw [hsections] at hsizes
  exact ⟨hprogram, a, s, pieces, ha, hsections, (List.cons.inj hsizes).1, hcut,
    hstream.length_eq⟩

end TableAsm
