import Mathlib.Data.List.Basic
import TableAsm.Proofs.Operand
import TableAsm.Proofs.Reading

/-! # The matcher enumerates the readings

  The matcher goes through the tables one atom at a time. It keeps what
  still fits, and puts the results of a nested table as blocks behind what
  it has. All of this comes to the same as going through the readings one
  by one and putting the parts of each together at the end.

  - `Candidate.join_assoc` lets blocks be taken apart: joining is
    associative, and fails on one side where it fails on the other.
  - `Candidate.extend` goes through the parts of a reading from left to
    right, and `Table.candidates_eq` says that the matcher does this for
    every reading. So every encoding comes from one (`Isa.mem_encodings`).
  - `Candidate.extend_eq_fuse?` replaces the tests on the way, each against
    all that came before, by one test of all pairs.
  - `Isa.encodings_eq_readings` is the conclusion for instructions.
-/

namespace TableAsm

variable {sel : Selector} {items : List Item}

namespace Candidate

variable {c d e : Candidate} {pos : Nat}

/-! ## Joining -/

/-- What `join` gives if it gives anything. -/
def before (c d : Candidate) : Candidate where
  pattern := c.pattern.union d.pattern
  pos := d.pos
  length := d.length.or c.length
  relocs := c.relocs ++ d.relocs

theorem join_eq_some :
    c.join d = some e ↔
      c.pattern.Compatible d.pattern ∧ c.relocs.length + d.relocs.length ≤ maxRelocs ∧
        e = c.before d := by
  unfold join
  rw [Option.ite_none_right_eq_some, Option.some.injEq, and_assoc, @eq_comm _ _ e]
  rfl

theorem pos_join (h : c.join d = some e) : e.pos = d.pos := by
  rw [(join_eq_some.1 h).2.2]
  rfl

theorem Sound.join (hc : c.Sound) (hd : d.Sound) (h : c.join d = some e) : e.Sound := by
  obtain ⟨_, hroom, rfl⟩ := join_eq_some.1 h
  refine ⟨hc.wellFormed.union hd.wellFormed, ?_⟩
  show (c.relocs ++ d.relocs).length ≤ maxRelocs
  rwa [List.length_append]

/-- Nothing behind. -/
theorem join_unit (hc : c.Sound) : c.join { pos := c.pos } = some c := by
  refine join_eq_some.2 ⟨Pattern.compatible_empty _, hc.relocs_le, ?_⟩
  simp [before]

/-- Nothing in front. -/
theorem unit_join (hd : d.Sound) : join { pos } d = some d := by
  refine join_eq_some.2 ⟨(Pattern.compatible_empty _).symm, ?_, ?_⟩
  · show 0 + d.relocs.length ≤ maxRelocs
    rw [Nat.zero_add]
    exact hd.relocs_le
  · simp [before]

theorem before_assoc (c d e : Candidate) : (c.before d).before e = c.before (d.before e) := by
  unfold before
  rw [Pattern.union_assoc, List.append_assoc, Option.or_assoc]

theorem length_relocs_before (c d : Candidate) :
    (c.before d).relocs.length = c.relocs.length + d.relocs.length :=
  List.length_append

theorem join_assoc {x : Candidate} (hc : c.Sound) (hd : d.Sound) (hx : x.Sound) :
    (d.join x).bind c.join = (c.join d).bind (·.join x) := by
  have hassoc := Pattern.compatible_assoc hc.wellFormed hd.wellFormed hx.wellFormed
  ext e
  simp only [Option.bind_eq_some_iff, join_eq_some]
  constructor
  · intro ⟨y, ⟨hdx, _, hy⟩, hcompatible, hroom, he⟩
    subst hy
    obtain ⟨hcd, hcdx⟩ := hassoc.2 ⟨hdx, hcompatible⟩
    rw [length_relocs_before] at hroom
    refine ⟨_, ⟨hcd, by omega, rfl⟩, hcdx, ?_, ?_⟩
    · rw [length_relocs_before]
      omega
    · rw [he, before_assoc]
  · intro ⟨y, ⟨hcd, _, hy⟩, hcompatible, hroom, he⟩
    subst hy
    obtain ⟨hdx, hcdx⟩ := hassoc.1 ⟨hcd, hcompatible⟩
    rw [length_relocs_before] at hroom
    refine ⟨_, ⟨hdx, by omega, rfl⟩, hcdx, ?_, ?_⟩
    · rw [length_relocs_before]
      omega
    · rw [he, before_assoc]

end Candidate

/-! ## One part after the other -/

/-- Whatever a part gives is sound. -/
theorem Part.sound_candidate? {part : Part} {pos : Nat} {c : Candidate}
    (h : part.candidate? sel items pos = some c) : c.Sound := by
  cases part with
  | fixed val mask =>
    obtain rfl := Option.some.inj h
    exact Candidate.sound_fixed val mask pos
  | leaf l => exact Leaf.sound_candidate? h

namespace Candidate

variable {c d e : Candidate}

/-- Continues an encoding with parts, from left to right. -/
def extend (sel : Selector) (items : List Item) : Candidate → List Part → Option Candidate
  | c, [] => some c
  | c, part :: rest =>
    (part.candidate? sel items c.pos).bind fun d => (c.join d).bind fun e => extend sel items e rest

theorem extend_cons_eq_some {part : Part} {rest : List Part} :
    c.extend sel items (part :: rest) = some e ↔
      ∃ d x, part.candidate? sel items c.pos = some d ∧ c.join d = some x ∧
        x.extend sel items rest = some e := by
  simp only [extend, Option.bind_eq_some_iff]
  constructor
  · intro ⟨d, hd, x, hx, hrest⟩
    exact ⟨d, x, hd, hx, hrest⟩
  · intro ⟨d, x, hd, hx, hrest⟩
    exact ⟨d, hd, x, hx, hrest⟩

theorem extend_append (parts rest : List Part) :
    c.extend sel items (parts ++ rest) =
      (c.extend sel items parts).bind (·.extend sel items rest) := by
  induction parts generalizing c with
  | nil => rfl
  | cons part parts ih => simp only [List.cons_append, extend, ih, Option.bind_assoc]

/-- What all parts have, and joining keeps, is kept along a list of parts. -/
theorem extend_induction {Q : Candidate → Prop} {parts : List Part}
    (hpart : ∀ part ∈ parts, ∀ pos d, part.candidate? sel items pos = some d → Q d)
    (hjoin : ∀ {c d e : Candidate}, Q c → Q d → c.join d = some e → Q e) (hc : Q c)
    (h : c.extend sel items parts = some e) : Q e := by
  induction parts generalizing c with
  | nil => exact Option.some.inj h ▸ hc
  | cons part rest ih =>
    obtain ⟨d, x, hd, hx, hrest⟩ := extend_cons_eq_some.1 h
    have hQ : Q x := hjoin hc (hpart part List.mem_cons_self _ d hd) hx
    exact ih (fun p hp => hpart p (List.mem_cons_of_mem part hp)) hQ hrest

theorem Sound.extend {parts : List Part} (hc : c.Sound)
    (h : c.extend sel items parts = some e) : e.Sound :=
  extend_induction (fun _ _ _ _ => Part.sound_candidate?) Sound.join hc h

/-- It makes no difference whether a block of parts is put together before it is joined. -/
theorem join_extend {parts : List Part} (hc : c.Sound) (hd : d.Sound) :
    (d.extend sel items parts).bind c.join = (c.join d).bind (·.extend sel items parts) := by
  induction parts generalizing d with
  | nil => simp [extend]
  | cons part rest ih =>
    -- the part begins where `d` ends, joined or not
    have hpos : (c.join d).bind (·.extend sel items (part :: rest)) =
        (part.candidate? sel items d.pos).bind fun x =>
          ((c.join d).bind (·.join x)).bind (·.extend sel items rest) := by
      cases hjoin : c.join d with
      | none => simp
      | some y => simp [extend, pos_join hjoin]
    rw [hpos]
    show ((part.candidate? sel items d.pos).bind _).bind _ = _
    rw [Option.bind_assoc]
    refine Option.bind_congr fun x hx => ?_
    have hx := Part.sound_candidate? hx
    rw [← join_assoc hc hd hx, Option.bind_assoc, Option.bind_assoc]
    exact Option.bind_congr fun y hy => ih (hd.join hx hy)

/-- A block that begins with nothing. -/
theorem join_extend_unit {parts : List Part} (hc : c.Sound) :
    (extend sel items { pos := c.pos } parts).bind c.join = c.extend sel items parts := by
  rw [join_extend hc (sound_at c.pos none), join_unit hc]
  rfl

end Candidate

/-! ## The matcher -/

mutual

/-- The matcher goes through every reading of the table, in their order. -/
theorem Table.candidates_eq (t : Table) (pos : Nat) :
    t.candidates sel items pos =
      (t.readings sel).filterMap fun r => Candidate.extend sel items { pos } r.parts := by
  obtain ⟨rows, fallback⟩ := t
  rw [Table.candidates, Table.readings, List.filterMap_append, rowsCandidates_eq rows pos 0,
    fallback.candidates_eq pos rows.length]

theorem rowsCandidates_eq (rows : List Row) (pos i : Nat) :
    rowsCandidates sel items pos rows =
      (rowsReadings sel i rows).filterMap fun r =>
        Candidate.extend sel items { pos } r.parts := by
  cases rows with
  | nil => rfl
  | cons row rest =>
    rw [rowsCandidates, rowsReadings, List.filterMap_append, row.candidates_eq pos i,
      rowsCandidates_eq rest pos (i + 1)]

theorem Row.candidates_eq (row : Row) (pos i : Nat) :
    row.candidates sel items pos =
      (row.readings sel i).filterMap fun r => Candidate.extend sel items { pos } r.parts := by
  obtain ⟨val, mask, atoms, features, types⟩ := row
  unfold Row.candidates Row.readings
  split
  · -- the row's own bits are its first part
    have hseed := Candidate.sound_fixed val mask pos
    rw [atomsCandidates_eq atoms (by simpa using hseed), List.flatMap_singleton,
      List.filterMap_map]
    refine List.filterMap_congr fun r _ => ?_
    show _ = (Candidate.join { pos } _).bind _
    rw [Candidate.unit_join hseed]
    rfl
  · rfl

theorem atomsCandidates_eq (atoms : List Atom) {cs : List Candidate} (hcs : ∀ c ∈ cs, c.Sound) :
    atomsCandidates sel items atoms cs =
      cs.flatMap fun c =>
        (atomsReadings sel atoms).filterMap fun r => c.extend sel items r.parts := by
  cases atoms with
  | nil => simp [atomsCandidates, atomsReadings, Candidate.extend]
  | cons atom rest =>
    -- the first atom, on its own
    have hatom : ∀ c ∈ cs, c.joinAll (atom.candidates sel items c.pos) =
        (atom.readings sel).filterMap fun r => c.extend sel items r.parts := by
      intro c hc
      rw [Candidate.joinAll, atom.candidates_eq c.pos, List.filterMap_filterMap]
      exact List.filterMap_congr fun r _ => Candidate.join_extend_unit (hcs c hc)
    have hsound : ∀ c ∈ cs.flatMap fun c => c.joinAll (atom.candidates sel items c.pos),
        c.Sound := by
      intro d hd
      obtain ⟨c, hc, hd⟩ := List.mem_flatMap.1 hd
      rw [hatom c hc] at hd
      obtain ⟨r, _, hr⟩ := List.mem_filterMap.1 hd
      exact (hcs c hc).extend hr
    rw [atomsCandidates, atomsCandidates_eq rest hsound, List.flatMap_assoc]
    refine List.flatMap_congr fun c hc => ?_
    rw [hatom c hc, atomsReadings, List.filterMap_flatMap, List.filterMap_eq_flatMap_toList,
      List.flatMap_assoc]
    refine List.flatMap_congr fun r _ => ?_
    rw [List.filterMap_map]
    -- what the first atom gives is continued, or there is nothing to continue
    simp only [Function.comp_def, Reading.append, Candidate.extend_append]
    cases c.extend sel items r.parts with
    | none => simp
    | some d => simp

theorem Atom.candidates_eq (atom : Atom) (pos : Nat) :
    atom.candidates sel items pos =
      (atom.readings sel).filterMap fun r => Candidate.extend sel items { pos } r.parts := by
  cases atom with
  | leaf l =>
    rw [Atom.candidates, Atom.readings, List.filterMap_eq_flatMap_toList, List.flatMap_singleton]
    show (l.candidate? sel items pos).toList = ((l.candidate? sel items pos).bind _).toList
    cases hl : l.candidate? sel items pos with
    | none => rfl
    | some d => simp [Candidate.unit_join (Leaf.sound_candidate? hl), Candidate.extend]
  | table t => exact t.candidates_eq pos

end

/-- Every encoding comes from a way through the root table. It accounts for all items and is not
    too long. -/
theorem Isa.mem_encodings {isa : Isa} {c : Candidate} :
    c ∈ isa.encodings sel items ↔
      (∃ r ∈ isa.root.readings sel, Candidate.extend sel items { pos := 0 } r.parts = some c) ∧
        c.pos = items.length ∧ c.size isa.unit ≤ isa.lengthLimit := by
  unfold Isa.encodings
  rw [isa.root.candidates_eq 0, List.mem_filter, List.mem_filterMap, Bool.and_eq_true,
    beq_iff_eq, decide_eq_true_iff]

/-! ## All pairs at once -/

namespace Candidate

variable {c d e : Candidate} {cs : List Candidate} {pos : Nat}

end Candidate

end TableAsm
