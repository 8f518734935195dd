import TableAsm.Proofs.Parts
import TableAsm.Proofs.Relocation

/-! # Encodings that stay within their length

  An instruction is cut off after its length, whatever bits lie beyond.
  Whether any do can be seen in the tables: bits come from fixed masks and
  from fields, and from nowhere else.

  - `Pattern.Inside` says that a pattern has no bit past the first `n`.
    Writes into fields that lie inside keep this (`Pattern.Inside.written`),
    and so do relocations that are written later (`Candidate.Inside.resolve`).
  - `Row.Inside` asks the same of everything in a row and below it, and
    `Row.inside_candidates` concludes it for what the row gives.
  - `Row.length_candidates` says how long these encodings are, and
    `Row.fixed_le_candidates` that the fixed bits of the row are in them.
-/

namespace TableAsm

variable {sel : Selector} {items : List Item} {labels : LabelTable} {n : Nat}

/-! ## Patterns -/

namespace Pattern

variable {p q : Pattern}

/-- Nothing is decided past the first `n` bits. -/
def Inside (n : Nat) (p : Pattern) : Prop := ∀ i, n ≤ i → p.isClaimed i = false

theorem inside_empty : empty.Inside n := fun i _ => isClaimed_empty i

theorem inside_fixed {mask : Word} (val : Word) (h : mask >>> n = 0) :
    (fixed val mask).Inside n := by
  intro i hi
  show (mask.setWidth 128).getLsbD i = false
  have hbit : mask.getLsbD i = (mask >>> n).getLsbD (i - n) := by
    rw [BitVec.getLsbD_ushiftRight]
    congr 1
    omega
  rw [BitVec.getLsbD_setWidth, hbit, h]
  simp

theorem Inside.union (hp : p.Inside n) (hq : q.Inside n) : (p.union q).Inside n := by
  intro i hi
  rw [isClaimed_union, hp i hi, hq i hi]
  rfl

theorem Inside.write {s : Span} {num : Word} (hp : p.Inside n) (hs : s.Within n)
    (h : p.write s num = some q) : q.Inside n := by
  intro i hi
  have hcovers : ¬ s.Covers i := by
    intro hc
    have hlt := hs.lt_of_covers hc
    omega
  rw [(write_spec h i).1, hp i hi]
  simp [hcovers]

end Pattern

/-- Both spans of the field are among the first `n` bits. -/
def Field.Inside (n : Nat) (f : Field) : Prop := f.low.Within n ∧ f.high.Within n

instance (n : Nat) (f : Field) : Decidable (f.Inside n) := inferInstanceAs (Decidable (_ ∧ _))

namespace Pattern

variable {p q : Pattern}

theorem Inside.encode {f : Field} {v pc : Word} (hp : p.Inside n) (hf : f.Inside n)
    (h : f.encode p v pc = some q) : q.Inside n := by
  obtain ⟨num, _, _, hstore, _⟩ := Field.encode_eq_some.1 h
  obtain ⟨p₁, hlow, hhigh⟩ := Option.bind_eq_some_iff.1 hstore
  exact (hp.write hf.1 hlow).write hf.2 hhigh

theorem Inside.written {fields : List Field} (hp : p.Inside n) (hfields : ∀ f ∈ fields, f.Inside n)
    (h : p.Written fields q) : q.Inside n := by
  refine h.keep hp ?_
  intro f hf a b v pc ha hwrite
  exact ha.encode (hfields f hf) hwrite

end Pattern

/-! ## Candidates -/

namespace Candidate

variable {c d e : Candidate}

/-- Nothing is decided past the first `n` bits, and nothing is left open there. -/
structure Inside (n : Nat) (c : Candidate) : Prop where
  pattern : c.pattern.Inside n
  relocs : ∀ r ∈ c.relocs, r.field.Inside n

theorem inside_at (pos : Nat) (length : Option Nat) : Inside n { pos, length } :=
  ⟨Pattern.inside_empty, by simp⟩

theorem Inside.join (hc : c.Inside n) (hd : d.Inside n) (h : c.join d = some e) : e.Inside n := by
  obtain ⟨_, _, rfl⟩ := join_eq_some.1 h
  refine ⟨hc.pattern.union hd.pattern, ?_⟩
  intro r hr
  rcases List.mem_append.1 hr with hr | hr
  · exact hc.relocs r hr
  · exact hd.relocs r hr

theorem Takes.inside {fields : List Field} {x : Expr} (h : c.Takes fields x d) (hc : c.Inside n)
    (hfields : ∀ f ∈ fields, f.Inside n) : d.Inside n := by
  refine ⟨hc.pattern.written hfields h.written, ?_⟩
  intro r hr
  rcases h.relocs with hrelocs | ⟨_, f, hf, y, _, hrelocs⟩
  · exact hc.relocs r (hrelocs ▸ hr)
  · rw [hrelocs, List.mem_append, List.mem_singleton] at hr
    rcases hr with hr | rfl
    · exact hc.relocs r hr
    · exact hfields f hf

theorem inside_resolveAll {relocs : List Reloc} {p q : Pattern} {pc : Word} (hp : p.Inside n)
    (hrelocs : ∀ r ∈ relocs, r.field.Inside n)
    (h : resolveAll labels pc relocs p = .ok (some q)) : q.Inside n := by
  induction relocs generalizing p with
  | nil =>
    simp only [resolveAll, Except.ok.injEq, Option.some.injEq] at h
    exact h ▸ hp
  | cons r rest ih =>
    obtain ⟨v, _, hrest⟩ := bind_eq_ok.1 h
    split at hrest
    · next p₁ hp₁ =>
      have hp₁ : p₁.Inside n := hp.encode (hrelocs r List.mem_cons_self) hp₁
      exact ih hp₁ (fun r' hr' => hrelocs r' (List.mem_cons_of_mem r hr')) hrest
    · simp [pure, Except.pure] at hrest

/-- What is written when the labels are known stays inside as well. -/
theorem Inside.resolve {p : Pattern} {pc : Word} (hc : c.Inside n)
    (h : c.resolve labels pc = .ok (some p)) : p.Inside n :=
  inside_resolveAll hc.pattern hc.relocs h

end Candidate

/-! ## Rows -/

/-- All fields that the atom can write are inside. -/
def Leaf.Inside (n : Nat) (l : Leaf) : Prop := ∀ f ∈ l.fields, f.Inside n

instance (n : Nat) (l : Leaf) : Decidable (l.Inside n) :=
  inferInstanceAs (Decidable (∀ f ∈ l.fields, f.Inside n))

/-- Everything in the row and below it is inside. -/
def Row.Inside (n : Nat) (row : Row) : Prop :=
  ∀ below ∈ row.reach, below.mask >>> n = 0 ∧ ∀ l ∈ below.leaves, l.Inside n

instance (n : Nat) (row : Row) : Decidable (row.Inside n) :=
  inferInstanceAs (Decidable (∀ below ∈ row.reach, _ ∧ ∀ l ∈ below.leaves, l.Inside n))

theorem Leaf.inside_candidate? {l : Leaf} {pos : Nat} {c : Candidate} (hl : l.Inside n)
    (h : l.candidate? sel items pos = some c) : c.Inside n := by
  rcases candidate?_cases h with ⟨length, rfl⟩ | ⟨it, _, hit⟩
  · exact Candidate.inside_at pos length
  · rcases item?_cases hit with rfl | ⟨e, _, htakes⟩
    · exact Candidate.inside_at (pos + 1) none
    · exact htakes.inside (Candidate.inside_at (pos + 1) none) hl

namespace Row

variable {row : Row} {pos : Nat} {c : Candidate}

/-- What the row gives is inside. -/
theorem inside_candidates (hrow : row.Inside n) (h : c ∈ row.candidates sel items pos) :
    c.Inside n := by
  obtain ⟨r, hr, hextend⟩ := exists_reading h
  refine Candidate.extend_induction ?_ Candidate.Inside.join (Candidate.inside_at pos none) hextend
  intro part hpart pos d hd
  cases part with
  | fixed val mask =>
    have hmem := row.parts_of_mem_readings hr hpart
    obtain ⟨below, hbelow, _, rfl⟩ := fixed_mem_parts.1 hmem
    obtain rfl := Option.some.inj hd
    exact ⟨Pattern.inside_fixed val (hrow below hbelow).1, by simp⟩
  | leaf l =>
    obtain ⟨below, hbelow, hl⟩ := exists_leaf_of_mem_readings hr hpart
    exact Leaf.inside_candidate? ((hrow below hbelow).2 l hl) hd

end Row

/-! ## Lengths -/

/-- The length that the atom sets, if it sets one. -/
def Leaf.length? : Leaf → Option Nat
  | .length n => some n
  | _ => none

/-- The length that a part sets, if it sets one. -/
def Part.length? : Part → Option Nat
  | .fixed _ _ => none
  | .leaf l => l.length?

theorem Part.length_candidate? {part : Part} {pos : Nat} {c : Candidate}
    (h : part.candidate? sel items pos = some c) : c.length = part.length? := by
  cases part with
  | fixed val mask => exact Option.some.inj h ▸ rfl
  | leaf l =>
    cases l with
    | length n => exact Option.some.inj h ▸ rfl
    | nop => exact Option.some.inj h ▸ rfl
    | fail => simp [candidate?, Leaf.candidate?] at h
    | _ =>
      obtain ⟨it, _, hit⟩ := Option.bind_eq_some_iff.1 h
      rcases Leaf.item?_cases hit with rfl | ⟨e, _, htakes⟩
      · rfl
      · exact htakes.length_eq

namespace Candidate

variable {c e : Candidate} {parts : List Part}

/-- The last length counts. -/
theorem length_extend (h : c.extend sel items parts = some e) :
    e.length = (parts.filterMap Part.length?).getLast?.or c.length := by
  induction parts generalizing c with
  | nil => exact Option.some.inj h ▸ rfl
  | cons part rest ih =>
    obtain ⟨d, x, hd, hx, hrest⟩ := extend_cons_eq_some.1 h
    obtain ⟨_, _, rfl⟩ := join_eq_some.1 hx
    rw [ih hrest, List.filterMap_cons]
    simp only [before, Part.length_candidate? hd]
    cases part.length? with
    | none => rfl
    | some n =>
      rw [List.getLast?_cons]
      cases (rest.filterMap Part.length?).getLast? <;> rfl

theorem le_extend (hc : c.Sound) (h : c.extend sel items parts = some e) :
    c.pattern ≤ e.pattern := by
  induction parts generalizing c with
  | nil => exact Option.some.inj h ▸ Pattern.le_refl _
  | cons part rest ih =>
    obtain ⟨d, x, hd, hx, hrest⟩ := extend_cons_eq_some.1 h
    have hd := Part.sound_candidate? hd
    have hle := ih (hc.join hd hx) hrest
    obtain ⟨hcompatible, _, rfl⟩ := join_eq_some.1 hx
    exact Pattern.le_trans (Pattern.le_union_left hd.wellFormed hcompatible) hle

end Candidate

namespace Row

variable {row : Row} {pos : Nat} {c : Candidate}

/-- The row sets one length. -/
def Sets (n : Nat) (row : Row) : Prop :=
  some n ∈ row.leaves.map Leaf.length? ∧
    ∀ below ∈ row.reach, ∀ l ∈ below.leaves, ∀ k ∈ l.length?, k = n

instance (n : Nat) (row : Row) : Decidable (row.Sets n) := inferInstanceAs (Decidable (_ ∧ _))

theorem length_candidates (hrow : row.Sets n) (h : c ∈ row.candidates sel items pos) :
    c.length = some n := by
  obtain ⟨r, hr, hextend⟩ := exists_reading h
  obtain ⟨l, hl, hlength⟩ := List.mem_map.1 hrow.1
  -- the row's own atom is met, and no other length
  have hmem : n ∈ r.parts.filterMap Part.length? :=
    List.mem_filterMap.2 ⟨.leaf l, leaf_mem_of_mem_readings hl hr, hlength⟩
  have honly : ∀ k ∈ r.parts.filterMap Part.length?, k = n := by
    intro k hk
    obtain ⟨part, hpart, hk⟩ := List.mem_filterMap.1 hk
    cases part with
    | fixed val mask => simp [Part.length?] at hk
    | leaf l' =>
      obtain ⟨below, hbelow, hl'⟩ := exists_leaf_of_mem_readings hr hpart
      exact hrow.2 below hbelow l' hl' k hk
  rw [Candidate.length_extend hextend, List.getLast?_eq_some_getLast (List.ne_nil_of_mem hmem)]
  exact congrArg some (honly _ (List.getLast_mem _))

/-- The fixed bits of the row are in everything that it gives. -/
theorem fixed_le_candidates (h : c ∈ row.candidates sel items pos) :
    Pattern.fixed row.val row.mask ≤ c.pattern := by
  obtain ⟨val, mask, atoms, features, types⟩ := row
  unfold Row.candidates at h
  split at h
  · have hseed := Candidate.sound_fixed val mask pos
    rw [atomsCandidates_eq atoms (by simpa using hseed), List.flatMap_singleton] at h
    obtain ⟨r, _, hextend⟩ := List.mem_filterMap.1 h
    exact Candidate.le_extend hseed hextend
  · simp at h

end Row

end TableAsm
