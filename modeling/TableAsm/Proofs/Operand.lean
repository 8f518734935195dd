import TableAsm.Proofs.Writes
import TableAsm.Table

/-! # What encoding an operand can do

  However an operand is encoded, bits come into the pattern only by writes
  into the fields of the atom that takes it. What depends on labels is left
  open, as an immediate over names that stand in the operand.

  - `Expr.Mentions` says that a name occurs in an operand, and
    `Expr.ImmOver` are the immediates over some names.
  - `Pattern.Written` says that a pattern came from another one by writes
    into some fields. Registers, register lists and memory operands do no
    more than that.
  - `Candidate.Takes` is all that an operand can do to a candidate, and
    `Leaf.takes_operand?` says that no atom does anything else.
  - `Leaf.sound_candidate?` is a first conclusion: what atoms give is a
    `Candidate.Sound` candidate.
-/

namespace TableAsm

/-! ## Names in operands -/

/-- The name occurs as a label in the operand. -/
inductive Expr.Mentions (name : String) : Expr → Prop
  | label : Expr.Mentions name (.label name)
  | mem {space : String} {addr : Expr} (h : Expr.Mentions name addr) :
    Expr.Mentions name (.mem space addr)
  | addr {space : String} {addr : Expr} {timing : Timing} {down : Bool} {amount : Expr}
    (h : Expr.Mentions name addr) : Expr.Mentions name (.memStep space addr timing down amount)
  | amount {space : String} {addr : Expr} {timing : Timing} {down : Bool} {amount : Expr}
    (h : Expr.Mentions name amount) : Expr.Mentions name (.memStep space addr timing down amount)
  | elem {elems : List Expr} {e : Expr} (he : e ∈ elems) (h : Expr.Mentions name e) :
    Expr.Mentions name (.vec elems)
  | neg {e : Expr} (h : Expr.Mentions name e) : Expr.Mentions name (.neg e)
  | not {e : Expr} (h : Expr.Mentions name e) : Expr.Mentions name (.not e)
  | left {op : BinOp} {a b : Expr} (h : Expr.Mentions name a) : Expr.Mentions name (.bin op a b)
  | right {op : BinOp} {a b : Expr} (h : Expr.Mentions name b) : Expr.Mentions name (.bin op a b)

/-- An immediate, and all names in it are among some. -/
structure Expr.ImmOver (P : String → Prop) (e : Expr) : Prop where
  isImm : e.isImm = true
  names : ∀ name, e.Mentions name → P name

variable {P : String → Prop} {sel : Selector} {e : Expr} {p q r : Pattern}

namespace Expr.ImmOver

/-- Every immediate is one over its own names. -/
theorem self (h : e.isImm = true) : e.ImmOver e.Mentions := ⟨h, fun _ hname => hname⟩

theorem neg {a : Expr} (ha : a.ImmOver P) : (Expr.neg a).ImmOver P := by
  refine ⟨ha.isImm, ?_⟩
  intro name h
  cases h with
  | neg h => exact ha.names name h

theorem bin {a b : Expr} (op : BinOp) (ha : a.ImmOver P) (hb : b.ImmOver P) :
    (Expr.bin op a b).ImmOver P := by
  refine ⟨?_, ?_⟩
  · show (a.isImm && b.isImm) = true
    rw [ha.isImm, hb.isImm]
    rfl
  · intro name h
    cases h with
    | left h => exact ha.names name h
    | right h => exact hb.names name h

end Expr.ImmOver

/-! ## Writes into some fields -/

/-- The second pattern is the first one after writes into some of these fields. -/
inductive Pattern.Written (fields : List Field) (p : Pattern) : Pattern → Prop
  | refl : Written fields p p
  | encode {q r : Pattern} {f : Field} {v pc : Word} (h : Written fields p q) (hf : f ∈ fields)
    (hwrite : f.encode q v pc = some r) : Written fields p r

namespace Pattern.Written

variable {fields : List Field}

/-- One write. -/
theorem single {f : Field} {v pc : Word} (hf : f ∈ fields) (h : f.encode p v pc = some q) :
    p.Written fields q :=
  .encode .refl hf h

theorem trans (hpq : p.Written fields q) (hqr : q.Written fields r) : p.Written fields r := by
  induction hqr with
  | refl => exact hpq
  | encode _ hf hwrite ih => exact .encode ih hf hwrite

theorem mono {more : List Field} (h : p.Written fields q) (hsub : fields ⊆ more) :
    p.Written more q := by
  induction h with
  | refl => exact .refl
  | encode _ hf hwrite ih => exact .encode ih (hsub hf) hwrite

/-- What writes keep, one by one, all of them keep. -/
theorem keep {Q : Pattern → Prop} (h : p.Written fields q) (hp : Q p)
    (hstep : ∀ f ∈ fields, ∀ {a b : Pattern} {v pc : Word}, Q a → f.encode a v pc = some b → Q b) :
    Q q := by
  induction h with
  | refl => exact hp
  | encode _ hf hwrite ih => exact hstep _ hf ih hwrite

theorem wellFormed (h : p.Written fields q) (hp : p.WellFormed) : q.WellFormed :=
  h.keep hp fun _ _ _ _ _ _ ha hwrite => Field.wellFormed_encode ha hwrite

end Pattern.Written

/-! ## Registers -/

namespace Register

/-- The fields that a register is stored in. -/
def fields (r : Register) : List Field := r.field.toList

theorem written_encode {r : Register} (h : r.encode sel e p = some q) : p.Written r.fields q := by
  obtain ⟨n, _, hstore⟩ := Option.bind_eq_some_iff.1 h
  unfold store at hstore
  split at hstore
  · next f hf => exact .single (by simp [fields, hf]) hstore
  · -- a register without a field writes nothing
    split at hstore
    · obtain rfl := Option.some.inj hstore
      exact .refl
    · simp at hstore

theorem written_encodeScaled {r : Register} {shift : Nat}
    (h : r.encodeScaled sel shift e p = some q) : p.Written r.fields q := by
  unfold encodeScaled at h
  split at h
  · split at h
    · exact written_encode h
    · simp at h
  · simp at h

end Register

namespace RegisterList

/-- The fields that a register list is stored in. -/
def fields (l : RegisterList) : List Field := l.start :: l.count :: l.mask.toList

theorem written_encode {l : RegisterList} {elems : List Expr} (h : l.encode elems p = some q) :
    p.Written l.fields q := by
  unfold RegisterList.encode at h
  simp only [Option.bind_eq_bind, Option.bind_eq_some_iff] at h
  obtain ⟨run, _, p₁, hstart, p₂, hcount, hmask⟩ := h
  have hp₁ : p.Written l.fields p₁ := .single (by simp [fields]) hstart
  have hp₂ : p.Written l.fields p₂ := .encode hp₁ (by simp [fields]) hcount
  split at hmask
  · next f hf => exact .encode hp₂ (by simp [fields, hf]) hmask
  · split at hmask
    · exact Option.some.inj hmask ▸ hp₂
    · simp at hmask

end RegisterList

/-! ## Addresses -/

namespace AddressTerms

theorem immOver_addOffset {t : AddressTerms} {negated : Bool}
    (ht : ∀ o, t.offset = some o → o.ImmOver P) (he : e.ImmOver P) :
    ∀ o, (t.addOffset e negated).offset = some o → o.ImmOver P := by
  intro o ho
  obtain rfl := Option.some.inj ho
  split
  · exact he.neg
  · exact he
  · next acc hacc => exact (ht acc hacc).bin .sub he
  · next acc hacc => exact (ht acc hacc).bin .add he

/-- The offset of an address is made of immediates that stand in it. -/
theorem immOver_split (e : Expr) {negated : Bool} {t t' : AddressTerms}
    (ht : ∀ o, t.offset = some o → o.ImmOver P) (he : ∀ name, e.Mentions name → P name)
    (h : split e negated t = some t') : ∀ o, t'.offset = some o → o.ImmOver P := by
  unfold split at h
  split at h
  · next himm =>
    obtain rfl := Option.some.inj h
    exact immOver_addOffset ht ⟨himm, he⟩
  · split at h
    · next a b _ =>
      obtain ⟨t₁, ha, hb⟩ := Option.bind_eq_some_iff.1 h
      have ht₁ := immOver_split a ht (fun name h => he name (.left h)) ha
      exact immOver_split b ht₁ (fun name h => he name (.right h)) hb
    · next a b _ =>
      obtain ⟨t₁, ha, hb⟩ := Option.bind_eq_some_iff.1 h
      have ht₁ := immOver_split a ht (fun name h => he name (.left h)) ha
      exact immOver_split b ht₁ (fun name h => he name (.right h)) hb
    · next a _ => exact immOver_split a ht (fun name h => he name (.neg h)) h
    · -- a term that is no immediate leaves the offset alone
      split at h
      · simp at h
      · obtain rfl := Option.some.inj h
        exact ht

end AddressTerms

/-- The parts of a reference mention what the operand mentions. -/
theorem Reference.mentions_addr {name : String} (h : (Reference.ofExpr e).addr.Mentions name) :
    e.Mentions name := by
  cases e with
  | mem space addr => exact .mem h
  | memStep space addr timing down amount => exact .addr h
  | _ => exact h

theorem Reference.mentions_step {name : String} {timing : Timing} {amount : Expr}
    (hs : (Reference.ofExpr e).step = some (timing, amount)) (h : amount.Mentions name) :
    e.Mentions name := by
  cases e with
  | memStep space addr timing' down amount' =>
    simp only [Reference.ofExpr, Option.some.injEq, Prod.mk.injEq] at hs
    obtain ⟨_, rfl⟩ := hs
    cases down with
    | false => exact .amount h
    | true =>
      cases h with
      | neg h => exact .amount h
  | _ => simp [Reference.ofExpr] at hs

/-! ## What an operand does to a candidate -/

namespace Candidate

/-- What becomes of an immediate: it is written now, or it is deferred if there is room. -/
theorem place_cases {c d : Candidate} {f : Field} (h : c.place f e = some d) :
    (∃ v p, e.const? = some v ∧ f.pcrel = none ∧ f.encode c.pattern v 0 = some p ∧
      d = { c with pattern := p }) ∨
    (e.isImm = true ∧ c.relocs.length < maxRelocs ∧
      d = { c with relocs := c.relocs ++ [⟨f, e⟩] }) := by
  unfold place at h
  split at h
  · next himm =>
    split at h
    · next v hv hpc =>
      obtain ⟨p, hp, rfl⟩ := Option.map_eq_some_iff.1 h
      exact .inl ⟨v, p, hv, hpc, hp, rfl⟩
    · split at h
      · next hroom => exact .inr ⟨himm, hroom, (Option.some.inj h).symm⟩
      · simp at h
  · simp at h

/-- All that the operand `e` can do to a candidate, by an atom with some fields: it is written
    into these fields, and one immediate over its names may be left open for one of them. -/
structure Takes (fields : List Field) (e : Expr) (c d : Candidate) : Prop where
  pos_eq : d.pos = c.pos
  length_eq : d.length = c.length
  written : c.pattern.Written fields d.pattern
  relocs : d.relocs = c.relocs ∨ (c.relocs.length < maxRelocs ∧
    ∃ f ∈ fields, ∃ x : Expr, x.ImmOver e.Mentions ∧ d.relocs = c.relocs ++ [⟨f, x⟩])

namespace Takes

variable {fields : List Field} {c d : Candidate}

/-- Bits and nothing else. -/
theorem of_written (h : c.pattern.Written fields p) : c.Takes fields e { c with pattern := p } :=
  ⟨rfl, rfl, h, .inl rfl⟩

theorem refl : c.Takes fields e c := of_written .refl

/-- Bits before. -/
theorem after (hp : c.pattern.Written fields p) (h : Takes fields e { c with pattern := p } d) :
    c.Takes fields e d :=
  ⟨h.pos_eq, h.length_eq, hp.trans h.written, h.relocs⟩

/-- Bits behind. -/
theorem write (h : c.Takes fields e d) (hp : d.pattern.Written fields p) :
    c.Takes fields e { d with pattern := p } :=
  ⟨h.pos_eq, h.length_eq, h.written.trans hp, h.relocs⟩

theorem place {f : Field} {x : Expr} (hf : f ∈ fields)
    (hx : ∀ name, x.Mentions name → e.Mentions name) (h : c.place f x = some d) :
    c.Takes fields e d := by
  rcases place_cases h with ⟨v, p, _, _, hp, rfl⟩ | ⟨himm, hroom, rfl⟩
  · exact of_written (.single hf hp)
  · exact ⟨rfl, rfl, .refl, .inr ⟨hroom, f, hf, x, ⟨himm, hx⟩, rfl⟩⟩

end Takes

/-- A candidate as the matcher makes them: bits that nobody has claimed are zero, and there are
    not too many relocations. -/
structure Sound (c : Candidate) : Prop where
  wellFormed : c.pattern.WellFormed
  relocs_le : c.relocs.length ≤ maxRelocs

theorem sound_at (pos : Nat) (length : Option Nat) : Sound { pos, length } :=
  ⟨Pattern.wellFormed_empty, Nat.zero_le _⟩

theorem sound_fixed (val mask : Word) (pos : Nat) :
    Sound { pattern := Pattern.fixed val mask, pos } :=
  ⟨Pattern.wellFormed_fixed val mask, Nat.zero_le _⟩

theorem Takes.sound {fields : List Field} {c d : Candidate} (h : c.Takes fields e d)
    (hc : c.Sound) : d.Sound := by
  refine ⟨h.written.wellFormed hc.wellFormed, ?_⟩
  rcases h.relocs with hrelocs | ⟨hroom, f, _, x, _, hrelocs⟩
  · rw [hrelocs]
    exact hc.relocs_le
  · rw [hrelocs, List.length_append]
    exact hroom

end Candidate

/-! ## Memory operands -/

namespace Memory

variable {m : Memory} {t : AddressTerms} {c d : Candidate}

/-- The fields that a memory operand is stored in. -/
def fields (m : Memory) : List Field :=
  m.index.toList ++ m.base.toList.flatMap Register.fields ++ m.offset.toList ++
    m.scaled.toList.flatMap (·.1.fields)

theorem written_encodeSpace {space : Option String} (h : m.encodeSpace space p = some q) :
    p.Written m.fields q := by
  unfold encodeSpace at h
  split at h
  · obtain rfl := Option.some.inj h
    exact .refl
  · obtain ⟨rest, _, hindex⟩ := Option.bind_eq_some_iff.1 h
    split at hindex
    · next f hf =>
      obtain ⟨n, _, hn⟩ := Option.bind_eq_some_iff.1 hindex
      exact .single (by simp [fields, hf]) hn
    · split at hindex
      · obtain rfl := Option.some.inj hindex
        exact .refl
      · simp at hindex
  · simp at h

theorem written_base {base : Register} (hb : m.base = some base)
    (h : base.encode sel e p = some q) : p.Written m.fields q := by
  refine (Register.written_encode h).mono ?_
  intro f hf
  simp [fields, hb, hf]

theorem written_scaled {scaled : Register × Nat} (hs : m.scaled = some scaled)
    (h : scaled.1.encodeScaled sel scaled.2 e p = some q) : p.Written m.fields q := by
  refine (Register.written_encodeScaled h).mono ?_
  intro f hf
  simp [fields, hs, hf]

theorem written_encodePair {base : Register} {scaled : Register × Nat} {x y : Expr}
    (hb : m.base = some base) (hs : m.scaled = some scaled)
    (h : encodePair sel base scaled x y p = some q) : p.Written m.fields q := by
  obtain ⟨p₁, hbase, hscaled⟩ := Option.bind_eq_some_iff.1 h
  exact (written_base hb hbase).trans (written_scaled hs hscaled)

theorem written_encodeRegisters {dynamic : List Expr}
    (h : m.encodeRegisters sel dynamic p = some q) : p.Written m.fields q := by
  unfold encodeRegisters at h
  simp only at h
  split at h
  · next base scaled hb hs =>
    -- two slots: one of the two assignments
    rcases Option.or_eq_some_iff.1 h with hpair | ⟨_, hpair⟩
    · exact written_encodePair hb hs hpair
    · exact written_encodePair hb hs hpair
  · next base hb _ =>
    split at h
    · exact written_base hb h
    · simp at h
  · next scaled _ hs =>
    split at h
    · exact written_scaled hs h
    · simp at h
  · split at h
    · obtain rfl := Option.some.inj h
      exact .refl
    · simp at h

theorem mentions_offsetExpr? {offset : Expr} {name : String}
    (ht : ∀ o, t.offset = some o → o.ImmOver e.Mentions)
    (ho : m.offsetExpr? (Reference.ofExpr e).step t = some offset) (h : offset.Mentions name) :
    e.Mentions name := by
  unfold offsetExpr? at ho
  split at ho
  · obtain rfl := Option.some.inj ho
    cases hoffset : t.offset with
    | none =>
      -- the zero that stands for no offset
      rw [hoffset] at h
      cases h
    | some o =>
      rw [hoffset] at h
      exact (ht o hoffset).names name h
  · next want got amount _ hs =>
    split at ho
    · obtain rfl := Option.some.inj ho
      exact Reference.mentions_step hs h
    · simp at ho
  · simp at ho

theorem takes_encodeOffset (ht : ∀ o, t.offset = some o → o.ImmOver e.Mentions)
    (h : m.encodeOffset (Reference.ofExpr e).step t c = some d) : c.Takes m.fields e d := by
  unfold encodeOffset at h
  split at h
  · next f hf =>
    obtain ⟨offset, ho, hplace⟩ := Option.bind_eq_some_iff.1 h
    refine .place (by simp [fields, hf]) ?_ hplace
    intro name hname
    exact mentions_offsetExpr? ht ho hname
  · split at h
    · obtain rfl := Option.some.inj h
      exact .refl
    · simp at h

/-- The three parts of a memory operand, which are written one after the other. -/
theorem encode_cases (h : m.encode sel e c = some d) :
    ∃ p₁ t c₁ p₂, m.encodeSpace (Reference.ofExpr e).space c.pattern = some p₁ ∧
      AddressTerms.split (Reference.ofExpr e).addr false {} = some t ∧
      m.encodeOffset (Reference.ofExpr e).step t { c with pattern := p₁ } = some c₁ ∧
      m.encodeRegisters sel t.dynamic c₁.pattern = some p₂ ∧ d = { c₁ with pattern := p₂ } := by
  unfold encode at h
  simp only [Option.bind_eq_bind, Option.bind_eq_some_iff] at h
  obtain ⟨p₁, hspace, t, hsplit, c₁, hoffset, p₂, hregisters, hd⟩ := h
  exact ⟨p₁, t, c₁, p₂, hspace, hsplit, hoffset, hregisters, (Option.some.inj hd).symm⟩

theorem takes_encode (h : m.encode sel e c = some d) : c.Takes m.fields e d := by
  obtain ⟨p₁, t, c₁, p₂, hspace, hsplit, hoffset, hregisters, rfl⟩ := encode_cases h
  have ht : ∀ o, t.offset = some o → o.ImmOver e.Mentions :=
    AddressTerms.immOver_split _ (by simp) (fun _ h => Reference.mentions_addr h) hsplit
  have hc₁ : c.Takes m.fields e c₁ :=
    .after (written_encodeSpace hspace) (takes_encodeOffset ht hoffset)
  exact hc₁.write (written_encodeRegisters hregisters)

end Memory

/-! ## Atoms -/

namespace Leaf

variable {items : List Item} {pos : Nat} {c d : Candidate} {l : Leaf}

/-- The fields that an atom writes. -/
def fields : Leaf → List Field
  | .imm f => [f]
  | .rel f => [f]
  | .reg r => r.fields
  | .mem m => m.fields
  | .vec l => l.fields
  | .range start len => [start, len]
  | _ => []

/-- Whatever an atom does with an operand, it does no more than this. -/
theorem takes_operand? (h : l.operand? sel e c = some d) : c.Takes l.fields e d := by
  cases l with
  | keyword s =>
    simp only [operand?] at h
    split at h
    · split at h
      · exact Option.some.inj h ▸ .refl
      · simp at h
    · simp at h
  | imm f =>
    obtain ⟨v, _, hv⟩ := Option.bind_eq_some_iff.1 h
    obtain ⟨p, hp, rfl⟩ := Option.map_eq_some_iff.1 hv
    exact .of_written (.single (by simp [fields]) hp)
  | rel f => exact .place (by simp [fields]) (fun _ hname => hname) h
  | reg r =>
    obtain ⟨p, hp, rfl⟩ := Option.map_eq_some_iff.1 h
    exact .of_written (Register.written_encode hp)
  | mem m => exact Memory.takes_encode h
  | vec l =>
    simp only [operand?] at h
    split at h
    · obtain ⟨p, hp, rfl⟩ := Option.map_eq_some_iff.1 h
      exact .of_written (RegisterList.written_encode hp)
    · simp at h
  | range start len =>
    simp only [operand?] at h
    split at h
    · simp only [Option.bind_eq_bind, Option.bind_eq_some_iff] at h
      obtain ⟨p₁, hstart, p₂, hlen, hd⟩ := h
      have hp₁ : c.pattern.Written [start, len] p₁ := .single (by simp) hstart
      have hp₂ : c.pattern.Written [start, len] p₂ := .encode hp₁ (by simp) hlen
      exact Option.some.inj hd ▸ .of_written hp₂
    · simp at h
  | discard =>
    simp only [operand?] at h
    split at h
    · exact Option.some.inj h ▸ .refl
    · simp at h
  | _ => simp [operand?] at h

/-- What an atom makes of an item that is an operand. -/
theorem item?_expr (l : Leaf) (c : Candidate) (e : Expr) :
    l.item? sel c (.expr e) = l.operand? sel e c := by
  cases l <;> rfl

/-- An atom takes an operand, or an item that leaves no trace. -/
theorem item?_cases {it : Item} (h : l.item? sel c it = some d) :
    d = c ∨ ∃ e, it = .expr e ∧ c.Takes l.fields e d := by
  cases it with
  | expr e =>
    rw [item?_expr] at h
    exact .inr ⟨e, rfl, takes_operand? h⟩
  | name s =>
    left
    unfold item? at h
    split at h <;> simp_all
  | subStart =>
    left
    unfold item? at h
    split at h <;> simp_all
  | subEnd =>
    left
    unfold item? at h
    split at h <;> simp_all

/-- An atom takes the item at its position, or no item at all. -/
theorem candidate?_cases (h : l.candidate? sel items pos = some c) :
    (∃ length, c = { pos, length }) ∨
      ∃ it, items[pos]? = some it ∧ l.item? sel { pos := pos + 1 } it = some c := by
  unfold candidate? at h
  split at h
  · exact .inl ⟨none, (Option.some.inj h).symm⟩
  · simp at h
  · exact .inl ⟨_, (Option.some.inj h).symm⟩
  · exact .inr (Option.bind_eq_some_iff.1 h)

/-- Whatever an atom gives is sound. -/
theorem sound_candidate? (h : l.candidate? sel items pos = some c) : c.Sound := by
  rcases candidate?_cases h with ⟨length, rfl⟩ | ⟨it, _, hit⟩
  · exact Candidate.sound_at pos length
  · rcases item?_cases hit with rfl | ⟨e, _, htakes⟩
    · exact Candidate.sound_at (pos + 1) none
    · exact htakes.sound (Candidate.sound_at (pos + 1) none)

end Leaf

end TableAsm
