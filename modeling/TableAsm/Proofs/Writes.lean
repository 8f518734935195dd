import Mathlib.Data.List.Forall2
import TableAsm.Proofs.Field
import TableAsm.Proofs.Union

/-! # Writes in any order

  Fields may overlap, and several of them are written into one pattern.
  Which one comes first makes no difference.

  - `Pattern.Reachable` patterns are those that the operations can build.
  - `Field.encode_eq_union` says that writing a field is a join: with what
    the same write leaves in an empty pattern. Nothing else in the pattern
    is looked at, although the field is read back from it.
  - `Write.applyAll` makes writes one after the other. Two of them can be
    exchanged (`Write.apply_comm`), so any order will do
    (`Write.applyAll_perm`).
  - `writes_compose` is the result.
-/

namespace TableAsm

/-! ## Writing a field is a join -/

namespace Field

variable {f : Field} {p q : Pattern} {v pc num : Word}

theorem wellFormed_store (hp : p.WellFormed) (h : f.store p num = some q) : q.WellFormed := by
  obtain ⟨p₁, hlow, hhigh⟩ := store_eq_some.1 h
  exact (hp.write hlow).write hhigh

theorem wellFormed_encode (hp : p.WellFormed) (h : f.encode p v pc = some q) : q.WellFormed := by
  obtain ⟨num, back, _, hstore, _⟩ := encode_eq_some.1 h
  exact wellFormed_store hp hstore

theorem store_eq_union (hp : p.WellFormed) :
    f.store p num = some q ↔
      ∃ w, f.store Pattern.empty num = some w ∧ p.Compatible w ∧ q = p.union w := by
  have hempty := Pattern.wellFormed_empty
  -- both spans add a join, and the two joins can be grouped either way
  constructor
  · intro h
    obtain ⟨p₁, hlow, hhigh⟩ := store_eq_some.1 h
    obtain ⟨a, ha, hpa, rfl⟩ := (Pattern.write_eq_union hp).1 hlow
    have hwa := hempty.write ha
    obtain ⟨b, hb, hab, rfl⟩ := (Pattern.write_eq_union (hp.union hwa)).1 hhigh
    have hwb := hempty.write hb
    obtain ⟨hcompat, hall⟩ := (Pattern.compatible_assoc hp hwa hwb).1 ⟨hpa, hab⟩
    refine ⟨a.union b, ?_, hall, Pattern.union_assoc p a b⟩
    exact store_eq_some.2 ⟨a, ha, (Pattern.write_eq_union hwa).2 ⟨b, hb, hcompat, rfl⟩⟩
  · intro ⟨w, hw, hpw, hq⟩
    obtain ⟨a, ha, hhigh⟩ := store_eq_some.1 hw
    have hwa := hempty.write ha
    obtain ⟨b, hb, hcompat, rfl⟩ := (Pattern.write_eq_union hwa).1 hhigh
    have hwb := hempty.write hb
    obtain ⟨hpa, hab⟩ := (Pattern.compatible_assoc hp hwa hwb).2 ⟨hcompat, hpw⟩
    rw [hq, ← Pattern.union_assoc]
    exact store_eq_some.2 ⟨p.union a, (Pattern.write_eq_union hp).2 ⟨a, ha, hpa, rfl⟩,
      (Pattern.write_eq_union (hp.union hwa)).2 ⟨b, hb, hab, rfl⟩⟩

/-- **Writing a field is a join.** Whether the number can be read back is decided by the bits of
    the field alone, and these are the same in the pattern and in the join. -/
theorem encode_eq_union (hp : p.WellFormed) :
    f.encode p v pc = some q ↔
      ∃ w, f.encode Pattern.empty v pc = some w ∧ p.Compatible w ∧ q = p.union w := by
  -- what was stored reads the same with and without the rest of the pattern
  have hread : ∀ {num : Word} {w : Pattern}, f.store Pattern.empty num = some w → p.Compatible w →
      f.decode (p.union w) pc = f.decode w pc := by
    intro num w hw hpw
    exact decode_of_le (Pattern.le_union_right hp hpw) (claims_store hw) pc
  constructor
  · intro h
    obtain ⟨num, back, hnum, hstore, hback, hagrees⟩ := encode_eq_some.1 h
    obtain ⟨w, hw, hpw, rfl⟩ := (store_eq_union hp).1 hstore
    rw [hread hw hpw] at hback
    exact ⟨w, encode_eq_some.2 ⟨num, back, hnum, hw, hback, hagrees⟩, hpw, rfl⟩
  · intro ⟨w, h, hpw, hq⟩
    obtain ⟨num, back, hnum, hw, hback, hagrees⟩ := encode_eq_some.1 h
    rw [← hread hw hpw] at hback
    rw [hq]
    exact encode_eq_some.2
      ⟨num, back, hnum, (store_eq_union hp).2 ⟨w, hw, hpw, rfl⟩, hback, hagrees⟩

end Field

/-! ## Patterns that can be built -/

/-- A pattern that comes out of the operations on patterns, in any order and number. Joins need
    not be of compatible patterns. -/
inductive Pattern.Reachable : Pattern → Prop
  | empty : Reachable Pattern.empty
  | fixed (val mask : Word) : Reachable (Pattern.fixed val mask)
  | write {p q : Pattern} {s : Span} {num : Word} (hp : Reachable p)
    (h : p.write s num = some q) : Reachable q
  | encode {p q : Pattern} {f : Field} {v pc : Word} (hp : Reachable p)
    (h : f.encode p v pc = some q) : Reachable q
  | union {p q : Pattern} (hp : Reachable p) (hq : Reachable q) : Reachable (p.union q)

theorem Pattern.Reachable.wellFormed {p : Pattern} (h : p.Reachable) : p.WellFormed := by
  induction h with
  | empty => exact wellFormed_empty
  | fixed val mask => exact wellFormed_fixed val mask
  | write _ h ih => exact ih.write h
  | encode _ h ih => exact Field.wellFormed_encode ih h
  | union _ _ ihp ihq => exact ihp.union ihq

/-! ## One write after the other -/

/-- A number for a field of an instruction at position `pc`. -/
structure Write where
  field : Field
  value : Word
  pc : Word
deriving DecidableEq, Repr

namespace Write

/-- The pattern after a write, if it succeeds. -/
def apply (w : Write) (p : Pattern) : Option Pattern := w.field.encode p w.value w.pc

/-- The pattern after a write has been tried, and whether it was successful. -/
def attempt (w : Write) (p : Pattern) : Pattern × Bool :=
  match w.apply p with
  | some q => (q, true)
  | none => (p, false)

/-- The pattern after some writes, one after the other, if all of them succeed. -/
def applyAll : List Write → Pattern → Option Pattern
  | [], p => some p
  | w :: rest, p => (w.apply p).bind (applyAll rest)

variable {w a b : Write} {p q : Pattern}

theorem wellFormed_apply (hp : p.WellFormed) (h : w.apply p = some q) : q.WellFormed :=
  Field.wellFormed_encode hp h

theorem apply_eq_union (hp : p.WellFormed) :
    w.apply p = some q ↔
      ∃ part, w.apply Pattern.empty = some part ∧ p.Compatible part ∧ q = p.union part :=
  Field.encode_eq_union hp

/-- Writes succeed if they do so alone and nothing that they leave behind disagrees; they then
    give the join of it all. -/
theorem applyAll_eq_some (hp : p.WellFormed) {ws : List Write} :
    applyAll ws p = some q ↔
      ∃ parts, List.Forall₂ (fun w part => w.apply Pattern.empty = some part) ws parts ∧
        (p :: parts).Pairwise Pattern.Compatible ∧ q = Pattern.unionAll (p :: parts) := by
  induction ws generalizing p with
  | nil =>
    constructor
    · intro h
      obtain rfl : p = q := Option.some.inj h
      refine ⟨[], .nil, by simp, ?_⟩
      show p = p.union Pattern.empty
      rw [Pattern.union_empty]
    · intro ⟨parts, hparts, _, hq⟩
      cases hparts
      rw [hq]
      show some p = some (p.union Pattern.empty)
      rw [Pattern.union_empty]
  | cons w rest ih =>
    -- the first write makes one join of the pattern and its own part
    constructor
    · intro h
      obtain ⟨p₁, hw, hrest⟩ := Option.bind_eq_some_iff.1 h
      obtain ⟨part, hpart, hcompat, rfl⟩ := (apply_eq_union hp).1 hw
      have hwf := wellFormed_apply Pattern.wellFormed_empty hpart
      obtain ⟨parts, hparts, hpairs, rfl⟩ := (ih (hp.union hwf)).1 hrest
      refine ⟨part :: parts, .cons hpart hparts, ?_, Pattern.union_assoc _ _ _⟩
      exact (Pattern.pairwise_union_cons hp hwf).2 ⟨hcompat, hpairs⟩
    · intro ⟨parts', hparts', hpairs', hq⟩
      cases hparts' with
      | @cons _ part _ parts hpart hparts =>
        have hwf := wellFormed_apply Pattern.wellFormed_empty hpart
        obtain ⟨hcompat, hpairs⟩ := (Pattern.pairwise_union_cons hp hwf).1 hpairs'
        have hrest : applyAll rest (p.union part) = some q :=
          (ih (hp.union hwf)).2 ⟨parts, hparts, hpairs, hq.trans (Pattern.union_assoc _ _ _).symm⟩
        have hw : w.apply p = some (p.union part) :=
          (apply_eq_union hp).2 ⟨part, hpart, hcompat, rfl⟩
        exact Option.bind_eq_some_iff.2 ⟨p.union part, hw, hrest⟩

/-- Two writes can be exchanged. -/
theorem apply_comm (hp : p.WellFormed) : (a.apply p).bind b.apply = (b.apply p).bind a.apply := by
  -- one direction is enough, since the statement is symmetric
  have key : ∀ {a b : Write} {q : Pattern}, (a.apply p).bind b.apply = some q →
      (b.apply p).bind a.apply = some q := by
    intro a b q h
    obtain ⟨p₁, ha, hb⟩ := Option.bind_eq_some_iff.1 h
    obtain ⟨s, hs, hps, rfl⟩ := (apply_eq_union hp).1 ha
    have hwfs := wellFormed_apply Pattern.wellFormed_empty hs
    obtain ⟨t, ht, hst, rfl⟩ := (apply_eq_union (hp.union hwfs)).1 hb
    have hwft := wellFormed_apply Pattern.wellFormed_empty ht
    obtain ⟨hpt, hst⟩ := (Pattern.compatible_union_left hp hwfs hps).1 hst
    have hjoin : (p.union t).Compatible s :=
      (Pattern.compatible_union_left hp hwft hpt).2 ⟨hps, hst.symm⟩
    have heq : (p.union s).union t = (p.union t).union s := by
      rw [Pattern.union_assoc, Pattern.union_comm s t, ← Pattern.union_assoc]
    rw [heq]
    exact Option.bind_eq_some_iff.2 ⟨p.union t, (apply_eq_union hp).2 ⟨t, ht, hpt, rfl⟩,
      (apply_eq_union (hp.union hwft)).2 ⟨s, hs, hjoin, rfl⟩⟩
  apply Option.ext
  intro q
  exact ⟨key, key⟩

/-- The order of writes makes no difference. -/
theorem applyAll_perm {ws ws' : List Write} (h : ws.Perm ws') (hp : p.WellFormed) :
    applyAll ws p = applyAll ws' p := by
  induction h generalizing p with
  | nil => rfl
  | cons w _ ih =>
    simp only [applyAll]
    cases hw : w.apply p with
    | none => rfl
    | some q => exact ih (wellFormed_apply hp hw)
  | swap a b rest =>
    simp only [applyAll]
    rw [← Option.bind_assoc, ← Option.bind_assoc, apply_comm hp]
  | trans _ _ ih₁ ih₂ => exact (ih₁ hp).trans (ih₂ hp)

end Write

/-- **Writes compose, in any order.** Some writes, made one after the other into a pattern that
    the operations can build, all succeed exactly if each succeeds in an empty pattern and what
    they leave there, together with the pattern itself, is without any disagreement. The result
    is then the join of it all, and every other order gives the same. A write that fails leaves
    the pattern as it was. -/
theorem writes_compose {p : Pattern} (hp : p.Reachable) (ws : List Write) :
    (∀ q, Write.applyAll ws p = some q ↔
      ∃ parts, List.Forall₂ (fun w part => w.apply Pattern.empty = some part) ws parts ∧
        (p :: parts).Pairwise Pattern.Compatible ∧ q = Pattern.unionAll (p :: parts)) ∧
    (∀ ws', ws'.Perm ws → Write.applyAll ws' p = Write.applyAll ws p) ∧
    (∀ w : Write, (w.attempt p).2 = false → (w.attempt p).1 = p) := by
  have hwf := hp.wellFormed
  refine ⟨fun q => Write.applyAll_eq_some hwf, fun ws' h => Write.applyAll_perm h hwf, ?_⟩
  intro w hfail
  unfold Write.attempt at hfail ⊢
  cases hw : w.apply p with
  | none => rfl
  | some q => simp [hw] at hfail

/-- A signed number in two spans, a number that shares four bits with it, one from a table and
    one that counts from the position. -/
def overlappingWrites : List Write :=
  [⟨{ low := ⟨4, 8⟩, high := ⟨16, 4⟩, sign := .signed }, -3, 0⟩,
    ⟨Field.ofSpan 8 4, 0xF, 0⟩,
    ⟨{ low := ⟨20, 2⟩, lut := some [7, 9, 11] }, 9, 0⟩,
    ⟨{ low := ⟨24, 8⟩, scale := 2, pcrel := some 4 }, 0x50, 0x20⟩]

theorem writes_compose_overlapping :
    (Pattern.fixed 0x5 0xF).Reachable ∧
    (∃ parts,
      List.Forall₂ (fun w part => w.apply Pattern.empty = some part) overlappingWrites parts ∧
        (Pattern.fixed 0x5 0xF :: parts).Pairwise Pattern.Compatible ∧
        Write.applyAll overlappingWrites.reverse (Pattern.fixed 0x5 0xF) =
          some (Pattern.unionAll (Pattern.fixed 0x5 0xF :: parts))) ∧
    (Write.attempt ⟨Field.ofSpan 0 4, 0x6, 0⟩ (Pattern.fixed 0x5 0xF)).1 =
      Pattern.fixed 0x5 0xF := by
  have hp : (Pattern.fixed 0x5 0xF).Reachable := .fixed 0x5 0xF
  obtain ⟨hjoin, hperm, hfail⟩ := writes_compose hp overlappingWrites
  obtain ⟨q, hq⟩ : ∃ q, Write.applyAll overlappingWrites (Pattern.fixed 0x5 0xF) = some q :=
    Option.isSome_iff_exists.1 (by decide)
  obtain ⟨parts, hparts, hpairs, rfl⟩ := (hjoin q).1 hq
  refine ⟨hp, ⟨parts, hparts, hpairs, ?_⟩, hfail _ (by decide)⟩
  exact (hperm _ (List.reverse_perm _)).trans hq

end TableAsm
