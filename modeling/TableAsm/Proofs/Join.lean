import Mathlib.Order.Bounds.Basic
import TableAsm.Proofs.Matching

/-! # Joins as least upper bounds

  A pattern that the operations can build is below another one if the
  other has decided the same and maybe more. In this order the union of
  two patterns that agree is their join, and patterns that disagree have
  no upper bound at all. For this the bits that nobody has claimed must be
  zero: a union is no more than an or.

  - `Built` are the patterns that can be built, in their order.
    `Built.compatible_iff_bddAbove` and `Built.isLUB_union` relate it to
    agreement and union.
  - `Built.merge?` is the union where it is defined. It is commutative,
    associative and idempotent.
  - A `Grouping` says in which order a family is merged, two at a time. By
    `Grouping.merge?_built_eq_some` only the members count: they are
    merged if no two of them disagree, and then to their least upper
    bound.
  - `Grouping.merge?_join` says the same of encodings, which are merged as
    their patterns are.
-/

namespace TableAsm

namespace Pattern

variable {p q r : Pattern}

/-- Where nothing is set that was not claimed, the order tells patterns apart. -/
protected theorem le_antisymm (hp : p.WellFormed) (hq : q.WellFormed) (hpq : p ≤ q)
    (hqp : q ≤ p) : p = q := by
  have hclaimed : ∀ i, p.isClaimed i = q.isClaimed i := by
    intro i
    rw [Bool.eq_iff_iff]
    exact ⟨fun h => (hpq i h).1, fun h => (hqp i h).1⟩
  refine eq_of_bits hclaimed fun i => ?_
  cases hi : p.isClaimed i with
  | true => exact (hpq i hi).2.symm
  | false => rw [hp i hi, hq i (hclaimed i ▸ hi)]

/-- Patterns below a third one agree. -/
theorem compatible_of_le (hp : p ≤ r) (hq : q ≤ r) : p.Compatible q :=
  compatible_iff.2 fun i hi hi' => (hp i hi).2.symm.trans (hq i hi').2

/-- What is above both patterns is above their union. -/
theorem union_le (hp : p.WellFormed) (hq : q.WellFormed) (hpr : p ≤ r) (hqr : q ≤ r) :
    p.union q ≤ r := by
  have hcompatible := compatible_of_le hpr hqr
  intro i hi
  rw [isClaimed_union, Bool.or_eq_true] at hi
  -- the union has the bit of the part that has claimed it
  rcases hi with hi | hi
  · rw [(le_union_left hq hcompatible i hi).2]
    exact hpr i hi
  · rw [(le_union_right hp hcompatible i hi).2]
    exact hqr i hi

theorem union_self (p : Pattern) : p.union p = p := by
  unfold union
  rw [BitVec.or_self, BitVec.or_self]

end Pattern

/-! ## The order of the patterns that can be built -/

/-- A pattern that the operations can build. -/
@[ext]
structure Built where
  pattern : Pattern
  reachable : pattern.Reachable

namespace Built

variable {a b c : Built}

theorem wellFormed (a : Built) : a.pattern.WellFormed := a.reachable.wellFormed

instance : PartialOrder Built where
  le a b := a.pattern ≤ b.pattern
  le_refl a := Pattern.le_refl a.pattern
  le_trans _ _ _ hab hbc := Pattern.le_trans hab hbc
  le_antisymm a b hab hba := Built.ext (Pattern.le_antisymm a.wellFormed b.wellFormed hab hba)

/-- No bit that both patterns have claimed differs. -/
def Compatible (a b : Built) : Prop := a.pattern.Compatible b.pattern

instance : DecidableRel Compatible := fun a b =>
  inferInstanceAs (Decidable (a.pattern.Compatible b.pattern))

/-- Everything that either pattern has decided. -/
def union (a b : Built) : Built := ⟨a.pattern.union b.pattern, a.reachable.union b.reachable⟩

theorem Compatible.symm (h : a.Compatible b) : b.Compatible a := Pattern.Compatible.symm h

/-- The union of patterns that agree is their join. -/
theorem isLUB_union (h : a.Compatible b) : IsLUB {a, b} (a.union b) := by
  constructor
  · rintro c (rfl | rfl)
    · exact Pattern.le_union_left b.wellFormed h
    · exact Pattern.le_union_right a.wellFormed h
  · intro c hc
    exact Pattern.union_le a.wellFormed b.wellFormed (hc (.inl rfl)) (hc (.inr rfl))

/-- Patterns that disagree have no upper bound. -/
theorem compatible_iff_bddAbove : a.Compatible b ↔ BddAbove {a, b} := by
  constructor
  · intro h
    exact ⟨a.union b, (isLUB_union h).1⟩
  · intro ⟨c, hc⟩
    exact Pattern.compatible_of_le (hc (.inl rfl)) (hc (.inr rfl))

theorem compatible_union (h : a.Compatible b) :
    (a.union b).Compatible c ↔ a.Compatible c ∧ b.Compatible c :=
  Pattern.compatible_union_left a.wellFormed b.wellFormed h

/-! ## Union where it is defined -/

/-- The union of patterns that agree. -/
def merge? (a b : Built) : Option Built := if a.Compatible b then some (a.union b) else none

theorem merge?_eq_some {u : Built} : a.merge? b = some u ↔ a.Compatible b ∧ u = a.union b := by
  unfold merge?
  rw [Option.ite_none_right_eq_some, Option.some.injEq, eq_comm]

theorem merge?_comm (a b : Built) : a.merge? b = b.merge? a := by
  have hunion : a.union b = b.union a := Built.ext (Pattern.union_comm _ _)
  apply Option.ext
  intro u
  rw [merge?_eq_some, merge?_eq_some, hunion]
  exact and_congr_left fun _ => ⟨Compatible.symm, Compatible.symm⟩

theorem merge?_assoc (a b c : Built) :
    (a.merge? b).bind (·.merge? c) = (b.merge? c).bind a.merge? := by
  have hassoc : (a.union b).union c = a.union (b.union c) := Built.ext (Pattern.union_assoc _ _ _)
  have hcompatible : (a.Compatible b ∧ (a.union b).Compatible c) ↔
      (b.Compatible c ∧ a.Compatible (b.union c)) :=
    Pattern.compatible_assoc a.wellFormed b.wellFormed c.wellFormed
  apply Option.ext
  intro u
  simp only [Option.bind_eq_some_iff, merge?_eq_some]
  constructor
  · rintro ⟨_, ⟨hab, rfl⟩, habc, rfl⟩
    obtain ⟨hbc, habc'⟩ := hcompatible.1 ⟨hab, habc⟩
    exact ⟨_, ⟨hbc, rfl⟩, habc', hassoc⟩
  · rintro ⟨_, ⟨hbc, rfl⟩, habc, rfl⟩
    obtain ⟨hab, habc'⟩ := hcompatible.2 ⟨hbc, habc⟩
    exact ⟨_, ⟨hab, rfl⟩, habc', hassoc.symm⟩

theorem merge?_self (a : Built) : a.merge? a = some a := by
  refine merge?_eq_some.2 ⟨Pattern.compatible_of_le (le_refl a) (le_refl a), ?_⟩
  exact Built.ext (Pattern.union_self a.pattern).symm

end Built

/-! ## Families -/

/-- A family, and an order in which it is merged two at a time. -/
inductive Grouping (α : Type) where
  | single (a : α)
  | both (l r : Grouping α)

namespace Grouping

variable {α β : Type}

/-- The members of the family, from left to right. -/
def members : Grouping α → List α
  | single a => [a]
  | both l r => l.members ++ r.members

/-- The same order for another family. -/
def map (f : α → β) : Grouping α → Grouping β
  | single a => single (f a)
  | both l r => both (l.map f) (r.map f)

/-- Merges a family with a partial operation. -/
def merge? (f : α → α → Option α) : Grouping α → Option α
  | single a => some a
  | both l r => (l.merge? f).bind fun x => (r.merge? f).bind (f x)

theorem merge?_both_eq_some {f : α → α → Option α} {l r : Grouping α} {u : α} :
    (both l r).merge? f = some u ↔
      ∃ x y, l.merge? f = some x ∧ r.merge? f = some y ∧ f x y = some u := by
  simp only [merge?, Option.bind_eq_some_iff]
  constructor
  · intro ⟨x, hx, y, hy, hu⟩
    exact ⟨x, y, hx, hy, hu⟩
  · intro ⟨x, y, hx, hy, hu⟩
    exact ⟨x, hx, y, hy, hu⟩

variable {g g' : Grouping Built} {u c : Built}

/-- What a family is merged to agrees with whatever all of its members agree with. -/
theorem compatible_merge? (h : g.merge? Built.merge? = some u) :
    u.Compatible c ↔ ∀ a ∈ g.members, a.Compatible c := by
  induction g generalizing u with
  | single a =>
    obtain rfl := Option.some.inj h
    simp [members]
  | both l r ihl ihr =>
    obtain ⟨x, y, hx, hy, hu⟩ := merge?_both_eq_some.1 h
    obtain ⟨hxy, rfl⟩ := Built.merge?_eq_some.1 hu
    rw [Built.compatible_union hxy, ihl hx, ihr hy]
    simp only [members, List.forall_mem_append]

theorem isLUB_merge? (h : g.merge? Built.merge? = some u) : IsLUB {a | a ∈ g.members} u := by
  induction g generalizing u with
  | single a =>
    obtain rfl := Option.some.inj h
    simp [members]
  | both l r ihl ihr =>
    obtain ⟨x, y, hx, hy, hu⟩ := merge?_both_eq_some.1 h
    obtain ⟨hxy, rfl⟩ := Built.merge?_eq_some.1 hu
    -- to be above both parts is to be above all members of both
    rw [isLUB_iff_le_iff]
    intro b
    rw [isLUB_iff_le_iff.1 (Built.isLUB_union hxy), upperBounds_insert, upperBounds_singleton]
    show x ≤ b ∧ y ≤ b ↔ _
    rw [isLUB_iff_le_iff.1 (ihl hx), isLUB_iff_le_iff.1 (ihr hy)]
    simp only [upperBounds, members, List.mem_append, Set.mem_ofPred_eq, or_imp, forall_and]

/-- A family is merged, in whichever order, exactly if no two of its members disagree. -/
theorem exists_merge?_iff :
    (∃ u, g.merge? Built.merge? = some u) ↔ g.members.Pairwise Built.Compatible := by
  induction g with
  | single a => simp [merge?, members]
  | both l r ihl ihr =>
    rw [members, List.pairwise_append, ← ihl, ← ihr]
    constructor
    · intro ⟨u, h⟩
      obtain ⟨x, y, hx, hy, hu⟩ := merge?_both_eq_some.1 h
      refine ⟨⟨x, hx⟩, ⟨y, hy⟩, fun a ha b hb => ?_⟩
      have hay : a.Compatible y := (compatible_merge? hx).1 (Built.merge?_eq_some.1 hu).1 a ha
      exact ((compatible_merge? hy).1 hay.symm b hb).symm
    · intro ⟨⟨x, hx⟩, ⟨y, hy⟩, hpairs⟩
      have hxy : x.Compatible y := by
        refine (compatible_merge? hx).2 fun a ha => Built.Compatible.symm ?_
        exact (compatible_merge? hy).2 fun b hb => (hpairs a ha b hb).symm
      exact ⟨x.union y, merge?_both_eq_some.2 ⟨x, y, hx, hy, Built.merge?_eq_some.2 ⟨hxy, rfl⟩⟩⟩

theorem merge?_built_eq_some :
    g.merge? Built.merge? = some u ↔
      g.members.Pairwise Built.Compatible ∧ IsLUB {a | a ∈ g.members} u := by
  constructor
  · intro h
    exact ⟨exists_merge?_iff.1 ⟨u, h⟩, isLUB_merge? h⟩
  · intro ⟨hpairs, hu⟩
    obtain ⟨v, hv⟩ := exists_merge?_iff.2 hpairs
    rw [hv, (isLUB_merge? hv).unique hu]

/-- Neither the order of the members nor their grouping makes a difference. -/
theorem merge?_perm (h : g.members.Perm g'.members) :
    g.merge? Built.merge? = g'.merge? Built.merge? := by
  apply Option.ext
  intro u
  have hset : {a | a ∈ g.members} = {a | a ∈ g'.members} := Set.ext fun a => h.mem_iff
  rw [merge?_built_eq_some, merge?_built_eq_some, hset, h.pairwise_iff fun hab => hab.symm]

/-! ## Families of encodings -/

theorem relocs_merge? {g : Grouping Candidate} {c : Candidate}
    (h : g.merge? Candidate.join = some c) : c.relocs = g.members.flatMap Candidate.relocs := by
  induction g generalizing c with
  | single a =>
    obtain rfl := Option.some.inj h
    simp [members]
  | both l r ihl ihr =>
    obtain ⟨x, y, hx, hy, hc⟩ := merge?_both_eq_some.1 h
    obtain ⟨_, _, rfl⟩ := Candidate.join_eq_some.1 hc
    rw [members, List.flatMap_append, ← ihl hx, ← ihr hy]
    rfl

theorem map_pattern_join {x y : Candidate} {a b : Built} (hx : x.pattern = a.pattern)
    (hy : y.pattern = b.pattern) (hroom : x.relocs.length + y.relocs.length ≤ maxRelocs) :
    (x.join y).map Candidate.pattern = (a.merge? b).map Built.pattern := by
  unfold Candidate.join Built.merge?
  rw [hx, hy]
  by_cases hab : a.Compatible b
  · rw [if_pos ⟨hab, hroom⟩, if_pos hab]
    rfl
  · rw [if_neg fun h => hab h.1, if_neg hab]
    rfl

/-- Encodings are merged as their patterns are, as long as there is room for their relocations. -/
theorem merge?_join {g : Grouping Candidate} {h : Grouping Built}
    (hpatterns : g.map Candidate.pattern = h.map Built.pattern)
    (hroom : (g.members.flatMap Candidate.relocs).length ≤ maxRelocs) :
    (g.merge? Candidate.join).map Candidate.pattern =
      (h.merge? Built.merge?).map Built.pattern := by
  induction g generalizing h with
  | single c =>
    cases h with
    | single a => exact congrArg some (Grouping.single.inj hpatterns)
    | both l r => simp [map] at hpatterns
  | both l r ihl ihr =>
    cases h with
    | single a => simp [map] at hpatterns
    | both l' r' =>
      obtain ⟨hl, hr⟩ := Grouping.both.inj hpatterns
      rw [members, List.flatMap_append, List.length_append] at hroom
      have hleft := ihl hl (by omega)
      have hright := ihr hr (by omega)
      simp only [merge?]
      -- each half is merged in both families or in neither
      cases hx : l.merge? Candidate.join with
      | none =>
        have hx' : l'.merge? Built.merge? = none := by simpa [hx] using hleft.symm
        simp [hx']
      | some x =>
        rw [hx] at hleft
        obtain ⟨a, ha, hxa⟩ := Option.map_eq_some_iff.1 hleft.symm
        cases hy : r.merge? Candidate.join with
        | none =>
          have hy' : r'.merge? Built.merge? = none := by simpa [hy] using hright.symm
          simp [hy', ha]
        | some y =>
          rw [hy] at hright
          obtain ⟨b, hb, hyb⟩ := Option.map_eq_some_iff.1 hright.symm
          -- the relocations of a half are those of its members
          rw [← relocs_merge? hx, ← relocs_merge? hy] at hroom
          rw [ha, hb]
          exact map_pattern_join hxa.symm hyb.symm hroom

end Grouping

/-- **Union is the join of patterns that agree.** Let patterns that can be built be ordered by what
    they have decided.

    * Two of them agree exactly if they have an upper bound, and then their union is the least one.
      It agrees with a third pattern exactly if both of them do.
    * So the union is commutative, associative and idempotent, each side being defined if the other
      is.
    * A family can be merged, two at a time and in any grouping, exactly if no two of its members
      disagree. The result is the least upper bound of the members, so that it depends neither on
      the grouping nor on the order.
    * Encodings whose relocations have room together are merged as their patterns are. -/
theorem union_is_join :
    (∀ a b : Built, a.Compatible b ↔ BddAbove {a, b}) ∧
    (∀ a b : Built, a.Compatible b → IsLUB {a, b} (a.union b)) ∧
    (∀ a b c : Built, a.Compatible b →
      ((a.union b).Compatible c ↔ a.Compatible c ∧ b.Compatible c)) ∧
    (∀ a b : Built, a.merge? b = b.merge? a) ∧
    (∀ a b c : Built, (a.merge? b).bind (·.merge? c) = (b.merge? c).bind a.merge?) ∧
    (∀ a : Built, a.merge? a = some a) ∧
    (∀ g : Grouping Built,
      ((∃ u, g.merge? Built.merge? = some u) ↔ g.members.Pairwise Built.Compatible) ∧
      ∀ u, g.merge? Built.merge? = some u → IsLUB {a | a ∈ g.members} u) ∧
    (∀ g g' : Grouping Built, g.members.Perm g'.members →
      g.merge? Built.merge? = g'.merge? Built.merge?) ∧
    (∀ (g : Grouping Candidate) (h : Grouping Built),
      g.map Candidate.pattern = h.map Built.pattern →
      (g.members.flatMap Candidate.relocs).length ≤ maxRelocs →
      (g.merge? Candidate.join).map Candidate.pattern =
        (h.merge? Built.merge?).map Built.pattern) := by
  refine ⟨fun a b => Built.compatible_iff_bddAbove, fun a b => Built.isLUB_union,
    fun a b c => Built.compatible_union, Built.merge?_comm, Built.merge?_assoc, Built.merge?_self,
    ?_, fun g g' => Grouping.merge?_perm, fun g h => Grouping.merge?_join⟩
  intro g
  exact ⟨Grouping.exists_merge?_iff, fun u => Grouping.isLUB_merge?⟩

/-- The pattern that a row fixes. -/
def fixedBits (val mask : Word) : Built := ⟨Pattern.fixed val mask, .fixed val mask⟩

/-- An encoding with something left open. -/
def openEncoding : Candidate where
  pattern := Pattern.fixed 0x30 0xF0
  pos := 1
  relocs := [⟨.ofSpan 8 4, .label "L"⟩]

/-- Three rows that share bits and agree are merged to the same in either grouping, while a fourth
    row has another value in a bit of the first. Two encodings are merged as their rows are. -/
theorem union_is_join_sharedBits :
    IsLUB {fixedBits 0x30 0xF0, fixedBits 0x30 0x3C}
      ((fixedBits 0x30 0xF0).union (fixedBits 0x30 0x3C)) ∧
    ¬ BddAbove {fixedBits 0x30 0xF0, fixedBits 0x10 0x30} ∧
    (∃ u,
      (Grouping.both (.both (.single (fixedBits 0x30 0xF0)) (.single (fixedBits 0x30 0x3C)))
        (.single (fixedBits 0x2 0xF))).merge? Built.merge? = some u ∧
      (Grouping.both (.single (fixedBits 0x2 0xF))
        (.both (.single (fixedBits 0x30 0x3C)) (.single (fixedBits 0x30 0xF0)))).merge?
          Built.merge? = some u) ∧
    (openEncoding.join { pattern := Pattern.fixed 0x30 0x3C, pos := 2 }).map Candidate.pattern =
      some (Pattern.fixed 0x30 0xFC) := by
  obtain ⟨hbound, hlub, _, _, _, _, hfamily, hperm, hjoin⟩ := union_is_join
  refine ⟨hlub _ _ (by decide), ?_, ?_, ?_⟩
  · rw [← hbound]
    decide
  · obtain ⟨u, hu⟩ := (hfamily (.both (.both (.single (fixedBits 0x30 0xF0))
      (.single (fixedBits 0x30 0x3C))) (.single (fixedBits 0x2 0xF)))).1.2 (by decide)
    refine ⟨u, hu, ?_⟩
    rw [← hu]
    exact hperm _ _ (List.reverse_perm [fixedBits 0x30 0xF0, fixedBits 0x30 0x3C, fixedBits 0x2 0xF])
  · exact hjoin
      (.both (.single openEncoding) (.single { pattern := Pattern.fixed 0x30 0x3C, pos := 2 }))
      (.both (.single (fixedBits 0x30 0xF0)) (.single (fixedBits 0x30 0x3C))) rfl (by decide)

end TableAsm
