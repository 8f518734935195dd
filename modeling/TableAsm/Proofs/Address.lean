import TableAsm.Proofs.Deferral
import TableAsm.Proofs.Renaming

/-! # Memory operands keep their address

  An address is taken apart into a base, a scaled index and an offset. What
  is computed from these parts, when the program runs, is the address that
  was written.

  - `Expr.value` is the value of an expression under a `Valuation`, which
    has values for the registers too. On immediates it is `Expr.eval`.
  - `Expr.terms` are the terms of an address with their signs. An address
    is split by adding them one by one (`AddressTerms.split_eq_foldlM`).
  - `AddressTerms.adds_foldlM` and `AddressTerms.total_foldlM` say that
    none of them is lost, by name and by value.
  - `Register.value_unscale` says that what is taken off a scaled register
    is a power of two.
  - `Memory.Fills` says which terms the slots of an operand were filled
    with, and `memory_keeps_address` is the result.
-/

namespace TableAsm

/-! ## Values -/

/-- Values for the names in an expression. -/
structure Valuation where
  labels : LabelTable
  /-- The contents of the registers, by name. -/
  reg : String → Word
  /-- What the placeholder stands for. -/
  discard : Word

variable {env : Valuation} {e : Expr} {v w : Word}

namespace Expr

/-- The value of an expression in which registers may stand. -/
def value (env : Valuation) : Expr → Except EvalError Word
  | .num n => .ok n
  | .label name =>
    match env.labels.get? name with
    | some v => .ok v
    | none => .error (.undefinedLabel name)
  | .reg name => .ok (env.reg name)
  | .discard => .ok env.discard
  | .neg e => do
    let v ← e.value env
    return -v
  | .not e => do
    let v ← e.value env
    return ~~~ v
  | .bin op a b => do
    let x ← a.value env
    let y ← b.value env
    op.apply x y
  | _ => .error .notImmediate

theorem value_neg : (Expr.neg e).value env = .ok v ↔ ∃ x, e.value env = .ok x ∧ -x = v :=
  bind_pure_eq_ok

theorem value_bin {op : BinOp} {a b : Expr} :
    (Expr.bin op a b).value env = .ok v ↔
      ∃ x y, a.value env = .ok x ∧ b.value env = .ok y ∧ op.apply x y = .ok v := by
  show (a.value env >>= fun x => b.value env >>= fun y => op.apply x y) = .ok v ↔ _
  simp only [bind_eq_ok]
  constructor
  · intro ⟨x, hx, y, hy, hv⟩
    exact ⟨x, y, hx, hy, hv⟩
  · intro ⟨x, y, hx, hy, hv⟩
    exact ⟨x, hx, y, hy, hv⟩

/-- Immediates have the value that they are encoded with. -/
theorem value_eq_eval (h : e.isImm = true) : e.value env = e.eval env.labels := by
  fun_induction isImm e with
  | case1 n => rfl
  | case2 name => rfl
  | case3 e ih =>
    simp only [value, eval]
    rw [ih h]
  | case4 e ih =>
    simp only [value, eval]
    rw [ih h]
  | case5 op a b iha ihb =>
    rw [Bool.and_eq_true] at h
    simp only [value, eval]
    rw [iha h.1, ihb h.2]
  | case6 => simp at h

/-! ## Terms -/

/-- The terms of an address, each with whether it is taken off. An immediate is one term. -/
def terms (e : Expr) (negated : Bool) : List (Bool × Expr) :=
  if e.isImm then [(negated, e)]
  else
    match e with
    | .bin .add a b => a.terms negated ++ b.terms negated
    | .bin .sub a b => a.terms negated ++ b.terms (!negated)
    | .neg a => a.terms (!negated)
    | e => [(negated, e)]

/-- The terms of an address that are no immediates. -/
def dynamicTerms (e : Expr) (negated : Bool) : List (Bool × Expr) :=
  (e.terms negated).filter fun t => !t.2.isImm

end Expr

/-! ## Sums -/

/-- A word with a sign. -/
def Word.signed (negated : Bool) (v : Word) : Word := if negated then -v else v

namespace Word

theorem signed_add (negated : Bool) (v w : Word) :
    signed negated (v + w) = signed negated v + signed negated w := by
  cases negated <;> grind [signed]

theorem signed_sub (negated : Bool) (v w : Word) :
    signed negated (v - w) = signed negated v + signed (!negated) w := by
  cases negated <;> grind [signed]

theorem signed_neg (negated : Bool) (v : Word) : signed negated (-v) = signed (!negated) v := by
  cases negated <;> grind [signed]

end Word

/-- The sum of some terms. -/
inductive Sums (env : Valuation) : List (Bool × Expr) → Word → Prop
  | nil : Sums env [] 0#64
  | cons {negated : Bool} {e : Expr} {xs : List (Bool × Expr)} {v w : Word}
    (he : e.value env = .ok v) (h : Sums env xs w) :
    Sums env ((negated, e) :: xs) (Word.signed negated v + w)

namespace Sums

variable {xs ys : List (Bool × Expr)}

theorem single (negated : Bool) (he : e.value env = .ok v) :
    Sums env [(negated, e)] (Word.signed negated v) := by
  have h : Sums env [(negated, e)] (Word.signed negated v + 0#64) := .cons he .nil
  rwa [BitVec.add_zero] at h

theorem append (hx : Sums env xs v) (hy : Sums env ys w) : Sums env (xs ++ ys) (v + w) := by
  induction hx with
  | nil =>
    rw [BitVec.zero_add]
    exact hy
  | cons he _ ih =>
    rw [BitVec.add_assoc]
    exact .cons he ih

theorem of_append (h : Sums env (xs ++ ys) w) :
    ∃ v v', Sums env xs v ∧ Sums env ys v' ∧ w = v + v' := by
  induction xs generalizing w with
  | nil => exact ⟨0#64, w, .nil, h, (BitVec.zero_add w).symm⟩
  | cons x xs ih =>
    cases h with
    | cons he h =>
      obtain ⟨v, v', hv, hv', rfl⟩ := ih h
      exact ⟨_, v', .cons he hv, hv', (BitVec.add_assoc _ v v').symm⟩

theorem perm (hperm : xs.Perm ys) (h : Sums env xs w) : Sums env ys w := by
  induction hperm generalizing w with
  | nil => exact h
  | cons x _ ih =>
    cases h with
    | cons he h => exact .cons he (ih h)
  | swap x y xs =>
    cases h with
    | cons hy h =>
      cases h with
      | cons hx h =>
        rw [← BitVec.add_assoc, BitVec.add_comm (Word.signed _ _), BitVec.add_assoc]
        exact .cons hx (.cons hy h)
  | trans _ _ ih ih' => exact ih' (ih h)

/-- A slot with one term or none. -/
theorem value_slot {o : Option Expr} (h : Sums env (o.toList.map (Prod.mk false)) w) :
    (o.getD (.num 0)).value env = .ok w := by
  cases o with
  | none =>
    cases h with
    | nil => rfl
  | some e =>
    cases h with
    | cons he h =>
      cases h with
      | nil =>
        rw [BitVec.add_zero]
        exact he

end Sums

/-- The terms of an address come to its value. -/
theorem Expr.sums_terms (e : Expr) (negated : Bool) {v : Word} (he : e.value env = .ok v) :
    Sums env (e.terms negated) (Word.signed negated v) := by
  unfold terms
  split
  · exact .single negated he
  · split
    · next a b _ =>
      obtain ⟨x, y, hx, hy, hv⟩ := value_bin.1 he
      obtain rfl : x + y = v := Except.ok.inj hv
      rw [Word.signed_add]
      exact (sums_terms a negated hx).append (sums_terms b negated hy)
    · next a b _ =>
      obtain ⟨x, y, hx, hy, hv⟩ := value_bin.1 he
      obtain rfl : x - y = v := Except.ok.inj hv
      rw [Word.signed_sub]
      exact (sums_terms a negated hx).append (sums_terms b (!negated) hy)
    · next a _ =>
      obtain ⟨x, hx, rfl⟩ := value_neg.1 he
      rw [Word.signed_neg]
      exact sums_terms a (!negated) hx
    · exact .single negated he

/-! ## Splitting -/

namespace AddressTerms

variable {t t' : AddressTerms} {x : Bool × Expr} {xs : List (Bool × Expr)}

/-- Adds one term. -/
def add (t : AddressTerms) (x : Bool × Expr) : Option AddressTerms :=
  if x.2.isImm then some (t.addOffset x.2 x.1)
  else if x.1 || maxDynamic ≤ t.dynamic.length then none
  else some { t with dynamic := t.dynamic ++ [x.2] }

/-- An address is split term by term. -/
theorem split_eq_foldlM (e : Expr) (negated : Bool) (t : AddressTerms) :
    split e negated t = (e.terms negated).foldlM add t := by
  unfold split Expr.terms
  split
  · next himm => simp [add, himm]
  · next himm =>
    split
    · next _ a b =>
      show (split a negated t).bind (split b negated) =
        (a.terms negated ++ b.terms negated).foldlM add t
      rw [List.foldlM_append, ← split_eq_foldlM a]
      refine congrArg (Option.bind _) ?_
      funext t₁
      exact split_eq_foldlM b negated t₁
    · next _ a b =>
      show (split a negated t).bind (split b (!negated)) =
        (a.terms negated ++ b.terms (!negated)).foldlM add t
      rw [List.foldlM_append, ← split_eq_foldlM a]
      refine congrArg (Option.bind _) ?_
      funext t₁
      exact split_eq_foldlM b (!negated) t₁
    · next _ a => exact split_eq_foldlM a (!negated) t
    · simp [add, himm]

/-- What becomes of a term. -/
theorem add_cases (h : t.add x = some t') :
    (x.2.isImm = true ∧ t' = t.addOffset x.2 x.1) ∨
    (x.2.isImm = false ∧ x.1 = false ∧ t.dynamic.length < maxDynamic ∧
      t' = { t with dynamic := t.dynamic ++ [x.2] }) := by
  unfold add at h
  split at h
  · next himm => exact .inl ⟨himm, (Option.some.inj h).symm⟩
  · next himm =>
    split at h
    · simp at h
    · next hroom =>
      simp only [Bool.or_eq_true, decide_eq_true_eq, not_or, Bool.not_eq_true, Nat.not_le] at hroom
      exact .inr ⟨by simpa using himm, hroom.1, hroom.2, (Option.some.inj h).symm⟩

/-- What becomes of some terms: those that are no immediates are kept in order, none of them is
    taken off, and there is an offset if there was an immediate. -/
structure Adds (xs : List (Bool × Expr)) (t t' : AddressTerms) : Prop where
  dynamic_eq : t'.dynamic.map (Prod.mk false) =
    t.dynamic.map (Prod.mk false) ++ xs.filter fun x => !x.2.isImm
  length_le : t.dynamic.length ≤ maxDynamic → t'.dynamic.length ≤ maxDynamic
  offset_eq : t'.offset = none → t.offset = none ∧ ∀ x ∈ xs, x.2.isImm = false

theorem adds_foldlM (h : xs.foldlM add t = some t') : Adds xs t t' := by
  induction xs generalizing t with
  | nil =>
    obtain rfl := Option.some.inj h
    exact ⟨by simp, id, fun hnone => ⟨hnone, by simp⟩⟩
  | cons x xs ih =>
    rw [List.foldlM_cons] at h
    obtain ⟨t₁, hadd, hrest⟩ := Option.bind_eq_some_iff.1 h
    obtain ⟨hdynamic, hlength, hoffset⟩ := ih hrest
    rcases add_cases hadd with ⟨himm, rfl⟩ | ⟨himm, hsign, hroom, rfl⟩
    · refine ⟨?_, hlength, ?_⟩
      · rw [hdynamic, List.filter_cons_of_neg (by simp [himm])]
        rfl
      · intro hnone
        simp [addOffset] at hoffset
        exact absurd hnone hoffset
    · obtain ⟨negated, e⟩ := x
      obtain rfl : negated = false := hsign
      refine ⟨?_, ?_, ?_⟩
      · rw [hdynamic, List.filter_cons_of_pos (by simp [himm])]
        simp
      · intro _
        refine hlength ?_
        rw [List.length_append]
        exact hroom
      · intro hnone
        obtain ⟨hbefore, hnoimm⟩ := hoffset hnone
        refine ⟨hbefore, ?_⟩
        intro y hy
        rcases List.mem_cons.1 hy with rfl | hy
        · exact himm
        · exact hnoimm y hy

/-- What the terms that have been found come to. -/
def Total (env : Valuation) (t : AddressTerms) (w : Word) : Prop :=
  ∃ x y, (t.offset.getD (.num 0)).value env = .ok x ∧
    Sums env (t.dynamic.map (Prod.mk false)) y ∧ w = x + y

theorem total_addOffset (ht : t.Total env w) (negated : Bool) (he : e.value env = .ok v) :
    (t.addOffset e negated).Total env (w + Word.signed negated v) := by
  obtain ⟨x, y, hx, hy, rfl⟩ := ht
  obtain ⟨offset, dynamic⟩ := t
  cases offset with
  | none =>
    obtain rfl : 0 = x := Except.ok.inj hx
    cases negated with
    | false => exact ⟨v, y, he, hy, by grind [Word.signed]⟩
    | true => exact ⟨-v, y, Expr.value_neg.2 ⟨v, he, rfl⟩, hy, by grind [Word.signed]⟩
  | some acc =>
    cases negated with
    | false =>
      exact ⟨x + v, y, Expr.value_bin.2 ⟨x, v, hx, he, rfl⟩, hy, by grind [Word.signed]⟩
    | true =>
      exact ⟨x - v, y, Expr.value_bin.2 ⟨x, v, hx, he, rfl⟩, hy, by grind [Word.signed]⟩

theorem total_foldlM (h : xs.foldlM add t = some t') (ht : t.Total env w) (hx : Sums env xs v) :
    t'.Total env (w + v) := by
  induction hx generalizing t w with
  | nil =>
    obtain rfl := Option.some.inj h
    rwa [BitVec.add_zero]
  | @cons negated e xs v₁ w₁ he _ ih =>
    rw [List.foldlM_cons] at h
    obtain ⟨t₁, hadd, hrest⟩ := Option.bind_eq_some_iff.1 h
    rw [← BitVec.add_assoc]
    refine ih hrest ?_
    rcases add_cases hadd with ⟨_, rfl⟩ | ⟨_, hsign, _, rfl⟩
    · exact total_addOffset ht negated he
    · obtain rfl : negated = false := hsign
      obtain ⟨x, y, hx, hy, rfl⟩ := ht
      refine ⟨x, y + v₁, hx, ?_, BitVec.add_assoc x y v₁⟩
      rw [List.map_append]
      exact hy.append (.single false he)

end AddressTerms

/-! ## Scaled registers -/

theorem Word.eq_twoPow_of_power? {k : Nat} (h : Word.power? v = some k) :
    v = BitVec.twoPow 64 k := by
  unfold Word.power? at h
  simp only at h
  split at h
  · next hpower =>
    obtain rfl := Option.some.inj h
    apply BitVec.eq_of_toNat_eq
    rw [Nat.one_shiftLeft] at hpower
    rw [BitVec.toNat_twoPow, ← hpower, Nat.mod_eq_of_lt v.isLt]
  · simp at h

/-- Shift amounts that are not told apart have the same effect. -/
theorem Register.shiftLeft_min (v : Word) (n : Nat) : v <<< min n maxShift = v <<< n := by
  by_cases h : n ≤ maxShift
  · rw [Nat.min_eq_left h]
  · have hmax : 64 ≤ maxShift := by decide
    rw [Nat.min_eq_right (Nat.le_of_not_le h), BitVec.shiftLeft_eq_zero hmax,
      BitVec.shiftLeft_eq_zero (by omega)]

/-- What is taken off a scaled register is a power of two. -/
theorem Register.value_unscale {inner : Expr} {shift n : Nat}
    (h : unscale e shift = some (inner, n)) (he : e.value env = .ok v) :
    ∃ x, inner.value env = .ok x ∧ v <<< shift = x <<< n := by
  fun_induction unscale e shift generalizing v with
  | case1 a k shift ih =>
    obtain ⟨x, y, hx, hy, hv⟩ := Expr.value_bin.1 he
    obtain rfl : k = y := Except.ok.inj hy
    obtain rfl : Word.shl x k.toNat = v := Except.ok.inj hv
    rw [Word.shl_eq, ← BitVec.shiftLeft_add, Nat.add_comm, ← shiftLeft_min]
    exact ih h hx
  | case2 a m shift k hk ih =>
    obtain ⟨x, y, hx, hy, hv⟩ := Expr.value_bin.1 he
    obtain rfl : m = y := Except.ok.inj hy
    obtain rfl : x * m = v := Except.ok.inj hv
    rw [Word.eq_twoPow_of_power? hk, BitVec.mul_twoPow_eq_shiftLeft, ← BitVec.shiftLeft_add,
      Nat.add_comm, ← shiftLeft_min]
    exact ih h hx
  | case3 => simp at h
  | case4 m b shift _ k hk ih =>
    obtain ⟨x, y, hx, hy, hv⟩ := Expr.value_bin.1 he
    obtain rfl : m = x := Except.ok.inj hx
    obtain rfl : m * y = v := Except.ok.inj hv
    rw [BitVec.mul_comm, Word.eq_twoPow_of_power? hk, BitVec.mul_twoPow_eq_shiftLeft,
      ← BitVec.shiftLeft_add, Nat.add_comm, ← shiftLeft_min]
    exact ih h hy
  | case5 => simp at h
  | case6 =>
    simp only [Option.some.injEq, Prod.mk.injEq] at h
    obtain ⟨rfl, rfl⟩ := h
    exact ⟨v, he, rfl⟩

/-! ## Slots -/

namespace Memory

/-- The terms of an address, by the slots of the operand that they go into. -/
structure Slots where
  base : Option Expr
  /-- The index with its scale. -/
  index : Option Expr
  /-- What is left of the index when its scale is taken off. -/
  register : Expr
  offset : Option Expr

/-- The power of two that the operand scales its index by. -/
def shift (m : Memory) : Nat := (m.scaled.map Prod.snd).getD 0

/-- A field takes an offset, and a literal zero if there is none. -/
def FillsOffset : Option Field → Option Expr → Candidate → Candidate → Prop
  | some f, x, c, d => c.place f (x.getD (.num 0)) = some d
  | none, x, c, d => x = none ∧ d = c

/-- A slot takes a base, and a literal zero if there is none. -/
def FillsBase (sel : Selector) : Option Register → Option Expr → Pattern → Pattern → Prop
  | some r, x, p, q => r.encode sel (x.getD (.num 0)) p = some q
  | none, x, p, q => x = none ∧ q = p

/-- A slot takes the register of an index, which has the scale of the slot. -/
def FillsIndex (sel : Selector) :
    Option (Register × Nat) → Option Expr → Expr → Pattern → Pattern → Prop
  | some (r, shift), x, inner, p, q =>
    Register.unscale (x.getD (.num 0)) 0 = some (inner, shift) ∧ r.encode sel inner p = some q
  | none, x, inner, p, q => x = none ∧ inner = .num 0 ∧ q = p

/-- The second candidate is the first one after the number of the address space has been written
    and each slot has been filled. Where there is no slot there is no term for it. -/
def Fills (sel : Selector) (m : Memory) (space : Option String) (u : Slots)
    (c d : Candidate) : Prop :=
  ∃ p₁ c₁ p₂ p₃, m.encodeSpace space c.pattern = some p₁ ∧
    FillsOffset m.offset u.offset { c with pattern := p₁ } c₁ ∧
    FillsBase sel m.base u.base c₁.pattern p₂ ∧
    FillsIndex sel m.scaled u.index u.register p₂ p₃ ∧ d = { c₁ with pattern := p₃ }

variable {sel : Selector} {m : Memory} {c d : Candidate} {p q : Pattern}

theorem fillsIndex_of_encodeScaled {scaled : Register × Nat} {x : Option Expr}
    (h : scaled.1.encodeScaled sel scaled.2 (x.getD (.num 0)) p = some q) :
    ∃ inner, FillsIndex sel (some scaled) x inner p q := by
  unfold Register.encodeScaled at h
  split at h
  · next inner n hn =>
    split at h
    · next hshift => exact ⟨inner, hshift ▸ hn, h⟩
    · simp at h
  · simp at h

theorem toList_append_toList {xs : List Expr} (h : xs.length ≤ 2) :
    xs[0]?.toList ++ xs[1]?.toList = xs := by
  cases xs with
  | nil => rfl
  | cons x xs =>
    cases xs with
    | nil => rfl
    | cons y xs =>
      obtain rfl : xs = [] := List.length_eq_zero_iff.1 (by simpa using h)
      rfl

/-- The terms that are no immediates go into the slots, one way or the other. -/
theorem fills_of_encodeRegisters {dynamic : List Expr}
    (hlength : dynamic.length ≤ AddressTerms.maxDynamic)
    (h : m.encodeRegisters sel dynamic p = some q) :
    ∃ base index inner p₂, FillsBase sel m.base base p p₂ ∧
      FillsIndex sel m.scaled index inner p₂ q ∧
      (base.toList ++ index.toList).Perm dynamic := by
  have hdynamic := toList_append_toList hlength
  have hone : dynamic.length < 2 → dynamic[1]? = none := fun h => List.getElem?_eq_none (by omega)
  unfold encodeRegisters at h
  simp only [List.getD_eq_getElem?_getD] at h
  split at h
  · next base scaled hb hs =>
    rw [hb, hs]
    rcases Option.or_eq_some_iff.1 h with hpair | ⟨_, hpair⟩
    · obtain ⟨p₂, hbase, hscaled⟩ := Option.bind_eq_some_iff.1 hpair
      obtain ⟨inner, hindex⟩ := fillsIndex_of_encodeScaled hscaled
      exact ⟨_, _, inner, p₂, hbase, hindex, .of_eq hdynamic⟩
    · obtain ⟨p₂, hbase, hscaled⟩ := Option.bind_eq_some_iff.1 hpair
      obtain ⟨inner, hindex⟩ := fillsIndex_of_encodeScaled hscaled
      exact ⟨_, _, inner, p₂, hbase, hindex, List.perm_append_comm.trans (.of_eq hdynamic)⟩
  · next base hb hs =>
    split at h
    · next hlt =>
      rw [hb, hs]
      rw [hone hlt] at hdynamic
      exact ⟨_, none, .num 0, q, h, ⟨rfl, rfl, rfl⟩, .of_eq hdynamic⟩
    · simp at h
  · next scaled hb hs =>
    split at h
    · next hlt =>
      rw [hb, hs]
      rw [hone hlt] at hdynamic
      obtain ⟨inner, hindex⟩ := fillsIndex_of_encodeScaled h
      exact ⟨none, _, inner, p, ⟨rfl, rfl⟩, hindex, .of_eq (by simpa using hdynamic)⟩
    · simp at h
  · next hb hs =>
    split at h
    · next hnil =>
      obtain rfl := Option.some.inj h
      rw [hb, hs]
      exact ⟨none, none, .num 0, p, ⟨rfl, rfl⟩, ⟨rfl, rfl, rfl⟩, by simp [hnil]⟩
    · simp at h

theorem isImm_of_place {f : Field} (h : c.place f e = some d) : e.isImm = true := by
  rcases Candidate.place_cases h with ⟨v, _, hconst, _⟩ | ⟨himm, _⟩
  · exact Expr.isImm_of_eval (Expr.const?_eq_some.1 hconst)
  · exact himm

/-- What the offset field is filled with, as an immediate: without an increment the offset of the
    address, and otherwise the increment, in an address that has no offset. -/
theorem fills_of_encodeOffset {step : Option (Timing × Expr)} {t : AddressTerms}
    (h : m.encodeOffset step t c = some d) :
    ∃ offset, FillsOffset m.offset offset c d ∧ (offset.getD (.num 0)).isImm = true ∧
      (step = none → offset = t.offset) ∧
      (∀ timing amount, step = some (timing, amount) → offset = some amount ∧ t.offset = none) := by
  unfold encodeOffset at h
  split at h
  · next f hf =>
    obtain ⟨x, hx, hplace⟩ := Option.bind_eq_some_iff.1 h
    have himm := isImm_of_place hplace
    rw [hf]
    unfold offsetExpr? at hx
    split at hx
    · obtain rfl := Option.some.inj hx
      exact ⟨t.offset, hplace, himm, fun _ => rfl, by simp⟩
    · next want got amount _ =>
      split at hx
      · next hnone =>
        obtain rfl := Option.some.inj hx
        refine ⟨some amount, hplace, himm, by simp, ?_⟩
        intro timing amount' hstep
        simp only [Option.some.injEq, Prod.mk.injEq] at hstep
        exact ⟨congrArg some hstep.2, Option.isNone_iff_eq_none.1 hnone.2⟩
      · simp at hx
    · simp at hx
  · next hf =>
    split at h
    · next hnone =>
      obtain rfl := Option.some.inj h
      rw [Option.isNone_iff_eq_none, Option.isNone_iff_eq_none] at hnone
      rw [hf]
      exact ⟨none, ⟨rfl, rfl⟩, rfl, fun _ => hnone.1.symm, by simp [hnone.2]⟩
    · simp at h

/-- A term in the slot for an index is its register times the power of two of the slot. -/
theorem value_register {scaled : Option (Register × Nat)} {index : Option Expr} {inner : Expr}
    (h : FillsIndex sel scaled index inner p q) (hv : (index.getD (.num 0)).value env = .ok v) :
    ∃ x, inner.value env = .ok x ∧ v = x * BitVec.twoPow 64 ((scaled.map Prod.snd).getD 0) := by
  cases scaled with
  | none =>
    obtain ⟨rfl, rfl, _⟩ := h
    obtain rfl : 0 = v := Except.ok.inj hv
    exact ⟨0, rfl, rfl⟩
  | some scaled =>
    obtain ⟨r, shift⟩ := scaled
    obtain ⟨x, hx, hshift⟩ := Register.value_unscale h.1 hv
    rw [BitVec.shiftLeft_zero] at hshift
    exact ⟨x, hx, hshift.trans (BitVec.mul_twoPow_eq_shiftLeft x shift).symm⟩

end Memory

/-- **Memory operands keep their address.** If a memory operand is encoded, then there are terms
    that its slots were filled with, such that:

    * these are the terms of the address that are no immediates, each of them once and none
      taken off;
    * without an increment, and whatever the registers hold, the address is the base, plus the
      register of the index times its power of two, plus the expression in the offset field, all
      modulo `2 ^ 64`, where a slot that is not used counts zero;
    * with an increment, this is what the offset field is filled with, with its sign. The address
      has no immediate terms, and it is the base plus the scaled index. -/
theorem memory_keeps_address {sel : Selector} {m : Memory} {e : Expr} {c d : Candidate}
    (h : m.encode sel e c = some d) :
    ∃ u : Memory.Slots, m.Fills sel (Reference.ofExpr e).space u c d ∧
      ((u.base.toList ++ u.index.toList).map (Prod.mk false)).Perm
        ((Reference.ofExpr e).addr.dynamicTerms false) ∧
      ((Reference.ofExpr e).step = none →
        ∀ env v, (Reference.ofExpr e).addr.value env = .ok v →
          ∃ b i o, (u.base.getD (.num 0)).value env = .ok b ∧ u.register.value env = .ok i ∧
            (u.offset.getD (.num 0)).eval env.labels = .ok o ∧
            v = b + i * BitVec.twoPow 64 m.shift + o) ∧
      (∀ space addr timing down amount, e = .memStep space addr timing down amount →
        u.offset = some (if down then .neg amount else amount) ∧
        (∀ x ∈ addr.terms false, x.2.isImm = false) ∧
        ∀ env v, addr.value env = .ok v →
          ∃ b i, (u.base.getD (.num 0)).value env = .ok b ∧ u.register.value env = .ok i ∧
            v = b + i * BitVec.twoPow 64 m.shift) := by
  obtain ⟨p₁, t, c₁, p₃, hspace, hsplit, hoffset, hregisters, rfl⟩ := Memory.encode_cases h
  rw [AddressTerms.split_eq_foldlM] at hsplit
  obtain ⟨hdynamic, hlength, hnoimm⟩ := AddressTerms.adds_foldlM hsplit
  obtain ⟨offset, hfill, himm, hstill, hmoved⟩ := Memory.fills_of_encodeOffset hoffset
  obtain ⟨base, index, inner, p₂, hbase, hindex, hperm⟩ :=
    Memory.fills_of_encodeRegisters (hlength (by simp)) hregisters
  have hterms := hperm.map (Prod.mk false)
  -- the parts of the address come to its value
  have hvalue : ∀ env v, (Reference.ofExpr e).addr.value env = .ok v →
      ∃ b i o, (base.getD (.num 0)).value env = .ok b ∧ inner.value env = .ok i ∧
        (t.offset.getD (.num 0)).value env = .ok o ∧ v = b + i * BitVec.twoPow 64 m.shift + o := by
    intro env v hv
    have hempty : AddressTerms.Total env {} 0#64 := ⟨0#64, 0#64, rfl, .nil, rfl⟩
    obtain ⟨o, s, ho, hs, hsum⟩ :=
      AddressTerms.total_foldlM hsplit hempty (Expr.sums_terms _ false hv)
    have hslots := hs.perm hterms.symm
    rw [List.map_append] at hslots
    obtain ⟨b, x, hb, hx, rfl⟩ := hslots.of_append
    obtain ⟨i, hi, rfl⟩ := Memory.value_register hindex hx.value_slot
    refine ⟨b, i, o, hb.value_slot, hi, ho, ?_⟩
    rw [BitVec.zero_add] at hsum
    rw [BitVec.add_comm _ o]
    exact hsum
  refine ⟨⟨base, index, inner, offset⟩, ⟨p₁, c₁, p₂, p₃, hspace, hfill, hbase, hindex, rfl⟩,
    hterms.trans (.of_eq hdynamic), ?_, ?_⟩
  · intro hstep env v hv
    obtain ⟨b, i, o, hb, hi, ho, hsum⟩ := hvalue env v hv
    rw [← hstill hstep, Expr.value_eq_eval himm] at ho
    exact ⟨b, i, o, hb, hi, ho, hsum⟩
  · rintro space addr timing down amount rfl
    obtain ⟨hamount, hnone⟩ := hmoved _ _ rfl
    refine ⟨hamount, (hnoimm hnone).2, ?_⟩
    intro env v hv
    obtain ⟨b, i, o, hb, hi, ho, hsum⟩ := hvalue env v hv
    rw [hnone] at ho
    obtain rfl : 0#64 = o := Except.ok.inj ho
    rw [BitVec.add_zero] at hsum
    exact ⟨b, i, hb, hi, hsum⟩

/-- A memory operand with all its slots, in one of several address spaces. -/
def indexedMemory (timing : Option Timing) : Memory where
  space := some "g"
  index := some (Field.ofSpan 40 4)
  base := some { field := some (Field.ofSpan 0 6), name := "$r" }
  offset := some (Field.signedSpan 16 12)
  scaled := some ({ field := some (Field.ofSpan 8 6), name := "$r" }, 2)
  timing := timing

/-- An index that is scaled in two ways, and behind it the base. -/
def indexBeforeBase : Expr :=
  .bin .add (.bin .shl (.bin .mul (.num 2) (.reg "$r2")) (.num 1)) (.reg "$r1")

/-- Values for `indexBeforeBase`: the base is `0x1000` and the register of the index is 7. -/
def indexedValuation : Valuation where
  labels := ⟨[("L", 0x100)]⟩
  reg name := if name = "$r1" then 0x1000 else 7
  discard := 0

/-- The second term goes into the slot for the base, in an address with an offset and in one that
    is moved down. -/
theorem memory_keeps_address_swapped :
    (∃ d u, (indexedMemory none).encode ⟨0, 0⟩
        (.mem "g3" (.bin .sub (.bin .sub indexBeforeBase (.num 8)) (.neg (.label "L"))))
        { pos := 1 } = some d ∧
      (indexedMemory none).Fills ⟨0, 0⟩ (some "g3") u { pos := 1 } d ∧
      ∃ b i o, (u.base.getD (.num 0)).value indexedValuation = .ok b ∧
        u.register.value indexedValuation = .ok i ∧
        (u.offset.getD (.num 0)).eval indexedValuation.labels = .ok o ∧
        (0x1114 : Word) = b + i * BitVec.twoPow 64 2 + o) ∧
    (∃ d u, (indexedMemory (some .post)).encode ⟨0, 0⟩
        (.memStep "g3" indexBeforeBase .post true (.num 4)) { pos := 1 } = some d ∧
      (indexedMemory (some .post)).Fills ⟨0, 0⟩ (some "g3") u { pos := 1 } d ∧
      u.offset = some (.neg (.num 4))) := by
  refine ⟨?_, ?_⟩
  · have hsome : ((indexedMemory none).encode ⟨0, 0⟩
        (.mem "g3" (.bin .sub (.bin .sub indexBeforeBase (.num 8)) (.neg (.label "L"))))
        { pos := 1 }).isSome = true := by
      decide +kernel
    obtain ⟨d, hd⟩ := Option.isSome_iff_exists.1 hsome
    obtain ⟨u, hfills, _, hvalue, _⟩ := memory_keeps_address hd
    have hparts := hvalue rfl indexedValuation 0x1114 (by decide +kernel)
    exact ⟨d, u, hd, hfills, hparts⟩
  · have hsome : ((indexedMemory (some .post)).encode ⟨0, 0⟩
        (.memStep "g3" indexBeforeBase .post true (.num 4)) { pos := 1 }).isSome = true := by
      decide +kernel
    obtain ⟨d, hd⟩ := Option.isSome_iff_exists.1 hsome
    obtain ⟨u, hfills, _, _, hmoved⟩ := memory_keeps_address hd
    exact ⟨d, u, hd, hfills, (hmoved _ _ _ _ _ rfl).1⟩

end TableAsm
