import Mathlib.Logic.Function.Basic
import TableAsm.Proofs.Labels
import TableAsm.Proofs.Parts

/-! # Renaming labels in instructions

  A label is looked up by its name, and nothing else is ever done with
  the name. So everything that is computed from operands commutes with a
  renaming of labels, as long as different labels keep different names.

  - `Expr.rename` renames the labels in an operand, and
    `LabelTable.rename` those in a table. A renamed expression has the
    same value, or fails in the same way (`Expr.eval_rename`).
  - Encodings hold expressions only in their relocations, and
    `Candidate.rename` renames them there. Every atom but a keyword
    commutes with this (`Leaf.candidate?_rename`).
  - `Isa.encodings_rename` is the conclusion for instructions. A keyword
    is the one thing that can tell a label from another by its name, so
    there may be none in the tables (`Isa.KeywordFree`).
-/

namespace TableAsm

/-! ## Outcomes -/

/-- Applies one function to a result and another one to an error. -/
def mapBoth {ε ε' α β : Type} (f : ε → ε') (g : α → β) : Except ε α → Except ε' β
  | .ok a => .ok (g a)
  | .error e => .error (f e)

theorem eq_ok_of_mapBoth {ε ε' α β : Type} {f : ε → ε'} {g : α → β} {x : Except ε α}
    {y : Except ε' β} {a : α} (h : y = mapBoth f g x) (hx : x = .ok a) : y = .ok (g a) := by
  rw [h, hx]
  rfl

theorem eq_error_of_mapBoth {ε ε' α β : Type} {f : ε → ε'} {g : α → β} {x : Except ε α}
    {y : Except ε' β} {e : ε} (h : y = mapBoth f g x) (hx : x = .error e) : y = .error (f e) := by
  rw [h, hx]
  rfl

/-- One computation after another. -/
theorem mapBoth_bind {ε ε' α α' β β' : Type} {f : ε → ε'} {g : α → α'} {g' : β → β'}
    {x : Except ε α} {k : α → Except ε β} {k' : α' → Except ε' β'}
    (h : ∀ a, x = .ok a → k' (g a) = mapBoth f g' (k a)) :
    mapBoth f g x >>= k' = mapBoth f g' (x >>= k) := by
  cases x with
  | error e => rfl
  | ok a => exact h a rfl

/-! ## Expressions -/

mutual

/-- Renames all labels in an operand. -/
def Expr.rename (ρ : String → String) : Expr → Expr
  | .num n => .num n
  | .label name => .label (ρ name)
  | .reg name => .reg name
  | .mem space addr => .mem space (addr.rename ρ)
  | .memStep space addr timing down amount =>
    .memStep space (addr.rename ρ) timing down (amount.rename ρ)
  | .vec elems => .vec (renameAll ρ elems)
  | .discard => .discard
  | .range first last => .range first last
  | .neg e => .neg (e.rename ρ)
  | .not e => .not (e.rename ρ)
  | .bin op a b => .bin op (a.rename ρ) (b.rename ρ)

/-- Renames all labels in some operands. -/
def renameAll (ρ : String → String) : List Expr → List Expr
  | [] => []
  | e :: rest => e.rename ρ :: renameAll ρ rest

end

/-- Renames all labels that a table binds. -/
def LabelTable.rename (ρ : String → String) (t : LabelTable) : LabelTable :=
  ⟨t.entries.map fun entry => (ρ entry.1, entry.2)⟩

/-- Renames the label that an error is about. -/
def EvalError.rename (ρ : String → String) : EvalError → EvalError
  | .undefinedLabel name => .undefinedLabel (ρ name)
  | .divisionByZero => .divisionByZero
  | .notImmediate => .notImmediate

variable {ρ : String → String}

theorem LabelTable.get?_rename (hρ : Function.Injective ρ) (t : LabelTable) (name : String) :
    (t.rename ρ).get? (ρ name) = t.get? name := by
  unfold LabelTable.rename LabelTable.get?
  induction t.entries with
  | nil => rfl
  | cons entry rest ih =>
    rw [List.map_cons, List.lookup_cons, List.lookup_cons, ih]
    -- two names are the same before as after
    have hbeq : (ρ name == ρ entry.1) = (name == entry.1) := by
      rw [Bool.eq_iff_iff, beq_iff_eq, beq_iff_eq]
      exact hρ.eq_iff
    simp only [hbeq]

namespace Expr

theorem isImm_rename (ρ : String → String) : ∀ e : Expr, (e.rename ρ).isImm = e.isImm
  | .num _ | .label _ | .reg _ | .discard => rfl
  | .mem _ _ | .memStep _ _ _ _ _ | .vec _ | .range _ _ => rfl
  | .neg e => isImm_rename ρ e
  | .not e => isImm_rename ρ e
  | .bin _ a b => by
    show ((a.rename ρ).isImm && (b.rename ρ).isImm) = (a.isImm && b.isImm)
    rw [isImm_rename ρ a, isImm_rename ρ b]

theorem mapBoth_apply (op : BinOp) (x y : Word) :
    mapBoth (EvalError.rename ρ) id (op.apply x y) = op.apply x y := by
  cases op with
  | div =>
    -- the one error there is mentions no label
    unfold BinOp.apply
    simp only
    split <;> rfl
  | _ => rfl

/-- A renamed expression has the same value in the renamed table. -/
theorem eval_rename (hρ : Function.Injective ρ) (t : LabelTable) :
    ∀ e : Expr, (e.rename ρ).eval (t.rename ρ) = mapBoth (EvalError.rename ρ) id (e.eval t)
  | .num _ | .reg _ | .discard => rfl
  | .mem _ _ | .memStep _ _ _ _ _ | .vec _ | .range _ _ => rfl
  | .label name => by
    simp only [rename, eval, LabelTable.get?_rename hρ]
    cases t.get? name <;> rfl
  | .neg e => by
    simp only [rename, eval, eval_rename hρ t e]
    exact mapBoth_bind fun _ _ => rfl
  | .not e => by
    simp only [rename, eval, eval_rename hρ t e]
    exact mapBoth_bind fun _ _ => rfl
  | .bin op a b => by
    simp only [rename, eval, eval_rename hρ t a, eval_rename hρ t b]
    refine mapBoth_bind fun x _ => mapBoth_bind fun y _ => ?_
    exact (mapBoth_apply op x y).symm

/-- What needs no labels does not change. -/
theorem const?_rename (hρ : Function.Injective ρ) (e : Expr) : (e.rename ρ).const? = e.const? := by
  have heval := eval_rename hρ LabelTable.empty e
  unfold const?
  rw [show LabelTable.empty.rename ρ = LabelTable.empty from rfl] at heval
  rw [heval]
  cases e.eval LabelTable.empty <;> rfl

theorem rename_eq_num {e : Expr} {n : Word} (h : e.rename ρ = .num n) : e = .num n := by
  cases e <;> simp_all [rename]

theorem rename_eq_bin {e a b : Expr} {op : BinOp} (h : e.rename ρ = .bin op a b) :
    ∃ a' b', e = .bin op a' b' ∧ a'.rename ρ = a ∧ b'.rename ρ = b := by
  cases e <;> simp_all [rename]

theorem length_renameAll (ρ : String → String) (elems : List Expr) :
    (renameAll ρ elems).length = elems.length := by
  induction elems with
  | nil => rfl
  | cons e rest ih => rw [renameAll, List.length_cons, List.length_cons, ih]

mutual

theorem dividesByZero_rename (hρ : Function.Injective ρ) :
    ∀ e : Expr, (e.rename ρ).dividesByZero = e.dividesByZero
  | .num _ | .label _ | .reg _ | .discard | .range _ _ => by simp [rename, dividesByZero]
  | .mem _ addr => by simp only [rename, dividesByZero, dividesByZero_rename hρ addr]
  | .memStep _ addr _ _ amount => by
    simp only [rename, dividesByZero, dividesByZero_rename hρ addr,
      dividesByZero_rename hρ amount]
  | .vec elems => by simp only [rename, dividesByZero, anyDividesByZero_rename hρ elems]
  | .neg e => by simp only [rename, dividesByZero, dividesByZero_rename hρ e]
  | .not e => by simp only [rename, dividesByZero, dividesByZero_rename hρ e]
  | .bin op a b => by
    simp only [rename, dividesByZero, const?_rename hρ, dividesByZero_rename hρ a,
      dividesByZero_rename hρ b]

theorem anyDividesByZero_rename (hρ : Function.Injective ρ) :
    ∀ elems : List Expr, anyDividesByZero (renameAll ρ elems) = anyDividesByZero elems
  | [] => rfl
  | e :: rest => by
    simp only [renameAll, anyDividesByZero, dividesByZero_rename hρ e,
      anyDividesByZero_rename hρ rest]

end

end Expr

/-! ## Registers -/

section Registers

variable {sel : Selector}

theorem Alias.spelledBy_rename (a : Alias) (e : Expr) :
    a.spelledBy (e.rename ρ) = a.spelledBy e := by
  cases a <;> cases e <;> rfl

namespace Register

theorem encode_rename (r : Register) (e : Expr) (p : Pattern) :
    r.encode sel (e.rename ρ) p = r.encode sel e p := by
  have hnumber : r.number? sel (e.rename ρ) = r.number? sel e := by
    unfold number? special?
    simp only [Alias.spelledBy_rename]
    cases e <;> rfl
  unfold encode
  rw [hnumber]

/-- Factors are numbers, so they are taken off as before. -/
theorem unscale_rename (e : Expr) (shift : Nat) :
    unscale (e.rename ρ) shift = (unscale e shift).map fun x => (x.1.rename ρ, x.2) := by
  fun_induction unscale e shift with
  | case1 shift a n ih => simpa only [Expr.rename, unscale] using ih
  | case2 shift a n k hk ih => simpa only [Expr.rename, unscale, hk] using ih
  | case3 shift a n hk => simp only [Expr.rename, unscale, hk, Option.map_none]
  | case4 n b shift hb k hk ih =>
    rw [Expr.rename, Expr.rename, unscale, hk]
    · exact ih
    · intro m hm
      exact hb m (Expr.rename_eq_num hm)
  | case5 n b shift hb hk =>
    rw [Expr.rename, Expr.rename, unscale, hk]
    · rfl
    · intro m hm
      exact hb m (Expr.rename_eq_num hm)
  | case6 e shift hshl hmul hmul' =>
    -- no factor before, and none after
    rw [unscale]
    · rfl
    · intro a n h
      obtain ⟨a', b', rfl, _, hb⟩ := Expr.rename_eq_bin h
      exact hshl a' n (by rw [Expr.rename_eq_num hb])
    · intro a n h
      obtain ⟨a', b', rfl, _, hb⟩ := Expr.rename_eq_bin h
      exact hmul a' n (by rw [Expr.rename_eq_num hb])
    · intro n b h
      obtain ⟨a', b', rfl, ha, _⟩ := Expr.rename_eq_bin h
      exact hmul' n b' (by rw [Expr.rename_eq_num ha])

theorem encodeScaled_rename (r : Register) (shift : Nat) (e : Expr) (p : Pattern) :
    r.encodeScaled sel shift (e.rename ρ) p = r.encodeScaled sel shift e p := by
  unfold encodeScaled
  rw [unscale_rename]
  cases unscale e 0 with
  | none => rfl
  | some x => simp only [Option.map_some, encode_rename]

end Register

theorem RegisterList.encode_rename (l : RegisterList) (elems : List Expr) (p : Pattern) :
    l.encode (renameAll ρ elems) p = l.encode elems p := by
  have hscan : ∀ place run,
      scan? l.name (renameAll ρ elems) place run = scan? l.name elems place run := by
    induction elems with
    | nil => intro place run; rfl
    | cons e rest ih =>
      intro place run
      cases e with
      | discard => exact ih (place + 1) run
      | reg s => simp only [renameAll, Expr.rename, scan?, ih]
      | _ => rfl
  unfold RegisterList.encode
  simp only [hscan, Expr.length_renameAll]

end Registers

/-! ## Candidates -/

/-- Renames all labels in a relocation. -/
def Reloc.rename (ρ : String → String) (r : Reloc) : Reloc := { r with expr := r.expr.rename ρ }

/-- Renames all labels in what a candidate leaves open. -/
def Candidate.rename (ρ : String → String) (c : Candidate) : Candidate :=
  { c with relocs := c.relocs.map (Reloc.rename ρ) }

namespace Candidate

@[simp] theorem rename_pattern (c : Candidate) : (c.rename ρ).pattern = c.pattern := rfl

@[simp] theorem rename_pos (c : Candidate) : (c.rename ρ).pos = c.pos := rfl

theorem place_rename (hρ : Function.Injective ρ) (c : Candidate) (f : Field) (e : Expr) :
    (c.rename ρ).place f (e.rename ρ) = (c.place f e).map (rename ρ) := by
  unfold place
  rw [Expr.isImm_rename, Expr.const?_rename hρ]
  cases e.isImm with
  | false => rfl
  | true =>
    have hroom : (c.rename ρ).relocs.length = c.relocs.length := List.length_map _
    have hdefer : (if c.relocs.length < maxRelocs then
          some { c.rename ρ with relocs := (c.rename ρ).relocs ++ [⟨f, e.rename ρ⟩] } else none) =
        (if c.relocs.length < maxRelocs then
          some { c with relocs := c.relocs ++ [⟨f, e⟩] } else none).map (rename ρ) := by
      split
      · simp [rename, Reloc.rename]
      · rfl
    rw [hroom]
    cases e.const? with
    | none => exact hdefer
    | some v =>
      cases f.pcrel with
      | some lead => exact hdefer
      | none =>
        show Option.map _ (f.encode c.pattern v 0) =
          Option.map (rename ρ) (Option.map _ (f.encode c.pattern v 0))
        rw [Option.map_map]
        rfl

theorem join_rename (c d : Candidate) :
    (c.rename ρ).join (d.rename ρ) = (c.join d).map (rename ρ) := by
  have hroom : (c.rename ρ).relocs.length + (d.rename ρ).relocs.length =
      c.relocs.length + d.relocs.length := by
    simp [rename]
  unfold join
  rw [hroom, rename_pattern, rename_pattern]
  by_cases h : c.pattern.Compatible d.pattern ∧ c.relocs.length + d.relocs.length ≤ maxRelocs
  · rw [if_pos h, if_pos h]
    simp [rename]
  · rw [if_neg h, if_neg h]
    rfl

end Candidate

/-! ## Memory operands -/

/-- Renames all labels in the terms of an address. -/
def AddressTerms.rename (ρ : String → String) (t : AddressTerms) : AddressTerms :=
  ⟨t.offset.map (Expr.rename ρ), t.dynamic.map (Expr.rename ρ)⟩

namespace AddressTerms

theorem addOffset_rename (t : AddressTerms) (e : Expr) (negated : Bool) :
    (t.rename ρ).addOffset (e.rename ρ) negated = (t.addOffset e negated).rename ρ := by
  obtain ⟨offset, dynamic⟩ := t
  cases offset <;> cases negated <;> rfl

/-- The terms of a renamed address are the renamed terms. -/
theorem split_rename (e : Expr) (negated : Bool) (t : AddressTerms) :
    split (e.rename ρ) negated (t.rename ρ) = (split e negated t).map (rename ρ) := by
  -- a term that is neither an immediate nor a sum
  have hterm : (if negated || maxDynamic ≤ (t.rename ρ).dynamic.length then none
      else some { t.rename ρ with dynamic := (t.rename ρ).dynamic ++ [e.rename ρ] }) =
      (if negated || maxDynamic ≤ t.dynamic.length then none
      else some { t with dynamic := t.dynamic ++ [e] }).map (rename ρ) := by
    have hlength : (t.rename ρ).dynamic.length = t.dynamic.length := List.length_map _
    rw [hlength]
    split
    · rfl
    · simp [rename]
  unfold split
  rw [Expr.isImm_rename]
  by_cases himm : e.isImm = true
  · rw [if_pos himm, if_pos himm, addOffset_rename]
    rfl
  · rw [if_neg himm, if_neg himm]
    cases e with
    | neg a => exact split_rename a (!negated) t
    | bin op a b =>
      cases op with
      | add =>
        show (split (a.rename ρ) negated (t.rename ρ)).bind _ = ((split a negated t).bind _).map _
        rw [split_rename a negated t]
        cases split a negated t with
        | none => rfl
        | some t₁ => exact split_rename b negated t₁
      | sub =>
        show (split (a.rename ρ) negated (t.rename ρ)).bind _ = ((split a negated t).bind _).map _
        rw [split_rename a negated t]
        cases split a negated t with
        | none => rfl
        | some t₁ => exact split_rename b (!negated) t₁
      | _ => exact hterm
    | _ => exact hterm

end AddressTerms

/-- Renames all labels in a reference. -/
def Reference.rename (ρ : String → String) (r : Reference) : Reference :=
  ⟨r.space, r.addr.rename ρ, r.step.map fun s => (s.1, s.2.rename ρ)⟩

theorem Reference.ofExpr_rename (e : Expr) :
    Reference.ofExpr (e.rename ρ) = (Reference.ofExpr e).rename ρ := by
  cases e with
  | memStep space addr timing down amount => cases down <;> rfl
  | _ => rfl

namespace Memory

variable {sel : Selector} (m : Memory)

theorem offsetExpr?_rename (step : Option (Timing × Expr)) (t : AddressTerms) :
    m.offsetExpr? (step.map fun s => (s.1, s.2.rename ρ)) (t.rename ρ) =
      (m.offsetExpr? step t).map (Expr.rename ρ) := by
  have hnone : (t.rename ρ).offset.isNone = t.offset.isNone := by
    unfold AddressTerms.rename
    cases t.offset <;> rfl
  unfold offsetExpr?
  cases m.timing with
  | none =>
    cases step with
    | none =>
      unfold AddressTerms.rename
      cases t.offset <;> rfl
    | some s => rfl
  | some want =>
    cases step with
    | none => rfl
    | some s =>
      simp only [Option.map_some, hnone]
      split <;> rfl

theorem encodeOffset_rename (hρ : Function.Injective ρ) (step : Option (Timing × Expr))
    (t : AddressTerms) (c : Candidate) :
    m.encodeOffset (step.map fun s => (s.1, s.2.rename ρ)) (t.rename ρ) (c.rename ρ) =
      (m.encodeOffset step t c).map (Candidate.rename ρ) := by
  unfold encodeOffset
  cases m.offset with
  | none =>
    unfold AddressTerms.rename
    simp only [Option.isNone_map]
    split <;> rfl
  | some f =>
    simp only [offsetExpr?_rename]
    cases m.offsetExpr? step t with
    | none => rfl
    | some offset => exact Candidate.place_rename hρ c f offset

theorem encodeRegisters_rename (dynamic : List Expr) (p : Pattern) :
    m.encodeRegisters sel (dynamic.map (Expr.rename ρ)) p = m.encodeRegisters sel dynamic p := by
  have hget : ∀ i, (dynamic.map (Expr.rename ρ)).getD i (.num 0) =
      (dynamic.getD i (.num 0)).rename ρ := by
    intro i
    rw [List.getD_eq_getElem?_getD, List.getD_eq_getElem?_getD, List.getElem?_map]
    cases dynamic[i]? <;> rfl
  have hpair : ∀ base scaled x y, encodePair sel base scaled (x.rename ρ) (y.rename ρ) p =
      encodePair sel base scaled x y p := by
    intro base scaled x y
    unfold encodePair
    rw [Register.encode_rename]
    exact Option.bind_congr fun q _ => Register.encodeScaled_rename scaled.1 scaled.2 y q
  unfold encodeRegisters
  simp only [hget, hpair, Register.encode_rename, Register.encodeScaled_rename, List.length_map,
    List.map_eq_nil_iff]

theorem encode_rename (hρ : Function.Injective ρ) (e : Expr) (c : Candidate) :
    m.encode sel (e.rename ρ) (c.rename ρ) = (m.encode sel e c).map (Candidate.rename ρ) := by
  have hsplit : AddressTerms.split ((Reference.ofExpr e).addr.rename ρ) false {} =
      (AddressTerms.split (Reference.ofExpr e).addr false {}).map (AddressTerms.rename ρ) :=
    AddressTerms.split_rename (Reference.ofExpr e).addr false {}
  unfold encode
  rw [Reference.ofExpr_rename]
  simp only [Option.bind_eq_bind, Reference.rename, Candidate.rename_pattern, hsplit]
  cases m.encodeSpace (Reference.ofExpr e).space c.pattern with
  | none => rfl
  | some p₁ =>
    cases AddressTerms.split (Reference.ofExpr e).addr false {} with
    | none => rfl
    | some t =>
      have hoffset := encodeOffset_rename m hρ (Reference.ofExpr e).step t { c with pattern := p₁ }
      simp only [Option.map_some, Option.bind_some]
      show (m.encodeOffset _ (t.rename ρ) (Candidate.rename ρ { c with pattern := p₁ })).bind _ = _
      rw [hoffset]
      cases m.encodeOffset (Reference.ofExpr e).step t { c with pattern := p₁ } with
      | none => rfl
      | some c₁ =>
        simp only [Option.map_some, Option.bind_some, Candidate.rename_pattern,
          AddressTerms.rename, encodeRegisters_rename]
        cases m.encodeRegisters sel t.dynamic c₁.pattern <;> rfl

end Memory

/-! ## Atoms -/

/-- Renames all labels in an item. -/
def Item.rename (ρ : String → String) : Item → Item
  | .expr e => .expr (e.rename ρ)
  | .name s => .name s
  | .subStart => .subStart
  | .subEnd => .subEnd

namespace Leaf

variable {sel : Selector} {l : Leaf}

/-- Does the atom ask for a label of a certain name? -/
def isKeyword : Leaf → Bool
  | .keyword _ => true
  | _ => false

theorem operand?_rename (hρ : Function.Injective ρ) (hl : l.isKeyword = false) (e : Expr)
    (c : Candidate) :
    l.operand? sel (e.rename ρ) (c.rename ρ) = (l.operand? sel e c).map (Candidate.rename ρ) := by
  -- bits that are written do not touch what is left open
  have hbits : ∀ w : Option Pattern, w.map (fun p => { c.rename ρ with pattern := p }) =
      (w.map fun p => { c with pattern := p }).map (Candidate.rename ρ) := by
    intro w
    cases w <;> rfl
  cases l with
  | keyword s => simp [isKeyword] at hl
  | imm f =>
    simp only [operand?, Expr.const?_rename hρ]
    cases e.const? with
    | none => rfl
    | some v => exact hbits _
  | rel f => exact Candidate.place_rename hρ c f e
  | reg r =>
    simp only [operand?, Register.encode_rename]
    exact hbits _
  | mem m => exact Memory.encode_rename m hρ e c
  | vec l =>
    cases e with
    | vec elems =>
      simp only [operand?, Expr.rename, RegisterList.encode_rename]
      exact hbits _
    | _ => rfl
  | range start len =>
    cases e with
    | range first last =>
      simp only [operand?, Expr.rename, Option.bind_eq_bind, Candidate.rename_pattern]
      cases start.encode c.pattern first 0 with
      | none => rfl
      | some p₁ =>
        simp only [Option.bind_some]
        cases len.encode p₁ (last - first) 0 <;> rfl
    | _ => rfl
  | discard => cases e <;> rfl
  | _ => rfl

theorem item?_rename (hρ : Function.Injective ρ) (hl : l.isKeyword = false) (c : Candidate)
    (it : Item) :
    l.item? sel (c.rename ρ) (it.rename ρ) = (l.item? sel c it).map (Candidate.rename ρ) := by
  cases it with
  | expr e =>
    show l.item? sel _ (.expr (e.rename ρ)) = _
    rw [item?_expr, item?_expr, operand?_rename hρ hl]
  | name s =>
    cases l with
    | name t =>
      unfold item? Item.rename
      simp only
      split <;> rfl
    | _ => rfl
  | _ => cases l <;> rfl

/-- An atom gives for renamed items what it gave before, renamed. -/
theorem candidate?_rename (hρ : Function.Injective ρ) (hl : l.isKeyword = false)
    (items : List Item) (pos : Nat) :
    l.candidate? sel (items.map (Item.rename ρ)) pos =
      (l.candidate? sel items pos).map (Candidate.rename ρ) := by
  have htake : ((items.map (Item.rename ρ))[pos]?.bind fun it =>
        l.item? sel { pos := pos + 1 } it) =
      (items[pos]?.bind fun it => l.item? sel { pos := pos + 1 } it).map (Candidate.rename ρ) := by
    rw [List.getElem?_map]
    cases items[pos]? with
    | none => rfl
    | some it => exact item?_rename hρ hl { pos := pos + 1 } it
  cases l with
  | nop => rfl
  | fail => rfl
  | length n => rfl
  | _ => exact htake

end Leaf

/-! ## Instructions -/

namespace Candidate

variable {sel : Selector} {items : List Item}

theorem extend_rename (hρ : Function.Injective ρ) {parts : List Part}
    (hparts : ∀ l, .leaf l ∈ parts → l.isKeyword = false) (c : Candidate) :
    (c.rename ρ).extend sel (items.map (Item.rename ρ)) parts =
      (c.extend sel items parts).map (rename ρ) := by
  induction parts generalizing c with
  | nil => rfl
  | cons part rest ih =>
    have hrest := ih fun l hl => hparts l (List.mem_cons_of_mem part hl)
    have hpart : part.candidate? sel (items.map (Item.rename ρ)) c.pos =
        (part.candidate? sel items c.pos).map (rename ρ) := by
      cases part with
      | fixed val mask => rfl
      | leaf l => exact Leaf.candidate?_rename hρ (hparts l List.mem_cons_self) items c.pos
    simp only [extend, rename_pos, hpart]
    cases part.candidate? sel items c.pos with
    | none => rfl
    | some d =>
      simp only [Option.map_some, Option.bind_some, join_rename]
      cases c.join d with
      | none => rfl
      | some x => exact hrest x

end Candidate

/-- No atom, anywhere in the tables, asks for a label of a certain name. -/
def Isa.KeywordFree (isa : Isa) : Prop := ∀ l ∈ isa.root.leaves, l.isKeyword = false

instance (isa : Isa) : Decidable isa.KeywordFree :=
  inferInstanceAs (Decidable (∀ l ∈ isa.root.leaves, l.isKeyword = false))

/-- The encodings of a renamed instruction are the renamed encodings. -/
theorem Isa.encodings_rename {isa : Isa} (hisa : isa.KeywordFree) (hρ : Function.Injective ρ)
    (sel : Selector) (items : List Item) :
    isa.encodings sel (items.map (Item.rename ρ)) =
      (isa.encodings sel items).map (Candidate.rename ρ) := by
  have hcandidates : isa.root.candidates sel (items.map (Item.rename ρ)) 0 =
      (isa.root.candidates sel items 0).map (Candidate.rename ρ) := by
    rw [isa.root.candidates_eq 0, isa.root.candidates_eq 0, List.map_filterMap]
    refine List.filterMap_congr fun r hr => ?_
    have hparts : ∀ l, .leaf l ∈ r.parts → l.isKeyword = false := by
      intro l hl
      exact hisa l (leaf_mem_parts.1 (isa.root.parts_of_mem_readings hr hl))
    exact Candidate.extend_rename hρ hparts { pos := 0 }
  unfold Isa.encodings
  rw [hcandidates, List.filter_map, List.length_map]
  rfl

end TableAsm
