import TableAsm.Candidate
import TableAsm.Register

/-! # Memory operands

  A memory operand names an address space and an address in it. The
  address is a sum. Its immediate terms make up an offset, and at most two
  other terms are registers: a base, and an index that may be scaled.

  - `AddressTerms.split` takes an address apart.
  - `Memory.encode` distributes the parts over the fields of an
    instruction. With two register slots both assignments are tried.
-/

namespace TableAsm

/-- The terms of an address. -/
structure AddressTerms where
  /-- The sum of the immediate terms, if there is any. -/
  offset : Option Expr := none
  /-- The other terms, in order. -/
  dynamic : List Expr := []
deriving Repr

namespace AddressTerms

/-- Adds an immediate term, or takes it off. -/
def addOffset (t : AddressTerms) (e : Expr) (negated : Bool) : AddressTerms :=
  { t with offset := some (match t.offset, negated with
      | none, true => .neg e
      | none, false => e
      | some acc, true => .bin .sub acc e
      | some acc, false => .bin .add acc e) }

/-- Most terms that are no immediates. -/
def maxDynamic : Nat := 2

/-- Adds the terms of an address, or takes them off. A term that is no immediate cannot be
    taken off. -/
def split (e : Expr) (negated : Bool) (t : AddressTerms) : Option AddressTerms :=
  if e.isImm then some (t.addOffset e negated)
  else
    match e with
    | .bin .add a b => (split a negated t).bind (split b negated)
    | .bin .sub a b => (split a negated t).bind (split b (!negated))
    | .neg a => split a (!negated) t
    | e =>
      if negated || maxDynamic ≤ t.dynamic.length then none
      else some { t with dynamic := t.dynamic ++ [e] }

end AddressTerms

/-- A kind of memory operand. -/
structure Memory where
  /-- Name of the address space; an operand without one is a bare address. -/
  space : Option String
  /-- Field for the number that follows the name of the space. -/
  index : Option Field := none
  /-- Slot for a register. -/
  base : Option Register := none
  /-- Field for the offset, or for the amount that the address is moved by. -/
  offset : Option Field := none
  /-- Slot for a register that is scaled by a power of two. -/
  scaled : Option (Register × Nat) := none
  /-- Does the operand move its address, and when? -/
  timing : Option Timing := none
deriving DecidableEq, Repr

/-- A memory operand taken apart. -/
structure Reference where
  space : Option String
  addr : Expr
  /-- When the address is moved, and by how much. -/
  step : Option (Timing × Expr)
deriving Repr

/-- Every operand is a reference; one without an address space is a bare address. -/
def Reference.ofExpr : Expr → Reference
  | .mem space addr => ⟨some space, addr, none⟩
  | .memStep space addr timing down amount =>
    ⟨some space, addr, some (timing, if down then .neg amount else amount)⟩
  | e => ⟨none, e, none⟩

namespace Memory

/-- Checks the name of the space and writes the number after it. -/
def encodeSpace (m : Memory) (space : Option String) (p : Pattern) : Option Pattern :=
  match m.space, space with
  | none, none => some p
  | some want, some got => do
    let rest ← want.toList.isPrefixOf? got.toList
    match m.index with
    | some f => (Numeral.word? rest).bind fun n => f.encode p n 0
    | none => if rest = [] then some p else none
  | _, _ => none

/-- The immediate that goes into the offset field: the offset of the address, or the amount
    that it is moved by. An operand that moves its address has no offset. -/
def offsetExpr? (m : Memory) (step : Option (Timing × Expr)) (t : AddressTerms) : Option Expr :=
  match m.timing, step with
  | none, none => some (t.offset.getD (.num 0))
  | some want, some (got, amount) =>
    if want = got ∧ t.offset.isNone then some amount else none
  | _, _ => none

/-- Writes or defers the offset. Without a field for it there must be none. -/
def encodeOffset (m : Memory) (step : Option (Timing × Expr)) (t : AddressTerms)
    (c : Candidate) : Option Candidate :=
  match m.offset with
  | some f => (m.offsetExpr? step t).bind (c.place f)
  | none => if t.offset.isNone ∧ step.isNone then some c else none

/-- Writes a base and a scaled register. -/
def encodePair (sel : Selector) (base : Register) (scaled : Register × Nat) (x y : Expr)
    (p : Pattern) : Option Pattern :=
  (base.encode sel x p).bind (scaled.1.encodeScaled sel scaled.2 y)

/-- Writes the registers of an address. A slot that is left over gets a literal zero, and of
    two slots the first term goes to the base if that is possible. -/
def encodeRegisters (sel : Selector) (m : Memory) (dynamic : List Expr) (p : Pattern) :
    Option Pattern :=
  let x := dynamic.getD 0 (.num 0)
  let y := dynamic.getD 1 (.num 0)
  match m.base, m.scaled with
  | some base, some scaled =>
    (encodePair sel base scaled x y p).or (encodePair sel base scaled y x p)
  | some base, none => if dynamic.length < 2 then base.encode sel x p else none
  | none, some scaled =>
    if dynamic.length < 2 then scaled.1.encodeScaled sel scaled.2 x p else none
  | none, none => if dynamic = [] then some p else none

/-- Encodes a memory operand onto a candidate. -/
def encode (sel : Selector) (m : Memory) (e : Expr) (c : Candidate) : Option Candidate := do
  let r := Reference.ofExpr e
  let p ← m.encodeSpace r.space c.pattern
  let t ← AddressTerms.split r.addr false {}
  let c ← m.encodeOffset r.step t { c with pattern := p }
  let p ← m.encodeRegisters sel t.dynamic c.pattern
  return { c with pattern := p }

end Memory

end TableAsm
