import TableAsm.Labels

/-! # Operand expressions

  An operand is an expression: arithmetic over numbers and labels, or a
  register, a memory reference, a register list, a bit range, or the
  placeholder for an operand that is thrown away.

  - `Expr.isImm` singles out arithmetic over numbers and labels.
  - `Expr.eval` gives its value; arithmetic wraps, and over-wide shifts
    give zero.
  - `Expr.const?` is the value that needs no labels.
  - `Expr.dividesByZero` looks for a division whose divisor is a constant
    zero, anywhere in an operand.
-/

namespace TableAsm

/-- Binary operators. -/
inductive BinOp where
  | add | sub | mul | div | shl | shr | and | xor | or
deriving DecidableEq, Repr

/-- When a memory reference changes its address register. -/
inductive Timing where
  /-- After the access. -/
  | post
  /-- Before the access. -/
  | pre
deriving DecidableEq, Repr

/-- An operand. -/
inductive Expr where
  | num (n : Word)
  | label (name : String)
  | reg (name : String)
  /-- A reference into an address space. -/
  | mem (space : String) (addr : Expr)
  /-- A reference that also moves its address, up or down, by some amount. -/
  | memStep (space : String) (addr : Expr) (timing : Timing) (down : Bool) (amount : Expr)
  | vec (elems : List Expr)
  /-- The operand that is thrown away. -/
  | discard
  /-- The bits from `first` up to `last`. -/
  | range (first last : Word)
  | neg (e : Expr)
  | not (e : Expr)
  | bin (op : BinOp) (a b : Expr)
deriving Repr, BEq, Inhabited

/-- The value of an operator on two words. -/
def BinOp.apply (op : BinOp) (a b : Word) : Except EvalError Word :=
  match op with
  | .add => .ok (a + b)
  | .sub => .ok (a - b)
  | .mul => .ok (a * b)
  | .div => if b = 0 then .error .divisionByZero else .ok (a / b)
  | .shl => .ok (Word.shl a b.toNat)
  | .shr => .ok (Word.shr a b.toNat)
  | .and => .ok (a &&& b)
  | .xor => .ok (a ^^^ b)
  | .or => .ok (a ||| b)

namespace Expr

/-- Is this arithmetic over numbers and labels only? -/
def isImm : Expr → Bool
  | .num _ | .label _ => true
  | .neg e | .not e => e.isImm
  | .bin _ a b => a.isImm && b.isImm
  | _ => false

/-- The value of an expression. Of several errors the leftmost is reported. -/
def eval (labels : LabelTable) : Expr → Except EvalError Word
  | .num n => .ok n
  | .label name =>
    match labels.get? name with
    | some v => .ok v
    | none => .error (.undefinedLabel name)
  | .neg e => do
    let v ← e.eval labels
    return -v
  | .not e => do
    let v ← e.eval labels
    return ~~~ v
  | .bin op a b => do
    let x ← a.eval labels
    let y ← b.eval labels
    op.apply x y
  | _ => .error .notImmediate

/-- The value of an expression that needs no labels. -/
def const? (e : Expr) : Option Word :=
  match e.eval LabelTable.empty with
  | .ok v => some v
  | .error _ => none

mutual

/-- Does some division in the operand have a constant divisor that is zero? -/
def dividesByZero : Expr → Bool
  | .bin op a b => (op == .div && b.const? == some 0) || a.dividesByZero || b.dividesByZero
  | .neg e | .not e => e.dividesByZero
  | .mem _ addr => addr.dividesByZero
  | .memStep _ addr _ _ amount => amount.dividesByZero || addr.dividesByZero
  | .vec elems => anyDividesByZero elems
  | _ => false

/-- Does some element of a list divide by zero? -/
def anyDividesByZero : List Expr → Bool
  | [] => false
  | e :: rest => e.dividesByZero || anyDividesByZero rest

end

end Expr

end TableAsm
