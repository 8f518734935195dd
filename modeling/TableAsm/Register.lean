import TableAsm.Expr
import TableAsm.Field
import TableAsm.Numeral
import TableAsm.Selector

/-! # Register operands

  A register is spelled as a name, a decimal number and a suffix. The
  halves of a register are counted on their own: the low half of register
  `n` has the number `2 * n`, the high half `2 * n + 1`, and the suffix
  says which half is meant. Some numbers also have other spellings: a name
  of their own, a literal zero or one, or the placeholder for an operand
  that is thrown away.

  - `Register.number?` is the number that an operand stands for.
  - `Register.encode` writes it into the register's field.
-/

namespace TableAsm

/-- Another spelling of a register. -/
inductive Alias where
  /-- A register with a name of its own. -/
  | named (name : String)
  /-- The literal 0. -/
  | zero
  /-- The literal 1. -/
  | one
  /-- The placeholder. -/
  | discard
deriving DecidableEq, Repr

/-- Does an operand spell it this way? -/
def Alias.spelledBy : Alias → Expr → Bool
  | .named name, .reg s => s == name
  | .zero, .num n => n == 0
  | .one, .num n => n == 1
  | .discard, .discard => true
  | _, _ => false

/-- A number that goes by another spelling on processors with some features. -/
structure Special where
  number : Word
  spelling : Alias
  features : Features := 0
deriving DecidableEq, Repr

/-- A kind of register operand. -/
structure Register where
  /-- Where the number is stored. A register without a field stands alone: it has number 0. -/
  field : Option Field
  name : String
  suffix : String := ""
  specials : List Special := []
  /-- Do the operands name halves of registers? -/
  halves : Bool := false
deriving DecidableEq, Repr

namespace Register

/-- The number behind the first special spelling that applies. -/
def special? (sel : Selector) (r : Register) (e : Expr) : Option Word :=
  (r.specials.find? fun s => sel.accepts s.features 0 && s.spelling.spelledBy e).map
    Special.number

/-- The number in front of the suffix. No digits are needed where there is only one register. -/
def index? (r : Register) (digits : List Char) : Option Word :=
  if digits = [] then
    if r.field.isSome then none else some 0
  else Numeral.word? digits

/-- The number of the register or half register with index `n` and this ending. -/
def finish? (r : Register) (n : Word) (ending : List Char) : Option Word :=
  if r.halves then
    if ending = ['l'] then some (Word.shl n 1)
    else if ending = ['h'] then some (Word.shl n 1 ||| 1)
    else none
  else if ending = r.suffix.toList then some n
  else none

/-- The number that a register name spells. -/
def spelled? (r : Register) (s : String) : Option Word := do
  let rest ← r.name.toList.isPrefixOf? s.toList
  let n ← r.index? (rest.takeWhile Char.isDigit)
  r.finish? n (rest.dropWhile Char.isDigit)

/-- The number that an operand stands for. A special spelling wins over the regular one. -/
def number? (sel : Selector) (r : Register) (e : Expr) : Option Word :=
  match r.special? sel e with
  | some n => some n
  | none =>
    match e with
    | .reg s => r.spelled? s
    | _ => none

/-- Writes a register number. -/
def store (r : Register) (p : Pattern) (n : Word) : Option Pattern :=
  match r.field with
  | some f => f.encode p n 0
  | none => if n = 0 then some p else none

/-- Writes the register that an operand names. -/
def encode (sel : Selector) (r : Register) (e : Expr) (p : Pattern) : Option Pattern :=
  (r.number? sel e).bind (r.store p)

/-! ## Scaled registers -/

/-- Largest shift amount that is told apart from larger ones. -/
def maxShift : Nat := UInt64.size - 1

/-- Takes shifts to the left and products with powers of two off an operand, and adds their
    amounts to `shift`. A product with another number cannot be taken off. -/
def unscale : Expr → Nat → Option (Expr × Nat)
  | .bin .shl a (.num n), shift => unscale a (min (shift + n.toNat) maxShift)
  | .bin .mul a (.num n), shift =>
    match Word.power? n with
    | some k => unscale a (min (shift + k) maxShift)
    | none => none
  | .bin .mul (.num n) b, shift =>
    match Word.power? n with
    | some k => unscale b (min (shift + k) maxShift)
    | none => none
  | e, shift => some (e, shift)

/-- Writes the register of an operand that is scaled by exactly `2 ^ shift`. -/
def encodeScaled (sel : Selector) (r : Register) (shift : Nat) (e : Expr) (p : Pattern) :
    Option Pattern :=
  match unscale e 0 with
  | some (inner, n) => if n = shift then r.encode sel inner p else none
  | none => none

end Register

end TableAsm
