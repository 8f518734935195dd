import TableAsm.Program

/-! # Directives

  A directive line says where things go or stores data.

  - `.section NAME` and `.section NAME BASE` continue a section.
  - `.align N` pads to a multiple of `N` bytes, `.skip N` leaves `N` bytes
    zero.
  - `.equ NAME VALUE` binds a name.
  - `.bN`, `.uN` and `.sN` store each argument in `N` bits: unchecked, as
    an unsigned number, as a signed number.

  `Directive.parse` reads the name and the arguments of a directive.
-/

namespace TableAsm

/-- Which numbers a data directive accepts. -/
inductive DataKind where
  /-- Any; high bits are dropped. -/
  | bits
  | unsigned
  | signed
deriving DecidableEq, Repr

namespace DataKind

/-- The letter that names the kind. -/
def letter : DataKind → Char
  | .bits => 'b'
  | .unsigned => 'u'
  | .signed => 's'

/-- The kind that a letter names. -/
def ofLetter? : Char → Option DataKind
  | 'b' => some .bits
  | 'u' => some .unsigned
  | 's' => some .signed
  | _ => none

/-- Is a number in the range of `width` bits? -/
def fits (kind : DataKind) (width : Nat) (n : Word) : Bool :=
  if 64 ≤ width then true
  else
    match kind with
    | .bits => true
    | .unsigned => decide (n < Word.shl 1 width)
    | .signed =>
      let half := Word.shl 1 (width - 1)
      decide (n < half) || decide (-half ≤ n)

end DataKind

/-- What a directive line does. -/
inductive Directive where
  /-- Continues a section. The base counts only if the section is new. -/
  | «section» (name : String) (base : Option Word)
  | align (n : Nat)
  | skip (n : Nat)
  | equ (name : String) (value : Expr)
  /-- Stores numbers of `width` bits. -/
  | data (kind : DataKind) (width : Nat) (args : List Expr)
deriving Repr

namespace Directive

/-- Most bytes that a directive may skip or align to. -/
def maxPadding : Nat := UInt32.size - 1

/-- The kind and the width that the name of a data directive spells. -/
def dataKind? (name : List Char) : Option (DataKind × Nat) :=
  match name with
  | '.' :: letter :: digits => do
    let kind ← DataKind.ofLetter? letter
    let width := Nat.ofDigitChars 10 digits 0
    if digits ≠ [] ∧ digits.all Char.isDigit ∧ 0 < width ∧ width ≤ 64 ∧ width % 8 = 0 then
      some (kind, width)
    else none
  | _ => none

/-- The name of a data directive. -/
def dataName (kind : DataKind) (width : Nat) : String :=
  String.ofList ('.' :: kind.letter :: Nat.toDigits 10 width)

/-- A single argument that is a constant number of bytes. -/
def padding? : List Expr → Option Nat
  | [e] => (e.const?.map BitVec.toNat).filter (· ≤ maxPadding)
  | _ => none

/-- Reads a directive. -/
def parse (name : String) (args : List Expr) : Except Cause Directive :=
  let bad : Except Cause Directive := .error (.badDirective name)
  if name = ".section" then
    match args with
    | [.label s] => .ok (.section s none)
    | [.label s, .num base] => .ok (.section s (some base))
    | _ => bad
  else if name = ".align" then
    match padding? args with
    | some n => if 0 < n then .ok (.align n) else bad
    | none => bad
  else if name = ".skip" then
    match padding? args with
    | some n => .ok (.skip n)
    | none => bad
  else if name = ".equ" then
    match args with
    | [.label s, e] => if e.isImm then .ok (.equ s e) else bad
    | _ => bad
  else
    match dataKind? name.toList with
    | none => .error (.unknownDirective name)
    | some (kind, width) => if args.all Expr.isImm then .ok (.data kind width args) else bad

end Directive

end TableAsm
