/-! # Diagnostics

  What can go wrong, and how it is reported.

  - `EvalError` is a failure to evaluate an expression.
  - `Cause` is a reason to reject a program.
  - `Diagnostic` is a cause together with the line it belongs to. Lines
    are counted from 1.

  A value that does not fit, a claimed bit in the way and the like are no
  errors: they rule out one encoding, and the next one is tried.
-/

namespace TableAsm

/-- Why an expression has no value. -/
inductive EvalError where
  | undefinedLabel (name : String)
  | divisionByZero
  /-- The expression holds something other than arithmetic on numbers and labels. -/
  | notImmediate
deriving DecidableEq, Repr

/-- The text of an evaluation error. -/
def EvalError.message : EvalError → String
  | .undefinedLabel name => s!"undefined label \"{name}\""
  | .divisionByZero => "division by zero"
  | .notImmediate => "expression is not an immediate"

/-- Why a program is rejected. -/
inductive Cause where
  /-- No row of the instruction table takes the operands. -/
  | noMatch
  /-- No encoding of the instruction can hold its resolved operands. -/
  | relocationFailed
  | eval (e : EvalError)
  | labelRedeclared (name : String)
  /-- A long instruction is misaligned, and what precedes it has no form that would help. -/
  | unalignable
  | badDirective (directive : String)
  | unknownDirective (directive : String)
  /-- A data argument, counted from 0, is out of range. -/
  | dataOverflow (directive : String) (index : Nat)
  /-- Several encodings where one was asked for. -/
  | ambiguous (count : Nat)
  /-- The only encoding is not one complete 8-byte word. -/
  | notAWord (length relocs : Nat)
deriving DecidableEq, Repr

/-- The text of a cause. -/
def Cause.message : Cause → String
  | .noMatch => "no match for instruction"
  | .relocationFailed => "relocation failed for every candidate encoding"
  | .eval e => e.message
  | .labelRedeclared name => s!"label \"{name}\" redeclared"
  | .unalignable => "misaligned 8-byte instruction and no predecessor form to realign it"
  | .badDirective directive => s!"wrong arguments for {directive}"
  | .unknownDirective directive => s!"unknown directive {directive}"
  | .dataOverflow directive index => s!"argument {index} too large for {directive}"
  | .ambiguous count => s!"{count} encodings match, expected exactly one"
  | .notAWord length relocs =>
    s!"expected a resolved 8-byte encoding, got {length} bytes with {relocs} relocations"

/-- A cause and its place in the program. -/
structure Diagnostic where
  line : Nat
  cause : Cause
deriving DecidableEq, Repr

/-- The text of a diagnostic. -/
def Diagnostic.message (d : Diagnostic) : String :=
  s!"line {d.line}: {d.cause.message}"

end TableAsm
