import TableAsm.Json

/-! # Tagged JSON values

  One of several alternatives is written as an object whose only key is
  the tag of the alternative. An alternative without contents may also be
  written as its tag alone, and this is how it is printed.
-/

namespace TableAsm

namespace Json

/-- An alternative with its contents. -/
def tagged (tag : String) (contents : Json) : Json := .obj [(tag, contents)]

/-- The tag of an alternative without contents. -/
def tag? : Json → Option String
  | .scalar (.text tag) => some tag
  | .obj [(tag, .scalar .null)] => some tag
  | _ => none

/-- A text. -/
def text? : Json → Option String
  | .scalar (.text s) => some s
  | _ => none

/-- A number below `2 ^ bits`. -/
def bits? (bits : Nat) : Json → Option (BitVec bits)
  | .scalar (.nat n) => if n < 1 <<< bits then some (BitVec.ofNat bits n) else none
  | _ => none

end Json

end TableAsm
