/-! # JSON values

  Programs, selectors and label lists travel as JSON. A value keeps what
  the text said and nothing is merged: the members of an object are a
  list, so a repeated key can be seen, and a number is either a natural
  number written as plain digits or some other literal that is kept as it
  was spelled. Only text with half of a surrogate pair in it is not kept,
  because it is no Unicode text; all that can be done with it is to pass
  over it.

  - `Scalar` holds the values without parts.
  - `Json` adds arrays and objects.
  - `Json.depth` counts the levels of arrays and objects.
-/

namespace TableAsm

/-- A JSON value without parts. -/
inductive Scalar where
  | null
  | bool (b : Bool)
  /-- A number written as digits only. -/
  | nat (n : Nat)
  /-- A number with a sign, a fraction or an exponent, as spelled. -/
  | number (literal : String)
  | text (s : String)
  /-- A text in which half of a surrogate pair stands alone, or an object with such a key. -/
  | garbled
deriving DecidableEq, Repr

/-- A JSON value. -/
inductive Json where
  | scalar (s : Scalar)
  | arr (items : List Json)
  | obj (members : List (String × Json))
deriving Repr, BEq, Inhabited

namespace Json

/-- A text value. -/
def text (s : String) : Json := .scalar (.text s)

/-- A number. -/
def nat (n : Nat) : Json := .scalar (.nat n)

/-- A truth value. -/
def bool (b : Bool) : Json := .scalar (.bool b)

/-- The value that stands for nothing. -/
def null : Json := .scalar .null

mutual

/-- Levels of arrays and objects in a value. -/
def depth : Json → Nat
  | .scalar _ => 0
  | .arr items => 1 + depthItems items
  | .obj members => 1 + depthMembers members

/-- The deepest of some array items. -/
def depthItems : List Json → Nat
  | [] => 0
  | v :: rest => max (depth v) (depthItems rest)

/-- The deepest of some object members. -/
def depthMembers : List (String × Json) → Nat
  | [] => 0
  | (_, v) :: rest => max (depth v) (depthMembers rest)

end

end Json

end TableAsm
