import TableAsm.Json.Token

/-! # Reading JSON

  The tokens of a text are read from left to right by a machine with a
  stack. The stack holds the arrays and objects that are still open, the
  innermost first.

  - `Json.State` says what may come next.
  - `Json.State.step` takes one token.
  - `Json.parse` reads a whole text: one value, with nothing but blanks
    around it.
-/

namespace TableAsm

namespace Json

/-- The members of an open object, the latest first; `none` once a key was no text. -/
abbrev Members := Option (List (String × Json))

namespace Members

/-- Adds a member. Its key is missing if it was no text. -/
def push : Members → Option String → Json → Members
  | some ms, some k, v => some ((k, v) :: ms)
  | _, _, _ => none

/-- The object with these members. -/
def close : Members → Json
  | some ms => .obj ms.reverse
  | none => .scalar .garbled

end Members

/-- The key that a scalar makes; `some none` is a key that is no text. -/
def key? : Scalar → Option (Option String)
  | .text k => some (some k)
  | .garbled => some none
  | _ => none

/-- An open array or object that waits for a value. -/
inductive Frame where
  /-- The items before the awaited one, the latest first. -/
  | arr (items : List Json)
  /-- The members before the awaited one, and its key. -/
  | obj (members : Members) (key : Option String)

/-- What the machine waits for. -/
inductive State where
  /-- A value. -/
  | value (stack : List Frame)
  /-- The first item of an array, or its end. -/
  | firstItem (stack : List Frame)
  /-- The first key of an object, or its end. -/
  | firstKey (stack : List Frame)
  /-- A further key of an object. -/
  | key (members : Members) (stack : List Frame)
  /-- The colon after a key. -/
  | colon (members : Members) (key : Option String) (stack : List Frame)
  /-- What follows a complete value. -/
  | after (v : Json) (stack : List Frame)

namespace State

/-- Takes the first token of a value. -/
def start (stack : List Frame) : Token → Option State
  | .scalar s => some (.after (.scalar s) stack)
  | .openArray => some (.firstItem stack)
  | .openObject => some (.firstKey stack)
  | _ => none

/-- Takes one token. -/
def step : State → Token → Option State
  | .value stack, t => start stack t
  | .firstItem stack, .closeArray => some (.after (.arr []) stack)
  | .firstItem stack, t => start (.arr [] :: stack) t
  | .firstKey stack, .closeObject => some (.after (.obj []) stack)
  | .firstKey stack, .scalar s => (key? s).map fun k => .colon (some []) k stack
  | .key members stack, .scalar s => (key? s).map fun k => .colon members k stack
  | .colon members k stack, .colon => some (.value (.obj members k :: stack))
  | .after v (.arr items :: stack), .comma => some (.value (.arr (v :: items) :: stack))
  | .after v (.arr items :: stack), .closeArray =>
    some (.after (.arr (v :: items).reverse) stack)
  | .after v (.obj members k :: stack), .comma => some (.key (members.push k v) stack)
  | .after v (.obj members k :: stack), .closeObject =>
    some (.after (members.push k v).close stack)
  | _, _ => none

/-- Takes tokens one by one. -/
def run : State → List Token → Option State
  | s, [] => some s
  | s, t :: rest => (s.step t).bind fun s' => s'.run rest

/-- The value that has been read, if it is complete and nothing is open. -/
def result? : State → Option Json
  | .after v [] => some v
  | _ => none

end State

/-- The value that a sequence of tokens spells. -/
def ofTokens (ts : List Token) : Option Json :=
  ((State.value []).run ts).bind State.result?

/-- The value that a text spells. -/
def parse (text : String) : Option Json :=
  (Token.scan text.toList).bind ofTokens

end Json

end TableAsm
