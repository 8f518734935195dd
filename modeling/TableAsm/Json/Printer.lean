import TableAsm.Json.Token

/-! # Writing JSON

  - `Json.tokens` is the token sequence of a value.
  - `Json.compact` writes a value without any blank: its tokens, one after
    the other.
  - `Json.pretty` writes every item and member on a line of its own, two
    blanks further in than the bracket that holds it. An empty array or
    object stays on one line.
-/

namespace TableAsm

namespace Json

mutual

/-- The tokens of a value. -/
def tokens : Json → List Token
  | .scalar s => [.scalar s]
  | .arr [] => [.openArray, .closeArray]
  | .arr (v :: rest) => .openArray :: (tokens v ++ tokensItems rest)
  | .obj [] => [.openObject, .closeObject]
  | .obj ((k, v) :: rest) =>
    .openObject :: .scalar (.text k) :: .colon :: (tokens v ++ tokensMembers rest)

/-- The items of an array after its first, and the closing bracket. -/
def tokensItems : List Json → List Token
  | [] => [.closeArray]
  | v :: rest => .comma :: (tokens v ++ tokensItems rest)

/-- The members of an object after its first, and the closing brace. -/
def tokensMembers : List (String × Json) → List Token
  | [] => [.closeObject]
  | (k, v) :: rest => .comma :: .scalar (.text k) :: .colon :: (tokens v ++ tokensMembers rest)

end

/-- A value without blanks. -/
def compact (v : Json) : String :=
  String.ofList (v.tokens.flatMap Token.spell)

/-- A new line with `n` blanks in front. -/
def newline (n : Nat) : List Char := '\n' :: List.replicate n ' '

mutual

/-- A value with its parts on lines of their own, `n` blanks in. -/
def prettyChars (n : Nat) : Json → List Char
  | .scalar s => Token.spell (.scalar s)
  | .arr [] => ['[', ']']
  | .arr (v :: rest) =>
    '[' :: (newline (n + 2) ++ prettyChars (n + 2) v ++ prettyItems n rest ++ newline n ++ [']'])
  | .obj [] => ['\x7b', '\x7d']
  | .obj ((k, v) :: rest) =>
    '\x7b' :: (newline (n + 2) ++ Token.quote k ++ [':', ' '] ++ prettyChars (n + 2) v
      ++ prettyMembers n rest ++ newline n ++ ['\x7d'])

/-- The items of an array after its first. -/
def prettyItems (n : Nat) : List Json → List Char
  | [] => []
  | v :: rest => ',' :: (newline (n + 2) ++ prettyChars (n + 2) v ++ prettyItems n rest)

/-- The members of an object after its first. -/
def prettyMembers (n : Nat) : List (String × Json) → List Char
  | [] => []
  | (k, v) :: rest =>
    ',' :: (newline (n + 2) ++ Token.quote k ++ [':', ' '] ++ prettyChars (n + 2) v
      ++ prettyMembers n rest)

end

/-- A value for people to read. -/
def pretty (v : Json) : String := String.ofList (v.prettyChars 0)

end Json

end TableAsm
