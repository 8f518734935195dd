import TableAsm.Json
import TableAsm.Numeral

/-! # JSON tokens

  JSON text is a sequence of tokens with blanks between them.

  - `Token.spell` writes a token.
  - `Token.scan` splits a text into tokens, and fails if some part of it
    is no token.

  An escape in quoted text may name a UTF-16 unit. Two units that are the
  halves of a surrogate pair stand for one character, and text in which a
  half stands alone is `garbled`. A control character has to be escaped.
-/

namespace TableAsm

/-- A token of JSON text. -/
inductive Token where
  | openArray
  | closeArray
  | openObject
  | closeObject
  | comma
  | colon
  | scalar (s : Scalar)
deriving DecidableEq, Repr

namespace Token

/-! ## Writing -/

/-- The digit that stands for a number below 16. -/
def hexDigit (n : Nat) : Char := Nat.digitChar n

/-- A character as it stands between quotes: quotes, backslashes and control characters are
    escaped, all else stands for itself. -/
def escape (c : Char) : List Char :=
  if c = '"' then ['\\', '"']
  else if c = '\\' then ['\\', '\\']
  else if c = '\n' then ['\\', 'n']
  else if c = '\r' then ['\\', 'r']
  else if c = '\t' then ['\\', 't']
  else if c = '\x08' then ['\\', 'b']
  else if c = '\x0c' then ['\\', 'f']
  else if c.toNat < 0x20 then
    ['\\', 'u', '0', '0', hexDigit (c.toNat / 16), hexDigit (c.toNat % 16)]
  else [c]

/-- Quoted text. -/
def quote (s : String) : List Char :=
  '"' :: (s.toList.flatMap escape ++ ['"'])

/-- How a token is written. -/
def spell : Token → List Char
  | .openArray => ['[']
  | .closeArray => [']']
  | .openObject => ['\x7b']
  | .closeObject => ['\x7d']
  | .comma => [',']
  | .colon => [':']
  | .scalar .null => ['n', 'u', 'l', 'l']
  | .scalar (.bool true) => ['t', 'r', 'u', 'e']
  | .scalar (.bool false) => ['f', 'a', 'l', 's', 'e']
  | .scalar (.nat n) => Nat.toDigits 10 n
  | .scalar (.number literal) => literal.toList
  | .scalar (.text s) => quote s
  | .scalar .garbled => ['"', '\\', 'u', 'd', '8', '0', '0', '"']

/-! ## Quoted text -/

/-- The number that four hexadecimal digits spell. -/
def hex4? (a b c d : Char) : Option Nat := do
  let a ← Numeral.hexDigit? a
  let b ← Numeral.hexDigit? b
  let c ← Numeral.hexDigit? c
  let d ← Numeral.hexDigit? d
  return ((a * 16 + b) * 16 + c) * 16 + d

/-- The character that a backslash and this letter stand for. -/
def unescape? : Char → Option Char
  | '"' => some '"'
  | '\\' => some '\\'
  | '/' => some '/'
  | 'b' => some '\x08'
  | 'f' => some '\x0c'
  | 'n' => some '\n'
  | 'r' => some '\r'
  | 't' => some '\t'
  | _ => none

/-- Is this the first half of a surrogate pair? -/
def isHighHalf (u : Nat) : Bool := 0xD800 ≤ u && u < 0xDC00

/-- Is this the second half of a surrogate pair? -/
def isLowHalf (u : Nat) : Bool := 0xDC00 ≤ u && u < 0xE000

/-- The character that a surrogate pair stands for. -/
def joinHalves (high low : Nat) : Char :=
  Char.ofNat (0x10000 + (high - 0xD800) * 0x400 + (low - 0xDC00))

/-- A character of quoted text, or the number of a UTF-16 unit that an escape names. -/
inductive Piece where
  | char (c : Char)
  | unit (u : Nat)
deriving DecidableEq, Repr

/-- Reads quoted text after its opening quote: its pieces, and what follows the closing quote. -/
def pieces : List Char → Option (List Piece × List Char)
  | [] => none
  | '"' :: rest => some ([], rest)
  | '\\' :: 'u' :: a :: b :: c :: d :: rest =>
    match hex4? a b c d with
    | none => none
    | some u => (pieces rest).map fun (ps, r) => (.unit u :: ps, r)
  | '\\' :: e :: rest =>
    match unescape? e with
    | none => none
    | some c => (pieces rest).map fun (ps, r) => (.char c :: ps, r)
  | c :: rest =>
    if c = '\\' ∨ c.toNat < 0x20 then none
    else (pieces rest).map fun (ps, r) => (.char c :: ps, r)

/-- The characters that pieces stand for; `none` if half of a surrogate pair stands alone. -/
def characters? : List Piece → Option (List Char)
  | [] => some []
  | .char c :: rest => (characters? rest).map (c :: ·)
  | .unit u :: rest =>
    if isHighHalf u then
      match rest with
      | .unit v :: rest' =>
        if isLowHalf v then (characters? rest').map (joinHalves u v :: ·) else none
      | _ => none
    else if isLowHalf u then none
    else (characters? rest).map (Char.ofNat u :: ·)

/-- The text that pieces make up. -/
def ofPieces (ps : List Piece) : Scalar :=
  match characters? ps with
  | some cs => .text (String.ofList cs)
  | none => .garbled

theorem length_of_pieces {cs r : List Char} {ps : List Piece} (h : pieces cs = some (ps, r)) :
    r.length < cs.length := by
  fun_induction pieces cs generalizing ps r with
  | case1 => simp at h
  | case2 rest =>
    obtain ⟨_, rfl⟩ := Prod.mk.inj (Option.some.inj h)
    exact Nat.lt_succ_self _
  | case3 => simp at h
  | case4 a b c d rest u _ ih =>
    obtain ⟨⟨ps', r'⟩, hp, heq⟩ := Option.map_eq_some_iff.1 h
    obtain rfl : r' = r := congrArg Prod.snd heq
    have := ih hp
    simp only [List.length_cons]
    omega
  | case5 => simp at h
  | case6 e rest _ c _ ih =>
    obtain ⟨⟨ps', r'⟩, hp, heq⟩ := Option.map_eq_some_iff.1 h
    obtain rfl : r' = r := congrArg Prod.snd heq
    have := ih hp
    simp only [List.length_cons]
    omega
  | case7 => simp at h
  | case8 c rest _ _ _ _ ih =>
    obtain ⟨⟨ps', r'⟩, hp, heq⟩ := Option.map_eq_some_iff.1 h
    obtain rfl : r' = r := congrArg Prod.snd heq
    have := ih hp
    simp only [List.length_cons]
    omega

/-! ## Numbers -/

/-- Can this character stand in a number? -/
def isNumeral (c : Char) : Bool :=
  c.isDigit || c = '-' || c = '+' || c = '.' || c = 'e' || c = 'E'

/-- Digits of a whole number: no zero stands in front of others. -/
def isWhole : List Char → Bool
  | [] => false
  | [c] => c.isDigit
  | c :: rest => c.isDigit && c != '0' && rest.all Char.isDigit

/-- One digit or more. -/
def isDigits (cs : List Char) : Bool := !cs.isEmpty && cs.all Char.isDigit

/-- Nothing, or an exponent. -/
def isExponent : List Char → Bool
  | [] => true
  | c :: rest =>
    (c = 'e' || c = 'E') && match rest with
      | '+' :: ds => isDigits ds
      | '-' :: ds => isDigits ds
      | ds => isDigits ds

/-- Nothing, or a fraction, or an exponent, or both in this order. -/
def isFraction : List Char → Bool
  | '.' :: rest => isDigits (rest.takeWhile Char.isDigit) && isExponent (rest.dropWhile Char.isDigit)
  | rest => isExponent rest

/-- The digits of a number, then its fraction and exponent. -/
def isUnsigned (cs : List Char) : Bool :=
  isWhole (cs.takeWhile Char.isDigit) && isFraction (cs.dropWhile Char.isDigit)

/-- The number that a run of numeral characters spells. -/
def numeral? (cs : List Char) : Option Scalar :=
  if isWhole cs then some (.nat (Nat.ofDigitChars 10 cs 0))
  else
    let digits := match cs with
      | '-' :: rest => rest
      | _ => cs
    if isUnsigned digits then some (.number (String.ofList cs)) else none

/-! ## Splitting a text -/

/-- The characters that may stand between tokens. -/
def isBlank (c : Char) : Bool := c = ' ' || c = '\t' || c = '\n' || c = '\r'

/-- The tokens of one character. -/
def punctuation? : Char → Option Token
  | '[' => some .openArray
  | ']' => some .closeArray
  | '\x7b' => some .openObject
  | '\x7d' => some .closeObject
  | ',' => some .comma
  | ':' => some .colon
  | _ => none

/-- A scalar that is written as a word, and what follows it. -/
def word? : List Char → Option (Scalar × List Char)
  | 'n' :: 'u' :: 'l' :: 'l' :: rest => some (.null, rest)
  | 't' :: 'r' :: 'u' :: 'e' :: rest => some (.bool true, rest)
  | 'f' :: 'a' :: 'l' :: 's' :: 'e' :: rest => some (.bool false, rest)
  | _ => none

/-- A scalar at the front of a text, and what follows it. -/
def scalar? : List Char → Option (Scalar × List Char)
  | [] => none
  | c :: rest =>
    if c = '"' then (pieces rest).map fun (ps, r) => (ofPieces ps, r)
    else if isNumeral c then
      (numeral? (c :: rest.takeWhile isNumeral)).map fun s => (s, rest.dropWhile isNumeral)
    else word? (c :: rest)

/-- The token at the front of a text that starts with no blank, and what follows it. -/
def next? : List Char → Option (Token × List Char)
  | [] => none
  | c :: rest =>
    match punctuation? c with
    | some t => some (t, rest)
    | none => (scalar? (c :: rest)).map fun (s, r) => (.scalar s, r)

/-! ### A token takes up some of the text -/

theorem length_of_word? {cs r : List Char} {s : Scalar} (h : word? cs = some (s, r)) :
    r.length < cs.length := by
  unfold word? at h
  split at h
  · obtain ⟨_, rfl⟩ := Prod.mk.inj (Option.some.inj h)
    simp only [List.length_cons]
    omega
  · obtain ⟨_, rfl⟩ := Prod.mk.inj (Option.some.inj h)
    simp only [List.length_cons]
    omega
  · obtain ⟨_, rfl⟩ := Prod.mk.inj (Option.some.inj h)
    simp only [List.length_cons]
    omega
  · simp at h

theorem length_of_scalar? {cs r : List Char} {s : Scalar} (h : scalar? cs = some (s, r)) :
    r.length < cs.length := by
  unfold scalar? at h
  split at h
  · simp at h
  · rename_i c rest
    split at h
    · obtain ⟨⟨ps, r'⟩, hp, heq⟩ := Option.map_eq_some_iff.1 h
      obtain rfl : r' = r := congrArg Prod.snd heq
      have := length_of_pieces hp
      rw [List.length_cons]
      omega
    · split at h
      · obtain ⟨s', _, heq⟩ := Option.map_eq_some_iff.1 h
        obtain rfl : rest.dropWhile isNumeral = r := congrArg Prod.snd heq
        have := (List.dropWhile_suffix (l := rest) isNumeral).length_le
        rw [List.length_cons]
        omega
      · exact length_of_word? h

theorem length_of_next? {cs r : List Char} {t : Token} (h : next? cs = some (t, r)) :
    r.length < cs.length := by
  unfold next? at h
  split at h
  · simp at h
  · split at h
    · obtain ⟨rfl, rfl⟩ := Prod.mk.inj (Option.some.inj h)
      exact Nat.lt_succ_self _
    · obtain ⟨⟨s, r'⟩, hs, heq⟩ := Option.map_eq_some_iff.1 h
      obtain rfl : r' = r := congrArg Prod.snd heq
      exact length_of_scalar? hs

/-- All tokens of a text; `none` if some part of it is none. -/
def scan (cs : List Char) : Option (List Token) :=
  match _hblank : cs.dropWhile isBlank with
  | [] => some []
  | c :: rest =>
    match _hnext : next? (c :: rest) with
    | none => none
    | some (t, r) => (scan r).map (t :: ·)
termination_by cs.length
decreasing_by
  have h₁ := length_of_next? _hnext
  have h₂ := (List.dropWhile_suffix (l := cs) isBlank).length_le
  rw [_hblank] at h₂
  omega

end Token

end TableAsm
