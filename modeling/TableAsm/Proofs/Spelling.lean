import TableAsm.Json.Parser
import TableAsm.Json.Printer

/-! # JSON text that is read back

  What the printer writes, the reader reads. This is said first for the
  parts of a token, then for tokens in front of other text, and then for
  values.

  - `Token.pieces_quote` reads quoted text, whatever is in it, and
    `Token.isWhole_toDigits` says that numbers have no zeros in front.
  - `Token.scan_punctuation` and `Token.scan_scalar` read one token. A
    scalar must not be followed by what could be more of a number
    (`Token.Stops`).
  - `Json.scan_tokens` and `Json.run_tokens` say the same of the tokens of
    a value, for the scanner and for the machine that reads tokens.
  - `Json.parse_compact` is the result, for values that are `isPlain`.
-/

namespace TableAsm

/-- Values that a program is made of: a number is written as digits only, and a text is Unicode. -/
def Scalar.isPlain : Scalar → Bool
  | .number _ => false
  | .garbled => false
  | _ => true

namespace Token

/-! ## Quoted text -/

theorem hex4?_control :
    ∀ n < 0x20, hex4? '0' '0' (hexDigit (n / 16)) (hexDigit (n % 16)) = some n := by
  decide

/-- An escaped character is read as one piece, and this stands for the character. -/
theorem pieces_escape (c : Char) :
    ∃ x, (∀ rest, pieces (escape c ++ rest) = (pieces rest).map fun y => (x :: y.1, y.2)) ∧
      ∀ ps, characters? (x :: ps) = (characters? ps).map (c :: ·) := by
  by_cases hletter : c ∈ ['"', '\\', '\n', '\r', '\t', '\x08', '\x0c']
  · -- a backslash and a letter
    simp only [List.mem_cons, List.not_mem_nil, or_false] at hletter
    rcases hletter with rfl | rfl | rfl | rfl | rfl | rfl | rfl <;>
      exact ⟨.char _, fun _ => rfl, fun _ => rfl⟩
  · simp only [List.mem_cons, List.not_mem_nil, or_false, not_or] at hletter
    unfold escape
    simp only [hletter, if_false]
    split
    · -- a control character is named by its number, which is no half of a pair
      next hcontrol =>
      have hhigh : isHighHalf c.toNat = false := by
        simp only [isHighHalf, Bool.and_eq_false_iff, decide_eq_false_iff_not]
        omega
      have hlow : isLowHalf c.toNat = false := by
        simp only [isLowHalf, Bool.and_eq_false_iff, decide_eq_false_iff_not]
        omega
      refine ⟨.unit c.toNat, ?_, ?_⟩
      · intro rest
        simp [pieces, hex4?_control c.toNat hcontrol]
      · intro ps
        rw [characters?.eq_def]
        simp [hhigh, hlow]
    · next hcontrol =>
      refine ⟨.char c, ?_, fun _ => rfl⟩
      intro rest
      simp [pieces, hletter, hcontrol]

theorem pieces_quote (cs rest : List Char) :
    ∃ ps, pieces (cs.flatMap escape ++ '"' :: rest) = some (ps, rest) ∧
      characters? ps = some cs := by
  induction cs with
  | nil => exact ⟨[], rfl, rfl⟩
  | cons c cs ih =>
    obtain ⟨ps, hps, hcs⟩ := ih
    obtain ⟨x, hx, hc⟩ := pieces_escape c
    refine ⟨x :: ps, ?_, ?_⟩
    · rw [List.flatMap_cons, List.append_assoc, hx, hps]
      rfl
    · rw [hc, hcs]
      rfl

theorem scalar?_quote (s : String) (rest : List Char) :
    scalar? (quote s ++ rest) = some (.text s, rest) := by
  obtain ⟨ps, hps, hcs⟩ := pieces_quote s.toList rest
  unfold quote scalar?
  simp [hps, ofPieces, hcs]

/-! ## Numbers -/

/-- Nothing that could be more of a number comes first. -/
def Stops (rest : List Char) : Prop := ∀ c ∈ rest.head?, isNumeral c = false

theorem isNumeral_of_isDigit {c : Char} (h : c.isDigit = true) : isNumeral c = true := by
  simp [isNumeral, h]

/-- A number is written with digits, and with at least one. -/
theorem toDigits_eq_cons (n : Nat) :
    ∃ c cs, Nat.toDigits 10 n = c :: cs ∧ ∀ x ∈ c :: cs, x.isDigit = true := by
  cases hcs : Nat.toDigits 10 n with
  | nil => exact absurd hcs (List.length_pos_iff.1 Nat.length_toDigits_pos)
  | cons c cs =>
    refine ⟨c, cs, rfl, ?_⟩
    intro x hx
    rw [← hcs] at hx
    exact Nat.isDigit_of_mem_toDigits (by decide) (by decide) hx

/-- The first digit of a number is no zero, unless it is the number zero. -/
theorem head?_toDigits {n : Nat} (hn : 0 < n) : (Nat.toDigits 10 n).head? ≠ some '0' := by
  induction n using Nat.strongRecOn with
  | ind n ih =>
    by_cases hlt : n < 10
    · rw [Nat.toDigits_of_lt_base hlt]
      have hdigit : ∀ d < 10, 0 < d → [Nat.digitChar d].head? ≠ some '0' := by decide
      exact hdigit n hlt hn
    · rw [Nat.toDigits_of_base_le (by decide) (by omega), List.head?_append]
      obtain ⟨c, cs, hcs, _⟩ := toDigits_eq_cons (n / 10)
      have hhead := ih (n / 10) (by omega) (by omega)
      rw [hcs] at hhead ⊢
      exact hhead

theorem isWhole_toDigits (n : Nat) : isWhole (Nat.toDigits 10 n) = true := by
  obtain ⟨c, cs, hcs, hdigits⟩ := toDigits_eq_cons n
  have hc := hdigits c List.mem_cons_self
  by_cases hlt : n < 10
  · rw [Nat.toDigits_of_lt_base hlt] at hcs ⊢
    rw [hcs]
    obtain ⟨_, rfl⟩ := List.cons.inj hcs
    exact hc
  · have hzero : c ≠ '0' := by
      intro heq
      refine head?_toDigits (n := n) (by omega) ?_
      rw [hcs, heq]
      rfl
    rw [hcs]
    cases cs with
    | nil => exact hc
    | cons c' cs =>
      have hrest : (c' :: cs).all Char.isDigit = true :=
        List.all_eq_true.2 fun x hx => hdigits x (List.mem_cons_of_mem c hx)
      rw [isWhole, hc, hrest, bne_iff_ne.2 hzero]
      · rfl
      · simp

theorem scalar?_toDigits (n : Nat) {rest : List Char} (hrest : Stops rest) :
    scalar? (Nat.toDigits 10 n ++ rest) = some (.nat n, rest) := by
  have hnumeral : numeral? (Nat.toDigits 10 n) = some (.nat n) := by
    unfold numeral?
    rw [if_pos (isWhole_toDigits n), Nat.ofDigitChars_ten_toDigits]
  obtain ⟨c, cs, hcs, hdigits⟩ := toDigits_eq_cons n
  rw [hcs] at hnumeral ⊢
  have hc := hdigits c List.mem_cons_self
  have hquote : c ≠ '"' := by
    rintro rfl
    simp at hc
  have hall : ∀ x ∈ cs, isNumeral x = true := fun x hx =>
    isNumeral_of_isDigit (hdigits x (List.mem_cons_of_mem c hx))
  -- the run of numeral characters ends where the digits end
  have htake : (cs ++ rest).takeWhile isNumeral = cs := by
    rw [List.takeWhile_append_of_pos hall]
    cases rest with
    | nil => simp
    | cons x rest => simp [hrest x rfl]
  have hdrop : (cs ++ rest).dropWhile isNumeral = rest := by
    rw [List.dropWhile_append_of_pos hall]
    cases rest with
    | nil => rfl
    | cons x rest => simp [hrest x rfl]
  rw [List.cons_append]
  unfold scalar?
  simp [hquote, isNumeral_of_isDigit hc, htake, hdrop, hnumeral]

/-! ## Tokens -/

theorem scalar?_spell {s : Scalar} (hs : s.isPlain = true) {rest : List Char}
    (hrest : Stops rest) : scalar? (spell (.scalar s) ++ rest) = some (s, rest) := by
  cases s with
  | null => rfl
  | bool b => cases b <;> rfl
  | nat n => exact scalar?_toDigits n hrest
  | number literal => simp [Scalar.isPlain] at hs
  | text s => exact scalar?_quote s rest
  | garbled => simp [Scalar.isPlain] at hs

/-- A scalar starts neither with a blank nor as another token. -/
theorem spell_scalar {s : Scalar} (hs : s.isPlain = true) :
    ∃ c cs, spell (.scalar s) = c :: cs ∧ isBlank c = false ∧ punctuation? c = none := by
  cases s with
  | null => exact ⟨_, _, rfl, rfl, rfl⟩
  | bool b => cases b <;> exact ⟨_, _, rfl, rfl, rfl⟩
  | nat n =>
    obtain ⟨c, cs, hcs, hdigits⟩ := toDigits_eq_cons n
    have hc := hdigits c List.mem_cons_self
    refine ⟨c, cs, hcs, ?_, ?_⟩
    · simp only [isBlank, Bool.or_eq_false_iff, decide_eq_false_iff_not]
      refine ⟨⟨⟨?_, ?_⟩, ?_⟩, ?_⟩ <;> rintro rfl <;> simp at hc
    · unfold punctuation?
      split <;> simp at hc ⊢
  | number literal => simp [Scalar.isPlain] at hs
  | text s => exact ⟨_, _, rfl, rfl, rfl⟩
  | garbled => simp [Scalar.isPlain] at hs

theorem scan_of_next? {c : Char} {cs rest : List Char} {t : Token} {ts : List Token}
    (hblank : isBlank c = false) (hnext : next? (c :: cs) = some (t, rest))
    (hrest : scan rest = some ts) : scan (c :: cs) = some (t :: ts) := by
  have hdrop : (c :: cs).dropWhile isBlank = c :: cs := by simp [hblank]
  rw [scan]
  split
  · next heq => simp [hdrop] at heq
  · next c' cs' heq =>
    obtain ⟨rfl, rfl⟩ := List.cons.inj (hdrop.symm.trans heq)
    split
    · next hnone => simp [hnext] at hnone
    · next t' rest' hsome =>
      obtain ⟨rfl, rfl⟩ := Prod.mk.inj (Option.some.inj (hnext.symm.trans hsome))
      rw [hrest]
      rfl

theorem scan_punctuation {c : Char} {t : Token} {rest : List Char} {ts : List Token}
    (hc : punctuation? c = some t) (hrest : scan rest = some ts) :
    scan (c :: rest) = some (t :: ts) := by
  refine scan_of_next? ?_ ?_ hrest
  · unfold punctuation? at hc
    split at hc <;> first | rfl | simp at hc
  · simp [next?, hc]

theorem scan_scalar {s : Scalar} (hs : s.isPlain = true) {rest : List Char} {ts : List Token}
    (hstops : Stops rest) (hrest : scan rest = some ts) :
    scan (spell (.scalar s) ++ rest) = some (.scalar s :: ts) := by
  obtain ⟨c, cs, hcs, hblank, hpunctuation⟩ := spell_scalar hs
  have hscalar := scalar?_spell hs hstops
  rw [hcs, List.cons_append] at hscalar ⊢
  refine scan_of_next? hblank ?_ hrest
  simp [next?, hpunctuation, hscalar]

end Token

namespace Json

/-! ## Values -/

mutual

/-- Are all scalars in a value plain? -/
def isPlain : Json → Bool
  | .scalar s => s.isPlain
  | .arr items => isPlainItems items
  | .obj members => isPlainMembers members

/-- Are all scalars in some array items plain? -/
def isPlainItems : List Json → Bool
  | [] => true
  | v :: rest => v.isPlain && isPlainItems rest

/-- Are all scalars in some object members plain? -/
def isPlainMembers : List (String × Json) → Bool
  | [] => true
  | (_, v) :: rest => v.isPlain && isPlainMembers rest

end

/-- Tokens as text, without blanks. -/
def spellAll (ts : List Token) : List Char := ts.flatMap Token.spell

theorem spellAll_append (ts ts' : List Token) (rest : List Char) :
    spellAll (ts ++ ts') ++ rest = spellAll ts ++ (spellAll ts' ++ rest) := by
  simp [spellAll]

theorem stops_tokensItems (items : List Json) (rest : List Char) :
    Token.Stops (spellAll (tokensItems items) ++ rest) := by
  intro c hc
  cases items with
  | nil => cases hc; rfl
  | cons v items => cases hc; rfl

theorem stops_tokensMembers (members : List (String × Json)) (rest : List Char) :
    Token.Stops (spellAll (tokensMembers members) ++ rest) := by
  intro c hc
  cases members with
  | nil => cases hc; rfl
  | cons m members => cases hc; rfl

/-- A key and its colon are read before what follows them. -/
theorem scan_key (k : String) {ts us : List Token} {rest : List Char}
    (h : Token.scan (spellAll ts ++ rest) = some us) :
    Token.scan (spellAll (.scalar (.text k) :: .colon :: ts) ++ rest) =
      some (.scalar (.text k) :: .colon :: us) := by
  have hstops : Token.Stops (':' :: (spellAll ts ++ rest)) := by
    intro c hc
    cases hc
    rfl
  have hscan := Token.scan_scalar (s := .text k) rfl hstops (Token.scan_punctuation rfl h)
  rwa [← List.cons_append, ← List.append_assoc] at hscan

mutual

/-- The text of a value is split into its tokens, whatever stands after it. -/
theorem scan_tokens (v : Json) (hv : v.isPlain = true) {rest : List Char} {ts : List Token}
    (hstops : Token.Stops rest) (hrest : Token.scan rest = some ts) :
    Token.scan (spellAll v.tokens ++ rest) = some (v.tokens ++ ts) := by
  cases v with
  | scalar s =>
    rw [isPlain] at hv
    have hone : spellAll (tokens (.scalar s)) = Token.spell (.scalar s) := List.append_nil _
    rw [hone]
    exact Token.scan_scalar hv hstops hrest
  | arr items =>
    rw [isPlain] at hv
    cases items with
    | nil => exact Token.scan_punctuation rfl (Token.scan_punctuation rfl hrest)
    | cons v items =>
      rw [isPlainItems, Bool.and_eq_true] at hv
      have hvalue := scan_tokens v hv.1 (stops_tokensItems items rest)
        (scan_tokensItems items hv.2 hrest)
      rw [← spellAll_append, ← List.append_assoc] at hvalue
      exact Token.scan_punctuation rfl hvalue
  | obj members =>
    rw [isPlain] at hv
    cases members with
    | nil => exact Token.scan_punctuation rfl (Token.scan_punctuation rfl hrest)
    | cons m members =>
      obtain ⟨k, v⟩ := m
      rw [isPlainMembers, Bool.and_eq_true] at hv
      have hvalue := scan_tokens v hv.1 (stops_tokensMembers members rest)
        (scan_tokensMembers members hv.2 hrest)
      rw [← spellAll_append, ← List.append_assoc] at hvalue
      exact Token.scan_punctuation rfl (scan_key k hvalue)

theorem scan_tokensItems (items : List Json) (hitems : isPlainItems items = true)
    {rest : List Char} {ts : List Token} (hrest : Token.scan rest = some ts) :
    Token.scan (spellAll (tokensItems items) ++ rest) = some (tokensItems items ++ ts) := by
  cases items with
  | nil => exact Token.scan_punctuation rfl hrest
  | cons v items =>
    rw [isPlainItems, Bool.and_eq_true] at hitems
    have hvalue := scan_tokens v hitems.1 (stops_tokensItems items rest)
      (scan_tokensItems items hitems.2 hrest)
    rw [← spellAll_append, ← List.append_assoc] at hvalue
    exact Token.scan_punctuation rfl hvalue

theorem scan_tokensMembers (members : List (String × Json))
    (hmembers : isPlainMembers members = true) {rest : List Char} {ts : List Token}
    (hrest : Token.scan rest = some ts) :
    Token.scan (spellAll (tokensMembers members) ++ rest) =
      some (tokensMembers members ++ ts) := by
  cases members with
  | nil => exact Token.scan_punctuation rfl hrest
  | cons m members =>
    obtain ⟨k, v⟩ := m
    rw [isPlainMembers, Bool.and_eq_true] at hmembers
    have hvalue := scan_tokens v hmembers.1 (stops_tokensMembers members rest)
      (scan_tokensMembers members hmembers.2 hrest)
    rw [← spellAll_append, ← List.append_assoc] at hvalue
    exact Token.scan_punctuation rfl (scan_key k hvalue)

end

/-! ## The machine -/

/-- No value starts with a closing bracket, so what may come first in an array comes as a value. -/
theorem run_firstItem (v : Json) (stack : List Frame) (ts : List Token) :
    (State.firstItem stack).run (v.tokens ++ ts) =
      (State.value (.arr [] :: stack)).run (v.tokens ++ ts) := by
  cases v with
  | scalar s => rfl
  | arr items => cases items <;> rfl
  | obj members => cases members <;> rfl

-- The induction is on the value. The stack below it is any: the items or members that were read
-- before are put back in order when the bracket is closed.

mutual

/-- The machine takes the tokens of a value and then holds the value. -/
theorem run_tokens (v : Json) (stack : List Frame) (ts : List Token) :
    (State.value stack).run (v.tokens ++ ts) = (State.after v stack).run ts := by
  cases v with
  | scalar s => rfl
  | arr items =>
    cases items with
    | nil => rfl
    | cons v items =>
      have hvalue := run_tokens v (.arr [] :: stack) (tokensItems items ++ ts)
      rw [run_tokensItems v items [] stack ts, ← List.append_assoc] at hvalue
      rw [List.append_assoc, ← run_firstItem, ← List.append_assoc] at hvalue
      exact hvalue
  | obj members =>
    cases members with
    | nil => rfl
    | cons m members =>
      obtain ⟨k, v⟩ := m
      have hvalue := run_tokens v (.obj (some []) (some k) :: stack) (tokensMembers members ++ ts)
      rw [run_tokensMembers k v members [] stack ts, ← List.append_assoc] at hvalue
      exact hvalue

theorem run_tokensItems (v : Json) (items before : List Json) (stack : List Frame)
    (ts : List Token) :
    (State.after v (.arr before :: stack)).run (tokensItems items ++ ts) =
      (State.after (.arr (before.reverse ++ v :: items)) stack).run ts := by
  cases items with
  | nil =>
    show (State.after (.arr (v :: before).reverse) stack).run ts = _
    rw [List.reverse_cons]
  | cons v' items =>
    have hvalue := run_tokens v' (.arr (v :: before) :: stack) (tokensItems items ++ ts)
    rw [run_tokensItems v' items (v :: before) stack ts, ← List.append_assoc, List.reverse_cons,
      List.append_assoc before.reverse] at hvalue
    exact hvalue

theorem run_tokensMembers (k : String) (v : Json) (members before : List (String × Json))
    (stack : List Frame) (ts : List Token) :
    (State.after v (.obj (some before) (some k) :: stack)).run (tokensMembers members ++ ts) =
      (State.after (.obj (before.reverse ++ (k, v) :: members)) stack).run ts := by
  cases members with
  | nil =>
    show (State.after (.obj ((k, v) :: before).reverse) stack).run ts = _
    rw [List.reverse_cons]
  | cons m members =>
    obtain ⟨k', v'⟩ := m
    have hvalue := run_tokens v' (.obj (some ((k, v) :: before)) (some k') :: stack)
      (tokensMembers members ++ ts)
    rw [run_tokensMembers k' v' members ((k, v) :: before) stack ts, ← List.append_assoc,
      List.reverse_cons, List.append_assoc before.reverse] at hvalue
    exact hvalue

end

/-- A value is read from the text that is written for it. -/
theorem parse_compact {v : Json} (hv : v.isPlain = true) : parse v.compact = some v := by
  have hstops : Token.Stops [] := by
    intro c hc
    cases hc
  have hempty : Token.scan [] = some [] := by
    rw [Token.scan]
    rfl
  have hscan := scan_tokens v hv hstops hempty
  rw [List.append_nil] at hscan
  show (Token.scan (String.ofList (spellAll v.tokens)).toList).bind ofTokens = some v
  rw [String.toList_ofList, hscan, Option.bind_some, ofTokens, run_tokens v [] []]
  rfl

end Json

end TableAsm
