import Mathlib.Data.List.Forall2
import TableAsm.Listing
import TableAsm.Proofs.Interchange
import TableAsm.Proofs.StoredData

/-! # Listings that are read back

  All listings describe the same bytes, and can be read back into them.
  Here is a reader for each: it takes the text apart into lines, a line
  into its number, and an array listing into arrays at the blank lines.

  - A `Cell` is what a number of a listing stands for: a byte or a word.
    There is a plain listing and an array listing for each, so that one
    reader does for both cells.
  - `Listing.lines_unlines`, `Listing.number?_numberText` and
    `Listing.array?_block` read a line, a number and an array.
  - `Listing.arrays?_unlines` says that an array listing has one reading
    only, whatever the names are, as long as they have no newline.
  - `listings_describe_image` puts this together for lists of sections.
-/

namespace TableAsm

/-- What each number of a listing stands for. -/
inductive Cell where
  | byte
  /-- Four bytes, the lowest first. -/
  | word
deriving DecidableEq, Repr

namespace Cell

/-- Bytes in a cell. -/
def size : Cell → Nat
  | byte => 1
  | word => 4

/-- Hexadecimal digits of a cell. -/
def digits (c : Cell) : Nat := 2 * c.size

/-- The format that has one cell on each line. -/
def hex : Cell → Format
  | byte => .hex8
  | word => .hex32

/-- The format that has an array of cells for every section. -/
def array : Cell → Format
  | byte => .cArray8
  | word => .cArray32

/-- The type of the elements of such an array. -/
def type : Cell → String
  | byte => "uint8_t"
  | word => "uint32_t"

/-- The numbers that bytes are listed as. -/
def numbers : Cell → List UInt8 → List Nat
  | byte => List.map UInt8.toNat
  | word => Listing.words

/-- Bytes, with zeros up to the end of the last cell. -/
def padded (c : Cell) (bytes : List UInt8) : List UInt8 :=
  bytes ++ List.replicate (Image.padding bytes.length c.size) 0

end Cell

namespace Listing

variable {α : Type} {c : Cell} {n v : Nat}

/-! ## Readers -/

/-- What stands between a beginning and an end. -/
def between? [DecidableEq α] (first last xs : List α) : Option (List α) :=
  let inner := (xs.drop first.length).take (xs.length - first.length - last.length)
  if xs = first ++ inner ++ last then some inner else none

/-- The lines of a text, without the newlines that end them. -/
def lines : List Char → List (List Char)
  | [] => []
  | c :: rest =>
    if c = '\n' then [] :: lines rest
    else
      match lines rest with
      | [] => [[c]]
      | l :: ls => (c :: l) :: ls

/-- The number on a line of a plain listing. -/
def number? (c : Cell) (line : List Char) : Option Nat :=
  (between? ['0', 'x'] [','] line).bind fun digits =>
    if digits.length = c.digits then Numeral.hex? digits else none

/-- The number on an indented line. -/
def element? (c : Cell) (line : List Char) : Option Nat :=
  (between? ['\t'] [] line).bind (number? c)

/-- The name and the elements of an array, from its lines. -/
def array? (c : Cell) : List (List Char) → Option (String × List Nat)
  | [] => none
  | header :: body => do
    let name ← between? (c.type.toList ++ [' ']) "[] = \x7b".toList header
    let rows ← between? [] ["\x7d;".toList] body
    let elems ← rows.mapM (element? c)
    return (String.ofList name, elems)

/-- The arrays of a text, with a blank line between each two. -/
def arrays? (c : Cell) (text : List Char) : Option (List (String × List Nat)) :=
  if lines text = [] then some [] else ((lines text).splitOn []).mapM (array? c)

/-- The characters of a file. -/
def chars? (file : ByteArray) : Option (List Char) := (String.fromUTF8? file).map String.toList

/-- The lines of a file. -/
def readLines? (file : ByteArray) : Option (List (List Char)) := (chars? file).map lines

/-- Reads a plain listing. -/
def readNumbers? (c : Cell) (file : ByteArray) : Option (List Nat) :=
  (readLines? file).bind (List.mapM (number? c))

/-- Reads a plain listing as the bytes of its cells. -/
def readBytes? (c : Cell) (file : ByteArray) : Option (List UInt8) :=
  (readNumbers? c file).map (List.flatMap fun v => Word.leBytes (BitVec.ofNat 64 v) c.size)

/-- Reads an array listing. -/
def readArrays? (c : Cell) (file : ByteArray) : Option (List (String × List Nat)) :=
  (chars? file).bind (arrays? c)

theorem between?_eq_some [DecidableEq α] {first last xs inner : List α} :
    between? first last xs = some inner ↔ xs = first ++ inner ++ last := by
  unfold between?
  constructor
  · intro h
    obtain ⟨hxs, hinner⟩ := Option.ite_none_right_eq_some.1 h
    rwa [Option.some.inj hinner] at hxs
  · rintro rfl
    have hlength : (first ++ inner ++ last).length - first.length - last.length =
        inner.length := by
      simp only [List.length_append]
      omega
    have hinner : ((first ++ inner ++ last).drop first.length).take
        ((first ++ inner ++ last).length - first.length - last.length) = inner := by
      rw [hlength, List.append_assoc, List.drop_left, List.take_left]
    simp only [hinner, if_true]

theorem chars?_toUTF8 (cs : List Char) : chars? (String.ofList cs).toUTF8 = some cs := by
  have hread : String.fromUTF8? (String.ofList cs).toUTF8 = some (String.ofList cs) :=
    dif_pos (String.ofList cs).isValidUTF8
  rw [chars?, hread]
  simp

/-! ## Lines -/

/-- The text of some lines. -/
def unlines (ls : List (List Char)) : List Char := ls.flatMap (· ++ ['\n'])

theorem lines_append {l : List Char} (h : '\n' ∉ l) (rest : List Char) :
    lines (l ++ '\n' :: rest) = l :: lines rest := by
  induction l with
  | nil => simp [lines]
  | cons x xs ih =>
    rw [List.mem_cons, not_or] at h
    have hx : x ≠ '\n' := Ne.symm h.1
    simp [lines, hx, ih h.2]

theorem lines_unlines {ls : List (List Char)} (h : ∀ l ∈ ls, '\n' ∉ l) :
    lines (unlines ls) = ls := by
  induction ls with
  | nil => rfl
  | cons l ls ih =>
    obtain ⟨hl, hls⟩ := List.forall_mem_cons.1 h
    have hcons : unlines (l :: ls) = l ++ '\n' :: unlines ls := by simp [unlines]
    rw [hcons, lines_append hl, ih hls]

theorem flatMap_unlines (f : α → List (List Char)) (xs : List α) :
    (xs.flatMap fun x => unlines (f x)) = unlines (xs.flatMap f) :=
  (List.flatMap_assoc).symm

/-! ## Numbers -/

/-- A number of a listing, with everything but the newline. -/
def numberText (n v : Nat) : List Char := '0' :: 'x' :: (hexDigits n v ++ [','])

theorem length_hexDigits (n v : Nat) : (hexDigits n v).length = n := by
  induction n generalizing v with
  | zero => rfl
  | succ n ih => simp [hexDigits, ih]

theorem mem_hexDigits {x : Char} (h : x ∈ hexDigits n v) : ∃ d < 16, x = Nat.digitChar d := by
  induction n generalizing v with
  | zero => simp [hexDigits] at h
  | succ n ih =>
    rw [hexDigits, List.mem_append, List.mem_singleton] at h
    rcases h with h | h
    · exact ih h
    · exact ⟨v % 16, Nat.mod_lt v (by decide), h⟩

theorem hexDigit?_digitChar : ∀ d < 16, Numeral.hexDigit? (Nat.digitChar d) = some d := by
  decide

theorem newline_not_mem_hexDigits : '\n' ∉ hexDigits n v := by
  intro h
  obtain ⟨d, hd, hx⟩ := mem_hexDigits h
  have hdigit : ∀ d < 16, '\n' ≠ Nat.digitChar d := by decide
  exact hdigit d hd hx

theorem foldlM_hexDigits (h : v < 16 ^ n) :
    (hexDigits n v).foldlM (fun m x => (Numeral.hexDigit? x).map (16 * m + ·)) 0 = some v := by
  induction n generalizing v with
  | zero =>
    obtain rfl : v = 0 := by simpa using h
    rfl
  | succ n ih =>
    have hdiv : v / 16 < 16 ^ n := by
      rw [Nat.pow_succ] at h
      omega
    rw [hexDigits, List.foldlM_append, ih hdiv]
    have hlast := hexDigit?_digitChar (v % 16) (Nat.mod_lt v (by decide))
    simp [hlast, Nat.div_add_mod]

theorem hex?_hexDigits (hn : 0 < n) (h : v < 16 ^ n) : Numeral.hex? (hexDigits n v) = some v := by
  have hne : hexDigits n v ≠ [] := by
    intro hnil
    have hlength := length_hexDigits n v
    rw [hnil] at hlength
    exact absurd hlength (by simp; omega)
  rw [Numeral.hex?, if_neg hne]
  exact foldlM_hexDigits h

theorem number?_numberText (h : v < 16 ^ c.digits) :
    number? c (numberText c.digits v) = some v := by
  have hpos : 0 < c.digits := by cases c <;> decide
  have hbetween : between? ['0', 'x'] [','] (numberText c.digits v) =
      some (hexDigits c.digits v) := between?_eq_some.2 rfl
  rw [number?, hbetween, Option.bind_some, if_pos (length_hexDigits _ v)]
  exact hex?_hexDigits hpos h

theorem newline_not_mem_numberText : '\n' ∉ numberText n v := by
  simp [numberText, newline_not_mem_hexDigits]

theorem flatten_numberLines (n : Nat) (nums : List Nat) :
    (nums.map (numberLine n)).flatten = unlines (nums.map (numberText n)) := by
  have hline : numberLine n = fun v => numberText n v ++ ['\n'] := by
    funext v
    simp [numberLine, numberText]
  rw [hline, unlines, List.flatMap_map, List.flatMap_def]

/-! ## Arrays -/

/-- The lines of an array. -/
def block (c : Cell) (a : String × List Nat) : List (List Char) :=
  (c.type.toList ++ [' '] ++ a.1.toList ++ "[] = \x7b".toList) ::
    (a.2.map (fun v => '\t' :: numberText c.digits v) ++ ["\x7d;".toList])

/-- An array that can be listed: its elements are cells, and its name fits on a line. -/
def Listable (c : Cell) (a : String × List Nat) : Prop :=
  '\n' ∉ a.1.toList ∧ ∀ v ∈ a.2, v < 16 ^ c.digits

theorem newline_not_mem_type (c : Cell) : '\n' ∉ c.type.toList := by
  cases c <;> decide

theorem newline_not_mem_block {a : String × List Nat} (h : '\n' ∉ a.1.toList) :
    ∀ l ∈ block c a, '\n' ∉ l := by
  intro l hl
  simp only [block, List.mem_cons, List.mem_append, List.mem_map, List.not_mem_nil,
    or_false] at hl
  rcases hl with rfl | ⟨v, _, rfl⟩ | rfl
  · simp [newline_not_mem_type, h]
  · simp [newline_not_mem_numberText]
  · decide

theorem nil_not_mem_block (c : Cell) (a : String × List Nat) : [] ∉ block c a := by
  simp [block]

theorem array?_block {a : String × List Nat} (h : ∀ v ∈ a.2, v < 16 ^ c.digits) :
    array? c (block c a) = some a := by
  have hheader : between? (c.type.toList ++ [' ']) "[] = \x7b".toList
      (c.type.toList ++ [' '] ++ a.1.toList ++ "[] = \x7b".toList) = some a.1.toList :=
    between?_eq_some.2 rfl
  have hbody : between? [] ["\x7d;".toList]
      (a.2.map (fun v => '\t' :: numberText c.digits v) ++ ["\x7d;".toList]) =
      some (a.2.map fun v => '\t' :: numberText c.digits v) :=
    between?_eq_some.2 rfl
  have hrows : (a.2.map fun v => '\t' :: numberText c.digits v).mapM (element? c) = some a.2 := by
    apply mapM_map_eq_some
    intro v hv
    have hindent : between? ['\t'] [] ('\t' :: numberText c.digits v) =
        some (numberText c.digits v) := between?_eq_some.2 (by simp)
    rw [element?, hindent]
    exact number?_numberText (h v hv)
  simp only [block, array?, hheader, hbody, hrows, Option.bind_eq_bind, Option.bind_some,
    String.ofList_toList]
  rfl

theorem arrayText_eq (c : Cell) (name : String) (nums : List Nat) :
    arrayText c.type name (nums.map (numberLine c.digits)) = unlines (block c (name, nums)) := by
  simp [arrayText, block, unlines, numberLine, numberText, List.flatMap_map]

theorem separate_unlines (blocks : List (List (List Char))) :
    separate (blocks.map unlines) = unlines ([[]].intercalate blocks) := by
  induction blocks with
  | nil => rfl
  | cons b rest ih =>
    -- a blank line comes only in front of another block
    cases rest with
    | nil => simp [separate]
    | cons b' rest =>
      rw [List.intercalate_cons_cons, List.map_cons, List.map_cons, separate,
        ← List.map_cons, ih]
      · simp [unlines]
      · simp

theorem forall_mem_intercalate {P : α → Prop} {sep : List α} {xss : List (List α)}
    (hsep : ∀ x ∈ sep, P x) (h : ∀ xs ∈ xss, ∀ x ∈ xs, P x) : ∀ x ∈ sep.intercalate xss, P x := by
  induction xss with
  | nil => simp
  | cons xs rest ih =>
    obtain ⟨hxs, hrest⟩ := List.forall_mem_cons.1 h
    cases rest with
    | nil => simpa using hxs
    | cons ys rest =>
      rw [List.intercalate_cons_cons]
      simp only [List.forall_mem_append]
      exact ⟨⟨hxs, hsep⟩, ih hrest⟩

theorem lines_arrays {arrays : List (String × List Nat)} (h : ∀ a ∈ arrays, '\n' ∉ a.1.toList) :
    lines (unlines ([[]].intercalate (arrays.map (block c)))) =
      [[]].intercalate (arrays.map (block c)) := by
  refine lines_unlines (forall_mem_intercalate (by simp) ?_)
  intro b hb
  obtain ⟨a, ha, rfl⟩ := List.mem_map.1 hb
  exact newline_not_mem_block (h a ha)

/-- **An array listing has one reading.** The blank lines tell the arrays apart, and no line of an
    array is blank. -/
theorem arrays?_unlines {arrays : List (String × List Nat)} (h : ∀ a ∈ arrays, Listable c a) :
    arrays? c (unlines ([[]].intercalate (arrays.map (block c)))) = some arrays := by
  rw [arrays?, lines_arrays fun a ha => (h a ha).1]
  cases arrays with
  | nil => rfl
  | cons a rest =>
    have hne : [[]].intercalate ((a :: rest).map (block c)) ≠ [] := by
      cases rest <;> simp [block, List.intercalate_cons_cons]
    have hblank : ∀ b ∈ (a :: rest).map (block c), [] ∉ b := by
      intro b hb
      obtain ⟨a', _, rfl⟩ := List.mem_map.1 hb
      exact nil_not_mem_block c a'
    -- so the text is split where it was put together
    rw [if_neg hne, List.splitOn_intercalate [] hblank (by simp)]
    exact mapM_map_eq_some fun a ha => array?_block (h a ha).2

end Listing

/-! ## Cells and bytes -/

theorem leValue_lt (bytes : List UInt8) : leValue bytes < 2 ^ (8 * bytes.length) := by
  induction bytes with
  | nil => simp [leValue]
  | cons b rest ih =>
    have hb := b.toNat_lt
    have hpow : 2 ^ (8 * (rest.length + 1)) = 256 * 2 ^ (8 * rest.length) := by
      rw [Nat.mul_succ, Nat.pow_add, Nat.mul_comm]
    rw [leValue, List.length_cons, hpow]
    omega

/-- Bytes come back from the number that they stand for. -/
theorem Word.leBytes_leValue {bytes : List UInt8} (h : bytes.length ≤ 8) :
    leBytes (BitVec.ofNat 64 (leValue bytes)) bytes.length = bytes := by
  induction bytes with
  | nil => rfl
  | cons b rest ih =>
    have hb := b.toNat_lt
    have hrest : leValue rest < 2 ^ 56 := by
      refine Nat.lt_of_lt_of_le (leValue_lt rest) (Nat.pow_le_pow_right (by decide) ?_)
      rw [List.length_cons] at h
      omega
    have hlow : UInt8.ofBitVec ((BitVec.ofNat 64 (leValue (b :: rest))).setWidth 8) = b := by
      apply UInt8.toNat_inj.1
      simp only [leValue, UInt8.toNat_ofBitVec, BitVec.toNat_setWidth, BitVec.toNat_ofNat]
      omega
    have hhigh : BitVec.ofNat 64 (leValue (b :: rest)) >>> 8 = BitVec.ofNat 64 (leValue rest) := by
      apply BitVec.eq_of_toNat_eq
      simp only [leValue, BitVec.toNat_ushiftRight, BitVec.toNat_ofNat, Nat.shiftRight_eq_div_pow]
      omega
    rw [List.length_cons, leBytes_succ, hlow, hhigh, ih (by simp at h; omega)]

namespace Cell

theorem leBytes_four (a b c d : UInt8) :
    Word.leBytes (BitVec.ofNat 64
      (a.toNat + 256 * b.toNat + 65536 * c.toNat + 16777216 * d.toNat)) 4 = [a, b, c, d] := by
  have hvalue : a.toNat + 256 * b.toNat + 65536 * c.toNat + 16777216 * d.toNat =
      leValue [a, b, c, d] := by
    simp only [leValue]
    omega
  rw [hvalue]
  exact Word.leBytes_leValue (by simp)

/-- The cells that bytes are listed as have these bytes, and zeros in what is left of the last
    one. -/
theorem bytes_numbers (c : Cell) (bytes : List UInt8) :
    ((c.numbers bytes).flatMap fun v => Word.leBytes (BitVec.ofNat 64 v) c.size) =
      c.padded bytes := by
  cases c with
  | byte =>
    have hbyte : ∀ b : UInt8, Word.leBytes (BitVec.ofNat 64 b.toNat) 1 = [b] := by
      intro b
      have hvalue : leValue [b] = b.toNat := by simp [leValue]
      rw [← hvalue]
      exact Word.leBytes_leValue (by simp)
    simp [numbers, size, padded, Image.padding, List.flatMap_map, hbyte, Nat.mod_one]
  | word =>
    simp only [numbers, size]
    fun_induction Listing.words bytes with
    | case1 => rfl
    | case2 a =>
      have hpadded : word.padded [a] = [a, 0, 0, 0] := rfl
      simpa [hpadded] using leBytes_four a 0 0 0
    | case3 a b =>
      have hpadded : word.padded [a, b] = [a, b, 0, 0] := rfl
      simpa [hpadded] using leBytes_four a b 0 0
    | case4 a b c =>
      have hpadded : word.padded [a, b, c] = [a, b, c, 0] := rfl
      simpa [hpadded] using leBytes_four a b c 0
    | case5 a b c d rest ih =>
      have hpadding : Image.padding (rest.length + 1 + 1 + 1 + 1) 4 =
          Image.padding rest.length 4 := by
        simp only [Image.padding]
        omega
      simp only [List.flatMap_cons, leBytes_four, ih, padded, size, List.length_cons, hpadding]
      rfl

theorem four_lt (a b c d : UInt8) :
    a.toNat + 256 * b.toNat + 65536 * c.toNat + 16777216 * d.toNat < 16 ^ 8 := by
  have ha := a.toNat_lt
  have hb := b.toNat_lt
  have hc := c.toNat_lt
  have hd := d.toNat_lt
  omega

theorem numbers_lt (c : Cell) (bytes : List UInt8) :
    ∀ v ∈ c.numbers bytes, v < 16 ^ c.digits := by
  cases c with
  | byte =>
    intro v hv
    obtain ⟨b, _, rfl⟩ := List.mem_map.1 hv
    exact b.toNat_lt
  | word =>
    simp only [numbers, digits, size]
    fun_induction Listing.words bytes with
    | case1 => simp
    | case2 a => simpa using four_lt a 0 0 0
    | case3 a b => simpa using four_lt a b 0 0
    | case4 a b c => simpa using four_lt a b c 0
    | case5 a b c d rest ih => exact List.forall_mem_cons.2 ⟨four_lt a b c d, ih⟩

theorem numbers_nil (c : Cell) : c.numbers [] = [] := by
  cases c <;> rfl

end Cell

/-! ## Sections -/

namespace Listing

variable {c : Cell} {sections : List Section}

/-- The sections of a list for which something is written: all but those that are empty and have
    the name of the default section. -/
def written (sections : List Section) : List Section :=
  sections.filter fun s => ¬ (s.name = Section.defaultName ∧ s.bytes = #[])

theorem filter_visible (sections : List Section) :
    sections.filter visible = written sections := by
  apply List.filter_congr
  intro s _
  rw [Bool.eq_iff_iff]
  simp [visible]

/-- A section that is left out would have added nothing. -/
theorem flatMap_written {β : Type} (f : List UInt8 → List β) (hf : f [] = [])
    (sections : List Section) :
    ((written sections).flatMap fun s => f s.bytes.toList) =
      sections.flatMap fun s => f s.bytes.toList := by
  induction sections with
  | nil => rfl
  | cons s rest ih =>
    rw [written, List.filter_cons]
    split
    · rw [List.flatMap_cons, List.flatMap_cons, ← ih]
      rfl
    · next hs =>
      have hempty : s.bytes = #[] := by
        simp only [decide_not, Bool.not_eq_true', decide_eq_false_iff_not, not_not] at hs
        exact hs.2
      rw [List.flatMap_cons, hempty, ← ih]
      simp [hf, written]

theorem byteLines_eq (bytes : List UInt8) :
    byteLines bytes = (Cell.byte.numbers bytes).map (numberLine Cell.byte.digits) := by
  rw [Cell.numbers, List.map_map]
  rfl

/-- A plain listing has the numbers of all sections, one on a line. -/
theorem render_hex (c : Cell) (sections : List Section) :
    render sections c.hex = (String.ofList (unlines
      ((sections.flatMap fun s => c.numbers s.bytes.toList).map (numberText c.digits)))).toUTF8 := by
  have hlines : ∀ s : Section, ((c.numbers s.bytes.toList).map (numberLine c.digits)).flatten =
      unlines ((c.numbers s.bytes.toList).map (numberText c.digits)) :=
    fun s => flatten_numberLines _ _
  -- the two cells differ in the numbers and in nothing else
  have htext : text? (written sections) c.hex = some ((written sections).flatMap fun s =>
      ((c.numbers s.bytes.toList).map (numberLine c.digits)).flatten) := by
    cases c with
    | byte => simp only [Cell.hex, text?, byteLines_eq]
    | word => rfl
  rw [render, filter_visible, htext]
  simp only [hlines, flatMap_unlines]
  rw [← flatMap_written _ (Cell.numbers_nil c), List.map_flatMap]

/-- The arrays that sections are listed as: a name and elements for each. -/
def arraysOf (c : Cell) (sections : List Section) : List (String × List Nat) :=
  (written sections).map fun s => (s.name, c.numbers s.bytes.toList)

/-- An array listing has an array for every section that is written. -/
theorem render_array (c : Cell) (sections : List Section) :
    render sections c.array = (String.ofList (unlines ([[]].intercalate
      ((arraysOf c sections).map (block c))))).toUTF8 := by
  have htext : text? (written sections) c.array = some (separate ((written sections).map fun s =>
      arrayText c.type s.name ((c.numbers s.bytes.toList).map (numberLine c.digits)))) := by
    cases c with
    | byte => simp only [Cell.array, Cell.type, text?, byteLines_eq]
    | word => rfl
  rw [render, filter_visible, htext]
  simp only [arrayText_eq]
  rw [← separate_unlines, arraysOf, List.map_map, List.map_map]
  rfl

theorem readNumbers?_render (c : Cell) (sections : List Section) :
    readNumbers? c (render sections c.hex) =
      some (sections.flatMap fun s => c.numbers s.bytes.toList) := by
  have hlines : readLines? (render sections c.hex) =
      some ((sections.flatMap fun s => c.numbers s.bytes.toList).map (numberText c.digits)) := by
    rw [readLines?, render_hex, chars?_toUTF8, Option.map_some, lines_unlines]
    intro l hl
    obtain ⟨v, _, rfl⟩ := List.mem_map.1 hl
    exact newline_not_mem_numberText
  rw [readNumbers?, hlines, Option.bind_some]
  apply mapM_map_eq_some
  intro v hv
  obtain ⟨s, _, hs⟩ := List.mem_flatMap.1 hv
  exact number?_numberText (c.numbers_lt _ v hs)

theorem readBytes?_render (c : Cell) (sections : List Section) :
    readBytes? c (render sections c.hex) =
      some (sections.flatMap fun s => c.padded s.bytes.toList) := by
  rw [readBytes?, readNumbers?_render, Option.map_some, List.flatMap_assoc]
  simp only [Cell.bytes_numbers]

theorem listable_arraysOf (h : ∀ s ∈ sections, '\n' ∉ s.name.toList) :
    ∀ a ∈ arraysOf c sections, Listable c a := by
  intro a ha
  obtain ⟨s, hs, rfl⟩ := List.mem_map.1 ha
  exact ⟨h s (List.mem_of_mem_filter hs), c.numbers_lt _⟩

theorem readArrays?_render (h : ∀ s ∈ sections, '\n' ∉ s.name.toList) :
    readArrays? c (render sections c.array) = some (arraysOf c sections) := by
  rw [readArrays?, render_array, chars?_toUTF8, Option.bind_some]
  exact arrays?_unlines (listable_arraysOf h)

theorem readLines?_render (h : ∀ s ∈ sections, '\n' ∉ s.name.toList) :
    readLines? (render sections c.array) =
      some ([[]].intercalate ((arraysOf c sections).map (block c))) := by
  rw [readLines?, render_array, chars?_toUTF8, Option.map_some]
  exact congrArg some (lines_arrays fun a ha => (listable_arraysOf h a ha).1)

/-- The array listing of a cell can be read back in one way, and is laid out in blocks. -/
structure ReadsBack (c : Cell) (sections : List Section) : Prop where
  /-- There is an array for each section that is written, in this order. It has the name of the
      section, and the elements that a plain listing of the section has. -/
  arrays : ∃ arrays, readArrays? c (render sections c.array) = some arrays ∧
    List.Forall₂
      (fun s a => a.1 = s.name ∧ readNumbers? c (render [s] c.hex) = some a.2)
      (written sections) arrays
  /-- Other sections with the same listing have the same names and elements. -/
  unique : ∀ others : List Section, (∀ s ∈ others, '\n' ∉ s.name.toList) →
    render others c.array = render sections c.array → arraysOf c others = arraysOf c sections
  /-- Each array is a block of lines, with one blank line from each block to the next and none
      anywhere else. -/
  blocks : ∃ blocks, readLines? (render sections c.array) = some ([[]].intercalate blocks) ∧
    List.Forall₂
      (fun s b => [] ∉ b ∧ array? c b = some (s.name, c.numbers s.bytes.toList))
      (written sections) blocks

theorem readsBack_render (h : ∀ s ∈ sections, '\n' ∉ s.name.toList) : ReadsBack c sections := by
  refine ⟨⟨arraysOf c sections, readArrays?_render h, ?_⟩, ?_, ⟨_, readLines?_render h, ?_⟩⟩
  · rw [arraysOf, List.forall₂_map_right_iff, List.forall₂_same]
    intro s _
    exact ⟨rfl, by simp [readNumbers?_render]⟩
  · intro others hothers hsame
    have hread := readArrays?_render (c := c) hothers
    rw [hsame, readArrays?_render h] at hread
    exact (Option.some.inj hread).symm
  · rw [arraysOf, List.map_map, List.forall₂_map_right_iff, List.forall₂_same]
    intro s _
    exact ⟨nil_not_mem_block c _, array?_block (c.numbers_lt _)⟩

end Listing

/-- **All listings describe the same image.** For every list of sections:

    * the raw listing is the bytes of all sections, and the bytes on the lines of the plain listing
      of bytes are the same;
    * the words on the lines of the plain listing of words have the bytes of each section, filled
      up with zeros to a multiple of four;
    * if no name has a newline, both array listings can be read: into one array for each section
      that is not an empty default section, with the name of the section and the numbers of its
      plain listing, and with blank lines between the arrays and nowhere else. -/
theorem listings_describe_image (sections : List Section) :
    (Listing.render sections .raw).data.toList = sections.flatMap (·.bytes.toList) ∧
    Listing.readBytes? .byte (Listing.render sections .hex8) =
      some (Listing.render sections .raw).data.toList ∧
    Listing.readBytes? .word (Listing.render sections .hex32) =
      some (sections.flatMap fun s =>
        s.bytes.toList ++ List.replicate (Image.padding s.bytes.size 4) 0) ∧
    ((∀ s ∈ sections, '\n' ∉ s.name.toList) →
      ∀ c : Cell, Listing.ReadsBack c sections) := by
  have hraw : (Listing.render sections .raw).data.toList =
      sections.flatMap (·.bytes.toList) := by
    have hshown := Listing.flatMap_written id rfl sections
    simpa [Listing.render, Listing.text?, Listing.filter_visible] using hshown
  refine ⟨hraw, ?_, Listing.readBytes?_render .word sections, ?_⟩
  · have hpadded : ∀ bytes, Cell.byte.padded bytes = bytes := by
      intro bytes
      simp [Cell.padded, Cell.size, Image.padding, Nat.mod_one]
    have hbytes := Listing.readBytes?_render .byte sections
    simp only [hpadded] at hbytes
    rw [hraw]
    exact hbytes
  · intro hnames c
    exact Listing.readsBack_render hnames

/-- An empty default section, a section whose name looks like the start of an array, and an empty
    section. -/
def oddSections : List Section :=
  [{ name := "default" }, { name := "uint32_t x[] = \x7b", bytes := #[1, 2, 3, 4, 5] },
    { name := "" }]

theorem listings_describe_image_oddSections :
    Listing.readBytes? .word (Listing.render oddSections .hex32) =
      some [1, 2, 3, 4, 5, 0, 0, 0] ∧
    Listing.ReadsBack .word oddSections ∧
    Listing.arraysOf .word oddSections =
      [("uint32_t x[] = \x7b", [0x04030201, 0x00000005]), ("", [])] := by
  obtain ⟨_, _, hwords, harrays⟩ := listings_describe_image oddSections
  refine ⟨hwords.trans rfl, harrays ?_ .word, by decide⟩
  simp [oddSections]

end TableAsm
