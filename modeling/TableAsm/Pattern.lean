import TableAsm.Word

/-! # Partially fixed bit patterns

  An instruction is put together from pieces that each know some of its
  bits. A `Pattern` is such a piece: 128 bits, of which some are *claimed*.

  - `Pattern.write` puts a number into a span of bits. It is refused when
    a claimed bit of the span holds something else, and it claims the span.
  - `Pattern.read` gives the contents of a span.
  - `Compatible` patterns agree on every bit that both have claimed;
    `Pattern.union` joins them.

  Bits that nobody has claimed are zero in every pattern built from these
  operations.
-/

namespace TableAsm

/-- A run of `len` bits that starts at bit `pos`. -/
structure Span where
  pos : Nat := 0
  len : Nat := 0
deriving DecidableEq, Repr

/-- A 128-bit pattern of which the bits in `claimed` are decided. -/
structure Pattern where
  value : BitVec 128
  claimed : BitVec 128
deriving DecidableEq, Repr

namespace Pattern

/-- Bits in a pattern. -/
def bits : Nat := 128

/-- Bytes in a pattern. -/
def maxBytes : Nat := 16

/-! ## Construction -/

/-- The pattern in which nothing is decided. -/
def empty : Pattern := ⟨0, 0⟩

/-- Decides the bits of `mask` in the low word, with the values they have in `val`. -/
def fixed (val mask : Word) : Pattern :=
  ⟨(val &&& mask).setWidth 128, mask.setWidth 128⟩

/-! ## Reading -/

/-- Word `i` of the value, the least significant first; zero past the end. -/
def word (p : Pattern) (i : Nat) : Word :=
  if i < 2 then (p.value >>> (64 * i)).setWidth 64 else 0

/-- Word `i` of the claimed mask. -/
def claimedWord (p : Pattern) (i : Nat) : Word :=
  if i < 2 then (p.claimed >>> (64 * i)).setWidth 64 else 0

/-- Has bit `i` been decided? -/
def isClaimed (p : Pattern) (i : Nat) : Bool :=
  p.claimed.getLsbD i

/-- The contents of a span, at most 64 bits of it. Bits past the end read as zero. -/
def read (p : Pattern) (s : Span) : Word :=
  if s.pos < bits then (p.value >>> s.pos).setWidth 64 &&& Word.lowMask s.len else 0

/-- The first `n` bytes of the value, least significant first; there are `maxBytes`. -/
def bytes (p : Pattern) (n : Nat) : List UInt8 :=
  (List.range (min n maxBytes)).map fun j => UInt8.ofBitVec ((p.value >>> (8 * j)).setWidth 8)

@[simp] theorem length_bytes (p : Pattern) (n : Nat) : (p.bytes n).length = min n maxBytes := by
  simp [bytes]

/-! ## Writing -/

/-- The bits that a span covers. -/
def spanMask (s : Span) : BitVec 128 :=
  (Word.lowMask s.len).setWidth 128 <<< s.pos

/-- The low bits of `num`, moved to where a span has them. -/
def spanBits (s : Span) (num : Word) : BitVec 128 :=
  (num &&& Word.lowMask s.len).setWidth 128 <<< s.pos

/-- Puts the low bits of `num` into a span and claims it.

    An empty span takes anything. A span longer than a word, or one that
    leaves the pattern, takes nothing, and neither does one with a claimed
    bit of another value. -/
def write (p : Pattern) (s : Span) (num : Word) : Option Pattern :=
  if s.len = 0 then some p
  else if 64 < s.len ∨ bits < s.pos + s.len then none
  else if (p.value ^^^ spanBits s num) &&& p.claimed &&& spanMask s = 0 then
    some ⟨(p.value &&& ~~~ spanMask s) ||| spanBits s num, p.claimed ||| spanMask s⟩
  else none

/-! ## Joining -/

/-- No bit that both patterns have claimed differs. -/
def Compatible (a b : Pattern) : Prop :=
  (a.value ^^^ b.value) &&& a.claimed &&& b.claimed = 0

instance (a b : Pattern) : Decidable (Compatible a b) :=
  inferInstanceAs (Decidable (_ = _))

/-- Everything that either pattern has decided. -/
def union (a b : Pattern) : Pattern :=
  ⟨a.value ||| b.value, a.claimed ||| b.claimed⟩

end Pattern

end TableAsm
