/-! # Machine words

  Every number the assembler computes with is a 64-bit word, and all
  arithmetic on words wraps.

  - `lowMask n` is the mask of the `n` lowest bits.
  - `shl` and `shr` shift by any amount; a shift by 64 or more gives zero.
  - `leBytes` cuts the low bytes off a word, least significant first.
  - `power?` recognises powers of two.
-/

namespace TableAsm

/-- A 64-bit number with wrapping arithmetic. -/
abbrev Word := BitVec 64

namespace Word

/-- The word whose `n` lowest bits are set, and every bit from 64 on. -/
def lowMask (n : Nat) : Word :=
  if n < 64 then ((1 : Word) <<< n) - 1 else BitVec.allOnes 64

/-- Left shift. The amount is compared first, so that a huge one costs nothing. -/
def shl (v : Word) (n : Nat) : Word :=
  if n < 64 then v <<< n else 0

/-- Logical right shift. -/
def shr (v : Word) (n : Nat) : Word :=
  if n < 64 then v >>> n else 0

theorem shl_eq (v : Word) (n : Nat) : shl v n = v <<< n := by
  unfold shl
  split
  · rfl
  · exact (BitVec.shiftLeft_eq_zero (by omega)).symm

theorem shr_eq (v : Word) (n : Nat) : shr v n = v >>> n := by
  unfold shr
  split
  · rfl
  · exact (BitVec.ushiftRight_eq_zero (by omega)).symm

/-- The `n` low bytes of a word, least significant first. -/
def leBytes (v : Word) (n : Nat) : List UInt8 :=
  (List.range n).map fun j => UInt8.ofBitVec ((shr v (8 * j)).setWidth 8)

@[simp] theorem length_leBytes (v : Word) (n : Nat) : (leBytes v n).length = n := by
  simp [leBytes]

/-- The exponent of a power of two; `none` for every other word. -/
def power? (v : Word) : Option Nat :=
  let k := v.toNat.log2
  if v.toNat = 1 <<< k then some k else none

end Word

end TableAsm
