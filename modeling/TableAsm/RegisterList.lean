import TableAsm.Register

/-! # Register lists

  A list operand names consecutive registers; places in it may be left to
  the placeholder. It is stored as the number of the first register, the
  length of the list and, where the instruction has a field for it, the
  set of places that hold a register. Without that field every place must.
-/

namespace TableAsm

/-- A kind of register list operand. -/
structure RegisterList where
  name : String
  /-- Number of the first register. -/
  start : Field
  /-- Length of the list. -/
  count : Field
  /-- Places that hold a register, the first place in the lowest bit. -/
  mask : Option Field := none
deriving DecidableEq, Repr

/-- What is known about a list after some of its elements. -/
structure RegisterRun where
  /-- Number of the first register, 0 if there was none. -/
  start : Word := 0
  /-- The number that the next register has to have. -/
  next : Word := 0
  /-- Places that held a register. -/
  mask : Word := 0
deriving DecidableEq, Repr

namespace RegisterList

/-- Adds a register at some place. It has to be the next in number; the largest number of all
    has no next one, and only the first 64 places can be told apart. -/
def push? (run : RegisterRun) (place : Nat) (n : Word) : Option RegisterRun :=
  if n = BitVec.allOnes 64 ∨ 64 ≤ place then none
  else if run.mask = 0 then some ⟨n, n + 1, Word.shl 1 place⟩
  else if n = run.next then some ⟨run.start, n + 1, run.mask ||| Word.shl 1 place⟩
  else none

/-- Reads the elements of a list from some place on. -/
def scan? (name : String) : List Expr → Nat → RegisterRun → Option RegisterRun
  | [], _, run => some run
  | .discard :: rest, place, run => scan? name rest (place + 1) run
  | .reg s :: rest, place, run => do
    let digits ← name.toList.isPrefixOf? s.toList
    let n ← Numeral.word? digits
    let run ← push? run place n
    scan? name rest (place + 1) run
  | _ :: _, _, _ => none

/-- Writes a list. -/
def encode (l : RegisterList) (elems : List Expr) (p : Pattern) : Option Pattern := do
  let run ← scan? l.name elems 0 {}
  let p ← l.start.encode p run.start 0
  let p ← l.count.encode p (BitVec.ofNat 64 elems.length) 0
  match l.mask with
  | some f => f.encode p run.mask 0
  | none => if elems.length ≤ 64 ∧ run.mask = Word.lowMask elems.length then some p else none

end RegisterList

end TableAsm
