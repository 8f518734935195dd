/-! # Selectors

  One instruction table serves several processors and several types of
  program. A row names the features it needs and the program types it is
  for, and a `Selector` says which features are there and which types are
  meant.
-/

namespace TableAsm

/-- A set of processor features. What a bit means is up to the instruction set. -/
abbrev Features := BitVec 32

/-- A set of program types. -/
abbrev ProgramTypes := BitVec 32

namespace ProgramTypes

def vertex : ProgramTypes := 1
def geometry : ProgramTypes := 2
def fragment : ProgramTypes := 4
def compute : ProgramTypes := 8

/-- Every type there is. -/
def all : ProgramTypes := 15

end ProgramTypes

/-- The features that a processor has, and the program types that are assembled for. -/
structure Selector where
  features : Features := BitVec.allOnes 32
  types : ProgramTypes := ProgramTypes.all
deriving DecidableEq, Repr

/-- Is a row with these requirements meant? All features have to be there; no program type
    means any. -/
def Selector.accepts (sel : Selector) (features : Features) (types : ProgramTypes) : Bool :=
  sel.features &&& features == features && (types == 0 || types &&& sel.types != 0)

end TableAsm
