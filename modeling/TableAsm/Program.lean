import TableAsm.Expr

/-! # Programs

  A program is a list of lines. An instruction line is a flat list of
  items: names (the operation and its modifiers), operands, and the
  brackets of instructions that stand inside another one.
-/

namespace TableAsm

/-- One piece of an instruction. -/
inductive Item where
  /-- The name of an operation or of a modifier. -/
  | name (s : String)
  /-- The start of an instruction inside another one. -/
  | subStart
  /-- The end of an instruction inside another one. -/
  | subEnd
  | expr (e : Expr)
deriving Repr, BEq, Inhabited

/-- One line of a program. -/
inductive Line where
  | insn (items : List Item)
  /-- Binds a name to the position it stands at. -/
  | label (name : String)
  | directive (name : String) (args : List Expr)
deriving Repr, BEq, Inhabited

/-- The lines of a source file. -/
abbrev Program := List Line

end TableAsm
