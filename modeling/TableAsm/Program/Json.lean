import TableAsm.Json.Parser
import TableAsm.Json.Printer
import TableAsm.Json.Tagged
import TableAsm.Once
import TableAsm.Program

/-! # Programs as JSON

  A program is an array of lines. Lines, items and expressions are tagged
  by what they are: `Expr.toJson` and its companions write them, and
  `Expr.ofJson` and its companions read them.

  Reading takes more than what is written. The parts of a memory reference
  and of a directive may come in any order, among keys that mean nothing,
  and the last part of each may be missing. No part may come twice. The
  parts may also stand in an array, in the order of the keys; those of a
  directive only where a whole program is read (`Line.withKeys`).

  What is read must not be nested too deep (`Program.maxDepth`). Values
  under keys that mean nothing are passed over and do not count.

  - `Program.render` writes a program.
  - `Program.parse` reads one.
-/

namespace TableAsm

/-! ## Tags -/

/-- The tag of an operator. -/
def BinOp.tag : BinOp → String
  | .add => "add"
  | .sub => "sub"
  | .mul => "mul"
  | .div => "div"
  | .shl => "shl"
  | .shr => "shr"
  | .and => "and"
  | .xor => "xor"
  | .or => "or"

/-- The operator with this tag. -/
def BinOp.ofTag? (tag : String) : Option BinOp :=
  [BinOp.add, .sub, .mul, .div, .shl, .shr, .and, .xor, .or].find? (·.tag == tag)

/-- The tag of a memory reference that moves its address. -/
def Timing.tag : Timing → Bool → String
  | .post, false => "post_add"
  | .post, true => "post_sub"
  | .pre, false => "pre_add"
  | .pre, true => "pre_sub"

/-- When and in which direction a memory reference with this tag moves its address. -/
def Timing.ofTag? (tag : String) : Option (Timing × Bool) :=
  [(Timing.post, false), (.post, true), (.pre, false), (.pre, true)].find?
    fun (timing, down) => timing.tag down == tag

/-! ## Writing -/

mutual

/-- Writes an expression. -/
def Expr.toJson : Expr → Json
  | .num n => .tagged "num" (.nat n.toNat)
  | .label name => .tagged "label" (.text name)
  | .reg name => .tagged "reg" (.text name)
  | .mem space addr =>
    .tagged "mem" (.obj [("space", .text space), ("addr", addr.toJson), ("incr", .text "none")])
  | .memStep space addr timing down amount =>
    .tagged "mem" (.obj [("space", .text space), ("addr", addr.toJson),
      ("incr", .tagged (timing.tag down) amount.toJson)])
  | .vec elems => .tagged "vec" (.arr (exprsToJson elems))
  | .discard => .text "discard"
  | .range first last => .tagged "range" (.arr [.nat first.toNat, .nat last.toNat])
  | .neg e => .tagged "neg" e.toJson
  | .not e => .tagged "not" e.toJson
  | .bin op a b => .tagged "bin" (.arr [.text op.tag, a.toJson, b.toJson])
termination_by structural e => e

/-- Writes expressions one by one. -/
def exprsToJson : List Expr → List Json
  | [] => []
  | e :: rest => e.toJson :: exprsToJson rest
termination_by structural es => es

end

/-- Writes an item. -/
def Item.toJson : Item → Json
  | .name s => .tagged "name" (.text s)
  | .subStart => .text "sub_start"
  | .subEnd => .text "sub_end"
  | .expr e => .tagged "expr" e.toJson

/-- Writes a line. -/
def Line.toJson : Line → Json
  | .insn items => .tagged "insn" (.arr (items.map Item.toJson))
  | .label name => .tagged "label" (.text name)
  | .directive name args =>
    .tagged "directive" (.obj [("name", .text name), ("args", .arr (exprsToJson args))])

/-- Writes a program as a value. -/
def Program.toJson (program : Program) : Json := .arr (program.map Line.toJson)

/-- Writes a program as text. -/
def Program.render (program : Program) : String := (Program.toJson program).compact

/-! ## Reading -/

/-- How a memory reference moves its address: when, whether down, and by how much. -/
abbrev AddressStep := Timing × Bool × Expr

/-- The parts of a memory reference that have been read. -/
structure MemParts where
  space : Option String := none
  addr : Option Expr := none
  /-- Whether and how the address is moved. -/
  step : Option (Option AddressStep) := none

namespace MemParts

/-- The memory reference with these parts. -/
def toExpr? (p : MemParts) : Option Expr := do
  let space ← p.space
  let addr ← p.addr
  match p.step.getD none with
  | none => return .mem space addr
  | some (timing, down, amount) => return .memStep space addr timing down amount

end MemParts

mutual

/-- Reads an expression. -/
def Expr.ofJson : Json → Option Expr
  | .scalar (.text "discard") => some .discard
  | .obj [("discard", .scalar .null)] => some .discard
  | .obj [("num", v)] => (v.bits? 64).map .num
  | .obj [("label", v)] => v.text?.map .label
  | .obj [("reg", v)] => v.text?.map .reg
  | .obj [("mem", v)] => memOfJson v
  | .obj [("vec", .arr items)] => (exprsOfJson items).map .vec
  | .obj [("range", .arr [a, b])] => do
    let first ← a.bits? 64
    let last ← b.bits? 64
    return .range first last
  | .obj [("neg", v)] => (Expr.ofJson v).map .neg
  | .obj [("not", v)] => (Expr.ofJson v).map .not
  | .obj [("bin", .arr [op, a, b])] => do
    let op ← op.tag?.bind BinOp.ofTag?
    let a ← Expr.ofJson a
    let b ← Expr.ofJson b
    return .bin op a b
  | _ => none
termination_by structural v => v

/-- Reads expressions one by one. -/
def exprsOfJson : List Json → Option (List Expr)
  | [] => some []
  | v :: rest => do
    let e ← Expr.ofJson v
    let es ← exprsOfJson rest
    return e :: es
termination_by structural vs => vs

/-- Reads the contents of a memory reference. -/
def memOfJson : Json → Option Expr
  | .arr [space, addr] => do
    let space ← space.text?
    let addr ← Expr.ofJson addr
    MemParts.toExpr? { space, addr }
  | .arr [space, addr, step] => do
    let space ← space.text?
    let addr ← Expr.ofJson addr
    let step ← addressStepOfJson step
    MemParts.toExpr? { space, addr, step := some step }
  | .obj members => (memParts members).bind MemParts.toExpr?
  | _ => none
termination_by structural v => v

/-- Reads how the address is moved, if it is. -/
def addressStepOfJson : Json → Option (Option AddressStep)
  | .scalar (.text "none") => some none
  | .obj [("none", .scalar .null)] => some none
  | .obj [(tag, v)] => do
    let (timing, down) ← Timing.ofTag? tag
    let amount ← Expr.ofJson v
    return some (timing, down, amount)
  | _ => none
termination_by structural v => v

/-- Collects the parts of a memory reference. -/
def memParts : List (String × Json) → Option MemParts
  | [] => some {}
  | (key, v) :: rest => do
    let p ← memParts rest
    if key = "space" then
      let space ← v.text?.bind (once p.space)
      return { p with space }
    else if key = "addr" then
      let addr ← (Expr.ofJson v).bind (once p.addr)
      return { p with addr }
    else if key = "incr" then
      let step ← (addressStepOfJson v).bind (once p.step)
      return { p with step }
    else return p
termination_by structural members => members

end

/-- Reads an item. -/
def Item.ofJson : Json → Option Item
  | .obj [("name", v)] => v.text?.map .name
  | .obj [("expr", v)] => (Expr.ofJson v).map .expr
  | v =>
    match v.tag? with
    | some "sub_start" => some .subStart
    | some "sub_end" => some .subEnd
    | _ => none

/-- Reads the arguments of a directive. -/
def argsOfJson : Json → Option (List Expr)
  | .arr items => exprsOfJson items
  | _ => none

/-- Collects the name and the arguments of a directive. -/
def directiveParts : List (String × Json) → Option (Option String × Option (List Expr))
  | [] => some (none, none)
  | (key, v) :: rest => do
    let (name, args) ← directiveParts rest
    if key = "name" then
      let name ← v.text?.bind (once name)
      return (name, args)
    else if key = "args" then
      let args ← (argsOfJson v).bind (once args)
      return (name, args)
    else return (name, args)

/-- Reads a line. -/
def Line.ofJson : Json → Option Line
  | .obj [("insn", .arr items)] => (items.mapM Item.ofJson).map .insn
  | .obj [("label", v)] => v.text?.map .label
  | .obj [("directive", .obj members)] => do
    let (name, args) ← directiveParts members
    return .directive (← name) (args.getD [])
  | _ => none

/-- Gives the parts of a directive their keys, where they stand in an array. -/
def Line.withKeys : Json → Json
  | .obj [("directive", .arr [name])] => .tagged "directive" (.obj [("name", name)])
  | .obj [("directive", .arr [name, args])] =>
    .tagged "directive" (.obj [("name", name), ("args", args)])
  | v => v

/-- Reads a program from a value. -/
def Program.ofJson : Json → Option Program
  | .arr items => items.mapM fun v => Line.ofJson (Line.withKeys v)
  | _ => none

/-! ## Depth -/

namespace Program

/-- Most levels of arrays and objects in what is read. -/
def maxDepth : Nat := 127

mutual

/-- Levels of arrays and objects in what is read of a value. -/
def levels : Json → Nat
  | .scalar _ => 0
  | .arr items => 1 + levelsItems items
  | .obj [("mem", .obj members)] =>
    2 + levelsMembers (fun key => key = "space" || key = "addr" || key = "incr") members
  | .obj [("directive", .obj members)] =>
    2 + levelsMembers (fun key => key = "name" || key = "args") members
  | .obj members => 1 + levelsMembers (fun _ => true) members
termination_by structural v => v

/-- The most levels of some array items. -/
def levelsItems : List Json → Nat
  | [] => 0
  | v :: rest => max (levels v) (levelsItems rest)
termination_by structural vs => vs

/-- The most levels of the members whose keys mean something. -/
def levelsMembers (means : String → Bool) : List (String × Json) → Nat
  | [] => 0
  | (key, v) :: rest => max (if means key then levels v else 0) (levelsMembers means rest)
termination_by structural members => members

end

/-- Reads a program from text. -/
def parse (text : String) : Option Program := do
  let v ← Json.parse text
  if levels v ≤ maxDepth then ofJson v else none

end Program

end TableAsm
