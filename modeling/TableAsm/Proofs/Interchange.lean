import TableAsm.Proofs.Nesting
import TableAsm.Proofs.Spelling

/-! # Programs survive their JSON form

  A program that is written as JSON is read back as it was, unless it is
  nested too deep. Reading takes more than what is written, and what was
  read in another spelling can be written and read again.

  - `Program.isPlain_toJson` and `Program.ofJson_toJson` say that nothing
    is lost in the value of a program, and `Json.parse_compact` that nothing
    is lost in its text.
  - `Program.parse_render` reads what was written. It fails only for the
    depth (`Program.levels_toJson`).
  - `programs_survive_json` is the result. For texts that are spelled in
    other ways it rests on `Program.depth_of_ofJson`.
-/

namespace TableAsm

/-! ## Tagged values -/

namespace Json

theorem isPlain_tagged (tag : String) (v : Json) : (tagged tag v).isPlain = v.isPlain := by
  simp [tagged, isPlain, isPlainMembers]

theorem isPlain_text (s : String) : (text s).isPlain = true := by
  simp [text, isPlain, Scalar.isPlain]

theorem isPlain_nat (n : Nat) : (nat n).isPlain = true := by
  simp [nat, isPlain, Scalar.isPlain]

theorem text?_text (s : String) : (text s).text? = some s := rfl

theorem bits?_nat (n : Word) : (nat n.toNat).bits? 64 = some n := by
  have hlt : n.toNat < 1 <<< 64 := n.isLt
  rw [nat, bits?, if_pos hlt, BitVec.ofNat_toNat, BitVec.setWidth_eq]

end Json

theorem BinOp.ofTag?_tag (op : BinOp) : BinOp.ofTag? op.tag = some op := by
  cases op <;> decide

theorem Timing.ofTag?_tag (timing : Timing) (down : Bool) :
    Timing.ofTag? (timing.tag down) = some (timing, down) := by
  cases timing <;> cases down <;> decide

/-! ## What is written -/

mutual

theorem Expr.isPlain_toJson (e : Expr) : e.toJson.isPlain = true := by
  cases e with
  | vec elems =>
    simp [Expr.toJson, Json.isPlain_tagged, Json.isPlain, isPlainItems_exprsToJson elems]
  | mem space addr =>
    simp [Expr.toJson, Json.isPlain_tagged, Json.isPlain, Json.isPlainMembers, Json.isPlain_text,
      addr.isPlain_toJson]
  | memStep space addr timing down amount =>
    simp [Expr.toJson, Json.isPlain_tagged, Json.isPlain, Json.isPlainMembers, Json.isPlain_text,
      addr.isPlain_toJson, amount.isPlain_toJson]
  | neg e => simp [Expr.toJson, Json.isPlain_tagged, e.isPlain_toJson]
  | not e => simp [Expr.toJson, Json.isPlain_tagged, e.isPlain_toJson]
  | bin op a b =>
    simp [Expr.toJson, Json.isPlain_tagged, Json.isPlain, Json.isPlainItems, Json.isPlain_text,
      a.isPlain_toJson, b.isPlain_toJson]
  | _ =>
    simp [Expr.toJson, Json.isPlain_tagged, Json.isPlain, Json.isPlainItems, Json.isPlain_text,
      Json.isPlain_nat]

theorem isPlainItems_exprsToJson (es : List Expr) : Json.isPlainItems (exprsToJson es) = true := by
  cases es with
  | nil => rfl
  | cons e es =>
    simp [exprsToJson, Json.isPlainItems, e.isPlain_toJson, isPlainItems_exprsToJson es]

end

/-- The parts of a memory reference are read when each of them is. -/
theorem memParts_members (space : String) {addr step : Json} {e : Expr} {x : Option AddressStep}
    (haddr : Expr.ofJson addr = some e) (hstep : addressStepOfJson step = some x) :
    memParts [("space", .text space), ("addr", addr), ("incr", step)] =
      some ⟨some space, some e, some x⟩ := by
  simp [memParts, haddr, hstep, Json.text?_text, once]

theorem addressStepOfJson_tagged {v : Json} {e : Expr} (timing : Timing) (down : Bool)
    (h : Expr.ofJson v = some e) :
    addressStepOfJson (.tagged (timing.tag down) v) = some (some (timing, down, e)) := by
  have htag : timing.tag down ≠ "none" := by
    cases timing <;> cases down <;> decide
  unfold Json.tagged
  rw [addressStepOfJson]
  · simp [Timing.ofTag?_tag, h]
  · intro hnone
    exact absurd hnone htag

mutual

theorem Expr.ofJson_toJson (e : Expr) : Expr.ofJson e.toJson = some e := by
  cases e with
  | num n => simp [Expr.toJson, Json.tagged, Expr.ofJson, Json.bits?_nat]
  | label s => rfl
  | reg s => rfl
  | mem space addr =>
    have hparts := memParts_members space addr.ofJson_toJson
      (show addressStepOfJson (.text "none") = some none from rfl)
    rw [Expr.toJson, Json.tagged, Expr.ofJson, memOfJson, hparts]
    rfl
  | memStep space addr timing down amount =>
    have hparts := memParts_members space addr.ofJson_toJson
      (addressStepOfJson_tagged timing down amount.ofJson_toJson)
    rw [Expr.toJson, Json.tagged, Expr.ofJson, memOfJson, hparts]
    rfl
  | vec elems => simp [Expr.toJson, Json.tagged, Expr.ofJson, exprsOfJson_exprsToJson elems]
  | discard => rfl
  | range first last => simp [Expr.toJson, Json.tagged, Expr.ofJson, Json.bits?_nat]
  | neg e => simp [Expr.toJson, Json.tagged, Expr.ofJson, e.ofJson_toJson]
  | not e => simp [Expr.toJson, Json.tagged, Expr.ofJson, e.ofJson_toJson]
  | bin op a b =>
    simp [Expr.toJson, Json.tagged, Expr.ofJson, Json.text, Json.tag?, BinOp.ofTag?_tag,
      a.ofJson_toJson, b.ofJson_toJson]

theorem exprsOfJson_exprsToJson (es : List Expr) : exprsOfJson (exprsToJson es) = some es := by
  cases es with
  | nil => rfl
  | cons e es => simp [exprsToJson, exprsOfJson, e.ofJson_toJson, exprsOfJson_exprsToJson es]

end

theorem Item.isPlain_toJson (item : Item) : item.toJson.isPlain = true := by
  cases item with
  | name s => rw [Item.toJson, Json.isPlain_tagged, Json.isPlain_text]
  | subStart => exact Json.isPlain_text _
  | subEnd => exact Json.isPlain_text _
  | expr e => rw [Item.toJson, Json.isPlain_tagged, e.isPlain_toJson]

theorem Item.ofJson_toJson (item : Item) : Item.ofJson item.toJson = some item := by
  cases item with
  | name s => rfl
  | subStart => rfl
  | subEnd => rfl
  | expr e => simp [Item.toJson, Json.tagged, Item.ofJson, e.ofJson_toJson]

/-- Items are plain if they are written one by one as plain values. -/
theorem Json.isPlainItems_map {α : Type} {f : α → Json} (hf : ∀ x, (f x).isPlain = true)
    (xs : List α) : Json.isPlainItems (xs.map f) = true := by
  induction xs with
  | nil => rfl
  | cons x xs ih => rw [List.map_cons, Json.isPlainItems, hf, ih, Bool.and_self]

/-- A list is read back if each of its elements is. -/
theorem mapM_map_eq_some {α β : Type} {f : α → β} {g : β → Option α} {xs : List α}
    (h : ∀ x ∈ xs, g (f x) = some x) : (xs.map f).mapM g = some xs := by
  induction xs with
  | nil => rfl
  | cons x xs ih =>
    obtain ⟨hx, hxs⟩ := List.forall_mem_cons.1 h
    simp [List.mapM_cons, hx, ih hxs]

theorem Line.isPlain_toJson (line : Line) : line.toJson.isPlain = true := by
  cases line with
  | insn items =>
    rw [Line.toJson, Json.isPlain_tagged, Json.isPlain,
      Json.isPlainItems_map Item.isPlain_toJson]
  | label name => rw [Line.toJson, Json.isPlain_tagged, Json.isPlain_text]
  | directive name args =>
    simp [Line.toJson, Json.isPlain_tagged, Json.isPlain, Json.isPlainMembers,
      Json.isPlain_text, isPlainItems_exprsToJson args]

/-- What is written has all its keys. -/
theorem Line.withKeys_toJson (line : Line) : Line.withKeys line.toJson = line.toJson := by
  cases line <;> rfl

theorem Line.ofJson_toJson (line : Line) : Line.ofJson line.toJson = some line := by
  cases line with
  | insn items =>
    have hitems : (items.map Item.toJson).mapM Item.ofJson = some items :=
      mapM_map_eq_some fun item _ => item.ofJson_toJson
    simp [Line.toJson, Json.tagged, Line.ofJson, hitems]
  | label name => rfl
  | directive name args =>
    have hparts : directiveParts [("name", .text name), ("args", .arr (exprsToJson args))] =
        some (some name, some args) := by
      simp [directiveParts, argsOfJson, exprsOfJson_exprsToJson args, Json.text?_text, once]
    rw [Line.toJson, Json.tagged, Line.ofJson, hparts]
    rfl

theorem Program.isPlain_toJson (p : Program) : (Program.toJson p).isPlain = true := by
  rw [Program.toJson, Json.isPlain, Json.isPlainItems_map Line.isPlain_toJson]

theorem Program.ofJson_toJson (p : Program) : Program.ofJson (Program.toJson p) = some p := by
  rw [Program.toJson, Program.ofJson]
  apply mapM_map_eq_some
  intro line _
  rw [line.withKeys_toJson, line.ofJson_toJson]

/-! ## There and back -/

theorem Json.parse_render (p : Program) : Json.parse (Program.render p) = some (Program.toJson p) :=
  Json.parse_compact (Program.isPlain_toJson p)

theorem Program.parse_render (p : Program) : Program.parse (Program.render p) =
    if (Program.toJson p).depth ≤ Program.maxDepth then some p else none := by
  unfold Program.parse
  rw [Json.parse_render, Option.bind_eq_bind, Option.bind_some, Program.levels_toJson,
    Program.ofJson_toJson]

/-- **Programs survive their JSON form.**

    * What is written for a program is read as this program if, and only if, it has at most 127
      levels of arrays and objects.
    * Different programs are written differently.
    * What was read from any text, in whatever spelling, is read again from what is written
      for it. -/
theorem programs_survive_json :
    (∀ p : Program, Program.parse (Program.render p) = some p ↔
      (Program.toJson p).depth ≤ 127) ∧
    (∀ p q : Program, Program.render p = Program.render q → p = q) ∧
    (∀ (text : String) (p : Program), Program.parse text = some p →
      Program.parse (Program.render p) = some p) := by
  have hiff : ∀ p : Program, Program.parse (Program.render p) = some p ↔
      (Program.toJson p).depth ≤ 127 := by
    intro p
    rw [Program.parse_render]
    by_cases hdepth : (Program.toJson p).depth ≤ Program.maxDepth
    · rw [if_pos hdepth]
      exact iff_of_true rfl hdepth
    · rw [if_neg hdepth]
      exact iff_of_false (by simp) hdepth
  refine ⟨hiff, ?_, ?_⟩
  · intro p q h
    have hjson : Program.toJson p = Program.toJson q := by
      have hparse := Json.parse_render p
      rw [h, Json.parse_render] at hparse
      exact (Option.some.inj hparse).symm
    have hofJson := Program.ofJson_toJson p
    rw [hjson, Program.ofJson_toJson] at hofJson
    exact (Option.some.inj hofJson).symm
  · intro text p h
    obtain ⟨v, _, h⟩ := Option.bind_eq_some_iff.1 h
    split at h
    · next hlevels =>
      have hdepth := Program.depth_of_ofJson h
      rw [hiff]
      unfold Program.maxDepth at hlevels
      omega
    · simp at h

/-- A directive and an instruction. -/
def looseLines : Program :=
  [.directive ".x" [], .insn [.subEnd, .expr (.mem "\u00e9" .discard), .expr (.mem "g" (.num 7))]]

/-- The same lines with blanks, a tag with `null`, a key that means nothing, parts in arrays and in
    another order, and parts that are missing. -/
def looseText : String :=
  " [\x7b\"directive\":[\".x\"]\x7d,\n\x7b\"insn\":[\x7b\"sub_end\":null\x7d,\t" ++
  "\x7b\"expr\":\x7b\"mem\":\x7b\"x\":[],\"addr\":\"discard\",\"space\":\"\\u00E9\"\x7d\x7d\x7d," ++
  "\x7b\"expr\":\x7b\"mem\":[\"g\",\x7b\"num\":7\x7d]\x7d\x7d]\x7d]\r"

/-- A text that nothing is written as is read, and what was read survives. -/
theorem programs_survive_json_loose :
    Program.parse looseText = some looseLines ∧
      Program.parse (Program.render looseLines) = some looseLines := by
  have htokens : (Program.parse looseText).map (fun p => (Program.toJson p).tokens) =
      some (Program.toJson looseLines).tokens := by
    decide +kernel
  obtain ⟨p, hp, hsame⟩ := Option.map_eq_some_iff.1 htokens
  have hrender : Program.render p = Program.render looseLines := by
    unfold Program.render Json.compact
    rw [hsame]
  obtain rfl : p = looseLines := programs_survive_json.2.1 p looseLines hrender
  exact ⟨hp, programs_survive_json.2.2 looseText _ hp⟩

end TableAsm
