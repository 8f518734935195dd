import TableAsm.Program.Json

/-! # How deep programs are nested

  A program counts the arrays and objects that stand inside one another in
  two ways. `Json.depth` counts all of them, and `Program.levels` leaves out
  what stands under keys that mean nothing.

  - `Program.levels_toJson` says that both are the same for what is written,
    because all its keys mean something.
  - `Program.depth_of_ofJson` says that what was read has no more levels
    when it is written. Only a directive whose arguments were missing gets
    some, and then it has four in all.

  Expressions are read by several functions that call each other. A bound
  for each of them (`ExprBound` and its companions) is carried from the
  parts of a value to the value, with one lemma for each form that is read,
  and `exprs_bounded` puts these together.
-/

namespace TableAsm

open Program (levels levelsItems levelsMembers)

/-! ## What is written -/

namespace Json

theorem depth_tagged (tag : String) (v : Json) : (tagged tag v).depth = 1 + v.depth := by
  simp [tagged, depth, depthMembers]

theorem depth_text (s : String) : (text s).depth = 0 := by
  simp [text, depth]

theorem depth_nat (n : Nat) : (nat n).depth = 0 := by
  simp [nat, depth]

end Json

/-- The object around a value is one more level, unless some keys in the value mean nothing. -/
theorem levels_tagged {tag : String} {v : Json} (hmem : tag ≠ "mem") (hdir : tag ≠ "directive") :
    levels (.obj [(tag, v)]) = 1 + levels v := by
  rw [levels]
  · simp [levelsMembers]
  · intro members h
    simp [hmem] at h
  · intro members h
    simp [hdir] at h

/-- An object around an array is one more level. -/
theorem levels_tagged_arr (tag : String) (items : List Json) :
    levels (.obj [(tag, .arr items)]) = 2 + levelsItems items := by
  rw [levels]
  · rw [levelsMembers, levelsMembers, levels, if_pos rfl]
    omega
  · intro members h
    simp at h
  · intro members h
    simp at h

theorem levels_mem (space : String) (addr step : Json) :
    levels (.obj [("mem", .obj [("space", .text space), ("addr", addr), ("incr", step)])]) =
      2 + max (levels addr) (levels step) := by
  simp [levels, levelsMembers, Json.text]

theorem levels_directive (name : String) (args : Json) :
    levels (.obj [("directive", .obj [("name", .text name), ("args", args)])]) =
      2 + levels args := by
  simp [levels, levelsMembers, Json.text]

theorem Timing.tag_of_ofTag? {tag : String} {timing : Timing} {down : Bool}
    (h : Timing.ofTag? tag = some (timing, down)) : timing.tag down = tag := by
  have htag := List.find?_some h
  exact eq_of_beq htag

theorem Timing.levels_tagged_tag (timing : Timing) (down : Bool) (v : Json) :
    levels (.tagged (timing.tag down) v) = 1 + levels v := by
  apply levels_tagged <;> cases timing <;> cases down <;> decide

namespace Expr

theorem depth_mem (space : String) (addr : Expr) :
    (Expr.mem space addr).toJson.depth = 2 + addr.toJson.depth := by
  simp only [Expr.toJson, Json.depth_tagged, Json.depth, Json.depthMembers, Json.depth_text]
  omega

theorem depth_memStep (space : String) (addr : Expr) (timing : Timing) (down : Bool)
    (amount : Expr) : (Expr.memStep space addr timing down amount).toJson.depth =
      2 + max addr.toJson.depth (1 + amount.toJson.depth) := by
  simp only [Expr.toJson, Json.depth_tagged, Json.depth, Json.depthMembers, Json.depth_text]
  omega

theorem depth_vec (elems : List Expr) :
    (Expr.vec elems).toJson.depth = 2 + Json.depthItems (exprsToJson elems) := by
  rw [Expr.toJson, Json.depth_tagged, Json.depth]
  omega

theorem depth_bin (op : BinOp) (a b : Expr) :
    (Expr.bin op a b).toJson.depth = 2 + max a.toJson.depth b.toJson.depth := by
  simp only [Expr.toJson, Json.depth_tagged, Json.depth, Json.depthItems, Json.depth_text]
  omega

theorem depth_range (first last : Word) : (Expr.range first last).toJson.depth = 2 := by
  simp [Expr.toJson, Json.depth_tagged, Json.depth, Json.depthItems, Json.depth_nat]

end Expr

mutual

/-- All keys of what is written mean something. -/
theorem Expr.levels_toJson (e : Expr) : levels e.toJson = e.toJson.depth := by
  cases e with
  | num n => exact levels_tagged (by decide) (by decide)
  | label s => exact levels_tagged (by decide) (by decide)
  | reg s => exact levels_tagged (by decide) (by decide)
  | vec elems =>
    rw [Expr.depth_vec, ← levelsItems_exprsToJson elems]
    exact levels_tagged_arr "vec" _
  | mem space addr =>
    have hnone : levels (.text "none") = 0 := rfl
    rw [Expr.depth_mem, ← addr.levels_toJson, ← Nat.max_zero (levels addr.toJson), ← hnone]
    exact levels_mem space _ _
  | memStep space addr timing down amount =>
    rw [Expr.depth_memStep, ← addr.levels_toJson, ← amount.levels_toJson,
      ← timing.levels_tagged_tag down]
    exact levels_mem space _ _
  | discard => rfl
  | range first last =>
    rw [Expr.depth_range]
    exact levels_tagged_arr "range" _
  | neg e =>
    rw [Expr.toJson, Json.depth_tagged, ← e.levels_toJson]
    exact levels_tagged (by decide) (by decide)
  | not e =>
    rw [Expr.toJson, Json.depth_tagged, ← e.levels_toJson]
    exact levels_tagged (by decide) (by decide)
  | bin op a b =>
    rw [Expr.depth_bin, ← a.levels_toJson, ← b.levels_toJson, Expr.toJson, Json.tagged,
      levels_tagged_arr]
    simp [levelsItems, levels, Json.text]

theorem levelsItems_exprsToJson (es : List Expr) :
    levelsItems (exprsToJson es) = Json.depthItems (exprsToJson es) := by
  cases es with
  | nil => rfl
  | cons e es =>
    rw [exprsToJson, levelsItems, Json.depthItems, e.levels_toJson, levelsItems_exprsToJson es]

end

theorem levelsItems_map {α : Type} {f : α → Json} (hf : ∀ x, levels (f x) = (f x).depth)
    (xs : List α) : levelsItems (xs.map f) = Json.depthItems (xs.map f) := by
  induction xs with
  | nil => rfl
  | cons x xs ih => rw [List.map_cons, levelsItems, Json.depthItems, hf, ih]

theorem Item.levels_toJson (item : Item) : levels item.toJson = item.toJson.depth := by
  cases item with
  | name s => exact levels_tagged (by decide) (by decide)
  | subStart => rfl
  | subEnd => rfl
  | expr e =>
    rw [Item.toJson, Json.depth_tagged, ← e.levels_toJson]
    exact levels_tagged (by decide) (by decide)

namespace Line

theorem depth_insn (items : List Item) :
    (Line.insn items).toJson.depth = 2 + Json.depthItems (items.map Item.toJson) := by
  rw [Line.toJson, Json.depth_tagged, Json.depth]
  omega

theorem depth_directive (name : String) (args : List Expr) :
    (Line.directive name args).toJson.depth = 3 + Json.depthItems (exprsToJson args) := by
  simp only [Line.toJson, Json.depth_tagged, Json.depth, Json.depthMembers, Json.depth_text]
  omega

theorem levels_toJson (line : Line) : levels line.toJson = line.toJson.depth := by
  cases line with
  | insn items =>
    rw [depth_insn, ← levelsItems_map Item.levels_toJson]
    exact levels_tagged_arr "insn" _
  | label name => exact levels_tagged (by decide) (by decide)
  | directive name args =>
    rw [depth_directive, ← levelsItems_exprsToJson args, Line.toJson, Json.tagged,
      levels_directive, levels]
    omega

end Line

theorem Program.levels_toJson (p : Program) :
    levels (Program.toJson p) = (Program.toJson p).depth := by
  rw [Program.toJson, levels, Json.depth, levelsItems_map Line.levels_toJson]

/-! ## What is read -/

theorem once_eq_some {α : Type} {old x : Option α} {new : α} (h : once old new = some x) :
    x = some new := by
  unfold once at h
  split at h
  · simp at h
  · exact (Option.some.inj h).symm

namespace MemParts

/-- Levels of what moves the address, when it is written. -/
def stepDepth : Option AddressStep → Nat
  | none => 0
  | some (_, _, amount) => 1 + amount.toJson.depth

/-- The most levels of a part, when it is written. -/
def depth (p : MemParts) : Nat :=
  max ((p.addr.map fun e => e.toJson.depth).getD 0) ((p.step.map stepDepth).getD 0)

theorem depth_toExpr? {p : MemParts} {e : Expr} (h : p.toExpr? = some e) :
    e.toJson.depth = 2 + p.depth := by
  obtain ⟨space, hspace, h⟩ := Option.bind_eq_some_iff.1 h
  obtain ⟨addr, haddr, h⟩ := Option.bind_eq_some_iff.1 h
  unfold depth
  rw [haddr]
  split at h
  · next hstep =>
    obtain rfl := Option.some.inj h
    have hzero : (p.step.map stepDepth).getD 0 = 0 := by
      cases hp : p.step with
      | none => rfl
      | some x =>
        rw [hp] at hstep
        obtain rfl : x = none := hstep
        rfl
    rw [Expr.depth_mem, hzero, Nat.max_zero]
    rfl
  · next timing down amount hstep =>
    obtain rfl := Option.some.inj h
    have hp : p.step = some (some (timing, down, amount)) := by
      cases hp : p.step with
      | none => simp [hp] at hstep
      | some x =>
        rw [hp] at hstep
        exact congrArg some hstep
    rw [Expr.depth_memStep, hp]
    rfl

end MemParts

/-- The keys of a memory reference. -/
abbrev isMemKey (key : String) : Bool := key = "space" || key = "addr" || key = "incr"

-- The bounds are proved together, in the order in which values are read.

/-- What is read as an expression has no more levels when it is written. -/
def ExprBound (v : Json) : Prop := ∀ e, Expr.ofJson v = some e → e.toJson.depth ≤ levels v

def ExprsBound (vs : List Json) : Prop :=
  ∀ es, exprsOfJson vs = some es → Json.depthItems (exprsToJson es) ≤ levelsItems vs

def MemBound (v : Json) : Prop :=
  ∀ e, memOfJson v = some e → e.toJson.depth ≤ levels (.obj [("mem", v)])

def PartsBound (members : List (String × Json)) : Prop :=
  ∀ p, memParts members = some p → p.depth ≤ levelsMembers isMemKey members

def StepBound (v : Json) : Prop :=
  ∀ x, addressStepOfJson v = some x → MemParts.stepDepth x ≤ levels v

section Bounds

variable {v a b : Json} {items : List Json} {members : List (String × Json)}

/-- The contents of an alternative are one level further in. -/
theorem ExprBound.of_contents {tag : String} (hmem : tag ≠ "mem") (hdir : tag ≠ "directive")
    (h : ∀ e, Expr.ofJson (.obj [(tag, v)]) = some e → e.toJson.depth ≤ 1 + levels v) :
    ExprBound (.obj [(tag, v)]) := by
  intro e he
  rw [levels_tagged hmem hdir]
  exact h e he

theorem ExprBound.leaf {α : Type} {tag : String} {f : α → Expr} {x : Option α}
    (hmem : tag ≠ "mem") (hdir : tag ≠ "directive")
    (h : Expr.ofJson (.obj [(tag, v)]) = x.map f) (hf : ∀ y, (f y).toJson.depth = 1) :
    ExprBound (.obj [(tag, v)]) := by
  refine .of_contents hmem hdir ?_
  intro e he
  rw [h] at he
  obtain ⟨y, _, rfl⟩ := Option.map_eq_some_iff.1 he
  rw [hf]
  exact Nat.le_add_right 1 _

theorem ExprBound.unary {tag : String} {f : Expr → Expr} (hmem : tag ≠ "mem")
    (hdir : tag ≠ "directive") (h : Expr.ofJson (.obj [(tag, v)]) = (Expr.ofJson v).map f)
    (hf : ∀ e, (f e).toJson.depth = 1 + e.toJson.depth) (hv : ExprBound v) :
    ExprBound (.obj [(tag, v)]) := by
  refine .of_contents hmem hdir ?_
  intro e he
  rw [h] at he
  obtain ⟨x, hx, rfl⟩ := Option.map_eq_some_iff.1 he
  rw [hf]
  exact Nat.add_le_add_left (hv x hx) 1

theorem ExprBound.range : ExprBound (.obj [("range", .arr [a, b])]) := by
  intro e he
  rw [Expr.ofJson] at he
  obtain ⟨first, _, he⟩ := Option.bind_eq_some_iff.1 he
  obtain ⟨last, _, he⟩ := Option.bind_eq_some_iff.1 he
  obtain rfl := Option.some.inj he
  rw [Expr.depth_range, levels_tagged_arr]
  exact Nat.le_add_right 2 _

theorem ExprBound.vec (h : ExprsBound items) : ExprBound (.obj [("vec", .arr items)]) := by
  intro e he
  rw [Expr.ofJson] at he
  obtain ⟨es, hes, rfl⟩ := Option.map_eq_some_iff.1 he
  have hbound := h es hes
  rw [Expr.depth_vec, levels_tagged_arr]
  omega

theorem ExprBound.bin {op : Json} (ha : ExprBound a) (hb : ExprBound b) :
    ExprBound (.obj [("bin", .arr [op, a, b])]) := by
  intro e he
  rw [Expr.ofJson] at he
  obtain ⟨op', _, he⟩ := Option.bind_eq_some_iff.1 he
  obtain ⟨x, hx, he⟩ := Option.bind_eq_some_iff.1 he
  obtain ⟨y, hy, he⟩ := Option.bind_eq_some_iff.1 he
  obtain rfl := Option.some.inj he
  have hax := ha x hx
  have hby := hb y hy
  rw [Expr.depth_bin, levels_tagged_arr]
  simp only [levelsItems]
  omega

theorem ExprsBound.cons (h : ExprBound v) (hrest : ExprsBound items) :
    ExprsBound (v :: items) := by
  intro es hes
  rw [exprsOfJson] at hes
  obtain ⟨x, hx, hes⟩ := Option.bind_eq_some_iff.1 hes
  obtain ⟨xs, hxs, hes⟩ := Option.bind_eq_some_iff.1 hes
  obtain rfl := Option.some.inj hes
  have hfirst := h x hx
  have hothers := hrest xs hxs
  rw [exprsToJson, Json.depthItems, levelsItems]
  omega

theorem MemBound.pair {space : Json} (h : ExprBound a) : MemBound (.arr [space, a]) := by
  intro e he
  rw [memOfJson] at he
  obtain ⟨s, _, he⟩ := Option.bind_eq_some_iff.1 he
  obtain ⟨x, hx, he⟩ := Option.bind_eq_some_iff.1 he
  have hbound := h x hx
  rw [MemParts.depth_toExpr? he, levels_tagged_arr]
  simp only [MemParts.depth, Option.map_some, Option.map_none, Option.getD_some, Option.getD_none,
    levelsItems]
  omega

theorem MemBound.triple {space step : Json} (h : ExprBound a) (hstep : StepBound step) :
    MemBound (.arr [space, a, step]) := by
  intro e he
  rw [memOfJson] at he
  obtain ⟨s, _, he⟩ := Option.bind_eq_some_iff.1 he
  obtain ⟨x, hx, he⟩ := Option.bind_eq_some_iff.1 he
  obtain ⟨y, hy, he⟩ := Option.bind_eq_some_iff.1 he
  have hbound := h x hx
  have hstepBound := hstep y hy
  rw [MemParts.depth_toExpr? he, levels_tagged_arr]
  simp only [MemParts.depth, Option.map_some, Option.getD_some, levelsItems]
  omega

theorem MemBound.obj (h : PartsBound members) : MemBound (.obj members) := by
  intro e he
  rw [memOfJson] at he
  obtain ⟨p, hp, he⟩ := Option.bind_eq_some_iff.1 he
  rw [MemParts.depth_toExpr? he, levels]
  exact Nat.add_le_add_left (h p hp) 2

theorem StepBound.tagged {tag : String} (htag : tag = "none" → v = .scalar .null → False)
    (h : ExprBound v) : StepBound (.obj [(tag, v)]) := by
  intro x hx
  rw [addressStepOfJson] at hx
  · obtain ⟨⟨timing, down⟩, htiming, hx⟩ := Option.bind_eq_some_iff.1 hx
    obtain ⟨amount, hamount, hx⟩ := Option.bind_eq_some_iff.1 hx
    obtain rfl := Option.some.inj hx
    rw [← Timing.tag_of_ofTag? htiming]
    refine Nat.le_trans ?_ (Nat.le_of_eq (timing.levels_tagged_tag down v).symm)
    exact Nat.add_le_add_left (h amount hamount) 1
  · exact htag

theorem PartsBound.cons {key : String} (hrest : PartsBound members) (he : ExprBound v)
    (hs : StepBound v) : PartsBound ((key, v) :: members) := by
  intro p hp
  rw [memParts] at hp
  obtain ⟨q, hq, hp⟩ := Option.bind_eq_some_iff.1 hp
  have hbound := hrest q hq
  rw [levelsMembers]
  split at hp
  · next hkey =>
    obtain ⟨space, _, hp⟩ := Option.bind_eq_some_iff.1 hp
    obtain rfl := Option.some.inj hp
    exact Nat.le_trans hbound (Nat.le_max_right _ _)
  · split at hp
    · next hkey =>
      obtain ⟨addr, haddr, hp⟩ := Option.bind_eq_some_iff.1 hp
      obtain rfl := Option.some.inj hp
      obtain ⟨e, hofJson, honce⟩ := Option.bind_eq_some_iff.1 haddr
      obtain rfl := once_eq_some honce
      have hmeans : isMemKey key = true := by simp [isMemKey, hkey]
      have hkeep := he e hofJson
      rw [if_pos hmeans]
      simp only [MemParts.depth, Option.map_some, Option.getD_some] at hbound ⊢
      omega
    · split at hp
      · next hkey =>
        obtain ⟨step, hstep, hp⟩ := Option.bind_eq_some_iff.1 hp
        obtain rfl := Option.some.inj hp
        obtain ⟨x, hofJson, honce⟩ := Option.bind_eq_some_iff.1 hstep
        obtain rfl := once_eq_some honce
        have hmeans : isMemKey key = true := by simp [isMemKey, hkey]
        have hkeep := hs x hofJson
        rw [if_pos hmeans]
        simp only [MemParts.depth, Option.map_some, Option.getD_some] at hbound ⊢
        omega
      · obtain rfl := Option.some.inj hp
        exact Nat.le_trans hbound (Nat.le_max_right _ _)

end Bounds

theorem exprs_bounded : (∀ v, ExprBound v) ∧ (∀ vs, ExprsBound vs) ∧ (∀ v, MemBound v) ∧
    (∀ members, PartsBound members) ∧ ∀ v, StepBound v := by
  have hdiscard : ∀ v, Expr.ofJson v = some .discard → ExprBound v := by
    intro v hv e he
    obtain rfl := Option.some.inj (hv.symm.trans he)
    exact Nat.zero_le _
  have hnone : ∀ v, addressStepOfJson v = some none → StepBound v := by
    intro v hv x hx
    obtain rfl := Option.some.inj (hv.symm.trans hx)
    exact Nat.zero_le _
  apply Expr.ofJson.mutual_induct
  case case1 => exact hdiscard _ rfl
  case case2 => exact hdiscard _ rfl
  case case3 =>
    intro v
    exact .leaf (by decide) (by decide) (Expr.ofJson.eq_3 v) fun n => rfl
  case case4 =>
    intro v
    exact .leaf (by decide) (by decide) (Expr.ofJson.eq_4 v) fun s => rfl
  case case5 =>
    intro v
    exact .leaf (by decide) (by decide) (Expr.ofJson.eq_5 v) fun s => rfl
  case case6 =>
    intro v h e he
    rw [Expr.ofJson] at he
    exact h e he
  case case7 => exact fun items h => .vec h
  case case8 => exact fun a b => .range
  case case9 =>
    intro v h
    exact .unary (by decide) (by decide) (Expr.ofJson.eq_9 v) (fun e => Json.depth_tagged _ _) h
  case case10 =>
    intro v h
    exact .unary (by decide) (by decide) (Expr.ofJson.eq_10 v) (fun e => Json.depth_tagged _ _) h
  case case11 => exact fun op a b ha hb => .bin ha hb
  case case12 =>
    intros
    intro e he
    simp [Expr.ofJson, *] at he
  case case13 => exact fun space a h => .pair h
  case case14 => exact fun space a step h hstep => .triple h hstep
  case case15 => exact fun members h => .obj h
  case case16 =>
    intros
    intro e he
    simp [memOfJson, *] at he
  case case17 => exact hnone _ rfl
  case case18 => exact hnone _ rfl
  case case19 => exact fun tag v htag h => .tagged htag h
  case case20 =>
    intros
    intro x hx
    simp [addressStepOfJson, *] at hx
  case case21 =>
    intro es h
    obtain rfl := Option.some.inj h
    exact Nat.le_refl 0
  case case22 => exact fun v rest h hrest => .cons h hrest
  case case23 =>
    intro p h
    obtain rfl := Option.some.inj h
    exact Nat.le_refl 0
  case case24 => exact fun key v members hrest he hs => .cons hrest he hs

/-- A bound for each element is one for all of them. -/
theorem depthItems_of_mapM {α : Type} {f : α → Json} {g : Json → Option α} {k : Nat}
    (h : ∀ v x, g v = some x → (f x).depth ≤ max (levels v) k) {vs : List Json} {xs : List α}
    (hxs : vs.mapM g = some xs) : Json.depthItems (xs.map f) ≤ max (levelsItems vs) k := by
  induction vs generalizing xs with
  | nil =>
    obtain rfl := Option.some.inj hxs
    exact Nat.zero_le _
  | cons v vs ih =>
    rw [List.mapM_cons] at hxs
    obtain ⟨y, hy, hxs⟩ := Option.bind_eq_some_iff.1 hxs
    obtain ⟨ys, hys, hxs⟩ := Option.bind_eq_some_iff.1 hxs
    obtain rfl := Option.some.inj hxs
    have hfirst := h v y hy
    have hothers := ih hys
    rw [List.map_cons, Json.depthItems, levelsItems]
    omega

theorem Item.depth_of_ofJson {v : Json} {item : Item} (h : Item.ofJson v = some item) :
    item.toJson.depth ≤ levels v := by
  unfold Item.ofJson at h
  split at h
  · obtain ⟨s, _, rfl⟩ := Option.map_eq_some_iff.1 h
    rw [levels_tagged (by decide) (by decide), Item.toJson, Json.depth_tagged, Json.depth_text]
    omega
  · next w =>
    obtain ⟨e, he, rfl⟩ := Option.map_eq_some_iff.1 h
    rw [levels_tagged (by decide) (by decide), Item.toJson, Json.depth_tagged]
    exact Nat.add_le_add_left (exprs_bounded.1 w e he) 1
  · split at h
    · obtain rfl := Option.some.inj h
      exact Nat.zero_le _
    · obtain rfl := Option.some.inj h
      exact Nat.zero_le _
    · simp at h

theorem depth_of_argsOfJson {v : Json} {es : List Expr} (h : argsOfJson v = some es) :
    1 + Json.depthItems (exprsToJson es) ≤ levels v := by
  unfold argsOfJson at h
  split at h
  · next items =>
    rw [levels]
    exact Nat.add_le_add_left (exprs_bounded.2.1 items es h) 1
  · simp at h

/-- The arguments of a directive are inside the object with its parts. -/
theorem depth_of_directiveParts {members : List (String × Json)} {name : Option String}
    {es : List Expr} (h : directiveParts members = some (name, some es)) :
    1 + Json.depthItems (exprsToJson es) ≤
      levelsMembers (fun key => key = "name" || key = "args") members := by
  induction members generalizing name with
  | nil => simp [directiveParts] at h
  | cons m members ih =>
    obtain ⟨key, v⟩ := m
    rw [directiveParts] at h
    obtain ⟨⟨name', args'⟩, hrest, h⟩ := Option.bind_eq_some_iff.1 h
    dsimp only at h
    rw [levelsMembers]
    split at h
    · obtain ⟨s, _, h⟩ := Option.bind_eq_some_iff.1 h
      obtain ⟨rfl, rfl⟩ := Prod.mk.inj (Option.some.inj h)
      exact Nat.le_trans (ih hrest) (Nat.le_max_right _ _)
    · split at h
      · next hkey =>
        obtain ⟨args, hargs, h⟩ := Option.bind_eq_some_iff.1 h
        obtain ⟨rfl, rfl⟩ := Prod.mk.inj (Option.some.inj h)
        obtain ⟨es', hes, honce⟩ := Option.bind_eq_some_iff.1 hargs
        obtain rfl := Option.some.inj (once_eq_some honce)
        have hbound := depth_of_argsOfJson hes
        simp only [hkey, decide_true, Bool.or_true, if_true]
        omega
      · obtain ⟨rfl, rfl⟩ := Prod.mk.inj (Option.some.inj h)
        exact Nat.le_trans (ih hrest) (Nat.le_max_right _ _)

namespace Line

/-- A directive without arguments has three levels, whether they were written or not. -/
theorem depth_of_ofJson {v : Json} {line : Line} (h : Line.ofJson v = some line) :
    line.toJson.depth ≤ max (levels v) 3 := by
  unfold Line.ofJson at h
  split at h
  · next items =>
    obtain ⟨xs, hxs, rfl⟩ := Option.map_eq_some_iff.1 h
    have hbound := depthItems_of_mapM (f := Item.toJson) (k := 0)
      (fun v x hx => Nat.le_trans (Item.depth_of_ofJson hx) (Nat.le_max_left _ _)) hxs
    rw [depth_insn, levels_tagged_arr]
    omega
  · obtain ⟨s, _, rfl⟩ := Option.map_eq_some_iff.1 h
    rw [Line.toJson, Json.depth_tagged, Json.depth_text]
    omega
  · next members =>
    obtain ⟨⟨name, args⟩, hparts, h⟩ := Option.bind_eq_some_iff.1 h
    obtain ⟨s, rfl, h⟩ := Option.bind_eq_some_iff.1 h
    obtain rfl := Option.some.inj h
    rw [depth_directive]
    cases args with
    | none => exact Nat.le_max_right _ _
    | some es =>
      have hbound := depth_of_directiveParts hparts
      rw [levels, Option.getD_some]
      omega
  · simp at h

/-- Parts that get their keys stay as deep as they are. -/
theorem levels_withKeys (v : Json) : levels (Line.withKeys v) ≤ levels v := by
  unfold Line.withKeys
  split
  · rw [levels_tagged_arr]
    simp [Json.tagged, levels, levelsItems, levelsMembers]
  · rw [levels_tagged_arr]
    simp [Json.tagged, levels, levelsItems, levelsMembers]
  · exact Nat.le_refl _

end Line

theorem Program.depth_of_ofJson {v : Json} {p : Program} (h : Program.ofJson v = some p) :
    (Program.toJson p).depth ≤ max (levels v) 4 := by
  unfold Program.ofJson at h
  split at h
  · next items =>
    have hline : ∀ v line, Line.ofJson (Line.withKeys v) = some line →
        line.toJson.depth ≤ max (levels v) 3 := by
      intro v line hline
      have hbound := Line.depth_of_ofJson hline
      have hkeys := Line.levels_withKeys v
      omega
    have hbound := depthItems_of_mapM hline h
    rw [Program.toJson, Json.depth, levels]
    omega
  · simp at h

end TableAsm
