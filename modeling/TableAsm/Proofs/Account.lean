import Mathlib.Data.List.Induction
import TableAsm.Proofs.Passes

/-! # Accounts

  An account of a program tells what each of its lines has come to: the
  section that was current, the encoding that was chosen, and the bytes
  that were put out. Everything else follows from it by reading.

  - `heads` are the sections of a program in the order of their first
    mention, and `currentSection` is the one that a program ends in.
  - `Account.content` joins the bytes of all lines of a section, and
    `Account.offset` and `Account.address` say where the next line stands.
  - `Account.Straight` says that every entry is what its line puts out
    where it stands, and `Account.Binds` that a table binds the names that
    the lines define, and no others.
  - `Account.image` is the image that an account describes. It follows
    the operations on images entry by entry (`Account.image_append`,
    `Account.image_switch`).
-/

namespace TableAsm

/-! ## Sections of a program -/

/-- The section that a line mentions, with the base that it has if it is new. -/
def Line.mention? : Line → Option (String × Word)
  | .directive name args =>
    match Directive.parse name args with
    | .ok (.section s base) => some (s, base.getD 0)
    | _ => none
  | _ => none

/-- All mentions of sections. The default section is there from the start. -/
def mentions (program : Program) : List (String × Word) :=
  (Section.defaultName, 0) :: program.filterMap Line.mention?

/-- The sections of a program with their bases: of all mentions of a section the first counts. -/
def heads (program : Program) : List (String × Word) :=
  (mentions program).eraseDupsBy fun a b => a.1 == b.1

/-- The section that is current after a program. -/
def currentSection (program : Program) : String :=
  ((program.filterMap Line.mention?).getLastD (Section.defaultName, 0)).1

/-- The base of a section. -/
def baseOf (program : Program) (name : String) : Word :=
  (((heads program).find? (·.1 == name)).map Prod.snd).getD 0

/-- The name that a line defines. -/
def Line.defines? : Line → Option String
  | .label name => some name
  | .directive name args =>
    match Directive.parse name args with
    | .ok (.equ s _) => some s
    | _ => none
  | .insn _ => none

/-! ## Entries -/

/-- What a line has come to. -/
structure Entry where
  line : Line
  /-- The section that was current. -/
  home : String
  /-- The encoding that was chosen for an instruction. -/
  choice : Option Candidate
  bytes : List UInt8

/-- An entry for every line, in order. -/
abbrev Account := List Entry

/-- What a directive puts out at some offset of its section. -/
inductive Directive.Emits (labels : LabelTable) (offset : Nat) : Directive → List UInt8 → Prop
  | «section» (name : String) (base : Option Word) : Emits labels offset (.section name base) []
  /-- The fewest zeros that reach a multiple. -/
  | align {n k : Nat} (hlt : k < n) (hdvd : n ∣ offset + k) :
    Emits labels offset (.align n) (List.replicate k 0)
  | skip (n : Nat) : Emits labels offset (.skip n) (List.replicate n 0)
  | equ (name : String) (value : Expr) : Emits labels offset (.equ name value) []
  /-- The values of all arguments, the least significant bytes first. -/
  | data {kind : DataKind} {width : Nat} {args : List Expr} {values : List Word}
    (h : List.Forall₂ (fun e v => e.eval labels = .ok v ∧ kind.fits width v = true) args values) :
    Emits labels offset (.data kind width args) (values.flatMap (Word.leBytes · (width / 8)))

/-- What a line puts out at some offset of its section, where a label has the value `pc`. -/
inductive Line.Emits (isa : Isa) (sel : Selector) (labels : LabelTable) (offset : Nat) (pc : Word) :
    Line → Option Candidate → List UInt8 → Prop
  /-- Bytes of one of the encodings, as many as it is long, at a place where it may stand. -/
  | insn {items : List Item} {c : Candidate} {p : Pattern}
    (hmem : c ∈ isa.encodings sel items)
    (hplace : isa.misaligned (c.size isa.unit) offset = false)
    (hresolve : c.resolve labels pc = .ok (some p))
    (hlength : (p.bytes (c.size isa.unit)).length = c.size isa.unit) :
    Emits isa sel labels offset pc (.insn items) (some c) (p.bytes (c.size isa.unit))
  | label (name : String) : Emits isa sel labels offset pc (.label name) none []
  | directive {name : String} {args : List Expr} {d : Directive} {bytes : List UInt8}
    (hparse : Directive.parse name args = .ok d) (h : d.Emits labels offset bytes) :
    Emits isa sel labels offset pc (.directive name args) none bytes

namespace Account

/-- The lines of an account. -/
def lines (acc : Account) : Program := acc.map Entry.line

/-- The bytes that the lines of a section have put out. -/
def content (acc : Account) (name : String) : List UInt8 :=
  (acc.filter (·.home = name)).flatMap Entry.bytes

/-- The offset of the next line in its section. -/
def offset (acc : Account) : Nat := (acc.content (currentSection acc.lines)).length

/-- The value of a label on the next line. -/
def address (isa : Isa) (acc : Account) : Word :=
  BitVec.ofNat 64 (acc.offset / isa.posUnit) + baseOf acc.lines (currentSection acc.lines)

/-- The names that the lines define. -/
def names (acc : Account) : List String := acc.lines.filterMap Line.defines?

/-- Every entry is what its line puts out in the place that the entries before it leave. -/
def Straight (isa : Isa) (sel : Selector) (labels : LabelTable) (acc : Account) : Prop :=
  ∀ before entry after, acc = before ++ entry :: after →
    entry.home = currentSection (lines before) ∧
    Line.Emits isa sel labels (offset before) (address isa before) entry.line entry.choice
      entry.bytes

/-- A table binds what the lines define, each name once and to its value, and nothing else. -/
structure Binds (isa : Isa) (labels : LabelTable) (acc : Account) : Prop where
  /-- A label stands for its place. -/
  label : ∀ before entry after name, acc = before ++ entry :: after →
    entry.line = .label name → labels.get? name = some (address isa before)
  /-- Any other name stands for its expression, whether this is evaluated with all names or only
      with those defined before. -/
  equ : ∀ before entry after directive args name value, acc = before ++ entry :: after →
    entry.line = .directive directive args →
    Directive.parse directive args = .ok (.equ name value) →
    ∃ v, labels.get? name = some v ∧ value.eval labels = .ok v ∧
      value.eval (labels.restrict (names before)) = .ok v
  defined : ∀ name, (labels.get? name).isSome = true ↔ name ∈ names acc
  once : (names acc).Nodup

/-- The image that an account describes. -/
def image (acc : Account) : Image :=
  ⟨(heads acc.lines).map fun m => ⟨m.1, m.2, (acc.content m.1).toArray⟩, currentSection acc.lines⟩

end Account

/-! ## First mentions -/

/-- A last element stays if nothing before it has the same key. -/
theorem eraseDupsBy_append_singleton {α β : Type} [BEq α] [LawfulBEq α] (ms : List (α × β))
    (m : α × β) :
    (ms ++ [m]).eraseDupsBy (fun a b => a.1 == b.1) =
      if m.1 ∈ ms.map Prod.fst then ms.eraseDupsBy (fun a b => a.1 == b.1)
      else ms.eraseDupsBy (fun a b => a.1 == b.1) ++ [m] := by
  -- the first element takes all its duplicates away, so the induction is on the length
  induction hn : ms.length using Nat.strongRecOn generalizing ms with
  | ind n ih =>
    cases ms with
    | nil => simp [List.eraseDupsBy_cons]
    | cons x rest =>
      rw [List.cons_append, List.eraseDupsBy_cons, List.eraseDupsBy_cons, List.filter_append]
      have hlt : (rest.filter fun b => (b.1 == x.1) = false).length < n := by
        rw [← hn, List.length_cons]
        exact Nat.lt_succ_of_le (List.length_filter_le _ _)
      by_cases hx : m.1 = x.1
      · -- the first element takes the last one away
        simp [hx]
      · have hkeep : [m].filter (fun b => (b.1 == x.1) = false) = [m] := by simp [hx]
        rw [hkeep, ih _ hlt _ rfl]
        have hmem : m.1 ∈ (rest.filter fun b => (b.1 == x.1) = false).map Prod.fst ↔
            m.1 ∈ (x :: rest).map Prod.fst := by
          simp [hx]
        simp only [hmem]
        split
        · rfl
        · rfl

theorem map_fst_eraseDupsBy {α β : Type} [BEq α] [LawfulBEq α] (ms : List (α × β)) :
    ((ms.eraseDupsBy fun a b => a.1 == b.1).map Prod.fst).Nodup ∧
      ∀ key, key ∈ (ms.eraseDupsBy fun a b => a.1 == b.1).map Prod.fst ↔ key ∈ ms.map Prod.fst := by
  induction ms using List.reverseRecOn with
  | nil => simp
  | append_singleton ms m ih =>
    obtain ⟨hnodup, hmem⟩ := ih
    rw [eraseDupsBy_append_singleton]
    split
    · -- the key was there before, and nothing is added
      next hin =>
      refine ⟨hnodup, fun key => ?_⟩
      rw [hmem, List.map_append, List.mem_append]
      constructor
      · exact .inl
      · rintro (h | h)
        · exact h
        · rw [List.map_singleton, List.mem_singleton] at h
          rw [h]
          exact hin
    · -- a new key comes last
      next hout =>
      rw [List.map_append]
      refine ⟨?_, fun key => by rw [List.map_append, List.mem_append, List.mem_append, hmem]⟩
      rw [List.nodup_append]
      refine ⟨hnodup, by simp, ?_⟩
      intro a ha b hb
      rw [List.map_singleton, List.mem_singleton] at hb
      rintro rfl
      exact hout (hb ▸ (hmem a).1 ha)

theorem nodup_heads (program : Program) : ((heads program).map Prod.fst).Nodup :=
  (map_fst_eraseDupsBy (mentions program)).1

theorem mem_heads {program : Program} {name : String} :
    name ∈ (heads program).map Prod.fst ↔ name ∈ (mentions program).map Prod.fst :=
  (map_fst_eraseDupsBy (mentions program)).2 name

theorem mentions_append (program : Program) (line : Line) :
    mentions (program ++ [line]) = mentions program ++ line.mention?.toList := by
  unfold mentions
  rw [List.filterMap_append]
  cases hm : line.mention? with
  | none => simp [hm]
  | some m => simp [hm]

theorem heads_append_of_none {program : Program} {line : Line} (h : line.mention? = none) :
    heads (program ++ [line]) = heads program := by
  unfold heads
  rw [mentions_append, h]
  simp

theorem heads_append_of_some {program : Program} {line : Line} {m : String × Word}
    (h : line.mention? = some m) :
    heads (program ++ [line]) =
      if m.1 ∈ (heads program).map Prod.fst then heads program else heads program ++ [m] := by
  simp only [mem_heads]
  unfold heads
  rw [mentions_append, h]
  exact eraseDupsBy_append_singleton (mentions program) m

theorem head?_heads (program : Program) :
    (heads program).head? = some (Section.defaultName, 0) := by
  unfold heads mentions
  rw [List.eraseDupsBy_cons]
  rfl

theorem currentSection_append (program : Program) (line : Line) :
    currentSection (program ++ [line]) =
      (line.mention?.map Prod.fst).getD (currentSection program) := by
  unfold currentSection
  rw [List.filterMap_append]
  cases hm : line.mention? with
  | none => simp [hm]
  | some m => simp [hm]

/-- The current section is one that was mentioned. -/
theorem currentSection_mem (program : Program) :
    currentSection program ∈ (heads program).map Prod.fst := by
  rw [mem_heads]
  induction program using List.reverseRecOn with
  | nil => simp [currentSection, mentions]
  | append_singleton program line ih =>
    rw [currentSection_append, mentions_append, List.map_append, List.mem_append]
    cases hm : line.mention? with
    | none => exact .inl ih
    | some m => exact .inr (by simp)

/-- The current section is found, with its base. -/
theorem find?_current (program : Program) :
    (heads program).find? (·.1 == currentSection program) =
      some (currentSection program, baseOf program (currentSection program)) := by
  obtain ⟨m, hm, hname⟩ := List.mem_map.1 (currentSection_mem program)
  unfold baseOf
  cases hf : (heads program).find? (·.1 == currentSection program) with
  | none =>
    have hnot := List.find?_eq_none.1 hf m hm
    simp [hname] at hnot
  | some m' =>
    have hm' : m'.1 = currentSection program := by simpa using List.find?_some hf
    rw [← hm']
    rfl

/-- Sections stay when lines are added. -/
theorem heads_subset_append (program more : Program) : heads program ⊆ heads (program ++ more) := by
  induction more using List.reverseRecOn with
  | nil =>
    rw [List.append_nil]
    exact List.Subset.refl _
  | append_singleton more line ih =>
    rw [← List.append_assoc]
    refine List.Subset.trans ih ?_
    cases hm : line.mention? with
    | none =>
      rw [heads_append_of_none hm]
      exact List.Subset.refl _
    | some m =>
      rw [heads_append_of_some hm]
      split
      · exact List.Subset.refl _
      · exact List.subset_append_left _ _

/-! ## The image of an account -/

namespace Account

variable {isa : Isa} {sel : Selector} {labels : LabelTable} {acc : Account} {entry : Entry}

theorem lines_append : lines (acc ++ [entry]) = lines acc ++ [entry.line] := by
  simp [lines]

theorem content_append (name : String) :
    content (acc ++ [entry]) name =
      content acc name ++ if entry.home = name then entry.bytes else [] := by
  unfold content
  rw [List.filter_append, List.flatMap_append]
  by_cases h : entry.home = name
  · simp [h]
  · simp [h]

/-- The bytes of an entry stand in its section behind those of the entries before. -/
theorem content_at {before after : Account} :
    ((content (before ++ entry :: after) entry.home).drop (content before entry.home).length).take
      entry.bytes.length = entry.bytes := by
  unfold content
  rw [List.filter_append, List.flatMap_append, List.drop_left, List.filter_cons]
  simp

/-- An element of a list with one more at the end is that one, or one from before. -/
theorem append_singleton_eq_split {α : Type} {xs before after : List α} {x y : α}
    (h : xs ++ [x] = before ++ y :: after) :
    (before = xs ∧ y = x) ∨ ∃ after', xs = before ++ y :: after' := by
  rcases List.eq_nil_or_concat' after with rfl | ⟨after', z, rfl⟩
  · obtain ⟨rfl, hlast⟩ := List.append_inj' h rfl
    exact .inl ⟨rfl, by simpa using hlast.symm⟩
  · have h' : xs ++ [x] = (before ++ y :: after') ++ [z] := by
      rw [h]
      simp
    exact .inr ⟨after', (List.append_inj' h' rfl).1⟩

/-- Straightness is a matter of one entry after the other. -/
theorem straight_append :
    Straight isa sel labels (acc ++ [entry]) ↔
      Straight isa sel labels acc ∧ entry.home = currentSection (lines acc) ∧
        Line.Emits isa sel labels (offset acc) (address isa acc) entry.line entry.choice
          entry.bytes := by
  constructor
  · intro h
    refine ⟨?_, h acc entry [] rfl⟩
    rintro before e after rfl
    exact h before e (after ++ [entry]) (by simp)
  · rintro ⟨hacc, hentry⟩ before e after heq
    rcases append_singleton_eq_split heq with ⟨rfl, rfl⟩ | ⟨after', hsplit⟩
    · exact hentry
    · exact hacc before e after' hsplit

theorem straight_nil : Straight isa sel labels [] := by
  intro before entry after h
  simp at h

/-- Nothing stands in a section that was never mentioned. -/
theorem content_eq_nil (h : Straight isa sel labels acc) {name : String}
    (hname : name ∉ (heads (lines acc)).map Prod.fst) : content acc name = [] := by
  induction acc using List.reverseRecOn with
  | nil => rfl
  | append_singleton acc entry ih =>
    obtain ⟨hacc, hhome, _⟩ := straight_append.1 h
    have hsub : ∀ other, other ∈ (heads (lines acc)).map Prod.fst →
        other ∈ (heads (lines (acc ++ [entry]))).map Prod.fst := by
      intro other hother
      rw [lines_append]
      rw [mem_heads] at hother ⊢
      rw [mentions_append, List.map_append]
      exact List.mem_append_left _ hother
    -- the entry stands in the section that was current, and that one is mentioned
    have hne : entry.home ≠ name := by
      rintro rfl
      exact hname (hsub _ (hhome ▸ currentSection_mem (lines acc)))
    rw [content_append, ih hacc (fun hmem => hname (hsub name hmem)), if_neg hne]
    rfl

theorem here_image (acc : Account) :
    acc.image.here = ⟨currentSection acc.lines, baseOf acc.lines (currentSection acc.lines),
      (acc.content (currentSection acc.lines)).toArray⟩ := by
  have hfind : (heads acc.lines).find? ((·.name == currentSection acc.lines) ∘
      fun m => (⟨m.1, m.2, (acc.content m.1).toArray⟩ : Section)) = _ := find?_current acc.lines
  unfold Image.here Image.find? image
  rw [List.find?_map]
  simp only [hfind, Option.map_some, Option.getD_some]

theorem offset_image (acc : Account) : acc.image.offset = acc.offset := by
  unfold Image.offset
  rw [here_image]
  rfl

theorem address_image (acc : Account) : acc.image.address isa.posUnit = acc.address isa := by
  unfold Image.address
  rw [offset_image, here_image]
  rfl

/-- An entry that mentions no section adds its bytes to the current one. -/
theorem image_append (hline : entry.line.mention? = none)
    (hhome : entry.home = currentSection (lines acc)) :
    image (acc ++ [entry]) = (image acc).append entry.bytes.toArray := by
  unfold image Image.append
  rw [lines_append, heads_append_of_none hline, currentSection_append, hline]
  simp only [Option.map_none, Option.getD_none, List.map_map, Image.mk.injEq, and_true]
  -- section by section: the bytes go to the current one
  apply List.map_congr_left
  intro m _
  rw [content_append, hhome]
  by_cases hm : m.1 = currentSection (lines acc)
  · simp [hm]
  · simp [hm, Ne.symm hm]

/-- An entry that mentions a section makes it the current one. -/
theorem image_switch (hacc : Straight isa sel labels acc) {name : String} {base : Option Word}
    (hline : entry.line.mention? = some (name, base.getD 0)) (hbytes : entry.bytes = []) :
    image (acc ++ [entry]) = (image acc).switch name base := by
  have hcontent : ∀ other, content (acc ++ [entry]) other = content acc other := by
    intro other
    rw [content_append, hbytes]
    simp
  have hcurrent : currentSection (lines acc ++ [entry.line]) = name := by
    rw [currentSection_append, hline]
    rfl
  have hfind : ((image acc).find? name).isSome =
      decide (name ∈ (heads (lines acc)).map Prod.fst) := by
    unfold Image.find? image
    rw [List.find?_map, Option.isSome_map, Bool.eq_iff_iff, List.find?_isSome]
    simp
  unfold Image.switch
  rw [hfind]
  by_cases hmem : name ∈ (heads (lines acc)).map Prod.fst
  · -- an old section: it keeps its place, its base and its bytes
    simp only [hmem, decide_true, if_true]
    unfold image
    rw [lines_append, hcurrent, heads_append_of_some hline, if_pos hmem]
    simp only [hcontent]
  · -- a new section comes last, and nothing has been put there yet
    simp only [hmem, decide_false, Bool.false_eq_true, if_false]
    unfold image
    rw [lines_append, hcurrent, heads_append_of_some hline, if_neg hmem]
    simp only [hcontent, List.map_append, List.map_singleton, content_eq_nil hacc hmem]

end Account

end TableAsm
