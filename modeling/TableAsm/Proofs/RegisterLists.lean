import Mathlib.Data.List.Induction
import TableAsm.Proofs.RegisterNumbers
import TableAsm.Proofs.Writes

/-! # Register lists

  Reading a list operand goes from place to place and keeps the first
  number, the next number and the places that were held by a register.

  - `RegisterList.Consecutive` says which lists are well formed: every
    element is the placeholder or the register that is next in number.
  - `RegisterRun.after` is what is known after such a list, and
    `RegisterList.scan?_eq_some` says that reading a list comes to this and
    to nothing else. It goes by the last element of the list
    (`RegisterList.consecutive_append`, `RegisterList.push?_after`).
  - `register_lists_accepted` is the result, for the three fields together.
-/

namespace TableAsm

namespace RegisterList

/-! ## Well-formed lists -/

/-- The element is register `n`: the name of the registers, and decimal digits. -/
def Names (name : String) (e : Expr) (n : Nat) : Prop :=
  ∃ s digits, e = .reg s ∧ s.toList = name.toList ++ digits ∧ Numeral.IsDecimal digits ∧
    Numeral.value digits = n

/-- Is the element anything but the placeholder? -/
def isHeld : Expr → Bool
  | .discard => false
  | _ => true

/-- Number of elements that are no placeholder. -/
def held (elems : List Expr) : Nat := elems.countP isHeld

/-- The places of the elements that are no placeholder, the first place in the lowest bit. -/
def places : List Expr → Word
  | [] => 0
  | e :: rest => (if isHeld e then (1 : Word) else 0) ||| places rest <<< 1

/-- Every element is the placeholder or a register, and the registers are numbered from `start`
    on. No register is the last of all, and none stands past the first 64 places. -/
structure Numbered (name : String) (elems : List Expr) (start : Nat) : Prop where
  next : ∀ i e, elems[i]? = some e → e = .discard ∨ Names name e (start + held (elems.take i))
  not_last : ∀ e ∈ elems, ∀ n, Names name e n → n < 2 ^ 64 - 1
  early : ∀ i e, elems[i]? = some e → e ≠ .discard → i < 64

/-- A well-formed list with first register `start`, which is 0 if there is none. -/
structure Consecutive (name : String) (elems : List Expr) (start : Nat) : Prop extends
    Numbered name elems start where
  start_eq : held elems = 0 → start = 0

variable {name : String} {elems : List Expr} {e : Expr} {start n n' i : Nat}

theorem isHeld_iff : isHeld e = true ↔ e ≠ .discard := by
  cases e <;> simp [isHeld]

theorem names_unique (h : Names name e n) (h' : Names name e n') : n = n' := by
  obtain ⟨s, digits, rfl, htext, _, rfl⟩ := h
  obtain ⟨s', digits', heq, htext', _, rfl⟩ := h'
  obtain rfl := Expr.reg.inj heq
  rw [List.append_cancel_left (htext.symm.trans htext')]

theorem ne_discard_of_names (h : Names name e n) : e ≠ .discard := by
  obtain ⟨s, digits, rfl, _⟩ := h
  simp

theorem held_append (elems : List Expr) (e : Expr) :
    held (elems ++ [e]) = held elems + if isHeld e then 1 else 0 := by
  unfold held
  rw [List.countP_append, List.countP_singleton]

theorem held_eq_zero : held elems = 0 ↔ ∀ e ∈ elems, e = .discard := by
  unfold held
  rw [List.countP_eq_zero]
  simp only [isHeld_iff, ne_eq, not_not]

/-- An element of a list with one more at the end stands before that one, or it is that one. -/
theorem getElem?_append_singleton {x : Expr} :
    (elems ++ [e])[i]? = some x ↔ elems[i]? = some x ∨ (i = elems.length ∧ x = e) := by
  rw [List.getElem?_append]
  split
  · next hlt => simp [show i ≠ elems.length by omega]
  · next hge =>
    rw [List.getElem?_eq_none (by omega : elems.length ≤ i), List.getElem?_singleton]
    by_cases hi : i = elems.length
    · simp [hi, eq_comm]
    · simp [hi, show i - elems.length ≠ 0 by omega]

/-- A list stays well formed if a placeholder or the next register is put at its end. -/
theorem numbered_append :
    Numbered name (elems ++ [e]) start ↔
      Numbered name elems start ∧ (e = .discard ∨ Names name e (start + held elems) ∧
        start + held elems < 2 ^ 64 - 1 ∧ elems.length < 64) := by
  have htake : ∀ {i x}, elems[i]? = some x → (elems ++ [e]).take i = elems.take i := by
    intro i x hi
    exact List.take_append_of_le_length (Nat.le_of_lt (List.getElem?_eq_some_iff.1 hi).1)
  have hlast : (elems ++ [e])[elems.length]? = some e :=
    getElem?_append_singleton.2 (.inr ⟨rfl, rfl⟩)
  constructor
  · intro h
    refine ⟨⟨?_, ?_, ?_⟩, ?_⟩
    · intro i x hi
      rw [← htake hi]
      exact h.next i x (getElem?_append_singleton.2 (.inl hi))
    · exact fun x hx => h.not_last x (List.mem_append_left _ hx)
    · exact fun i x hi => h.early i x (getElem?_append_singleton.2 (.inl hi))
    · have hnext := h.next _ e hlast
      rw [List.take_left] at hnext
      rcases hnext with hdiscard | hnames
      · exact .inl hdiscard
      · exact .inr ⟨hnames, h.not_last e (by simp) _ hnames,
          h.early _ e hlast (ne_discard_of_names hnames)⟩
  · rintro ⟨h, he⟩
    refine ⟨?_, ?_, ?_⟩
    · intro i x hx
      rcases getElem?_append_singleton.1 hx with hi | ⟨rfl, rfl⟩
      · rw [htake hi]
        exact h.next i x hi
      · rw [List.take_left]
        exact he.imp id fun he => he.1
    · intro x hx n hn
      rcases List.mem_append.1 hx with hx | hx
      · exact h.not_last x hx n hn
      · obtain rfl := List.mem_singleton.1 hx
        obtain ⟨hnames, hlt, _⟩ := he.resolve_left (ne_discard_of_names hn)
        rwa [names_unique hn hnames]
    · intro i x hx hne
      rcases getElem?_append_singleton.1 hx with hi | ⟨rfl, rfl⟩
      · exact h.early i x hi hne
      · exact (he.resolve_left hne).2.2

/-- A list of placeholders can be followed by any register. -/
theorem numbered_of_held_eq_zero (h : held elems = 0) (start : Nat) :
    Numbered name elems start := by
  rw [held_eq_zero] at h
  have hall : ∀ (i : Nat) (e : Expr), elems[i]? = some e → e = .discard := fun i e hi =>
    h e (List.mem_of_getElem? hi)
  refine ⟨fun i e hi => .inl (hall i e hi), ?_, fun i e hi he => absurd (hall i e hi) he⟩
  intro e he n hn
  exact absurd (h e he) (ne_discard_of_names hn)

/-- If there is a register, its number says where the list starts. -/
theorem Numbered.start_unique {start' : Nat} (h : Numbered name elems start)
    (h' : Numbered name elems start') (hheld : held elems ≠ 0) : start = start' := by
  rw [ne_eq, held_eq_zero] at hheld
  push Not at hheld
  obtain ⟨e, he, hne⟩ := hheld
  obtain ⟨i, hi⟩ := List.mem_iff_getElem?.1 he
  have hnames := (h.next i e hi).resolve_left hne
  have hnames' := (h'.next i e hi).resolve_left hne
  exact Nat.add_right_cancel (names_unique hnames hnames')

/-- There is a next number, since no register is the last of all. -/
theorem Numbered.next_lt (h : Numbered name elems start) (hheld : held elems ≠ 0) :
    start + held elems < 2 ^ 64 := by
  induction elems using List.reverseRecOn with
  | nil => exact absurd rfl hheld
  | append_singleton elems e ih =>
    obtain ⟨hinit, rfl | ⟨hnames, hlt, _⟩⟩ := numbered_append.1 h
    · rw [held_append] at hheld ⊢
      exact ih hinit hheld
    · rw [held_append, if_pos (isHeld_iff.2 (ne_discard_of_names hnames))]
      omega

theorem Consecutive.start_lt (h : Consecutive name elems start) : start < 2 ^ 64 := by
  by_cases hheld : held elems = 0
  · rw [h.start_eq hheld]
    exact Nat.two_pow_pos 64
  · have hlt := h.next_lt hheld
    omega

theorem consecutive_append :
    Consecutive name (elems ++ [e]) start ↔
      e = .discard ∧ Consecutive name elems start ∨
        Numbered name elems start ∧ Names name e (start + held elems) ∧
          start + held elems < 2 ^ 64 - 1 ∧ elems.length < 64 := by
  constructor
  · rintro ⟨h, hstart⟩
    obtain ⟨hinit, rfl | he⟩ := numbered_append.1 h
    · rw [held_append] at hstart
      exact .inl ⟨rfl, hinit, hstart⟩
    · exact .inr ⟨hinit, he⟩
  · rintro (⟨rfl, hinit, hstart⟩ | ⟨hinit, he⟩)
    · refine ⟨numbered_append.2 ⟨hinit, .inl rfl⟩, ?_⟩
      rw [held_append]
      exact hstart
    · refine ⟨numbered_append.2 ⟨hinit, .inr he⟩, ?_⟩
      rw [held_append, if_pos (isHeld_iff.2 (ne_discard_of_names he.1))]
      omega

/-! ## The mask of places -/

theorem getLsbD_places (elems : List Expr) (i : Nat) :
    (places elems).getLsbD i = (decide (i < 64) && elems[i]?.any isHeld) := by
  induction elems generalizing i with
  | nil => simp [places]
  | cons e rest ih =>
    rw [places, BitVec.getLsbD_or, BitVec.getLsbD_shiftLeft]
    cases i with
    | zero => cases h : isHeld e <;> simp [h]
    | succ i =>
      have hfirst : (if isHeld e then (1 : Word) else 0).getLsbD (i + 1) = false := by
        split <;> simp
      rw [hfirst, ih]
      by_cases hi : i + 1 < 64
      · simp [hi, show i < 64 by omega]
      · simp [hi]

theorem places_append (elems : List Expr) (e : Expr) :
    places (elems ++ [e]) =
      places elems ||| if isHeld e then Word.shl 1 elems.length else 0 := by
  induction elems with
  | nil => simp [places, Word.shl_eq]
  | cons x rest ih =>
    -- the place of the last element moves up with the rest
    have hmove : (if isHeld e then Word.shl 1 rest.length else 0) <<< 1 =
        if isHeld e then Word.shl 1 (rest.length + 1) else 0 := by
      split
      · rw [Word.shl_eq, Word.shl_eq, BitVec.shiftLeft_add]
      · simp
    rw [List.cons_append, places, places, ih, BitVec.shiftLeft_or_distrib, hmove,
      List.length_cons, BitVec.or_assoc]

/-- In a well-formed list no place is lost: the mask has exactly those that are held. -/
theorem Numbered.getLsbD_places (h : Numbered name elems start) (i : Nat) :
    (places elems).getLsbD i = true ↔ ∃ e, elems[i]? = some e ∧ e ≠ .discard := by
  simp only [RegisterList.getLsbD_places, Bool.and_eq_true, decide_eq_true_eq, Option.any_eq_true,
    isHeld_iff]
  constructor
  · exact fun ⟨_, hheld⟩ => hheld
  · rintro ⟨e, hi, hne⟩
    exact ⟨h.early i e hi hne, e, hi, hne⟩

theorem places_eq_zero (h : Numbered name elems start) : places elems = 0 ↔ held elems = 0 := by
  rw [held_eq_zero]
  constructor
  · intro hzero e he
    by_contra hne
    obtain ⟨i, hi⟩ := List.mem_iff_getElem?.1 he
    have hbit := (h.getLsbD_places i).2 ⟨e, hi, hne⟩
    simp [hzero] at hbit
  · intro hall
    apply BitVec.eq_of_getLsbD_eq
    intro i _
    rw [Bool.eq_iff_iff, h.getLsbD_places]
    constructor
    · rintro ⟨e, hi, hne⟩
      exact absurd (hall e (List.mem_of_getElem? hi)) hne
    · simp

/-- Every place is held exactly if the mask has all bits up to the length of the list. -/
theorem places_eq_lowMask (h : elems.length ≤ 64) :
    places elems = Word.lowMask elems.length ↔ ∀ e ∈ elems, e ≠ .discard := by
  constructor
  · intro heq e he
    obtain ⟨i, hi⟩ := List.mem_iff_getElem?.1 he
    have hlt : i < elems.length := (List.getElem?_eq_some_iff.1 hi).1
    have hbit := getLsbD_places elems i
    rw [heq, Word.getLsbD_lowMask, hi] at hbit
    have hheld : isHeld e = true := by simpa [hlt, show i < 64 by omega] using hbit
    exact isHeld_iff.1 hheld
  · intro hall
    apply BitVec.eq_of_getLsbD_eq
    intro i hi64
    rw [getLsbD_places, Word.getLsbD_lowMask]
    cases hi : elems[i]? with
    | none =>
      have hge := List.getElem?_eq_none_iff.1 hi
      simp [show ¬ i < elems.length by omega]
    | some e =>
      have hlt : i < elems.length := (List.getElem?_eq_some_iff.1 hi).1
      simp [hlt, isHeld_iff.2 (hall e (List.mem_of_getElem? hi))]

end RegisterList

/-! ## Reading a list -/

/-- What is known after a list with these elements and this first register. -/
def RegisterRun.after (start : Nat) (elems : List Expr) : RegisterRun where
  start := BitVec.ofNat 64 start
  next := BitVec.ofNat 64 (start + RegisterList.held elems)
  mask := RegisterList.places elems

namespace RegisterList

variable {name : String} {elems more : List Expr} {e : Expr} {start place : Nat} {n : Word}
  {run run' : RegisterRun}

theorem after_append_discard :
    RegisterRun.after start (elems ++ [.discard]) = .after start elems := by
  simp [RegisterRun.after, held_append, places_append, isHeld]

theorem after_append_held (he : isHeld e = true) :
    RegisterRun.after start (elems ++ [e]) =
      ⟨BitVec.ofNat 64 start, BitVec.ofNat 64 (start + held elems) + 1,
        places elems ||| Word.shl 1 elems.length⟩ := by
  have hnext : BitVec.ofNat 64 (start + (held elems + 1)) =
      BitVec.ofNat 64 (start + held elems) + 1 := by
    rw [← Nat.add_assoc, BitVec.ofNat_add]
    rfl
  simp only [RegisterRun.after, held_append, places_append, he, if_true, hnext]

theorem push?_eq_some :
    push? run place n = some run' ↔
      n.toNat < 2 ^ 64 - 1 ∧ place < 64 ∧
        (run.mask = 0 ∧ run' = ⟨n, n + 1, Word.shl 1 place⟩ ∨
         run.mask ≠ 0 ∧ n = run.next ∧
          run' = ⟨run.start, n + 1, run.mask ||| Word.shl 1 place⟩) := by
  have hlast : n = BitVec.allOnes 64 ↔ ¬ n.toNat < 2 ^ 64 - 1 := by
    rw [← BitVec.toNat_inj, BitVec.toNat_allOnes]
    have := n.isLt
    omega
  unfold push?
  constructor
  · intro h
    split at h
    · simp at h
    · next hok =>
      rw [not_or, hlast, not_not, Nat.not_le] at hok
      refine ⟨hok.1, hok.2, ?_⟩
      split at h
      · next hmask => exact .inl ⟨hmask, (Option.some.inj h).symm⟩
      · next hmask =>
        split at h
        · next hnext => exact .inr ⟨hmask, hnext, (Option.some.inj h).symm⟩
        · simp at h
  · rintro ⟨hn, hplace, hrun⟩
    have hok : ¬ (n = BitVec.allOnes 64 ∨ 64 ≤ place) := by
      rw [not_or, hlast, not_not, Nat.not_le]
      exact ⟨hn, hplace⟩
    rw [if_neg hok]
    rcases hrun with ⟨hmask, rfl⟩ | ⟨hmask, hnext, rfl⟩
    · rw [if_pos hmask]
    · rw [if_neg hmask, if_pos hnext]

theorem scan?_append :
    scan? name (elems ++ more) place run =
      (scan? name elems place run).bind (scan? name more (place + elems.length)) := by
  induction elems generalizing place run with
  | nil => rfl
  | cons e rest ih =>
    have hplace : place + (e :: rest).length = place + 1 + rest.length := by
      rw [List.length_cons]
      omega
    rw [hplace]
    cases e with
    | discard => exact ih
    | reg s =>
      simp only [List.cons_append, scan?, Option.bind_eq_bind, Option.bind_assoc, ih]
    | _ => rfl

/-- One element: the placeholder changes nothing, and a register is added. -/
theorem scan?_singleton :
    scan? name [e] place run = some run' ↔
      e = .discard ∧ run' = run ∨
        ∃ n : Word, Names name e n.toNat ∧ push? run place n = some run' := by
  cases e with
  | discard =>
    simp [scan?, Names, eq_comm]
  | reg s =>
    simp only [scan?, Option.bind_eq_bind, Option.bind_eq_some_iff,
      List.isPrefixOf?_eq_some_iff_append_eq, Numeral.word?_eq_some]
    constructor
    · rintro ⟨digits, htext, n, ⟨hdecimal, hvalue⟩, after, hpush, hrun⟩
      obtain rfl := Option.some.inj hrun
      exact .inr ⟨n, ⟨s, digits, rfl, htext.symm, hdecimal, hvalue⟩, hpush⟩
    · rintro (⟨hdiscard, _⟩ | ⟨n, ⟨s', digits, heq, htext, hdecimal, hvalue⟩, hpush⟩)
      · simp at hdiscard
      · obtain rfl := Expr.reg.inj heq
        exact ⟨digits, htext.symm, n, ⟨hdecimal, hvalue⟩, run', hpush, rfl⟩
  | _ => simp [scan?, Names]

/-- What a register does after a well-formed list: it is accepted exactly if the longer list is
    well formed. -/
theorem push?_after (h : Consecutive name elems start) (hnames : Names name e n.toNat) :
    push? (.after start elems) elems.length n = some run ↔
      ∃ start', Consecutive name (elems ++ [e]) start' ∧ run = .after start' (elems ++ [e]) := by
  have he : isHeld e = true := isHeld_iff.2 (ne_discard_of_names hnames)
  have hmask : (RegisterRun.after start elems).mask = 0 ↔ held elems = 0 :=
    places_eq_zero h.toNumbered
  -- a first register leaves nothing of the list in front of it
  have hfirst : held elems = 0 → ∀ first, RegisterRun.after first (elems ++ [e]) =
      ⟨BitVec.ofNat 64 first, BitVec.ofNat 64 first + 1, Word.shl 1 elems.length⟩ := by
    intro hzero first
    have hplaces : places elems = 0 := hmask.2 hzero
    rw [after_append_held he, hplaces, hzero]
    simp
  simp only [push?_eq_some, ne_eq, hmask]
  constructor
  · rintro ⟨hlt, hplace, ⟨hzero, rfl⟩ | ⟨hheld, rfl, rfl⟩⟩
    · refine ⟨n.toNat, consecutive_append.2 (.inr ⟨numbered_of_held_eq_zero hzero _, ?_⟩), ?_⟩
      · rw [hzero, Nat.add_zero]
        exact ⟨hnames, hlt, hplace⟩
      · rw [hfirst hzero, BitVec.ofNat_toNat, BitVec.setWidth_eq]
    · have hn : (BitVec.ofNat 64 (start + held elems)).toNat = start + held elems := by
        rw [BitVec.toNat_ofNat, Nat.mod_eq_of_lt (h.next_lt hheld)]
      refine ⟨start, consecutive_append.2 (.inr ⟨h.toNumbered, ?_⟩), (after_append_held he).symm⟩
      simp only [RegisterRun.after, hn] at hnames hlt
      exact ⟨hnames, hlt, hplace⟩
  · rintro ⟨start', h', rfl⟩
    rcases consecutive_append.1 h' with ⟨rfl, _⟩ | ⟨hinit, hnames', hlt, hplace⟩
    · simp [isHeld] at he
    · have hn : n.toNat = start' + held elems := names_unique hnames hnames'
      have hword : n = BitVec.ofNat 64 (start' + held elems) := by
        rw [← hn, BitVec.ofNat_toNat, BitVec.setWidth_eq]
      refine ⟨hn ▸ hlt, hplace, ?_⟩
      by_cases hzero : held elems = 0
      · refine .inl ⟨hzero, ?_⟩
        rw [hfirst hzero, hword, hzero, Nat.add_zero]
      · obtain rfl := h.start_unique hinit hzero
        refine .inr ⟨hzero, hword, ?_⟩
        rw [after_append_held he, hword]
        rfl

/-- **Reading a list.** It succeeds exactly on well-formed lists, and what is known afterwards
    depends on the first register and on the elements alone. -/
theorem scan?_eq_some :
    scan? name elems 0 {} = some run ↔
      ∃ start, Consecutive name elems start ∧ run = .after start elems := by
  induction elems using List.reverseRecOn generalizing run with
  | nil =>
    constructor
    · intro h
      obtain rfl := Option.some.inj h
      exact ⟨0, ⟨numbered_of_held_eq_zero rfl 0, fun _ => rfl⟩, rfl⟩
    · rintro ⟨start, hstart, rfl⟩
      obtain rfl := hstart.start_eq rfl
      rfl
  | append_singleton elems e ih =>
    rw [scan?_append, Option.bind_eq_some_iff]
    simp only [ih, scan?_singleton, Nat.zero_add]
    constructor
    · rintro ⟨_, ⟨start, h, rfl⟩, ⟨rfl, rfl⟩ | ⟨n, hnames, hpush⟩⟩
      · exact ⟨start, consecutive_append.2 (.inl ⟨rfl, h⟩), after_append_discard.symm⟩
      · exact (push?_after h hnames).1 hpush
    · rintro ⟨start, h, rfl⟩
      rcases consecutive_append.1 h with ⟨rfl, hinit⟩ | ⟨hinit, hnames, hlt, _⟩
      · exact ⟨_, ⟨start, hinit, rfl⟩, .inl ⟨rfl, after_append_discard⟩⟩
      · -- without a register before it, the list in front starts at 0
        obtain ⟨first, hfirst⟩ : ∃ first, Consecutive name elems first := by
          by_cases hzero : held elems = 0
          · exact ⟨0, numbered_of_held_eq_zero hzero 0, fun _ => rfl⟩
          · exact ⟨start, hinit, fun h => absurd h hzero⟩
        have hn : (BitVec.ofNat 64 (start + held elems)).toNat = start + held elems := by
          rw [BitVec.toNat_ofNat]
          omega
        have hnames' : Names name e (BitVec.ofNat 64 (start + held elems)).toNat := by
          rw [hn]
          exact hnames
        exact ⟨_, ⟨first, hfirst, rfl⟩, .inr ⟨_, hnames', (push?_after hfirst hnames').2
          ⟨start, h, rfl⟩⟩⟩

/-! ## Writing a list -/

/-- What is written for a list: the first register, the length, and the places if there is a field
    for them. -/
def writes (l : RegisterList) (start : Nat) (elems : List Expr) : List Write :=
  ⟨l.start, BitVec.ofNat 64 start, 0⟩ :: ⟨l.count, BitVec.ofNat 64 elems.length, 0⟩ ::
    (l.mask.map fun f => ⟨f, places elems, 0⟩).toList

variable {l : RegisterList} {p q : Pattern}

theorem applyAll_writes_of_mask {f : Field} (hmask : l.mask = some f) :
    Write.applyAll (l.writes start elems) p = some q ↔
      ∃ p₁, l.start.encode p (BitVec.ofNat 64 start) 0 = some p₁ ∧
        ∃ p₂, l.count.encode p₁ (BitVec.ofNat 64 elems.length) 0 = some p₂ ∧
          f.encode p₂ (places elems) 0 = some q := by
  simp [writes, hmask, Write.applyAll, Write.apply, Option.bind_eq_some_iff]

theorem applyAll_writes_of_no_mask (hmask : l.mask = none) :
    Write.applyAll (l.writes start elems) p = some q ↔
      ∃ p₁, l.start.encode p (BitVec.ofNat 64 start) 0 = some p₁ ∧
        l.count.encode p₁ (BitVec.ofNat 64 elems.length) 0 = some q := by
  simp [writes, hmask, Write.applyAll, Write.apply, Option.bind_eq_some_iff]

/-- A list is written exactly if it is well formed, the writes succeed together, and no place is
    left out where places are not written. -/
theorem encode_eq_some :
    l.encode elems p = some q ↔
      ∃ start, Consecutive l.name elems start ∧
        (l.mask = none → elems.length ≤ 64 ∧ ∀ e ∈ elems, e ≠ .discard) ∧
        Write.applyAll (l.writes start elems) p = some q := by
  simp only [encode, Option.bind_eq_bind, Option.bind_eq_some_iff, scan?_eq_some]
  cases hmask : l.mask with
  | some f =>
    simp only [applyAll_writes_of_mask hmask]
    constructor
    · rintro ⟨_, ⟨start, hstart, rfl⟩, p₁, hp₁, p₂, hp₂, hq⟩
      exact ⟨start, hstart, by simp, p₁, hp₁, p₂, hp₂, hq⟩
    · rintro ⟨start, hstart, _, p₁, hp₁, p₂, hp₂, hq⟩
      exact ⟨_, ⟨start, hstart, rfl⟩, p₁, hp₁, p₂, hp₂, hq⟩
  | none =>
    simp only [applyAll_writes_of_no_mask hmask]
    constructor
    · rintro ⟨_, ⟨start, hstart, rfl⟩, p₁, hp₁, p₂, hp₂, hq⟩
      split at hq
      · next hfull =>
        obtain rfl := Option.some.inj hq
        obtain ⟨hlength, hplaces⟩ := hfull
        exact ⟨start, hstart, fun _ => ⟨hlength, (places_eq_lowMask hlength).1 hplaces⟩, p₁, hp₁,
          hp₂⟩
      · simp at hq
    · rintro ⟨start, hstart, hfull, p₁, hp₁, hq⟩
      obtain ⟨hlength, hall⟩ := hfull trivial
      refine ⟨_, ⟨start, hstart, rfl⟩, p₁, hp₁, q, hq, ?_⟩
      exact if_pos ⟨hlength, (places_eq_lowMask hlength).2 hall⟩

theorem Consecutive.start_unique {start' : Nat} (h : Consecutive name elems start)
    (h' : Consecutive name elems start') : start = start' := by
  by_cases hheld : held elems = 0
  · rw [h.start_eq hheld, h'.start_eq hheld]
  · exact h.toNumbered.start_unique h'.toNumbered hheld

end RegisterList

namespace Write

variable {ws : List Write} {w : Write} {p q : Pattern}

theorem le_applyAll (h : applyAll ws p = some q) : p ≤ q := by
  induction ws generalizing p with
  | nil =>
    obtain rfl := Option.some.inj h
    exact Pattern.le_refl p
  | cons w rest ih =>
    obtain ⟨p₁, hw, hrest⟩ := Option.bind_eq_some_iff.1 h
    exact Pattern.le_trans (Field.le_encode hw) (ih hrest)

/-- A number that was written is read back after all the other writes. -/
theorem decode_of_applyAll (h : applyAll ws p = some q) (hw : w ∈ ws)
    (hwraps : w.field.wraps = false) : w.field.decode q w.pc = some w.value := by
  induction ws generalizing p with
  | nil => simp at hw
  | cons w' rest ih =>
    obtain ⟨p₁, hw', hrest⟩ := Option.bind_eq_some_iff.1 h
    rcases List.mem_cons.1 hw with rfl | hw
    · -- the field is decided by its own write
      rw [Field.decode_of_le (le_applyAll hrest) (Field.claims_encode hw')]
      exact Field.decode_of_encode hwraps hw'
    · exact ih hrest hw

theorem shows_of_applyAll {f : Field} {v : Word} (h : applyAll ws p = some q)
    (hw : ⟨f, v, 0⟩ ∈ ws) (hwraps : f.wraps = false) : f.Shows q v := by
  have hdecode := decode_of_applyAll h hw hwraps
  exact Field.shows_of_decode hdecode

end Write

/-! ## The result -/

/-- **Which register lists are accepted.** For any list of elements:

    * The atom writes the list into an empty pattern.
    * This succeeds exactly if the list is well formed, if the first register, the length and the
      places can be written together into their fields, and if no place is left to the placeholder
      where there is no field for the places.
    * Each of the fields, unless it wraps, is then read as the number that it stands for. -/
theorem register_lists_accepted (l : RegisterList) (sel : Selector) (elems : List Expr) :
    (∀ (items : List Item) (pos : Nat), items[pos]? = some (.expr (.vec elems)) →
      (Leaf.vec l).candidate? sel items pos =
        (l.encode elems Pattern.empty).map fun q => { pattern := q, pos := pos + 1 }) ∧
    (∀ q, l.encode elems Pattern.empty = some q ↔
      ∃ start, RegisterList.Consecutive l.name elems start ∧
        (l.mask = none → elems.length ≤ 64 ∧ ∀ e ∈ elems, e ≠ .discard) ∧
        Write.applyAll (l.writes start elems) Pattern.empty = some q) ∧
    (∀ q start, l.encode elems Pattern.empty = some q →
      RegisterList.Consecutive l.name elems start →
      (l.start.wraps = false → ∃ v, l.start.Shows q v ∧ v.toNat = start) ∧
      (l.count.wraps = false → ∃ v, l.count.Shows q v ∧ v = BitVec.ofNat 64 elems.length ∧
        (elems.length < 2 ^ 64 → v.toNat = elems.length)) ∧
      (∀ f, l.mask = some f → f.wraps = false → ∃ v, f.Shows q v ∧
        ∀ i, v.getLsbD i = true ↔ ∃ e, elems[i]? = some e ∧ e ≠ .discard)) := by
  refine ⟨?_, fun q => RegisterList.encode_eq_some, ?_⟩
  · intro items pos hitem
    simp only [Leaf.candidate?, hitem, Option.bind_some]
    rfl
  · intro q start hq hstart
    obtain ⟨start', hstart', _, hwrites⟩ := RegisterList.encode_eq_some.1 hq
    obtain rfl := hstart.start_unique hstart'
    refine ⟨fun hwraps => ?_, fun hwraps => ?_, fun f hf hwraps => ?_⟩
    · refine ⟨BitVec.ofNat 64 start, Write.shows_of_applyAll hwrites ?_ hwraps, ?_⟩
      · simp [RegisterList.writes]
      · rw [BitVec.toNat_ofNat, Nat.mod_eq_of_lt hstart.start_lt]
    · refine ⟨BitVec.ofNat 64 elems.length, Write.shows_of_applyAll hwrites ?_ hwraps, rfl, ?_⟩
      · simp [RegisterList.writes]
      · intro hlength
        rw [BitVec.toNat_ofNat, Nat.mod_eq_of_lt hlength]
    · refine ⟨RegisterList.places elems, Write.shows_of_applyAll hwrites ?_ hwraps,
        hstart.getLsbD_places⟩
      simp [RegisterList.writes, hf]

/-- Lists of registers with a field for their places. -/
def gappedList : RegisterList where
  name := "$r"
  start := Field.ofSpan 0 6
  count := Field.ofSpan 8 3
  mask := some (Field.ofSpan 12 4)

/-- A list with a gap: register 4, a placeholder, register 5. -/
def gappedElems : List Expr := [.reg "$r4", .discard, .reg "$r05"]

theorem register_lists_accepted_gapped :
    RegisterList.Consecutive "$r" gappedElems 4 ∧
    ∃ q, gappedList.encode gappedElems Pattern.empty = some q ∧ q.value = 0x5304 ∧
      (∃ v, gappedList.start.Shows q v ∧ v.toNat = 4) ∧
      (∃ v, gappedList.count.Shows q v ∧ v.toNat = 3) ∧
      ∃ v, (Field.ofSpan 12 4).Shows q v ∧
        ∀ i, v.getLsbD i = true ↔ ∃ e, gappedElems[i]? = some e ∧ e ≠ .discard := by
  obtain ⟨_, haccepted, hread⟩ := register_lists_accepted gappedList {} gappedElems
  obtain ⟨q, hq⟩ : ∃ q, gappedList.encode gappedElems Pattern.empty = some q :=
    Option.isSome_iff_exists.1 (by decide)
  have hvalue : ∀ q ∈ gappedList.encode gappedElems Pattern.empty, q.value = 0x5304 := by decide
  obtain ⟨start, hstart, _, _⟩ := (haccepted q).1 hq
  have hfirst : RegisterList.Names "$r" (.reg "$r4") 4 :=
    ⟨"$r4", ['4'], rfl, by decide, by decide, by decide⟩
  obtain rfl : start = 4 :=
    RegisterList.names_unique ((hstart.next 0 _ rfl).resolve_left (by simp)) hfirst
  obtain ⟨hs, hc, hm⟩ := hread q 4 hq hstart
  obtain ⟨v, hv, _, hlength⟩ := hc rfl
  exact ⟨hstart, q, hq, hvalue q hq, hs rfl, ⟨v, hv, hlength (by decide)⟩, hm _ rfl rfl⟩

end TableAsm
