import TableAsm.Image
import TableAsm.Step

/-! # Emission

  A walk over the program that writes its bytes, with labels that are
  already bound. It may find that an encoding cannot stay.

  - The values of an instruction do not fit its fields: the next encoding
    is chosen for it (`Emission.insn`).
  - A long instruction is off its boundary: the instruction in front of it
    gets an encoding of another length (`Emission.board`).

  The walk then goes on, with zeros in place of what is missing, and says
  that it is `dirty`: its bytes are of no use, and there are fewer
  encodings left than before (`spare_emit_lt`).
-/

namespace TableAsm

/-- The bytes of data arguments, of which the first has number `index`. -/
def dataBytes (labels : LabelTable) (kind : DataKind) (width : Nat) :
    Nat → List Expr → Except Cause (List UInt8)
  | _, [] => .ok []
  | index, e :: rest =>
    match e.eval labels with
    | .error err => .error (.eval err)
    | .ok v =>
      if kind.fits width v then do
        let bytes ← dataBytes labels kind width (index + 1) rest
        return Word.leBytes v (width / 8) ++ bytes
      else .error (.dataOverflow (Directive.dataName kind width) index)

/-- Where a pass stands. -/
structure Emission where
  /-- The steps so far, the latest first, with the encodings chosen for the next pass. -/
  done : List Step := []
  image : Image := Image.empty
  /-- Has an encoding been abandoned? -/
  dirty : Bool := false

namespace Emission

/-- Moves the instruction in front of a misaligned one to an encoding that aligns it. Labels may
    stand between the two, and nothing else. -/
def realign? (unit : Nat) : List Step → Option (List Step)
  | .label name :: rest => (realign? unit rest).map (.label name :: ·)
  | .insn slot :: rest => (slot.realign? unit).map (.insn · :: rest)
  | _ => none

/-- Puts the next instruction, of this size, on its boundary. -/
def board (isa : Isa) (line size : Nat) (e : Emission) : Except Diagnostic Emission :=
  if isa.misaligned size e.image.offset then
    match realign? isa.unit e.done with
    | none => .error ⟨line, .unalignable⟩
    | some done => .ok ⟨done, e.image.align 8, true⟩
  else .ok e

/-- Writes an instruction, or abandons its encoding. -/
def insn (isa : Isa) (labels : LabelTable) (line : Nat) (slot : Slot) (e : Emission) :
    Except Diagnostic Emission :=
  let size := slot.chosen.size isa.unit
  match slot.chosen.resolve labels (e.image.address isa.posUnit) with
  | .error err => .error ⟨line, .eval err⟩
  | .ok (some p) => .ok ⟨.insn slot :: e.done, e.image.append (p.bytes size).toArray, e.dirty⟩
  | .ok none =>
    match slot.next? with
    | none => .error ⟨line, .relocationFailed⟩
    | some slot' => .ok ⟨.insn slot' :: e.done, e.image.zeros size, true⟩

/-- Writes one step. -/
def step (isa : Isa) (labels : LabelTable) (line : Nat) (e : Emission) :
    Step → Except Diagnostic Emission
  | .insn slot => do
    let e' ← e.board isa line (slot.chosen.size isa.unit)
    e'.insn isa labels line slot
  | .label name => .ok { e with done := .label name :: e.done }
  | .directive (.data kind width args) =>
    match dataBytes labels kind width 0 args with
    | .error cause => .error ⟨line, cause⟩
    | .ok bytes =>
      .ok { e with
        done := .directive (.data kind width args) :: e.done
        image := e.image.append bytes.toArray }
  | .directive d => .ok { e with done := .directive d :: e.done, image := e.image.place d }

/-- Writes steps, of which the first has number `line`. -/
def walk (isa : Isa) (labels : LabelTable) :
    Nat → Emission → List Step → Except Diagnostic Emission
  | _, e, [] => .ok e
  | line, e, s :: rest => do
    let e' ← e.step isa labels line s
    walk isa labels (line + 1) e' rest

end Emission

/-- One pass over a program. -/
def emit (isa : Isa) (labels : LabelTable) (steps : List Step) : Except Diagnostic Emission :=
  Emission.walk isa labels 1 {} steps

/-! ## A pass that abandons something has fewer encodings left -/

namespace Emission

theorem spare_realign?_lt {unit : Nat} {steps steps' : List Step}
    (h : realign? unit steps = some steps') : spare steps' < spare steps := by
  induction steps generalizing steps' with
  | nil => simp [realign?] at h
  | cons s rest ih =>
    cases s with
    | label name =>
      obtain ⟨rest', hr, rfl⟩ := Option.map_eq_some_iff.1 h
      have := ih hr
      simp only [spare_cons]
      omega
    | insn slot =>
      obtain ⟨slot', hs, rfl⟩ := Option.map_eq_some_iff.1 h
      have := Slot.spare_realign?_lt hs
      simp only [spare_cons, Step.spare]
      omega
    | directive d => simp [realign?] at h

/-- Moving an instruction to its boundary adds no encodings, and takes one away if it makes the
    pass dirty. -/
theorem spare_board {isa : Isa} {line size : Nat} {e e' : Emission}
    (h : e.board isa line size = .ok e') :
    spare e'.done ≤ spare e.done ∧
      (e'.dirty = true → e.dirty = true ∨ spare e'.done < spare e.done) := by
  unfold board at h
  split at h
  · split at h
    · simp at h
    · rename_i done hr
      simp only [Except.ok.injEq] at h
      subst h
      have := spare_realign?_lt hr
      exact ⟨by simp only; omega, fun _ => .inr this⟩
  · simp only [Except.ok.injEq] at h
    subst h
    exact ⟨Nat.le_refl _, fun hd => .inl hd⟩

theorem spare_insn {isa : Isa} {labels : LabelTable} {line : Nat} {slot : Slot}
    {e e' : Emission} (h : e.insn isa labels line slot = .ok e') :
    spare e'.done ≤ slot.spare.length + spare e.done ∧
      (e'.dirty = true → e.dirty = true ∨
        spare e'.done < slot.spare.length + spare e.done) := by
  unfold insn at h
  split at h
  · simp at h
  · simp only [Except.ok.injEq] at h
    subst h
    exact ⟨by simp [spare_cons, Step.spare], fun hd => .inl hd⟩
  · split at h
    · simp at h
    · rename_i slot' hs
      simp only [Except.ok.injEq] at h
      subst h
      have := Slot.spare_next?_lt hs
      constructor
      · simp only [spare_cons, Step.spare]
        omega
      · intro _
        right
        simp only [spare_cons, Step.spare]
        omega

/-- A step adds its own encodings to those that are left, and fewer if it makes the pass dirty. -/
theorem spare_step {isa : Isa} {labels : LabelTable} {line : Nat} {e e' : Emission} {s : Step}
    (h : e.step isa labels line s = .ok e') :
    spare e'.done ≤ s.spare + spare e.done ∧
      (e'.dirty = true → e.dirty = true ∨ spare e'.done < s.spare + spare e.done) := by
  unfold step at h
  split at h
  · -- an instruction: first the boundary, then the bytes
    simp only [bind, Except.bind] at h
    split at h
    · simp at h
    · rename_i e₁ hb
      have hboard := spare_board hb
      have hinsn := spare_insn h
      simp only [Step.spare]
      refine ⟨by omega, fun hd => ?_⟩
      rcases hinsn.2 hd with hd₁ | hlt
      · rcases hboard.2 hd₁ with hd₀ | hlt
        · exact .inl hd₀
        · exact .inr (by omega)
      · exact .inr (by omega)
  · simp only [Except.ok.injEq] at h
    subst h
    exact ⟨by simp [spare_cons], fun hd => .inl hd⟩
  · split at h
    · simp at h
    · simp only [Except.ok.injEq] at h
      subst h
      exact ⟨by simp [spare_cons], fun hd => .inl hd⟩
  · simp only [Except.ok.injEq] at h
    subst h
    exact ⟨by simp [spare_cons], fun hd => .inl hd⟩

theorem spare_walk {isa : Isa} {labels : LabelTable} {line : Nat} {e e' : Emission}
    {steps : List Step} (h : walk isa labels line e steps = .ok e') :
    spare e'.done ≤ spare steps + spare e.done ∧
      (e'.dirty = true → e.dirty = true ∨ spare e'.done < spare steps + spare e.done) := by
  induction steps generalizing line e with
  | nil =>
    simp only [walk, Except.ok.injEq] at h
    subst h
    exact ⟨by simp [spare], fun hd => .inl hd⟩
  | cons s rest ih =>
    simp only [walk, bind, Except.bind] at h
    split at h
    · simp at h
    · rename_i e₁ hs
      have hstep := spare_step hs
      have hrest := ih h
      simp only [spare_cons]
      refine ⟨by omega, fun hd => ?_⟩
      rcases hrest.2 hd with hd₁ | hlt
      · rcases hstep.2 hd₁ with hd₀ | hlt
        · exact .inl hd₀
        · exact .inr (by omega)
      · exact .inr (by omega)

end Emission

/-- A pass that abandons an encoding leaves fewer of them. -/
theorem spare_emit_lt {isa : Isa} {labels : LabelTable} {steps : List Step} {e : Emission}
    (h : emit isa labels steps = .ok e) (hd : e.dirty = true) :
    spare e.done.reverse < spare steps := by
  rcases (Emission.spare_walk h).2 hd with hd₀ | hlt
  · simp at hd₀
  · rw [spare_reverse]
    simpa [spare] using hlt

end TableAsm
