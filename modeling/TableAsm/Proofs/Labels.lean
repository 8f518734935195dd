import TableAsm.Expr

/-! # Label tables that grow

  `t ≤ t'` means that `t'` has every binding of `t`. Binding a new name goes
  up in this order (`LabelTable.le_define?`), and an expression that has a
  value keeps it (`Expr.eval_mono`).

  `LabelTable.restrict` takes a table back to some of its names.
-/

namespace TableAsm

theorem bind_eq_ok {ε α β : Type} {x : Except ε α} {f : α → Except ε β} {b : β} :
    x >>= f = .ok b ↔ ∃ a, x = .ok a ∧ f a = .ok b := by
  cases x with
  | error e => simp [bind, Except.bind]
  | ok a => simp [bind, Except.bind]

theorem bind_eq_error {ε α β : Type} {x : Except ε α} {f : α → Except ε β} {e : ε} :
    x >>= f = .error e ↔ x = .error e ∨ ∃ a, x = .ok a ∧ f a = .error e := by
  cases x with
  | error e' => simp [bind, Except.bind]
  | ok a => simp [bind, Except.bind]

theorem bind_pure_eq_ok {ε α β : Type} {x : Except ε α} {f : α → β} {b : β} :
    (x >>= fun a => pure (f a)) = .ok b ↔ ∃ a, x = .ok a ∧ f a = b := by
  cases x with
  | error e => simp [bind, Except.bind]
  | ok a => simp [bind, Except.bind, pure, Except.pure]

theorem bind_pure_eq_error {ε α β : Type} {x : Except ε α} {f : α → β} {e : ε} :
    (x >>= fun a => pure (f a)) = .error e ↔ x = .error e := by
  cases x with
  | error e' => simp [bind, Except.bind]
  | ok a => simp [bind, Except.bind, pure, Except.pure]

theorem exists_ok_of_map {ε α β : Type} {x : Except ε α} {f : α → β} {b : β}
    (h : x.toOption.map f = some b) : ∃ a, x = .ok a ∧ f a = b := by
  cases x with
  | error e => simp [Except.toOption] at h
  | ok a => exact ⟨a, rfl, by simpa [Except.toOption] using h⟩

theorem eq_error_of_map {ε α β : Type} {x : Except ε α} {f : α → β} {e : ε}
    (h : x.map f = .error e) : x = .error e := by
  cases x with
  | error e' => exact congrArg Except.error (Except.error.inj h)
  | ok a => simp [Except.map] at h

namespace LabelTable

/-- The second table has every binding of the first. -/
instance : LE LabelTable where
  le t t' := ∀ name v, t.get? name = some v → t'.get? name = some v

theorem get?_of_define? {t t' : LabelTable} {name : String} {value : Word}
    (h : t.define? name value = some t') : t.get? name = none := by
  unfold define? at h
  split at h
  · simp at h
  · next hnone => simpa using hnone

theorem le_define? {t t' : LabelTable} {name : String} {value : Word}
    (h : t.define? name value = some t') : t ≤ t' := by
  intro other v hv
  rw [get?_define? h]
  split
  · next heq =>
    rw [heq, get?_of_define? h] at hv
    simp at hv
  · exact hv

theorem declare_eq_ok {t t' : LabelTable} {line : Nat} {name : String} {value : Word} :
    t.declare line name value = .ok t' ↔ t.define? name value = some t' := by
  unfold declare
  cases t.define? name value with
  | none => simp
  | some t₁ => simp

theorem declare_eq_error {t : LabelTable} {line : Nat} {name : String} {value : Word}
    {d : Diagnostic} :
    t.declare line name value = .error d ↔
      (t.get? name).isSome = true ∧ d = ⟨line, .labelRedeclared name⟩ := by
  unfold declare define?
  cases hget : t.get? name with
  | none => simp
  | some v => simp [eq_comm]

/-! ## Fewer names -/

/-- The bindings of some of the names. -/
def restrict (t : LabelTable) (names : List String) : LabelTable :=
  ⟨t.entries.filter fun entry => entry.1 ∈ names⟩

theorem get?_restrict (t : LabelTable) (names : List String) (name : String) :
    (t.restrict names).get? name = if name ∈ names then t.get? name else none := by
  unfold restrict get?
  induction t.entries with
  | nil => simp
  | cons entry rest ih =>
    obtain ⟨key, w⟩ := entry
    simp only [List.filter_cons, List.lookup_cons] at ih ⊢
    by_cases heq : name = key
    · subst heq
      by_cases hmem : name ∈ names
      · simp [hmem]
      · simpa [hmem] using ih
    · have hne : (name == key) = false := by simpa using heq
      by_cases hmem : key ∈ names
      · simpa [hmem, List.lookup_cons, hne] using ih
      · simpa [hmem, hne] using ih

theorem restrict_mono {t t' : LabelTable} (h : t ≤ t') (names : List String) :
    t.restrict names ≤ t'.restrict names := by
  intro name v hv
  rw [get?_restrict] at hv ⊢
  split
  · next hmem =>
    rw [if_pos hmem] at hv
    exact h name v hv
  · next hmem =>
    rw [if_neg hmem] at hv
    exact hv

end LabelTable

/-- A value does not change when more labels are bound. -/
theorem Expr.eval_mono {t t' : LabelTable} (h : t ≤ t') {e : Expr} {v : Word}
    (he : e.eval t = .ok v) : e.eval t' = .ok v := by
  fun_induction Expr.eval t e generalizing v with
  | case1 n => exact he
  | case2 name w hw =>
    unfold Expr.eval
    rw [h name w hw]
    exact he
  | case3 name hnone => simp at he
  | case4 e ih =>
    obtain ⟨w, hw, hv⟩ := bind_eq_ok.1 he
    exact bind_eq_ok.2 ⟨w, ih hw, hv⟩
  | case5 e ih =>
    obtain ⟨w, hw, hv⟩ := bind_eq_ok.1 he
    exact bind_eq_ok.2 ⟨w, ih hw, hv⟩
  | case6 op a b iha ihb =>
    obtain ⟨x, hx, hrest⟩ := bind_eq_ok.1 he
    obtain ⟨y, hy, hv⟩ := bind_eq_ok.1 hrest
    exact bind_eq_ok.2 ⟨x, iha hx, bind_eq_ok.2 ⟨y, ihb hy, hv⟩⟩
  | case7 => simp at he

end TableAsm
