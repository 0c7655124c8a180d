import ReachingWrites.Failure

/-!
# Work that may fail

Building the predecessor lists and numbering the writes go through a list and may stop at any
element. A computation of several parts succeeds exactly when each part does, and the parts can be
taken one by one. It fails with the failure of its first part that fails.
-/

set_option autoImplicit false

namespace ReachingWrites

variable {ε α β γ : Type}

/-- Two computations in a row succeed when both do, the second with the result of the first. -/
theorem bind_eq_ok {x : Except ε α} {f : α → Except ε β} {b : β} :
    x >>= f = .ok b ↔ ∃ a, x = .ok a ∧ f a = .ok b := by
  cases x with
  | error e => exact ⟨nofun, nofun⟩
  | ok a =>
    constructor
    · intro h
      exact ⟨a, rfl, h⟩
    · intro h
      obtain ⟨_, ha, hb⟩ := h
      cases ha
      exact hb

/-- Working on a result succeeds exactly when there is one. -/
theorem map_eq_ok {x : Except ε α} {f : α → β} {b : β} :
    x.map f = .ok b ↔ ∃ a, x = .ok a ∧ f a = b := by
  cases x with
  | error e => exact ⟨nofun, nofun⟩
  | ok a =>
    constructor
    · intro h
      exact ⟨a, rfl, Except.ok.inj h⟩
    · intro h
      obtain ⟨_, ha, hb⟩ := h
      cases ha
      exact congrArg Except.ok hb

/-- Dropping the failure keeps the result. -/
theorem toOption_eq_some {x : Except ε α} {a : α} : x.toOption = some a ↔ x = .ok a := by
  cases x with
  | error e => exact ⟨nofun, nofun⟩
  | ok b =>
    constructor
    · intro h
      exact congrArg Except.ok (Option.some.inj h)
    · intro h
      exact congrArg some (Except.ok.inj h)

/-- Going through a list succeeds exactly when the first step does and the others do after it. -/
theorem foldlM_cons_eq_ok {f : α → γ → Except ε α} {a b : α} {x : γ} {xs : List γ} :
    (x :: xs).foldlM f a = .ok b ↔ ∃ c, f a x = .ok c ∧ xs.foldlM f c = .ok b := by
  rw [List.foldlM_cons]
  exact bind_eq_ok

/-- Two computations in a row fail if the first one fails, or the second after the first. -/
theorem bind_eq_error {x : Except ε α} {f : α → Except ε β} {e : ε} :
    x >>= f = .error e ↔ x = .error e ∨ ∃ a, x = .ok a ∧ f a = .error e := by
  cases x with
  | error e' =>
    constructor
    · intro h
      exact .inl (congrArg Except.error (Except.error.inj h))
    · intro h
      rcases h with h | ⟨_, ha, -⟩
      · exact congrArg Except.error (Except.error.inj h)
      · cases ha
  | ok a =>
    constructor
    · intro h
      exact .inr ⟨a, rfl, h⟩
    · intro h
      rcases h with h | ⟨_, ha, he⟩
      · cases h
      · cases ha
        exact he

/-- Working on a result fails as the result did. -/
theorem map_eq_error {x : Except ε α} {f : α → β} {e : ε} :
    x.map f = .error e ↔ x = .error e := by
  cases x with
  | error e' => exact ⟨fun h => congrArg Except.error (Except.error.inj h),
      fun h => congrArg Except.error (Except.error.inj h)⟩
  | ok a => exact ⟨nofun, nofun⟩

/-- Without steps the result is the start. -/
theorem foldlM_nil_eq_ok {f : α → γ → Except ε α} {a b : α} :
    ([] : List γ).foldlM f a = .ok b ↔ a = b := by
  rw [List.foldlM_nil]
  exact ⟨Except.ok.inj, congrArg Except.ok⟩

/-- What every step keeps is kept by going through a list. -/
theorem foldlM_preserves {P : α → Prop} {f : α → γ → Except ε α}
    (step : ∀ ⦃a x b⦄, P a → f a x = .ok b → P b) {a b : α} {xs : List γ} (ha : P a)
    (h : xs.foldlM f a = .ok b) : P b := by
  induction xs generalizing a with
  | nil =>
    rw [foldlM_nil_eq_ok] at h
    exact h ▸ ha
  | cons x xs ih =>
    obtain ⟨c, hfirst, hrest⟩ := foldlM_cons_eq_ok.mp h
    exact ih (step ha hfirst) hrest

/-- Going through a list fails exactly when some step does after all steps before it have
succeeded. -/
theorem foldlM_eq_error {f : α → γ → Except ε α} {a : α} {xs : List γ} {e : ε} :
    xs.foldlM f a = .error e ↔
      ∃ before x after b, xs = before ++ x :: after ∧ before.foldlM f a = .ok b ∧
        f b x = .error e := by
  constructor
  · intro h
    induction xs generalizing a with
    | nil =>
      rw [List.foldlM_nil] at h
      cases h
    | cons x xs ih =>
      rw [List.foldlM_cons, bind_eq_error] at h
      rcases h with h | ⟨c, hc, h⟩
      · exact ⟨[], x, xs, a, rfl, rfl, h⟩
      · obtain ⟨before, y, after, b, rfl, hbefore, hy⟩ := ih h
        exact ⟨x :: before, y, after, b, rfl, foldlM_cons_eq_ok.mpr ⟨c, hc, hbefore⟩, hy⟩
  · intro h
    obtain ⟨before, x, after, b, rfl, hbefore, hx⟩ := h
    rw [List.foldlM_append, bind_eq_error]
    refine .inr ⟨b, hbefore, ?_⟩
    rw [List.foldlM_cons, bind_eq_error]
    exact .inl hx

end ReachingWrites
