import SafeMarkdown.Log

/-!
# What a computation returns

The log never decides what a computation returns, so the log is left out of the statement that it
returns something. A computation that returns has returned in each of its steps.
-/

namespace SafeMarkdown

variable {α β : Type}

theorem bind_eq_ok {x : Except Failure α} {f : α → Except Failure β} {b : β} :
    x >>= f = .ok b ↔ ∃ a, x = .ok a ∧ f a = .ok b := by
  cases x with
  | ok a => simp [bind, Except.bind]
  | error e => simp [bind, Except.bind]

theorem bind_eq_error {x : Except Failure α} {f : α → Except Failure β} {e : Failure} :
    x >>= f = .error e ↔ x = .error e ∨ ∃ a, x = .ok a ∧ f a = .error e := by
  cases x with
  | ok a => simp [bind, Except.bind]
  | error e => simp [bind, Except.bind]

theorem map_eq_ok {x : Except Failure α} {f : α → β} {b : β} :
    x.map f = .ok b ↔ ∃ a, x = .ok a ∧ f a = b := by
  cases x with
  | ok a => simp [Except.map]
  | error e => simp [Except.map]

/-- A way to compute something of what a computation returns. -/
theorem exists_ok_of_map {x : Except Failure α} {f : α → β} {b : β}
    (h : x.toOption.map f = some b) : ∃ a, x = .ok a ∧ f a = b := by
  cases x with
  | ok a => exact ⟨a, rfl, Option.some.inj h⟩
  | error e => cases h

section Succeeds

variable {σ : Type} {x : ExceptT Failure (StateM σ) α} {f : α → ExceptT Failure (StateM σ) β}
  {a : α} {b : β}

/-- A computation succeeds with a value, whatever was noted before. -/
def Succeeds (x : ExceptT Failure (StateM σ) α) (a : α) : Prop :=
  ∀ noted, (x.run.run noted).1 = .ok a

theorem succeeds_pure (a : α) : Succeeds (pure a : ExceptT Failure (StateM σ) α) a :=
  fun _ ↦ rfl

theorem succeeds_modify (g : σ → σ) :
    Succeeds (modify g : ExceptT Failure (StateM σ) PUnit) PUnit.unit :=
  fun _ ↦ rfl

theorem Succeeds.bind (hx : Succeeds x a) (hf : Succeeds (f a) b) : Succeeds (x >>= f) b := by
  intro noted
  rw [ExceptT.run_bind, StateT.run_bind]
  have hstep := hx noted
  cases hrun : x.run.run noted with
  | mk r after =>
      rw [hrun] at hstep
      subst hstep
      exact hf after

end Succeeds

namespace Logged

/-- A computation returns a value: it does so after some log. -/
def Returns (x : Logged α) (a : α) : Prop :=
  ∃ before after, x.run.run before = (.ok a, after)

theorem returns_of_outcome {x : Logged α} {a : α} (h : x.outcome.1 = .ok a) : x.Returns a :=
  ⟨[], x.outcome.2, Prod.ext h rfl⟩

theorem returns_of_succeeds {x : Logged α} {a : α} (h : Succeeds x a) : x.Returns a :=
  returns_of_outcome (h [])

theorem eq_of_returns {x : Logged α} {a b : α} (h : x.Returns a) (h' : Succeeds x b) : b = a := by
  obtain ⟨before, after, h⟩ := h
  have hsame := h' before
  rw [h] at hsame
  exact (Except.ok.inj hsame).symm

theorem succeeds_ofExcept {r : Except Failure α} {a : α} (h : r = .ok a) :
    Succeeds (ofExcept r) a := by
  subst h
  exact succeeds_pure a

theorem run_attempt (x : Logged α) (noted : List LogEntry) :
    x.attempt.run.run noted = (.ok (x.run.run noted).1, (x.run.run noted).2) := by
  change ((fun r ↦ (Except.ok r : Except Failure _)) <$> x.run).run noted = _
  rw [StateT.run_map]
  rfl

theorem succeeds_attempt {x : Logged α} {a : α} (h : Succeeds x a) :
    Succeeds x.attempt (.ok a) := by
  intro noted
  rw [run_attempt, h noted]

theorem exists_returns {x : Logged α} {f : α → β} {b : β}
    (h : x.outcome.1.toOption.map f = some b) : ∃ a, x.Returns a ∧ f a = b := by
  obtain ⟨a, ha, hb⟩ := exists_ok_of_map h
  exact ⟨a, returns_of_outcome ha, hb⟩

theorem returns_pure {a b : α} (h : Returns (pure a) b) : b = a := by
  obtain ⟨before, after, h⟩ := h
  cases h
  rfl

theorem not_returns_throw {e : Failure} {a : α} : ¬ Returns (throw e) a := by
  rintro ⟨before, after, h⟩
  cases h

theorem returns_bind {x : Logged α} {f : α → Logged β} {b : β} (h : Returns (x >>= f) b) :
    ∃ a, x.Returns a ∧ (f a).Returns b := by
  obtain ⟨before, after, h⟩ := h
  rw [ExceptT.run_bind] at h
  simp only [StateT.run_bind] at h
  cases hx : x.run.run before with
  | mk r mid =>
      rw [hx] at h
      cases r with
      | ok a => exact ⟨a, ⟨before, mid, hx⟩, ⟨mid, after, h⟩⟩
      | error e => cases h

theorem returns_ofExcept {r : Except Failure α} {a : α} (h : (ofExcept r).Returns a) :
    r = .ok a := by
  cases r with
  | ok b => rw [returns_pure h]
  | error e => exact (not_returns_throw h).elim

theorem returns_of_returns_attempt {x : Logged α} {a : α} (h : x.attempt.Returns (.ok a)) :
    x.Returns a := by
  obtain ⟨before, after, h⟩ := h
  refine ⟨before, after, ?_⟩
  cases hx : x.run.run before with
  | mk r mid =>
      rw [run_attempt, hx] at h
      cases h
      rfl

end Logged

end SafeMarkdown
