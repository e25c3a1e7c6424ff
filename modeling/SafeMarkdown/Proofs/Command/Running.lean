import SafeMarkdown.Command.Session
import SafeMarkdown.Proofs.Returns

/-!
# Commands that run to their end

A command that stops early has told an error, or stops because of a failure that it does not deal
with. So a command that ends without either has done all that it does.
-/

namespace SafeMarkdown.Command

variable {α β : Type}

theorem run_bind (x : Running α) (f : α → Running β) (s : Session) :
    (x >>= f).run.run s =
      match x.run.run s with
      | (.ok a, after) => (f a).run.run after
      | (.error stop, after) => (.error stop, after) := by
  rw [ExceptT.run_bind, StateT.run_bind]
  cases x.run.run s with
  | mk r after =>
      cases r with
      | ok a => rfl
      | error stop => rfl

/-- Whether an error was told. -/
def Session.ToldError (s : Session) : Prop :=
  ∃ line ∈ s.complaints, Text.startsWith line "Error: " = true

/-- Whether a command was not stopped, unless at its end: it gave up and told no error. -/
def RanToEnd (r : Except Stop α) (after : Session) : Prop :=
  ∀ stop, r = .error stop → stop = .status 1 ∧ ¬ after.ToldError

/-- Whether a computation tells an error when it gives up. -/
def TellsErrors (x : Running α) : Prop :=
  ∀ s n after, x.run.run s = (.error (.status n), after) → after.ToldError

theorem startsWith_append (start s : String) : Text.startsWith (start ++ s) start = true := by
  rw [Text.startsWith, String.toList_append, List.isPrefixOf_iff_prefix]
  exact List.prefix_append _ _

section Rules

variable {x : Running α} {f : α → Running β}

theorem tellsErrors_pure (a : α) : TellsErrors (pure a) :=
  fun _ _ _ h ↦ nomatch h

theorem tellsErrors_modify (g : Session → Session) : TellsErrors (modify g) :=
  fun _ _ _ h ↦ nomatch h

theorem tellsErrors_get : TellsErrors (get : Running Session) :=
  fun _ _ _ h ↦ nomatch h

theorem TellsErrors.bind (hx : TellsErrors x) (hf : ∀ a, TellsErrors (f a)) :
    TellsErrors (x >>= f) := by
  intro s n after h
  rw [run_bind] at h
  cases hrun : x.run.run s with
  | mk r mid =>
      rw [hrun] at h
      cases r with
      | ok a => exact hf a mid n after h
      | error stop =>
          cases h
          exact hx s n _ hrun

/-- A command that ran to its end has returned in each of its steps but the last one. -/
theorem RanToEnd.of_bind {s after : Session} {r : Except Stop β} (hend : RanToEnd r after)
    (hx : TellsErrors x) (h : (x >>= f).run.run s = (r, after)) :
    ∃ a mid, x.run.run s = (.ok a, mid) ∧ (f a).run.run mid = (r, after) := by
  rw [run_bind] at h
  cases hrun : x.run.run s with
  | mk outcome mid =>
      rw [hrun] at h
      cases outcome with
      | ok a => exact ⟨a, mid, rfl, h⟩
      | error stop =>
          cases h
          obtain ⟨rfl, htold⟩ := hend stop rfl
          exact (htold (hx s 1 _ hrun)).elim

end Rules

namespace Running

theorem run_get (s : Session) : (get : Running Session).run.run s = (.ok s, s) :=
  rfl

theorem run_say (line : String) (s : Session) :
    (say line).run.run s = (.ok (), { s with output := s.output ++ line ++ "\n" }) :=
  rfl

theorem run_complain (line : String) (s : Session) :
    (complain line).run.run s = (.ok (), { s with complaints := s.complaints ++ [line] }) :=
  rfl

theorem run_attempt (x : Logged α) (s : Session) :
    (attempt x).run.run s = (.ok x.outcome.1, { s with log := s.log ++ x.outcome.2 }) :=
  rfl

/-- Failures that are told are told as errors. -/
theorem tellsErrors_demand (told : Failure → Bool) (heading : String) (x : Logged α) :
    TellsErrors (demand told heading x) := by
  intro s n after h
  rw [demand, run_bind, run_attempt] at h
  dsimp only at h
  cases houtcome : x.outcome.1 with
  | ok a =>
      rw [houtcome] at h
      cases h
  | error e =>
      rw [houtcome] at h
      dsimp only at h
      split at h
      · cases h
        refine ⟨"Error: " ++ heading, ?_, startsWith_append _ _⟩
        exact List.mem_append_left _ (List.mem_append_right _ (List.mem_singleton_self _))
      · cases h

theorem demand_eq_ok {told : Failure → Bool} {heading : String} {x : Logged α} {a : α}
    {s after : Session} (h : (demand told heading x).run.run s = (.ok a, after)) :
    x.outcome.1 = .ok a ∧ after = { s with log := s.log ++ x.outcome.2 } := by
  rw [demand, run_bind, run_attempt] at h
  dsimp only at h
  cases houtcome : x.outcome.1 with
  | ok a' =>
      rw [houtcome] at h
      cases h
      exact ⟨rfl, rfl⟩
  | error e =>
      rw [houtcome] at h
      dsimp only at h
      split at h <;> cases h

end Running

end SafeMarkdown.Command
