import SafeMarkdown.Proofs.Pipeline.Stages
import SafeMarkdown.Site.Load

/-!
# Computations that only add to the log

What a computation returns, and what it notes, does not depend on what was noted before it. So it
matters neither when a document is rendered nor what was rendered before.
-/

namespace SafeMarkdown

variable {α β : Type}

namespace Logged

/-- A computation adds its own entries to the log and does not look at the others. -/
def Appends (x : Logged α) : Prop :=
  ∀ noted, x.run.run noted = (x.outcome.1, noted ++ x.outcome.2)

section Rules

variable {x : Logged α} {f : α → Logged β}

theorem run_bind (x : Logged α) (f : α → Logged β) (noted : List LogEntry) :
    (x >>= f).run.run noted =
      match x.run.run noted with
      | (.ok a, after) => (f a).run.run after
      | (.error e, after) => (.error e, after) := by
  rw [ExceptT.run_bind, StateT.run_bind]
  cases x.run.run noted with
  | mk r after =>
      cases r with
      | ok a => rfl
      | error e => rfl

theorem appends_pure (a : α) : Appends (pure a) := by
  intro noted
  exact Prod.ext rfl (List.append_nil noted).symm

theorem appends_throw (e : Failure) : Appends (throw e : Logged α) := by
  intro noted
  exact Prod.ext rfl (List.append_nil noted).symm

theorem appends_write (severity : Severity) (source : LogSource) (message : String) :
    Appends (write severity source message) :=
  fun _ ↦ rfl

theorem appends_ofExcept (r : Except Failure α) : Appends (ofExcept r) := by
  cases r with
  | ok a => exact appends_pure a
  | error e => exact appends_throw e

theorem Appends.bind (hx : x.Appends) (hf : ∀ a, (f a).Appends) : (x >>= f).Appends := by
  intro noted
  rw [outcome, run_bind, run_bind, hx noted, hx []]
  cases x.outcome.1 with
  | error e => rw [List.nil_append]
  | ok a =>
      dsimp only
      rw [hf a (noted ++ x.outcome.2), hf a ([] ++ x.outcome.2), List.nil_append, List.append_assoc]

/-- Behind a computation that succeeds, a computation that only adds to the log comes to what it
comes to by itself. -/
theorem outcome_bind {a : α} (hx : Succeeds x a) (hf : (f a).Appends) :
    (x >>= f).outcome.1 = (f a).outcome.1 := by
  have hstep := hx []
  rw [outcome, run_bind]
  cases hrun : x.run.run [] with
  | mk r noted =>
      rw [hrun] at hstep
      subst hstep
      dsimp only
      rw [hf noted]

theorem succeeds_of_returns {a : α} (hx : x.Appends) (h : x.Returns a) : Succeeds x a := by
  obtain ⟨before, after, h⟩ := h
  intro noted
  rw [hx noted]
  rw [hx before] at h
  exact congrArg Prod.fst h

/-- Computations that only add to the log succeed one after the other if each does. -/
theorem exists_succeeds_bind (hx : x.Appends) (hf : ∀ a, (f a).Appends) :
    (∃ b, Succeeds (x >>= f) b) ↔ ∃ a, Succeeds x a ∧ ∃ b, Succeeds (f a) b := by
  constructor
  · rintro ⟨b, h⟩
    obtain ⟨a, ha, hb⟩ := returns_bind (returns_of_succeeds h)
    exact ⟨a, succeeds_of_returns hx ha, b, succeeds_of_returns (hf a) hb⟩
  · rintro ⟨a, ha, b, hb⟩
    exact ⟨b, ha.bind hb⟩

theorem Appends.attempt (hx : x.Appends) : x.attempt.Appends := by
  intro noted
  rw [outcome, run_attempt, run_attempt, hx noted]
  rfl

theorem Appends.ite {c : Prop} [Decidable c] {x y : Logged α} (hx : x.Appends) (hy : y.Appends) :
    (if c then x else y).Appends := by
  by_cases h : c
  · rwa [if_pos h]
  · rwa [if_neg h]

end Rules

end Logged

open Logged

theorem FrontMatter.appends_parse (text : String) (strict : Bool) :
    (FrontMatter.parse text strict).Appends := by
  unfold FrontMatter.parse
  split
  · exact appends_pure _
  · cases strict with
    | true => exact appends_throw _
    | false => exact (appends_write _ _ _).bind fun _ ↦ appends_pure _
  · exact appends_throw _

namespace Component

variable {blocks : String → Logged (List Node)}

theorem appends_tail (hblocks : ∀ s, (blocks s).Appends) (rest : List Char) (block : Bool) :
    (tail blocks rest block).Appends :=
  .ite (appends_pure _) (.ite (hblocks _) (appends_pure _))

theorem appends_content (hblocks : ∀ s, (blocks s).Appends) (inner : List Char) (block : Bool) :
    (content blocks inner block).Appends :=
  .ite (hblocks _) (appends_pure _)

theorem appends_opened (hblocks : ∀ s, (blocks s).Appends) (tag : OpenTag) (rest : List Char)
    (block : Bool) : (opened blocks tag rest block).Appends := by
  unfold opened
  apply Appends.ite
  · exact (appends_tail hblocks rest block).bind fun _ ↦ appends_pure _
  · split
    · exact (appends_content hblocks _ block).bind fun _ ↦ appends_pure _
    · exact (appends_tail hblocks rest block).bind fun _ ↦ appends_pure _

theorem appends_ofMarkup (hblocks : ∀ s, (blocks s).Appends) (src : String) (block : Bool) :
    (ofMarkup blocks src block).Appends := by
  have hunread (nodes : List Node) (message : String) :
      (do Logged.debug .markdown message; return nodes : Logged (List Node)).Appends :=
    (appends_write _ _ _).bind fun _ ↦ appends_pure _
  unfold ofMarkup
  apply Appends.ite (appends_pure _)
  split
  · exact appends_opened hblocks _ _ block
  · dsimp only
    split
    · exact .ite (appends_pure _) (hunread _ _)
    · exact hunread _ _

end Component

namespace Markdown

variable {blocks : String → Logged (List Node)}

theorem appends_containerOf (t : Token) : (containerOf t).Appends := by
  have hheading (tag : String) (node : Node) :
      (do
        let level ← Logged.ofExcept (levelOf tag)
        return Container.element { node with data := [("level", .int level)] } :
        Logged Container).Appends :=
    (appends_ofExcept _).bind fun _ ↦ appends_pure _
  unfold containerOf
  apply Appends.ite (appends_pure _)
  apply Appends.ite (appends_pure _)
  apply Appends.ite
  · exact (appends_ofExcept _).bind fun _ ↦ appends_pure _
  · apply Appends.ite
    · exact (appends_write _ _ _).bind fun _ ↦ .ite (hheading _ _) (appends_pure _)
    · exact .ite (hheading _ _) (appends_pure _)

theorem appends_simpleNodes (hblocks : ∀ s, (blocks s).Appends) (t : Token) :
    (simpleNodes blocks t).Appends := by
  unfold simpleNodes
  split
  case h_7 => exact Component.appends_ofMarkup hblocks _ _
  case h_8 => exact Component.appends_ofMarkup hblocks _ _
  case h_11 => exact (appends_ofExcept _).bind fun _ ↦ appends_pure _
  case h_12 => exact (appends_ofExcept _).bind fun _ ↦ appends_pure _
  case h_13 =>
    exact .ite (appends_pure _) ((appends_write _ _ _).bind fun _ ↦ appends_pure _)
  all_goals exact appends_pure _

mutual

theorem appends_leafNodes (hblocks : ∀ s, (blocks s).Appends) :
    (t : Token) → (leafNodes blocks t).Appends
  | ⟨type, nesting, tag, attrs, content, info, hidden, children, data⟩ => by
      rw [leafNodes]
      apply Appends.ite
      · exact (appends_convertFrom hblocks {} children).bind fun _ ↦ appends_pure _
      · exact appends_simpleNodes hblocks _

theorem appends_convertFrom (hblocks : ∀ s, (blocks s).Appends) (b : Building) :
    (ts : List Token) → (convertFrom blocks b ts).Appends
  | [] => by
      rw [convertFrom]
      exact appends_pure b
  | t :: rest => by
      rw [convertFrom]
      apply Appends.ite (appends_throw _)
      cases t.nesting with
      | opens => exact (appends_containerOf t).bind fun _ ↦ appends_convertFrom hblocks _ rest
      | closes => exact appends_convertFrom hblocks _ rest
      | single => exact (appends_leafNodes hblocks t).bind fun _ ↦ appends_convertFrom hblocks _ rest

end

theorem appends_convert (hblocks : ∀ s, (blocks s).Appends) (ts : List Token) :
    (convert blocks ts).Appends :=
  (appends_convertFrom hblocks {} ts).bind fun _ ↦ appends_pure _

theorem appends_documentNodes (dialect : Dialect) (depth : Nat) (body : String) :
    (documentNodes dialect depth body).Appends := by
  induction depth generalizing body with
  | zero => exact appends_pure []
  | succ depth ih =>
      exact (appends_ofExcept _).bind fun ts ↦
        (appends_convert ih ts).bind fun _ ↦ appends_ofExcept _

theorem appends_parse (dialect : Dialect) (body : String) : (parse dialect body).Appends :=
  (appends_documentNodes dialect _ body).bind fun _ ↦ appends_pure _

end Markdown

/-- A step of a stage only adds to the log, whatever the notes are. -/
def Staged.Appends (x : Staged α) : Prop :=
  ∀ notes, Logged.Appends (x.run notes)

namespace Staged

variable {x : Staged α} {f : α → Staged β}

theorem appends_pure (a : α) : Appends (pure a) :=
  fun _ ↦ Logged.appends_pure _

theorem appends_ofExcept (r : Except Failure α) : Appends (ofExcept r) :=
  fun _ ↦ (Logged.appends_ofExcept r).bind fun _ ↦ Logged.appends_pure _

theorem Appends.ite {c : Prop} [Decidable c] {x y : Staged α} (hx : x.Appends) (hy : y.Appends) :
    (if c then x else y).Appends := by
  by_cases h : c
  · rwa [if_pos h]
  · rwa [if_neg h]

theorem appends_lift {x : Logged α} (hx : x.Appends) : Appends (StateT.lift x) :=
  fun _ ↦ hx.bind fun _ ↦ Logged.appends_pure _

theorem Appends.bind (hx : x.Appends) (hf : ∀ a, (f a).Appends) : (x >>= f).Appends := by
  intro notes
  rw [StateT.run_bind]
  exact (hx notes).bind fun r ↦ hf r.1 r.2

theorem appends_modify (g : Notes → Notes) : Appends (modify g : Staged Unit) :=
  fun _ ↦ Logged.appends_pure _

theorem appends_warn (message : String) : Appends (warn message) :=
  (appends_lift (appends_write _ _ _)).bind fun _ ↦ appends_modify _

end Staged

namespace Code

theorem appends_highlighting (config : PipelineConfig) (n : Node) :
    (highlighting config n).Appends := by
  unfold highlighting
  refine (Staged.appends_ofExcept _).bind fun name ↦ ?_
  cases name with
  | none => exact Staged.appends_pure _
  | some name =>
      dsimp only
      split
      · exact (Staged.appends_warn _).bind fun _ ↦ Staged.appends_pure _
      · refine .ite ?_ (.ite ?_ (Staged.appends_pure _))
        all_goals exact (Staged.appends_lift (appends_write _ _ _)).bind fun _ ↦ Staged.appends_pure _

mutual

theorem appends_highlight (config : PipelineConfig) : (n : Node) → (highlight config n).Appends
  | ⟨kind, tag, attrs, children, value, data⟩ => by
      rw [highlight]
      refine (appends_highlighting config _).bind fun found ↦ ?_
      cases found with
      | some _ => exact Staged.appends_pure _
      | none => exact (appends_highlightAll config children).bind fun _ ↦ Staged.appends_pure _

theorem appends_highlightAll (config : PipelineConfig) :
    (ns : List Node) → (highlightAll config ns).Appends
  | [] => by
      rw [highlightAll]
      exact Staged.appends_pure _
  | n :: rest => by
      rw [highlightAll]
      refine (appends_highlight config n).bind fun _ ↦ ?_
      exact (appends_highlightAll config rest).bind fun _ ↦ Staged.appends_pure _

end

end Code

def Stage.Appends (s : Stage) : Prop :=
  ∀ config tree, (s.apply config tree).Appends

theorem Stage.appends_of_mem_registered {s : Stage} (hs : s ∈ registered) : s.Appends := by
  simp only [registered, List.mem_cons, List.not_mem_nil, or_false] at hs
  rcases hs with rfl | rfl | rfl | rfl | rfl <;> intro config tree
  · exact Staged.appends_ofExcept _
  · exact Staged.appends_pure _
  · exact Staged.appends_pure _
  · exact Code.appends_highlight config tree
  · refine (Staged.appends_ofExcept _).bind fun r ↦ ?_
    exact (Staged.appends_modify _).bind fun _ ↦ Staged.appends_pure _

namespace Pipeline

theorem appends_inStage {name : String} {x : Logged α} (hx : x.Appends) :
    (inStage name x).Appends := by
  refine hx.attempt.bind fun r ↦ ?_
  cases r with
  | ok a => exact appends_pure a
  | error e => exact appends_throw _

theorem appends_runStages {config : PipelineConfig} {stages : List Stage}
    (hstages : ∀ s ∈ stages, s.Appends) (tree : Node) (notes : Notes) :
    (runStages config stages tree notes).Appends := by
  induction stages generalizing tree notes with
  | nil => exact appends_pure _
  | cons s rest ih =>
      rw [List.forall_mem_cons] at hstages
      refine (appends_inStage (hstages.1 config tree notes)).bind fun r ↦ ?_
      exact (appends_write _ _ _).bind fun _ ↦ ih hstages.2 r.1 r.2

variable {p : Pipeline}

theorem appends_render (hp : ∀ s ∈ p.stages, s.Appends) (body : String) (fm : FrontMatter) :
    (p.render body fm).Appends := by
  refine (appends_inStage (Markdown.appends_parse p.dialect body)).bind fun tree ↦ ?_
  exact (appends_runStages hp tree {}).bind fun _ ↦ appends_ofExcept _

theorem appends_process (hp : ∀ s ∈ p.stages, s.Appends) (slug source : String) (strict : Bool) :
    (p.process slug source strict).Appends := by
  refine (FrontMatter.appends_parse source strict).bind fun r ↦ ?_
  exact (appends_render hp r.2 r.1).bind fun _ ↦ appends_pure _

/-- A configuration with a known dialect has a pipeline, whose stages only add to the log. -/
theorem exists_succeeds_make {config : PipelineConfig}
    (h : (Markdown.Dialect.ofName? config.dialect).isSome = true) :
    ∃ p, Succeeds (make config) p ∧ ∀ s ∈ p.stages, s.Appends := by
  obtain ⟨p, hmake, hstages⟩ := succeeds_make h
  exact ⟨p, hmake, fun s hs ↦ Stage.appends_of_mem_registered (hstages s hs)⟩

end Pipeline

end SafeMarkdown
