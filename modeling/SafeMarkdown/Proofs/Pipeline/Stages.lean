import SafeMarkdown.Pipeline.Run
import SafeMarkdown.Proofs.Sanitizer.AllowList

/-!
# The stages of a pipeline

A run that returns has returned in each of its stages, one after the other. A pipeline that
sanitizes ends in the sanitizing stage, whatever stages were chosen, so nothing that the other stages
do shows in its result unless the schema lets it.
-/

namespace SafeMarkdown

namespace Staged

variable {α β : Type}

theorem returns_bind {x : Staged α} {f : α → Staged β} {notes : Notes} {b : β × Notes}
    (h : ((x >>= f).run notes).Returns b) :
    ∃ a, (x.run notes).Returns a ∧ ((f a.1).run a.2).Returns b :=
  Logged.returns_bind h

theorem returns_ofExcept {r : Except Failure α} {notes : Notes} {a : α × Notes}
    (h : ((ofExcept r).run notes).Returns a) : r = .ok a.1 := by
  obtain ⟨b, hb, hpure⟩ := Logged.returns_bind h
  rw [Logged.returns_pure hpure]
  exact Logged.returns_ofExcept hb

end Staged

namespace Stage

theorem returns_sanitize {config : PipelineConfig} {tree out : Node} {notes after : Notes}
    (h : ((sanitize.apply config tree).run notes).Returns (out, after)) :
    ∃ removals, Sanitizer.sanitize config.schema tree = .ok (out, removals) := by
  obtain ⟨⟨⟨sanitized, removals⟩, mid⟩, hsanitize, h⟩ := Staged.returns_bind h
  obtain ⟨⟨-, noted⟩, hnoted, h⟩ := Staged.returns_bind h
  cases Logged.returns_pure h
  exact ⟨removals, Staged.returns_ofExcept hsanitize⟩

theorem eq_sanitize_of_mem_registered {s : Stage} (hs : s ∈ registered)
    (hname : s.isSanitize = true) : s = sanitize := by
  simp only [registered, List.mem_cons, List.not_mem_nil, or_false] at hs
  rcases hs with rfl | rfl | rfl | rfl | rfl
  · simp [isSanitize, gfm, sanitizeName] at hname
  · simp [isSanitize, headingSlug, sanitizeName] at hname
  · simp [isSanitize, headingAutolink, sanitizeName] at hname
  · simp [isSanitize, highlight, sanitizeName] at hname
  · rfl

theorem mem_registered_of_resolve {name : String} {s : Stage}
    (h : (Choice.named name).resolve = .ok s) : s ∈ registered := by
  rw [Choice.resolve] at h
  split at h
  · rename_i found hfound
    cases h
    exact List.mem_of_find?_eq_some hfound
  · cases h

theorem exists_mem_of_resolveAll {choices : List Choice} {stages : List Stage}
    (h : resolveAll choices = .ok stages) {s : Stage} (hs : s ∈ stages) :
    ∃ c ∈ choices, c.resolve = .ok s := by
  induction choices generalizing stages with
  | nil =>
      cases h
      simp at hs
  | cons c choices ih =>
      obtain ⟨first, hfirst, h⟩ := bind_eq_ok.mp h
      obtain ⟨others, hothers, h⟩ := bind_eq_ok.mp h
      cases h
      rcases List.mem_cons.mp hs with rfl | hs
      · exact ⟨c, List.mem_cons_self, hfirst⟩
      · obtain ⟨d, hd, hresolve⟩ := ih hothers hs
        exact ⟨d, List.mem_cons_of_mem c hd, hresolve⟩

theorem eq_sanitize_of_resolve {c : Choice} {s : Stage}
    (hgiven : ∀ t, c = .given t → t ∈ registered ∨ t.name ≠ sanitizeName)
    (h : c.resolve = .ok s) (hname : s.isSanitize = true) : s = sanitize := by
  cases c with
  | named name => exact eq_sanitize_of_mem_registered (mem_registered_of_resolve h) hname
  | given t =>
      cases h
      rcases hgiven s rfl with hs | hs
      · exact eq_sanitize_of_mem_registered hs hname
      · exact absurd (beq_iff_eq.mp hname) hs

/-- The stages of a configuration that sanitizes end in the sanitizing one. -/
theorem exists_assemble_eq {choices : List Choice} {stages : List Stage}
    (hgiven : ∀ t, .given t ∈ choices → t ∈ registered ∨ t.name ≠ sanitizeName)
    (h : (assemble true choices).Returns stages) : ∃ init, stages = init ++ [sanitize] := by
  obtain ⟨resolved, hresolved, h⟩ := Logged.returns_bind h
  have hresolved := Logged.returns_ofExcept hresolved
  rw [Bool.not_true, if_neg Bool.false_ne_true] at h
  split at h
  · exact ⟨resolved, Logged.returns_pure h⟩
  · rename_i hany
    split at h
    · exact (Logged.not_returns_throw h).elim
    · rename_i hinit
      rw [Logged.returns_pure h]
      obtain ⟨s, hs, hname⟩ : ∃ s ∈ resolved, s.isSanitize = true := by simpa using hany
      have hne : resolved ≠ [] := List.ne_nil_of_mem hs
      have hsplit := List.dropLast_concat_getLast hne
      have hlast : (resolved.getLast hne).isSanitize = true := by
        rw [← hsplit, List.mem_append, List.mem_singleton] at hs
        rcases hs with hs | rfl
        · exact (hinit (List.any_eq_true.mpr ⟨s, hs, hname⟩)).elim
        · exact hname
      obtain ⟨c, hc, hresolve⟩ := exists_mem_of_resolveAll hresolved (List.getLast_mem hne)
      have heq : resolved.getLast hne = sanitize := by
        refine eq_sanitize_of_resolve (fun t ht ↦ ?_) hresolve hlast
        split at hc
        · rw [ht, defaultChoices, List.mem_map] at hc
          obtain ⟨t', ht', heq⟩ := hc
          cases heq
          exact .inl ht'
        · exact hgiven t (ht ▸ hc)
      exact ⟨resolved.dropLast, by rw [← heq, hsplit]⟩

theorem succeeds_assemble_default (sanitizes : Bool) :
    ∃ stages, Succeeds (assemble sanitizes []) stages ∧ ∀ s ∈ stages, s ∈ registered := by
  cases sanitizes with
  | true => exact ⟨registered, fun _ ↦ rfl, fun _ hs ↦ hs⟩
  | false =>
      refine ⟨registered.filter fun s ↦ !s.isSanitize, fun _ ↦ rfl, ?_⟩
      exact fun s hs ↦ (List.mem_filter.mp hs).1

end Stage

namespace Pipeline

theorem returns_make {config : PipelineConfig} {choices : List Stage.Choice} {p : Pipeline}
    (h : (make config choices).Returns p) :
    p.config = config ∧ (Stage.assemble config.sanitizes choices).Returns p.stages ∧
      Markdown.Dialect.ofName? config.dialect = some p.dialect := by
  rw [make] at h
  split at h
  · exact (Logged.not_returns_throw h).elim
  · rename_i dialect hdialect
    obtain ⟨stages, hstages, h⟩ := Logged.returns_bind h
    rw [Logged.returns_pure h]
    exact ⟨rfl, hstages, hdialect⟩

theorem succeeds_make {config : PipelineConfig}
    (h : (Markdown.Dialect.ofName? config.dialect).isSome = true) :
    ∃ p, Succeeds (make config) p ∧ ∀ s ∈ p.stages, s ∈ Stage.registered := by
  obtain ⟨dialect, hdialect⟩ := Option.isSome_iff_exists.mp h
  obtain ⟨stages, hstages, hregistered⟩ := Stage.succeeds_assemble_default config.sanitizes
  refine ⟨{ config, dialect, stages }, ?_, hregistered⟩
  rw [make, hdialect]
  exact hstages.bind (succeeds_pure _)

theorem returns_inStage {α : Type} {name : String} {x : Logged α} {a : α}
    (h : (inStage name x).Returns a) : x.Returns a := by
  obtain ⟨r, hr, h⟩ := Logged.returns_bind h
  cases r with
  | ok b =>
      rw [Logged.returns_pure h]
      exact Logged.returns_of_returns_attempt hr
  | error e => exact (Logged.not_returns_throw h).elim

variable {config : PipelineConfig}

theorem returns_runStages_nil {tree out : Node} {notes after : Notes}
    (h : (runStages config [] tree notes).Returns (out, after)) : out = tree ∧ after = notes := by
  cases Logged.returns_pure h
  exact ⟨rfl, rfl⟩

theorem returns_runStages_cons {s : Stage} {rest : List Stage} {tree out : Node}
    {notes after : Notes} (h : (runStages config (s :: rest) tree notes).Returns (out, after)) :
    ∃ mid noted, ((s.apply config tree).run notes).Returns (mid, noted) ∧
      (runStages config rest mid noted).Returns (out, after) := by
  obtain ⟨⟨mid, noted⟩, hstage, h⟩ := Logged.returns_bind h
  obtain ⟨-, -, h⟩ := Logged.returns_bind h
  exact ⟨mid, noted, returns_inStage hstage, h⟩

/-- What the last stage returns is what the run returns. -/
theorem returns_runStages_concat {init : List Stage} {s : Stage} {tree out : Node}
    {notes after : Notes} (h : (runStages config (init ++ [s]) tree notes).Returns (out, after)) :
    ∃ mid noted, ((s.apply config mid).run noted).Returns (out, after) := by
  induction init generalizing tree notes with
  | nil =>
      obtain ⟨mid, noted, hlast, h⟩ := returns_runStages_cons h
      obtain ⟨rfl, rfl⟩ := returns_runStages_nil h
      exact ⟨tree, notes, hlast⟩
  | cons t init ih =>
      obtain ⟨mid, noted, -, h⟩ := returns_runStages_cons h
      exact ih h

/-- A stage that puts markup in front of a document. -/
def banner : Stage where
  name := "banner"
  capability := .transforms
  label := "BannerStage"
  apply := fun _ tree ↦
    pure { tree with children := .ofMarkup "<B onClick=go() id=top>hi" :: tree.children }

end Pipeline

end SafeMarkdown
