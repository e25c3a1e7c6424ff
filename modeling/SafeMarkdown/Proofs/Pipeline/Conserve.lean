import SafeMarkdown.Proofs.Gfm.Conserve
import SafeMarkdown.Proofs.Outline
import SafeMarkdown.Proofs.Pipeline.Stages

/-!
# The stages before the sanitizer conserve what a tree holds

No heading loses a letter to its id or its link. A program is highlighted only if its spans spell its
text, whatever the lexer returned, so the lexers are left open here: any lexers may stand in for
those at hand.
-/

namespace SafeMarkdown

open Node

namespace Staged

variable {α β : Type}

theorem succeeds_bind {x : Staged α} {f : α → Staged β} {a : α} {b : β} {notes mid after : Notes}
    (hx : Succeeds (x.run notes) (a, mid)) (hf : Succeeds ((f a).run mid) (b, after)) :
    Succeeds ((x >>= f).run notes) (b, after) :=
  Succeeds.bind hx hf

theorem exists_succeeds_bind {x : Staged α} {f : α → Staged β} {a : α} {notes mid : Notes}
    (hx : Succeeds (x.run notes) (a, mid))
    (hf : ∃ b after, Succeeds ((f a).run mid) (b, after)) :
    ∃ b after, Succeeds ((x >>= f).run notes) (b, after) := by
  obtain ⟨b, after, hf⟩ := hf
  exact ⟨b, after, succeeds_bind hx hf⟩

theorem succeeds_ofExcept {r : Except Failure α} {a : α} (h : r = .ok a) (notes : Notes) :
    Succeeds ((ofExcept r).run notes) (a, notes) :=
  Succeeds.bind (Logged.succeeds_ofExcept h) (succeeds_pure (a, notes))

end Staged

theorem Pipeline.succeeds_inStage {α : Type} {name : String} {x : Logged α} {a : α}
    (h : Succeeds x a) : Succeeds (inStage name x) a :=
  (Logged.succeeds_attempt h).bind (succeeds_pure a)

namespace Heading

variable {anchorClass : Option String}

mutual

theorem keeps_assignIds : (n : Node) → (taken : List String) → n.All Shaped →
    Keeps [n] [(assignIds taken n).1]
  | ⟨kind, tag, attrs, children, value, data⟩, taken, hn => by
      obtain ⟨hself, hbelow⟩ := all_iff.mp hn
      have hleaf (taken : List String) (htext : kind = .text) :
          (assignIdsAll taken children).1 = [] := by
        have hnil : children = [] := hself.leaf htext
        rw [hnil, assignIdsAll]
      rw [assignIds]
      dsimp only
      split
      · rename_i hheading
        obtain ⟨level, hlevel⟩ := Option.isSome_iff_exists.mp hheading
        have hkind : kind = .element := kind_of_headingLevel hlevel
        have hcomponent : kind ≠ .component := by simp [hkind]
        refine .node hn ((SameHead.withChildren _ _).trans (.withId hcomponent _))
          (keeps_assignIdsAll children _ hbelow) (hleaf _)
      · exact .node hn (.withChildren _ _) (keeps_assignIdsAll children _ hbelow) (hleaf _)

theorem keeps_assignIdsAll : (ns : List Node) → (taken : List String) →
    (∀ n ∈ ns, n.All Shaped) → Keeps ns (assignIdsAll taken ns).1
  | [], taken, hns => by
      rw [assignIdsAll]
      exact .refl hns
  | n :: rest, taken, hns => by
      rw [List.forall_mem_cons] at hns
      rw [assignIdsAll]
      exact (keeps_assignIds n taken hns.1).cons (keeps_assignIdsAll rest _ hns.2)

end

theorem Keeps.anchored {ns ms : List Node} (h : Keeps ns ms) (id : Value) :
    Keeps ns [anchor anchorClass id ms] := by
  have hclass (attrs : Fields) (hattrs : attrs.get? "class" = none ∨
      ∃ items, attrs.get? "class" = some (.arr items)) :
      Keeps ns [element "a" attrs ms] := by
    refine .of_same (List.forall_mem_singleton.mpr (all_shaped_element h.shaped)) ?_ ?_
    · intro hread
      exact List.forall_mem_singleton.mpr (all_readable_element hattrs (h.readable hread))
    · rw [contentsAll_singleton, contents_element (by decide), h.same]
  unfold anchor
  apply hclass
  split
  · split
    · exact .inl rfl
    · exact .inr ⟨_, rfl⟩
  · exact .inl rfl

mutual

theorem keeps_withLinks : (n : Node) → n.All Shaped → Keeps [n] [withLinks anchorClass n]
  | ⟨kind, tag, attrs, children, value, data⟩, hn => by
      obtain ⟨hself, hbelow⟩ := all_iff.mp hn
      have hall := keeps_withLinksAll children hbelow
      rw [withLinks]
      split
      · rename_i level id hlevel hid
        have hkind : kind = .element := kind_of_headingLevel hlevel
        have htext (htext : kind = .text) (ms : List Node) : ms = [] := by
          rw [hkind] at htext
          cases htext
        split
        · exact .node hn (.withChildren _ _) (Keeps.anchored hall id) (htext · _)
        · exact .node hn (.withChildren _ _) hall (htext · _)
      · refine .node hn (.withChildren _ _) hall fun htext ↦ ?_
        have hnil : children = [] := hself.leaf htext
        rw [hnil, withLinksAll]

theorem keeps_withLinksAll : (ns : List Node) → (∀ n ∈ ns, n.All Shaped) →
    Keeps ns (withLinksAll anchorClass ns)
  | [], hns => by
      rw [withLinksAll]
      exact .refl hns
  | n :: rest, hns => by
      rw [List.forall_mem_cons] at hns
      rw [withLinksAll]
      exact (keeps_withLinks n hns.1).cons (keeps_withLinksAll rest hns.2)

end

end Heading

namespace Code

/-- What splits programs into lexemes, for a language with its names. -/
structure Lexer where
  language : Language
  lexemes : String → List Lexeme

/-- The lexers that can be asked for by name. -/
abbrev Lexers := String → Option Lexer

/-- The lexers of the languages at hand. -/
def knownLexers : Lexers := fun name ↦
  (language? name).map fun l ↦ ⟨l, l.lexemes⟩

/-- The highlighting of a node when the lexers are some given ones. -/
def highlightingWith (lexers : Lexers) (config : PipelineConfig) (n : Node) :
    Staged (Option (String × List Node)) := do
  match ← Staged.ofExcept (askedLanguage n) with
  | none => return none
  | some name =>
    match lexers name with
    | none =>
      Staged.warn ("Unsupported code block language '" ++ name ++ "'; left unhighlighted")
      return none
    | some lexer =>
      if !lexer.language.isEnabled name config.languages then
        Logged.debug .highlight ("Highlighting disabled for language " ++ name)
        return none
      let text := n.textContent
      let children := spans (lexer.lexemes text)
      if (Node.root children).textContent != text then
        Logged.debug .highlight
          ("Lexer " ++ lexer.language.name ++ " altered code text; leaving block unhighlighted")
        return none
      return some (lexer.language.name, children)

mutual

/-- Highlights the code elements of a tree with given lexers. -/
def highlightWith (lexers : Lexers) (config : PipelineConfig) : Node → Staged Node
  | ⟨kind, tag, attrs, children, value, data⟩ => do
    match ← highlightingWith lexers config ⟨kind, tag, attrs, children, value, data⟩ with
    | some (language, nodes) =>
      return ⟨kind, tag, attrs, nodes, value, Fields.set data "highlighted" (.str language)⟩
    | none =>
      let nodes ← highlightAllWith lexers config children
      return ⟨kind, tag, attrs, nodes, value, data⟩

def highlightAllWith (lexers : Lexers) (config : PipelineConfig) :
    List Node → Staged (List Node)
  | [] => pure []
  | n :: rest => do
    let m ← highlightWith lexers config n
    let ms ← highlightAllWith lexers config rest
    return m :: ms

end

variable {lexers : Lexers} {config : PipelineConfig} {n m : Node} {noted after : Notes}

theorem highlightingWith_known (config : PipelineConfig) (n : Node) :
    highlightingWith knownLexers config n = highlighting config n := by
  unfold highlightingWith highlighting
  refine bind_congr fun asked ↦ ?_
  cases asked with
  | none => rfl
  | some name =>
      dsimp only [knownLexers]
      cases language? name <;> rfl

mutual

theorem highlightWith_known (config : PipelineConfig) :
    (n : Node) → highlightWith knownLexers config n = highlight config n
  | ⟨kind, tag, attrs, children, value, data⟩ => by
      rw [highlightWith, highlight, highlightingWith_known]
      refine bind_congr fun found ↦ ?_
      cases found with
      | none => simp only [highlightAllWith_known config children]
      | some found => rfl

theorem highlightAllWith_known (config : PipelineConfig) :
    (ns : List Node) → highlightAllWith knownLexers config ns = highlightAll config ns
  | [] => by rw [highlightAllWith, highlightAll]
  | n :: rest => by
      rw [highlightAllWith, highlightAll, highlightWith_known config n,
        highlightAllWith_known config rest]

end

theorem runs_text (ls : List Lexeme) :
    (runs ls).flatMap Run.text = ls.flatMap Lexeme.text := by
  induction ls with
  | nil => rfl
  | cons l ls ih =>
      rw [runs, List.flatMap_cons, ← ih]
      split
      · rename_i hempty
        rw [List.isEmpty_iff.mp hempty, List.nil_append]
      · split
        · rename_i hnil
          rw [hnil]
          rfl
        · rename_i r more hmore
          rw [hmore]
          split
          · rw [List.flatMap_cons, List.flatMap_cons, List.append_assoc]
          · rfl

theorem spell_spans (ls : List Lexeme) : Spell (ls.flatMap Lexeme.text) (spans ls) := by
  rw [← runs_text, spans]
  induction runs ls with
  | nil => exact .nil
  | cons r rs ih =>
      have hnode : Spell r.text [r.node] := by
        unfold Run.node
        dsimp only
        split
        · exact .ofText r.text
        · exact .element (by decide) (.inr ⟨_, rfl⟩) (.ofText r.text)
      exact hnode.append ih

theorem isProgram_of_askedLanguage {name : String} (h : askedLanguage n = .ok (some name)) :
    n.isProgram = true := by
  unfold askedLanguage at h
  split at h
  · rename_i hcode
    split at h
    · rename_i lang hlang
      cases hempty : lang.isEmpty with
      | true =>
          rw [hempty] at h
          cases h
      | false => simp [isProgram, hcode, flagged, hlang, Value.isTruthy, hempty]
    · split at h <;> cases h
    · cases h
  · cases h

/-- Only the text of a program gives way, to spans that spell it. -/
theorem returns_highlightingWith {language : String} {nodes : List Node}
    (h : ((highlightingWith lexers config n).run noted).Returns (some (language, nodes), after)) :
    n.isProgram = true ∧ Spell n.textContent.toList nodes := by
  unfold highlightingWith at h
  obtain ⟨⟨asked, mid⟩, hasked, h⟩ := Staged.returns_bind h
  have hasked := Staged.returns_ofExcept hasked
  cases asked with
  | none => cases Logged.returns_pure h
  | some name =>
      refine ⟨isProgram_of_askedLanguage hasked, ?_⟩
      dsimp only at h
      split at h
      · obtain ⟨logged, -, h⟩ := Staged.returns_bind h
        cases Logged.returns_pure h
      · split at h
        · obtain ⟨logged, -, h⟩ := Staged.returns_bind h
          cases Logged.returns_pure h
        · split at h
          · obtain ⟨logged, -, h⟩ := Staged.returns_bind h
            cases Logged.returns_pure h
          · rename_i lexer _ _ hsame
            cases Logged.returns_pure h
            have hspell := spell_spans (lexer.lexemes n.textContent)
            have htext : (root (spans (lexer.lexemes n.textContent))).textContent =
              n.textContent := by simpa using hsame
            rwa [← hspell.textContent, htext] at hspell

/-- A program with other children that spell its text. -/
theorem keeps_respelled {language : String} {nodes : List Node} (hn : n.All Shaped)
    (hprogram : n.isProgram = true) (hspell : Spell n.textContent.toList nodes) :
    Keeps [n] [{ n with children := nodes, data := n.data.set "highlighted" (.str language) }] := by
  obtain ⟨hself, hbelow⟩ := all_iff.mp hn
  have hkind : n.kind = .element := by
    have hcode := (Bool.and_eq_true_iff.mp hprogram).1
    exact beq_iff_eq.mp (Bool.and_eq_true_iff.mp hcode).1
  have hcomponent : n.kind ≠ .component := by simp [hkind]
  have hhead : SameHead n
      { n with children := nodes, data := n.data.set "highlighted" (.str language) } :=
    (SameHead.withChildren n nodes).trans
      (SameHead.withHighlighted (n := { n with children := nodes }) hcomponent _)
  -- neither the old children nor the new ones hold anything but letters that counts
  have hnone : (contentsAll n.children).filterMap Content.foreign? = [] := by
    rw [foreign_contentsAll n.children hbelow, List.filterMap_eq_nil_iff]
    exact fun k hk ↦ foreign?_eq_none.mpr (hself.program hprogram k hk)
  have hletters (cs : List Char) : (cs.map Content.letter).filterMap Content.foreign? = [] := by
    simp [List.filterMap_eq_nil_iff, Content.foreign?]
  have hshaped := Shaped.of_children hn hhead.kind hhead.tag (by simp [hkind]) hspell.shaped
    fun _ ↦ ⟨hprogram, by rw [hspell.contents, hletters, hnone]⟩
  refine .of_same (List.forall_mem_singleton.mpr hshaped) (fun hread ↦ ?_) ?_
  · have hread := hhead.readable (all_iff.mp (List.forall_mem_singleton.mp hread)).1
    exact List.forall_mem_singleton.mpr (all_iff.mpr ⟨hread, hspell.readable⟩)
  · have hfilter (cs : List Char) : (cs.map Content.letter).filter Content.countsInProgram =
        cs.map Content.letter := by
      simp [List.filter_eq_self, Content.countsInProgram]
    rw [contentsAll_singleton, contentsAll_singleton, Shaped.contents_program hn hprogram,
      contents_of_isProgram (hhead.program.trans hprogram), hspell.contents, hfilter]

mutual

theorem keeps_highlightWith : (n : Node) → {m : Node} → {noted after : Notes} → n.All Shaped →
    ((highlightWith lexers config n).run noted).Returns (m, after) → Keeps [n] [m]
  | ⟨kind, tag, attrs, children, value, data⟩, m, noted, after, hn, h => by
      rw [highlightWith] at h
      obtain ⟨⟨found, mid⟩, hfound, h⟩ := Staged.returns_bind h
      cases found with
      | some r =>
          cases Logged.returns_pure h
          obtain ⟨hprogram, hspell⟩ := returns_highlightingWith hfound
          exact keeps_respelled hn hprogram hspell
      | none =>
          obtain ⟨⟨nodes, last⟩, hnodes, h⟩ := Staged.returns_bind h
          cases Logged.returns_pure h
          obtain ⟨hself, hbelow⟩ := all_iff.mp hn
          refine .node hn (.withChildren _ _) (keeps_highlightAllWith children hbelow hnodes)
            fun htext ↦ ?_
          have hnil : children = [] := hself.leaf htext
          rw [hnil, highlightAllWith] at hnodes
          cases Logged.returns_pure hnodes
          rfl

theorem keeps_highlightAllWith : (ns : List Node) → {ms : List Node} → {noted after : Notes} →
    (∀ n ∈ ns, n.All Shaped) →
    ((highlightAllWith lexers config ns).run noted).Returns (ms, after) → Keeps ns ms
  | [], ms, noted, after, hns, h => by
      rw [highlightAllWith] at h
      cases Logged.returns_pure h
      exact .refl hns
  | n :: rest, ms, noted, after, hns, h => by
      rw [List.forall_mem_cons] at hns
      rw [highlightAllWith] at h
      obtain ⟨⟨m, mid⟩, hm, h⟩ := Staged.returns_bind h
      obtain ⟨⟨others, last⟩, hothers, h⟩ := Staged.returns_bind h
      cases Logged.returns_pure h
      exact (keeps_highlightWith n hns.1 hm).cons (keeps_highlightAllWith rest hns.2 hothers)

end

theorem succeeds_highlightingWith (h : n.Readable) (noted : Notes) :
    ∃ r after, Succeeds ((highlightingWith lexers config n).run noted) (r, after) := by
  obtain ⟨asked, hasked⟩ := h.language
  unfold highlightingWith
  refine Staged.exists_succeeds_bind (Staged.succeeds_ofExcept hasked noted) ?_
  cases asked with
  | none => exact ⟨none, noted, succeeds_pure _⟩
  | some name =>
      dsimp only
      split
      · exact ⟨none, _, fun _ ↦ rfl⟩
      · split
        · exact ⟨none, noted, fun _ ↦ rfl⟩
        · split
          · exact ⟨none, noted, fun _ ↦ rfl⟩
          · exact ⟨_, noted, succeeds_pure _⟩

mutual

theorem succeeds_highlightWith : (n : Node) → (noted : Notes) → n.All Readable →
    ∃ m after, Succeeds ((highlightWith lexers config n).run noted) (m, after)
  | ⟨kind, tag, attrs, children, value, data⟩, noted, hn => by
      obtain ⟨hself, hbelow⟩ := all_iff.mp hn
      have hnode : ∃ r after, Succeeds ((highlightingWith lexers config
          ⟨kind, tag, attrs, children, value, data⟩).run noted) (r, after) :=
        succeeds_highlightingWith hself noted
      obtain ⟨found, mid, hfound⟩ := hnode
      rw [highlightWith]
      cases found with
      | some r => exact ⟨_, mid, Staged.succeeds_bind hfound (succeeds_pure _)⟩
      | none =>
          obtain ⟨nodes, after, hnodes⟩ := succeeds_highlightAllWith children mid hbelow
          exact ⟨_, after, Staged.succeeds_bind hfound
            (Staged.succeeds_bind hnodes (succeeds_pure _))⟩

theorem succeeds_highlightAllWith : (ns : List Node) → (noted : Notes) →
    (∀ n ∈ ns, n.All Readable) →
    ∃ ms after, Succeeds ((highlightAllWith lexers config ns).run noted) (ms, after)
  | [], noted, _ => by
      rw [highlightAllWith]
      exact ⟨[], noted, succeeds_pure _⟩
  | n :: rest, noted, hns => by
      rw [List.forall_mem_cons] at hns
      obtain ⟨m, mid, hm⟩ := succeeds_highlightWith n noted hns.1
      obtain ⟨ms, after, hms⟩ := succeeds_highlightAllWith rest mid hns.2
      rw [highlightAllWith]
      exact ⟨_, after, Staged.succeeds_bind hm (Staged.succeeds_bind hms (succeeds_pure _))⟩

end

end Code

namespace Stage

/-- Highlights code blocks with given lexers. -/
def highlightWith (lexers : Code.Lexers) : Stage :=
  { highlight with apply := Code.highlightWith lexers }

theorem highlightWith_known : highlightWith Code.knownLexers = highlight := by
  have happly : Code.highlightWith Code.knownLexers = Code.highlight := by
    funext config n
    exact Code.highlightWith_known config n
  rw [highlightWith, happly]
  rfl

/-- The stages that run before a tree is sanitized, whatever the lexers. -/
inductive Enriches : Stage → Prop where
  | gfm : Enriches Stage.gfm
  | headingSlug : Enriches Stage.headingSlug
  | headingAutolink : Enriches Stage.headingAutolink
  | highlight (lexers : Code.Lexers) : Enriches (highlightWith lexers)

variable {s : Stage} {config : PipelineConfig} {tree out : Node} {notes after : Notes}

theorem Enriches.conserves (hs : s.Enriches) (htree : tree.All Shaped)
    (h : ((s.apply config tree).run notes).Returns (out, after)) : Conserves [tree] [out] := by
  cases hs with
  | gfm => exact Gfm.conserves_enrich htree (Staged.returns_ofExcept h)
  | headingSlug =>
      cases Logged.returns_pure h
      exact (Heading.keeps_assignIds tree [] htree).toConserves
  | headingAutolink =>
      cases Logged.returns_pure h
      exact (Heading.keeps_withLinks tree htree).toConserves
  | highlight lexers => exact (Code.keeps_highlightWith tree htree h).toConserves

theorem Enriches.succeeds (hs : s.Enriches) (htree : tree.All Shaped) (hread : tree.All Readable)
    (config : PipelineConfig) (notes : Notes) :
    ∃ out after, Succeeds ((s.apply config tree).run notes) (out, after) := by
  cases hs with
  | gfm =>
      obtain ⟨out, hout⟩ := Gfm.exists_enrich htree hread
      exact ⟨out, notes, Staged.succeeds_ofExcept hout notes⟩
  | headingSlug => exact ⟨_, notes, succeeds_pure _⟩
  | headingAutolink => exact ⟨_, notes, succeeds_pure _⟩
  | highlight lexers => exact Code.succeeds_highlightWith tree notes hread

end Stage

namespace Pipeline

variable {config : PipelineConfig} {stages : List Stage} {tree out : Node} {notes after : Notes}

theorem conserves_runStages (hstages : ∀ s ∈ stages, s.Enriches) (htree : tree.All Shaped)
    (h : (runStages config stages tree notes).Returns (out, after)) : Conserves [tree] [out] := by
  induction stages generalizing tree notes with
  | nil =>
      obtain ⟨rfl, -⟩ := returns_runStages_nil h
      exact .refl (List.forall_mem_singleton.mpr htree)
  | cons s rest ih =>
      rw [List.forall_mem_cons] at hstages
      obtain ⟨mid, noted, hstage, h⟩ := returns_runStages_cons h
      have hfirst := hstages.1.conserves htree hstage
      exact hfirst.trans (ih hstages.2 (hfirst.shaped mid List.mem_cons_self) h)

theorem succeeds_runStages_cons {s : Stage} {mid : Node} {noted : Notes} {r : Node × Notes}
    (hstage : Succeeds ((s.apply config tree).run notes) (mid, noted))
    (hrest : Succeeds (runStages config stages mid noted) r) :
    Succeeds (runStages config (s :: stages) tree notes) r :=
  (succeeds_inStage hstage).bind ((succeeds_modify _).bind hrest)

theorem succeeds_runStages (hstages : ∀ s ∈ stages, s.Enriches) (htree : tree.All Shaped)
    (hread : tree.All Readable) (notes : Notes) :
    ∃ out after, Succeeds (runStages config stages tree notes) (out, after) := by
  induction stages generalizing tree notes with
  | nil => exact ⟨tree, notes, succeeds_pure _⟩
  | cons s rest ih =>
      rw [List.forall_mem_cons] at hstages
      obtain ⟨mid, noted, hstage⟩ := hstages.1.succeeds htree hread config notes
      have hfirst := hstages.1.conserves htree (Logged.returns_of_succeeds hstage)
      obtain ⟨out, after, hrest⟩ := ih hstages.2 (hfirst.shaped mid List.mem_cons_self)
        (hfirst.readable (List.forall_mem_singleton.mpr hread) mid List.mem_cons_self) noted
      exact ⟨out, after, succeeds_runStages_cons hstage hrest⟩

/-- Whatever stages run before the sanitizer, in whatever order and however often: raw markup and
components stay as they are and where they are, and the text stays the same but for the checkboxes
of ticked items. The run returns if the classes and languages of the tree can be read. -/
theorem runStages_conserves (hstages : ∀ s ∈ stages, s.Enriches) (htree : tree.All Shaped)
    (notes : Notes) :
    (∀ out after, (runStages config stages tree notes).Returns (out, after) →
      out.walk.filterMap foreign? = tree.walk.filterMap foreign? ∧
      Ticked tree.contents out.contents ∧
      tree.contents.filterMap Content.letter? = tree.textContent.toList ∧
      out.contents.filterMap Content.letter? = out.textContent.toList) ∧
    (tree.All Readable →
      ∃ out after, (runStages config stages tree notes).Returns (out, after)) := by
  constructor
  · intro out after h
    have hall := conserves_runStages hstages htree h
    have hcontents := hall.contents
    rw [contentsAll_singleton, contentsAll_singleton] at hcontents
    refine ⟨?_, hcontents, letter_contents tree, letter_contents out⟩
    have hforeign := hcontents.foreign
    rwa [foreign_contents tree htree,
      foreign_contents out (hall.shaped out List.mem_cons_self)] at hforeign
  · intro hread
    have hrun : ∃ out after, Succeeds (runStages config stages tree notes) (out, after) :=
      succeeds_runStages hstages htree hread notes
    obtain ⟨out, after, h⟩ := hrun
    exact ⟨out, after, Logged.returns_of_succeeds h⟩

/-- Markup, a list with a task, a component around a heading, and a program. -/
def draft : Node :=
  .root [.ofMarkup "<b>",
    .element "ul" [] [.element "li" [] [.element "p" [] [.ofText "[x] see www.a.b"]],
      .element "li" [] [.ofText "[ ]x"]],
    .component "Box" [("to", .str "/x")] [.element "h2" [] [.ofText "[ ] T"]] [],
    .element "pre" [] [.element "code" [] [.ofText "x = 1"] [("lang", .str "python")]]]

/-- Lexers that lose the text of every program. -/
def lossyLexers : Code.Lexers := fun name ↦
  some ⟨⟨name, [], fun _ ↦ []⟩, fun _ ↦ [⟨[], ['?']⟩]⟩

/-- The stages before the sanitizer, some of them twice. -/
def draftStages : List Stage :=
  [.highlightWith lossyLexers, .headingSlug, .gfm, .highlightWith Code.knownLexers,
    .headingAutolink, .gfm]

theorem runStages_conserves_draft : (∀ s ∈ draftStages, s.Enriches) ∧ draft.All Shaped ∧
    ∃ out after, (runStages {} draftStages draft {}).Returns (out, after) ∧
      out.textContent = " see www.a.b[ ]x[ ] Tx = 1" ∧
      out.walk.filterMap foreign? = draft.walk.filterMap foreign? ∧
      Ticked draft.contents out.contents := by
  have hstages : ∀ s ∈ draftStages, s.Enriches := by
    intro s hs
    simp only [draftStages, List.mem_cons, List.not_mem_nil, or_false] at hs
    rcases hs with rfl | rfl | rfl | rfl | rfl | rfl
    · exact .highlight lossyLexers
    · exact .headingSlug
    · exact .gfm
    · exact .highlight Code.knownLexers
    · exact .headingAutolink
    · exact .gfm
  have hshaped : draft.All Shaped := by decide +kernel
  have hcomputed : (runStages {} draftStages draft {}).outcome.1.toOption.map
      (fun r ↦ r.1.textContent) = some " see www.a.b[ ]x[ ] Tx = 1" := by
    decide +kernel
  obtain ⟨⟨out, after⟩, hrun, htext⟩ := Logged.exists_returns hcomputed
  obtain ⟨hforeign, hticked, -⟩ := (runStages_conserves hstages hshaped {}).1 out after hrun
  exact ⟨hstages, hshaped, out, after, hrun, htext, hforeign, hticked⟩

end Pipeline

end SafeMarkdown
