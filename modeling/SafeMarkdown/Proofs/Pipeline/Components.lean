import SafeMarkdown.Html.Writer
import SafeMarkdown.Proofs.Component.Pieces
import SafeMarkdown.Proofs.Payload
import SafeMarkdown.Proofs.Pipeline.Conserve
import SafeMarkdown.Proofs.Sanitizer.Idempotent

/-!
# Components on their way to what shows them

The stages leave a component without content as it is, apart from the attributes that the sanitizer
takes away. Its payload holds the values of the other attributes as they are stored. So they reach
what shows the component as they were written, unless one of them holds a double that is not finite.
-/

namespace SafeMarkdown

open Node

namespace Component

section Values

theorem storesJson_value (source : AttributeSource) : Json.StoresJson source.value := by
  cases source with
  | flag => exact trivial
  | text s => exact trivial
  | expression s =>
      rw [AttributeSource.value, expressionValue]
      split
      · rename_i v hv
        exact Json.storesJson_of_parse? hv
      · exact trivial

theorem storesJson_parseAttributes (s : List Char) :
    ∀ f ∈ parseAttributes s, Json.StoresJson f.2 := by
  intro f hf
  obtain ⟨a, -, rfl⟩ := List.mem_map.mp (Fields.mem_ofList hf)
  exact storesJson_value a.source

/-- The attributes that are written in a tag. -/
def writtenAttributes (src : String) : Fields :=
  parseAttributes (attributeText (Text.trim src.toList))

/-- The attributes that the sanitizer leaves to a component. -/
def keptOf (attrs : Fields) : Fields :=
  attrs.filter fun f ↦ Sanitizer.allowsComponentAttribute f.1 f.2

/-- The attributes of a tag that are kept. It is irreducible because unfolding it at a fixed source
means to read the tag. -/
@[irreducible]
def keptAttributes (src : String) : Fields :=
  keptOf (writtenAttributes src)

/-- All written attributes are kept but those whose names start with "on" in any case and the texts
with the scheme of a script. -/
theorem mem_keptAttributes_iff {src : String} {f : String × Value} :
    f ∈ keptAttributes src ↔ f ∈ writtenAttributes src ∧ ¬ StartsWithOn f.1 ∧
      ∀ url, f.2 = .str url → Schema.urlScheme url ≠ some "javascript" ∧
        Schema.urlScheme url ≠ some "vbscript" := by
  rw [keptAttributes, keptOf, List.mem_filter, Sanitizer.allowsComponentAttribute_iff]

theorem isJson_keptAttributes (src : String) :
    Fields.IsJson (storableFields (keptAttributes src)) := by
  rw [keptAttributes]
  apply Json.isJson_storableFields
  · exact (Fields.nodup_ofList _).sublist (List.filter_sublist.map Prod.fst)
  · exact fun f hf ↦ storesJson_parseAttributes _ f (List.mem_of_mem_filter hf)

end Values

section Page

variable {config : PipelineConfig} {name source : String} {attrs : Fields}

/-- A page that is a component without content. -/
def page (name source : String) (attrs : Fields) : Node :=
  root [component name attrs [] [("source", .str source)]]

theorem walk_page : (page name source attrs).walk =
    [page name source attrs, component name attrs [] [("source", .str source)]] := rfl

/-- The stages before the sanitizer have nothing to do on such a page. -/
theorem succeeds_enriching {s : Stage} (hs : s.Enriches) (notes : Notes) :
    Succeeds ((s.apply config (page name source attrs)).run notes)
      (page name source attrs, notes) := by
  cases hs with
  | gfm => exact fun _ ↦ rfl
  | headingSlug => exact fun _ ↦ rfl
  | headingAutolink => exact fun _ ↦ rfl
  | highlight lexers => exact fun _ ↦ rfl

theorem reservedId_of_not_flagged {n : Node} (h : n.flagged "level" = false) :
    Sanitizer.reservedId n = .ok none := by
  rw [Sanitizer.reservedId, h]
  cases n.attrs.get? "id" with
  | none => rfl
  | some v => cases v <;> rfl

theorem dedupeIds_page : Sanitizer.dedupeIds (page name source attrs) =
    .ok (page name source attrs, []) := by
  have hreserved : Sanitizer.reservedIds (page name source attrs).walk = .ok [] := by
    have hcomponent : Sanitizer.reservedId
        (component name attrs [] [("source", .str source)]) = .ok none :=
      reservedId_of_not_flagged rfl
    rw [walk_page, Sanitizer.reservedIds, Sanitizer.reservedIds, hcomponent]
    rfl
  rw [Sanitizer.dedupeIds, hreserved]
  rfl

theorem filterChildren_page (s : Schema)
    (hsafe : unsafeTags.contains (Text.lowercase name) = false) :
    Sanitizer.filterChildren s (page name source attrs).children =
      ((page name source (keptOf attrs)).children,
        (Sanitizer.filterComponentAttributes (some name) attrs).2) := by
  have hallowed : ¬ unsafeTags.contains (Text.lowercase ((some name).getD "")) = true :=
    Bool.eq_false_iff.mp hsafe
  rw [page, root, component, Sanitizer.filterChildren, Sanitizer.filterAll, Sanitizer.filterNode,
    if_neg hallowed, Sanitizer.filterComponentAttributes, Sanitizer.filterAll]
  simp only [List.append_nil]
  rfl

theorem sanitize_page (s : Schema) (hsafe : unsafeTags.contains (Text.lowercase name) = false) :
    ∃ removals, Sanitizer.sanitize s (page name source attrs) =
      .ok (page name source (keptOf attrs), removals) := by
  have hadmit : Sanitizer.admission (page name source attrs).children =
      .ok ((page name source attrs).children, []) := rfl
  exact ⟨_, Sanitizer.sanitize_of_steps hadmit (filterChildren_page s hsafe) dedupeIds_page⟩

theorem succeeds_sanitizing (hsafe : unsafeTags.contains (Text.lowercase name) = false)
    (notes : Notes) : ∃ after, Succeeds ((Stage.sanitize.apply config (page name source attrs)).run
      notes) (page name source (keptOf attrs), after) ∧
      after.diagnostics = notes.diagnostics := by
  obtain ⟨removals, hsanitize⟩ := sanitize_page config.schema hsafe
  refine ⟨{ notes with removals := notes.removals ++ removals }, ?_, rfl⟩
  exact Staged.succeeds_bind (Staged.succeeds_ofExcept hsanitize notes) fun _ ↦ rfl

/-- Whatever stages run before the sanitizer, the component is left, without the attributes that the
sanitizer takes away. -/
theorem succeeds_runStages_page {stages : List Stage} (hstages : ∀ s ∈ stages, s.Enriches)
    (hsafe : unsafeTags.contains (Text.lowercase name) = false) (notes : Notes) :
    ∃ after, Succeeds (Pipeline.runStages config (stages ++ [Stage.sanitize])
      (page name source attrs) notes) (page name source (keptOf attrs), after) ∧
      after.diagnostics = notes.diagnostics := by
  induction stages with
  | nil =>
      obtain ⟨after, hsanitize, hafter⟩ := succeeds_sanitizing hsafe notes
      exact ⟨after, Pipeline.succeeds_runStages_cons hsanitize (succeeds_pure _), hafter⟩
  | cons s rest ih =>
      rw [List.forall_mem_cons] at hstages
      obtain ⟨after, hrest, hafter⟩ := ih hstages.2
      refine ⟨after, ?_, hafter⟩
      apply Pipeline.succeeds_runStages_cons
      · exact succeeds_enriching hstages.1 notes
      · exact hrest

/-- The stages that run unless other ones are asked for end in the sanitizer. -/
theorem exists_registered_eq :
    ∃ stages, Stage.registered = stages ++ [Stage.sanitize] ∧ ∀ s ∈ stages, s.Enriches := by
  refine ⟨[.gfm, .headingSlug, .headingAutolink, .highlight], rfl, fun s hs ↦ ?_⟩
  simp only [List.mem_cons, List.not_mem_nil, or_false] at hs
  rcases hs with rfl | rfl | rfl | rfl
  · exact .gfm
  · exact .headingSlug
  · exact .headingAutolink
  · rw [← Stage.highlightWith_known]
    exact .highlight Code.knownLexers

theorem succeeds_make_registered {dialect : Markdown.Dialect}
    (hdialect : Markdown.Dialect.ofName? config.dialect = some dialect)
    (hsanitizes : config.sanitizes = true) :
    Succeeds (Pipeline.make config) ⟨config, dialect, Stage.registered⟩ := by
  have hstages : Succeeds (Stage.assemble config.sanitizes []) Stage.registered := by
    rw [hsanitizes]
    exact fun _ ↦ rfl
  rw [Pipeline.make, hdialect]
  exact hstages.bind (succeeds_pure _)

theorem storesJson_page (h : Fields.IsJson (storableFields attrs)) :
    (page name source attrs).All Node.StoresJson := by
  have hempty : Fields.IsJson (storableFields []) := ⟨List.nodup_nil, trivial⟩
  intro n hn
  rw [walk_page, List.mem_cons, List.mem_singleton] at hn
  rcases hn with rfl | rfl
  · exact ⟨hempty, hempty⟩
  · exact ⟨h, List.nodup_cons.mpr ⟨List.not_mem_nil, List.nodup_nil⟩, trivial, trivial⟩

theorem isListable_page : (page name source attrs).All Payload.IsListable := by
  intro n hn
  rw [walk_page, List.mem_cons, List.mem_singleton] at hn
  rcases hn with rfl | rfl
  · exact nofun
  · exact nofun

/-- A page of this form is shown by what shows components of the name. -/
theorem render_of_alike {tree : Node} (h : (page name source attrs).Alike tree) :
    ∃ attrs', attrs.Alike attrs' ∧ ∀ (registry : Html.Registry) shown,
      registry.lookup name = some shown →
        Html.render registry tree = (.ok (shown attrs' ""), []) := by
  cases h with
  | mk _ hchildren _ =>
      cases hchildren with
      | cons h hrest =>
          cases hrest
          cases h with
          | @mk _ _ _ _ attrs' _ data' _ _ hattrs hchildren hdata =>
              cases hchildren
              refine ⟨attrs', hattrs, fun registry shown hshown ↦ ?_⟩
              have hcomponent : Html.componentText registry (some name) attrs' data' "" =
                  pure (shown attrs' "") := by
                rw [Html.componentText, Option.bind_some, hshown]
              simp only [Html.render, Html.write, Html.writeAll]
              rw [pure_bind, hcomponent]
              simp only [pure_bind, String.append_empty]
              rfl

end Page

section Showing

variable {config : PipelineConfig} {fm : FrontMatter} {src : String} {tag : OpenTag}

/-- What shows the components of a name gets these attributes and no content, when the source of one
is read as a page, and the page has gone through the stages, into a payload and out of it again. -/
def Delivers (config : PipelineConfig) (fm : FrontMatter) (src : String) (block : Bool)
    (name : String) (attrs : Fields) : Prop :=
  ∃ nodes p out notes payload tree,
    (∀ blocks, ofMarkup blocks src block = pure nodes) ∧
    Succeeds (Pipeline.make config) p ∧
    Succeeds (p.run (root nodes)) (out, notes) ∧
    Payload.ofTree out fm notes.diagnostics = .ok payload ∧
    payload.tree = .ok tree ∧
    ∀ (registry : Html.Registry) shown, registry.lookup name = some shown →
      Html.render registry tree = (.ok (shown attrs ""), [])

/-- A source that is one tag of a component without content. -/
structure IsLoneTag (src : String) (tag : OpenTag) : Prop where
  read : readOpenTag? (Text.trim src.toList) = some (tag, [])
  selfClosing : tag.selfClosing = true
  safe : unsafeTags.contains (Text.lowercase tag.name) = false

theorem IsLoneTag.ofMarkup (h : IsLoneTag src tag) (blocks : String → Logged (List Node))
    (block : Bool) : Component.ofMarkup blocks src block = pure (page tag.name tag.source
      (writtenAttributes src)).children := by
  rw [ofMarkup_opening h.read, opened, if_pos h.selfClosing, attrs_of_readOpenTag? h.read]
  rfl

theorem IsLoneTag.succeeds_run (h : IsLoneTag src tag) (p : Pipeline)
    (hstages : p.stages = Stage.registered) : ∃ notes,
      Succeeds (p.run (page tag.name tag.source (writtenAttributes src)))
        (page tag.name tag.source (keptAttributes src), notes) ∧ notes.diagnostics = [] := by
  obtain ⟨stages, hregistered, henriches⟩ := exists_registered_eq
  rw [Pipeline.run, hstages, hregistered, keptAttributes]
  exact succeeds_runStages_page henriches h.safe {}

/-- What shows a component gets the attributes as they are stored. -/
theorem IsLoneTag.exists_delivers (h : IsLoneTag src tag) (block : Bool)
    (hdialect : (Markdown.Dialect.ofName? config.dialect).isSome = true)
    (hsanitizes : config.sanitizes = true) (hfm : Json.unwritable (.obj fm.toFields) = none) :
    ∃ attrs, Delivers config fm src block tag.name attrs ∧
      Fields.Alike (storableFields (keptAttributes src)) attrs := by
  obtain ⟨dialect, hdialect⟩ := Option.isSome_iff_exists.mp hdialect
  have hmake := succeeds_make_registered hdialect hsanitizes
  have hread := h.ofMarkup
  obtain ⟨notes, hrun, hnotes⟩ := h.succeeds_run ⟨config, dialect, Stage.registered⟩ rfl
  have hstores : (page tag.name tag.source (keptAttributes src)).All Node.StoresJson :=
    storesJson_page (isJson_keptAttributes src)
  obtain ⟨payload, tree, hpayload, htree, halike⟩ := Payload.ofTree_stored [] hstores
    isListable_page hfm
  obtain ⟨attrs, hattrs, hshown⟩ := render_of_alike halike
  rw [← hnotes] at hpayload
  exact ⟨attrs, ⟨_, _, _, notes, payload, tree, fun blocks ↦ hread blocks block, hmake, hrun,
    hpayload, htree, hshown⟩, hattrs⟩

/-- Attributes that are the same when they are stored hold no double that is not finite. -/
theorem fieldsArePlain_of_alike_stored {attrs : Fields}
    (hstored : Fields.Alike (storableFields (keptAttributes src)) attrs)
    (h : (keptAttributes src).Alike attrs) :
    Value.FieldsArePlain Double.IsFinite (keptAttributes src) := by
  have hplain : Value.FieldsArePlain Double.IsFinite (storableFields (keptAttributes src)) :=
    Value.fieldsArePlain_of_fieldsAreJson _ (isJson_keptAttributes src).2
  obtain ⟨fs, hfs, hperm⟩ := h.trans hstored.symm
  exact Value.fieldsArePlain_of_fieldsAlike hfs (Value.fieldsArePlain_of_perm hperm hplain)

/-- A way to compute that a source is one tag of a component. -/
theorem exists_isLoneTag {name : String}
    (h : (readOpenTag? (Text.trim src.toList)).map (fun r ↦ (r.1.name, r.2, r.1.selfClosing,
      unsafeTags.contains (Text.lowercase r.1.name))) = some (name, [], true, false)) :
    ∃ tag, IsLoneTag src tag ∧ tag.name = name := by
  obtain ⟨⟨tag, rest⟩, hread, heq⟩ := Option.map_eq_some_iff.mp h
  simp only [Prod.mk.injEq] at heq
  obtain ⟨hname, rfl, hclosing, hsafe⟩ := heq
  exact ⟨tag, ⟨hread, hclosing, hsafe⟩, hname⟩

/-- A card whose attributes are a handler, a script, an object with numbers and a flag. -/
def cardSource : String :=
  " <Card onX=\"a\" to='JavaScript:x' n=\x7b\x7b\"k\": [1, -2.5e3]\x7d\x7d wide />\n"

/-- A number that is too large for a double. -/
def overflowingSource : String :=
  "<A x=\x7b1e999\x7d />"

end Showing

end Component

end SafeMarkdown
