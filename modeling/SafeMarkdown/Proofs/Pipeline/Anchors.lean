import SafeMarkdown.Proofs.Gfm.Enrich
import SafeMarkdown.Proofs.Heading.Linked
import SafeMarkdown.Proofs.Markdown.Trees
import SafeMarkdown.Proofs.Outline
import SafeMarkdown.Proofs.Sanitizer.Resolved

/-!
# Heading anchors

The default stages with the standard schema, over any document that Markdown reads: each node of the
result that carries the level of a heading is a heading whose id is the slug that it was given,
around one link to that id. No two elements have the same id, and the outline lists the headings with
an id.
-/

namespace SafeMarkdown

open Node

namespace Stage

theorem returns_assemble_default {stages : List Stage} (h : (assemble true []).Returns stages) :
    stages = registered := by
  obtain ⟨resolved, hresolved, h⟩ := Logged.returns_bind h
  have heq : Except.ok registered = Except.ok resolved := Logged.returns_ofExcept hresolved
  cases heq
  have hany : registered.any isSanitize = true := by decide
  have hinit : registered.dropLast.any isSanitize = false := by decide
  rw [hany, hinit] at h
  exact Logged.returns_pure h

end Stage

namespace Sanitizer

/-- Sanitizing takes the headings of a tree through admission, filtering and the removal of ids. -/
theorem exists_descends_sanitize {s : Schema} {tree out : Node} {removals : List Removal}
    (hunmarked : tree.isMarked = false) (h : sanitize s tree = .ok (out, removals)) :
    ∃ filtered reserved,
      Descends (fun g m ↦ ∃ a, Admitted g a ∧ Filtered s a m) [tree] [filtered] ∧
      reservedIds filtered.walk = .ok reserved ∧ (distinctIds reserved [] filtered).1 = out := by
  obtain ⟨nodes, markup, reserved, hadmit, hreserved, hout⟩ := sanitize_eq_ok h
  have hbelow := (descends_admission hadmit).trans (descends_filterAll (s := s) nodes)
  refine ⟨{ tree with children := (filterChildren s nodes).1 }, reserved, ?_, hreserved, hout⟩
  exact (Descends.below hbelow).mergeText.around hunmarked

end Sanitizer

namespace Pipeline

theorem returns_runStages_registered {config : PipelineConfig} {tree out : Node}
    {notes after : Notes}
    (h : (runStages config Stage.registered tree notes).Returns (out, after)) :
    ∃ enriched highlighted noted noted' removals, Gfm.enrich tree = .ok enriched ∧
      ((Code.highlight config
        (Heading.withLinks config.anchorClass (Heading.withIds enriched))).run noted).Returns
          (highlighted, noted') ∧
      Sanitizer.sanitize config.schema highlighted = .ok (out, removals) := by
  obtain ⟨enriched, notes₁, hgfm, h⟩ := returns_runStages_cons h
  obtain ⟨titled, notes₂, htitled, h⟩ := returns_runStages_cons h
  obtain ⟨linked, notes₃, hlinked, h⟩ := returns_runStages_cons h
  obtain ⟨highlighted, notes₄, hhighlighted, h⟩ := returns_runStages_cons h
  obtain ⟨sanitized, notes₅, hsanitized, h⟩ := returns_runStages_cons h
  obtain ⟨rfl, -⟩ := returns_runStages_nil h
  cases Logged.returns_pure htitled
  cases Logged.returns_pure hlinked
  obtain ⟨removals, hsanitized⟩ := Stage.returns_sanitize hsanitized
  exact ⟨enriched, highlighted, _, _, removals, Staged.returns_ofExcept hgfm, hhighlighted,
    hsanitized⟩

/-- The way of a node through the stages, from the one that gives it its id to the last. -/
def Yields (config : PipelineConfig) (g n : Node) : Prop :=
  ∃ highlighted admitted filtered reserved,
    Code.Highlighted config (Heading.withLinks config.anchorClass g) highlighted ∧
    Sanitizer.Admitted highlighted admitted ∧ Sanitizer.Filtered config.schema admitted filtered ∧
    Sanitizer.Deduped reserved filtered n

/-- An element that a heading became, with the id of that heading and one link to it. -/
structure Anchored (config : PipelineConfig) (g n : Node) : Prop where
  yields : Yields config g n
  kind : n.kind = .element
  slug : ∃ slug, g.attrs.get? "id" = some (.str slug) ∧ n.attrs.get? "id" = some (.str slug) ∧
    ∃ link, n.children = [link] ∧ link.isElement ["a"] = true ∧
      link.attrs.get? "href" = some (.str ("#" ++ slug))

/-- A heading with its id and its link before the removal of ids. -/
def Placed (config : PipelineConfig) (g m : Node) : Prop :=
  ∃ level slug, IsLevel level ∧ slug ≠ "" ∧ g.attrs = [("id", .str slug)] ∧
    Heading.Linked config.anchorClass level slug m ∧
    ∃ highlighted admitted,
      Code.Highlighted config (Heading.withLinks config.anchorClass g) highlighted ∧
      Sanitizer.Admitted highlighted admitted ∧ Sanitizer.Filtered config.schema admitted m

variable {config : PipelineConfig}

theorem placed_of_titled {g highlighted admitted m : Node}
    (hschema : config.schema = Schema.standard) (hg : g.Titled) (hmarked : g.isMarked = true)
    (hhighlighted : Code.Highlighted config (Heading.withLinks config.anchorClass g) highlighted)
    (hadmitted : Sanitizer.Admitted highlighted admitted)
    (hfiltered : Sanitizer.Filtered config.schema admitted m) : Placed config g m := by
  obtain ⟨level, slug, hlevel, hslug, heq⟩ := hg.heading hmarked
  refine ⟨level, slug, hlevel, hslug, by rw [heq]; rfl, ?_, highlighted, admitted, hhighlighted,
    hadmitted, hfiltered⟩
  rw [heq] at hhighlighted
  rw [hschema] at hfiltered
  have hlinked : Heading.Linked config.anchorClass level slug (Heading.withLinks config.anchorClass
      (Heading.node level [("id", .str slug)] g.children)) :=
    Heading.linked_withLinks hlevel hslug g.children
  exact ((hlinked.highlighted hlevel hhighlighted).admitted hadmitted).filtered hlevel hfiltered

theorem Placed.reserves {g m : Node} (h : Placed config g m) : ∃ slug, m.Reserves slug := by
  obtain ⟨level, slug, hlevel, hslug, -, ⟨children, rfl⟩, -⟩ := h
  exact ⟨slug, reserves_node hlevel hslug _⟩

theorem Placed.idText? {g m : Node} (h : Placed config g m) : m.idText? = g.idText? := by
  obtain ⟨level, slug, -, -, hg, ⟨children, rfl⟩, -⟩ := h
  rw [Node.idText?, Node.idText?, hg]
  rfl

theorem Placed.anchored {reserved : List String} {g m n : Node} (h : Placed config g m)
    (hn : Sanitizer.Deduped reserved m n) : Anchored config g n := by
  obtain ⟨level, slug, hlevel, hslug, hg, hlinked, highlighted, admitted, hway⟩ := h
  obtain ⟨children, rfl⟩ := hlinked.deduped hn
  obtain ⟨attrs, hattrs, hanchor⟩ := Heading.exists_anchor_eq config.anchorClass slug
  refine ⟨⟨highlighted, admitted, m, reserved, hway.1, hway.2.1, hway.2.2, hn⟩, rfl, slug, ?_, rfl,
    _, rfl, ?_, ?_⟩
  · rw [hg]
    rfl
  · rw [hanchor]
    rfl
  · rw [hanchor]
    cases hattrs with
    | plain => rfl
    | classed c => rfl

/-- The headings of a tree that has its ids, followed through the last three stages. -/
theorem descends_anchored {titled highlighted out : Node} {noted noted' : Notes}
    {removals : List Removal} (hschema : config.schema = Schema.standard)
    (htitled : titled.All Titled) (hslugs : (slugs [titled]).Nodup)
    (hunmarked : titled.isMarked = false)
    (hhighlight : ((Code.highlight config (Heading.withLinks config.anchorClass titled)).run
      noted).Returns (highlighted, noted'))
    (hsanitize : Sanitizer.sanitize config.schema highlighted = .ok (out, removals)) :
    Descends (Anchored config) [titled] [out] ∧ (elementIds [out]).Nodup := by
  have hhighlighted : highlighted.isMarked = false := by
    rw [Code.isMarked_highlight hhighlight, Heading.isMarked_withLinks, hunmarked]
  obtain ⟨filtered, reserved, hfiltered, hreserved, rfl⟩ :=
    Sanitizer.exists_descends_sanitize hhighlighted hsanitize
  have hmarked : ∀ g ∈ markedAll [titled], g.Titled ∧ g.isMarked = true := by
    rw [markedAll_singleton]
    intro g hg
    exact ⟨htitled.of_mem_marked hg, (List.mem_filter.mp hg).2⟩
  have hplaced : Descends (Placed config) [titled] [filtered] := by
    have hlinked := Heading.descends_withLinks config.anchorClass titled
    have hway := (hlinked.trans (Code.descends_highlight _ hhighlight)).trans hfiltered
    refine (hway.of_mem hmarked).mono ?_
    rintro g m ⟨⟨hg, hg'⟩, h, ⟨l, rfl, hh⟩, a, ha, hm⟩
    exact placed_of_titled hschema hg hg' hh ha hm
  have hreserves : ∀ m ∈ filtered.marked, ∃ slug, m.Reserves slug := by
    rw [← markedAll_singleton]
    exact hplaced.forall_mem fun g m hm ↦ hm.reserves
  have hnodup : (slugs [filtered]).Nodup := by
    obtain ⟨kept, hperm, hsublist⟩ := hplaced.filterMap_subperm fun g m hm ↦ hm.idText?
    exact hperm.nodup_iff.mp (hslugs.sublist hsublist)
  have hclaims := Sanitizer.claims_of_reservedIds hreserves hnodup hreserved
  refine ⟨(hplaced.trans (Sanitizer.descends_distinctIds reserved [] filtered hclaims)).mono ?_,
    (Sanitizer.allots_distinctIds reserved [] filtered).nodup⟩
  rintro g n ⟨m, hm, hn⟩
  exact hm.anchored hn

end Pipeline

end SafeMarkdown
