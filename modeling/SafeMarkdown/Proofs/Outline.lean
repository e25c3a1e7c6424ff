import SafeMarkdown.Payload
import SafeMarkdown.Proofs.Sanitizer.Ids

/-!
# Outlines

When the ids of a tree are texts it has an outline, which lists the headings whose id is not empty.
When no two elements have the same id, no two entries of the outline have the same slug.
-/

namespace SafeMarkdown

/-- Whether a node is a heading with an id that is not empty. -/
def Node.isNamedHeading (n : Node) : Bool :=
  n.headingLevel.isSome && (n.attrs.get? "id").any Value.isTruthy

/-- An entry of an outline tells the level, the id and the text of a heading. -/
structure HeadingRef.Tells (h : HeadingRef) (n : Node) : Prop where
  level : n.headingLevel = some h.level
  slug : n.attrs.get? "id" = some (.str h.slug)
  text : h.text = Text.strip n.textContent

namespace Node

theorem kind_of_headingLevel {n : Node} {level : Nat} (h : n.headingLevel = some level) :
    n.kind = .element := by
  unfold headingLevel at h
  split at h
  · rename_i hkind
    exact beq_iff_eq.mp hkind
  · cases h

end Node

theorem HeadingRef.Tells.elementId? {h : HeadingRef} {n : Node} (hn : h.Tells n) :
    n.elementId? = some h.slug := by
  rw [Node.elementId?, if_pos (Node.kind_of_headingLevel hn.level), Node.idText?, hn.slug]
  rfl

namespace Payload

open Node

theorem headingRef_of_named {n : Node} (hid : n.IdIsText) (hn : n.isNamedHeading = true) :
    ∃ h : HeadingRef, headingRef n = .ok (some h) ∧ h.Tells n := by
  rw [isNamedHeading, Bool.and_eq_true, Option.isSome_iff_exists] at hn
  obtain ⟨⟨level, hlevel⟩, htruthy⟩ := hn
  obtain ⟨v, hv⟩ := Option.isSome_iff_exists.mp (Option.isSome_of_any htruthy)
  obtain ⟨slug, rfl⟩ := hid.exists_eq_str (kind_of_headingLevel hlevel) hv
  rw [hv] at htruthy
  have htruthy : (Value.str slug).isTruthy = true := htruthy
  refine ⟨⟨slug, Text.strip n.textContent, level⟩, ?_, hlevel, hv, rfl⟩
  rw [headingRef, hlevel, hv]
  simp [htruthy]

theorem headingRef_of_not_named {n : Node} (hn : n.isNamedHeading = false) :
    headingRef n = .ok none := by
  unfold headingRef
  split
  · rename_i level id hlevel hid
    rw [isNamedHeading, hlevel, hid, Option.isSome_some, Bool.true_and, Option.any_some] at hn
    simp [hn]
  · rfl

theorem exists_headingRefs {ns : List Node} (hns : ∀ n ∈ ns, n.IdIsText) :
    ∃ hs, headingRefs ns = .ok hs ∧
      List.Forall₂ HeadingRef.Tells hs (ns.filter isNamedHeading) := by
  induction ns with
  | nil => exact ⟨[], rfl, .nil⟩
  | cons n rest ih =>
      rw [List.forall_mem_cons] at hns
      obtain ⟨others, hothers, htells⟩ := ih hns.2
      cases hn : n.isNamedHeading with
      | true =>
          obtain ⟨h, hh, hself⟩ := headingRef_of_named hns.1 hn
          refine ⟨h :: others, ?_, ?_⟩
          · rw [headingRefs, hh, hothers]
            rfl
          · rw [List.filter_cons_of_pos hn]
            exact .cons hself htells
      | false =>
          refine ⟨others, ?_, ?_⟩
          · rw [headingRefs, headingRef_of_not_named hn, hothers]
            rfl
          · rw [List.filter_cons_of_neg (by simp [hn])]
            exact htells

theorem slugs_eq_filterMap {hs : List HeadingRef} {ns : List Node}
    (h : List.Forall₂ HeadingRef.Tells hs ns) :
    hs.map HeadingRef.slug = ns.filterMap elementId? := by
  induction h with
  | nil => rfl
  | cons hself _ ih => rw [List.map_cons, List.filterMap_cons, hself.elementId?, ih]

/-- A tree whose ids are texts of their own has an outline with slugs of their own. -/
theorem exists_outline {tree : Node} (htext : tree.All IdIsText)
    (hnodup : (elementIds [tree]).Nodup) :
    ∃ hs, outline tree = .ok hs ∧ (hs.map HeadingRef.slug).Nodup ∧
      List.Forall₂ HeadingRef.Tells hs (tree.walk.filter isNamedHeading) := by
  obtain ⟨hs, houtline, htells⟩ := exists_headingRefs htext
  refine ⟨hs, houtline, ?_, htells⟩
  rw [slugs_eq_filterMap htells]
  rw [elementIds, walk.walkAll, walk.walkAll, List.append_nil] at hnodup
  exact hnodup.sublist (List.filter_sublist.filterMap elementId?)

theorem outline_of_ofTree {tree : Node} {fm : FrontMatter} {warnings : List String} {p : Payload}
    (h : ofTree tree fm warnings = .ok p) : outline tree = .ok p.headings := by
  obtain ⟨hs, hhs, h⟩ := bind_eq_ok.mp h
  obtain ⟨digest, -, h⟩ := bind_eq_ok.mp h
  cases h
  exact hhs

end Payload

end SafeMarkdown
