import SafeMarkdown.Proofs.Heading.Descent
import SafeMarkdown.Proofs.Sanitizer.Descent
import SafeMarkdown.Proofs.Sanitizer.Ids

/-!
# Links around headings

A heading with an id holds one link to itself. Each stage after the one that makes the link keeps
both: the standard schema lets them through as they are, and only their contents change.
-/

namespace SafeMarkdown

open Node

namespace Schema

theorem urlScheme_fragment (s : String) : urlScheme ("#" ++ s) = none := by
  have hlower (cs : List Char) : ∃ more, Text.lower ('#' :: cs) = '#' :: more := by
    have hchar : Text.lowerChar '#' = ['#'] := by decide
    rw [Text.lower, Text.lowerAfter, hchar]
    exact ⟨_, rfl⟩
  have hlist : ("#" ++ s).toList = '#' :: s.toList := by
    rw [String.toList_append]
    rfl
  obtain ⟨more, hmore⟩ := hlower (s.toList.filter fun c ↦ 0x20 < c.toNat)
  rw [urlScheme, hlist, List.filter_cons_of_pos (by decide), hmore]
  rfl

/-- What the standard schema says of headings with an id, of links, and of their attributes. -/
theorem standard_allows :
    (∀ tag ∈ Heading.tags, Text.lowercase tag = tag ∧ standard.allowsTag tag = true ∧
      standard.allowsAttribute tag "id" = true) ∧
    (Text.lowercase "a" = "a" ∧ standard.allowsTag "a" = true ∧
      standard.allowsAttribute "a" "href" = true ∧ standard.allowsAttribute "a" "class" = true) ∧
    standard.protocols.lookup (Text.lowercase "id") = none ∧
    standard.protocols.lookup (Text.lowercase "class") = none := by
  decide +kernel

theorem standard_heading {tag : String} (h : tag ∈ Heading.tags) :
    Text.lowercase tag = tag ∧ standard.allowsTag tag = true ∧
      standard.allowsAttribute tag "id" = true :=
  standard_allows.1 tag h

theorem standard_link :
    Text.lowercase "a" = "a" ∧ standard.allowsTag "a" = true ∧
      standard.allowsAttribute "a" "href" = true ∧ standard.allowsAttribute "a" "class" = true :=
  standard_allows.2.1

theorem standard_protocols :
    standard.protocols.lookup (Text.lowercase "id") = none ∧
      standard.protocols.lookup (Text.lowercase "class") = none :=
  standard_allows.2.2

theorem allowsUrl_of_lookup_eq_none {s : Schema} {name : String}
    (h : s.protocols.lookup (Text.lowercase name) = none) (v : Value) :
    s.allowsUrl name v = true := by
  unfold allowsUrl
  rw [h]

theorem allowsUrl_fragment (s : Schema) (name slug : String) :
    s.allowsUrl name (.str ("#" ++ slug)) = true := by
  unfold allowsUrl
  split
  · rename_i hvalue
    cases hvalue
    rw [urlScheme_fragment]
  · rfl

end Schema

namespace Sanitizer

theorem exists_of_admitBelow {n m : Node} {removals : List Removal}
    (h : admitBelow n = .ok (m, removals)) : ∃ nodes, m = { n with children := nodes } := by
  obtain ⟨kind, tag, attrs, children, value, data⟩ := n
  have hbare := bare_admitBelow h
  obtain ⟨kind', tag', attrs', children', value', data'⟩ := m
  cases hbare
  exact ⟨children', rfl⟩

/-- An allowed element that has none but allowed attributes stays as it is. -/
theorem filterNode_element {s : Schema} {tag : String} {attrs : Fields}
    (htag : Text.lowercase tag = tag) (hallowed : s.allowsTag tag = true)
    (hattrs : (filterAttributes s tag attrs).1 = attrs) (children : List Node)
    (data : Fields) :
    (filterNode s (element tag attrs children data)).1 =
      [element tag attrs (mergeText (filterAll s children).1) data] := by
  rw [element, filterNode]
  dsimp only
  rw [Option.getD_some, htag, if_pos hallowed]
  dsimp only
  rw [hattrs]
  rfl

end Sanitizer

namespace Heading

variable {anchorClass : Option String} {level : Nat} {slug : String} {g m n : Node}

/-- A heading of a level with a slug for its id, around one link to itself. -/
def Linked (anchorClass : Option String) (level : Nat) (slug : String) (n : Node) : Prop :=
  ∃ children, n = node level [("id", .str slug)] [anchor anchorClass (.str slug) children]

/-- The attributes of the link of a heading. -/
inductive LinkAttrs (slug : String) : Fields → Prop where
  | plain : LinkAttrs slug [("href", .str ("#" ++ slug))]
  | classed (c : String) :
      LinkAttrs slug [("href", .str ("#" ++ slug)), ("class", .arr [.str c])]

theorem exists_anchor_eq (anchorClass : Option String) (slug : String) :
    ∃ attrs, LinkAttrs slug attrs ∧
      ∀ children, anchor anchorClass (.str slug) children = element "a" attrs children := by
  cases anchorClass with
  | none => exact ⟨_, .plain, fun children ↦ rfl⟩
  | some c =>
      cases hc : c.isEmpty with
      | true => exact ⟨_, .plain, fun children ↦ by rw [anchor]; simp [hc, Value.display]⟩
      | false => exact ⟨_, .classed c, fun children ↦ by rw [anchor]; simp [hc, Value.display]⟩

theorem linked_withLinks (hlevel : IsLevel level) (hslug : slug ≠ "") (children : List Node) :
    Linked anchorClass level slug
      (withLinks anchorClass (node level [("id", .str slug)] children)) := by
  refine ⟨withLinksAll anchorClass children, ?_⟩
  have hheading := headingLevel_node hlevel [("id", .str slug)] children
  have htruthy : (Value.str slug).isTruthy = true := by simpa [Value.isTruthy] using hslug
  rw [node, element] at hheading ⊢
  rw [withLinks, hheading]
  rw [show Fields.get? [("id", Value.str slug)] "id" = some (.str slug) from rfl]
  dsimp only
  rw [if_pos htruthy]
  rfl

theorem not_code_of_heading (hlevel : IsLevel level) (attrs : Fields) (children : List Node) :
    (node level attrs children).isElement ["code"] = false := by
  have htag := tag_mem_tags hlevel
  have hne : "h" ++ Nat.repr level ≠ "code" := fun heq ↦ by
    rw [heq] at htag
    exact absurd htag (by decide)
  simp [isElement, node, element, hne]

variable {config : PipelineConfig} {noted after : Notes}

theorem returns_highlight_of_not_code
    (h : ((Code.highlight config n).run noted).Returns (m, after))
    (hcode : n.isElement ["code"] = false) :
    ∃ nodes mid, ((Code.highlightAll config n.children).run mid).Returns (nodes, after) ∧
      m = { n with children := nodes } := by
  rcases Code.highlight_cases h with ⟨language, nodes, mid, hfound, -⟩ | hbelow
  · rw [(Code.returns_highlighting hfound).1] at hcode
    cases hcode
  · exact hbelow

theorem Linked.highlighted (hlevel : IsLevel level) (h : Linked anchorClass level slug g)
    (hm : Code.Highlighted config g m) : Linked anchorClass level slug m := by
  obtain ⟨children, rfl⟩ := h
  obtain ⟨noted, after, hm⟩ := hm
  obtain ⟨nodes, mid, hnodes, rfl⟩ :=
    returns_highlight_of_not_code hm (not_code_of_heading hlevel _ _)
  obtain ⟨⟨link, last⟩, hlink, hnodes⟩ := Staged.returns_bind hnodes
  obtain ⟨⟨others, last'⟩, hothers, hnodes⟩ := Staged.returns_bind hnodes
  cases Logged.returns_pure hothers
  cases Logged.returns_pure hnodes
  obtain ⟨attrs, -, hanchor⟩ := exists_anchor_eq anchorClass slug
  rw [hanchor] at hlink
  obtain ⟨inner, mid', -, rfl⟩ := returns_highlight_of_not_code hlink rfl
  refine ⟨inner, ?_⟩
  rw [hanchor inner]
  rfl

theorem Linked.admitted (h : Linked anchorClass level slug g) (hm : Sanitizer.Admitted g m) :
    Linked anchorClass level slug m := by
  obtain ⟨children, rfl⟩ := h
  obtain ⟨removals, hm⟩ := hm
  obtain ⟨attrs, -, hanchor⟩ := exists_anchor_eq anchorClass slug
  rw [node, element, Sanitizer.admitBelow, if_neg (by decide), hanchor] at hm
  obtain ⟨⟨mids, below⟩, hmids, hm⟩ := bind_eq_ok.mp hm
  obtain ⟨⟨nodes, here⟩, hnodes, hm⟩ := bind_eq_ok.mp hm
  cases hm
  rw [Sanitizer.admitEach] at hmids
  obtain ⟨⟨link, first⟩, hlink, hmids⟩ := bind_eq_ok.mp hmids
  cases hmids
  obtain ⟨inner, rfl⟩ := Sanitizer.exists_of_admitBelow hlink
  cases hnodes
  refine ⟨inner, ?_⟩
  rw [hanchor inner]
  rfl

theorem filterAttributes_heading {tag : String} (htag : tag ∈ tags) (slug : String) :
    (Sanitizer.filterAttributes Schema.standard tag [("id", .str slug)]).1 =
      [("id", .str slug)] := by
  have hid := (Schema.standard_heading htag).2.2
  have hurl := Schema.allowsUrl_of_lookup_eq_none Schema.standard_protocols.1 (.str slug)
  simp [Sanitizer.filterAttributes, hid, hurl, lowercase_id, Fields.set]

theorem filterAttributes_link {attrs : Fields} (h : LinkAttrs slug attrs) :
    (Sanitizer.filterAttributes Schema.standard "a" attrs).1 = attrs := by
  obtain ⟨-, -, hhref, hclass⟩ := Schema.standard_link
  have hlower : Text.lowercase "href" = "href" ∧ Text.lowercase "class" = "class" := by
    decide +kernel
  have hurl := Schema.allowsUrl_fragment Schema.standard "href" slug
  cases h with
  | plain => simp [Sanitizer.filterAttributes, hhref, hurl, hlower.1, Fields.set]
  | classed c =>
      have hfree := Schema.allowsUrl_of_lookup_eq_none Schema.standard_protocols.2 (.arr [.str c])
      simp [Sanitizer.filterAttributes, hhref, hclass, hurl, hfree, hlower.1, hlower.2, Fields.set]

theorem Linked.filtered (hlevel : IsLevel level) (h : Linked anchorClass level slug g)
    (hm : Sanitizer.Filtered Schema.standard g m) : Linked anchorClass level slug m := by
  rcases hm with hm | rfl
  · obtain ⟨children, rfl⟩ := h
    obtain ⟨attrs, hlink, hanchor⟩ := exists_anchor_eq anchorClass slug
    have htag := tag_mem_tags hlevel
    obtain ⟨hlower, hallowed, -⟩ := Schema.standard_heading htag
    rw [node, Sanitizer.filterNode_element hlower hallowed (filterAttributes_heading htag slug),
      List.mem_singleton] at hm
    have hbelow := Sanitizer.filterNode_element Schema.standard_link.1 Schema.standard_link.2.1
      (filterAttributes_link hlink) children []
    refine ⟨mergeText (Sanitizer.filterAll Schema.standard children).1, ?_⟩
    rw [hm, node, Sanitizer.filterAll, hanchor children]
    dsimp only
    rw [hbelow, hanchor (mergeText (Sanitizer.filterAll Schema.standard children).1)]
    rfl
  · exact h

theorem elementId?_link {attrs : Fields} (h : LinkAttrs slug attrs) (children : List Node) :
    (element "a" attrs children).elementId? = none := by
  cases h with
  | plain => rfl
  | classed c => rfl

theorem Linked.deduped {reserved : List String} (h : Linked anchorClass level slug g)
    (hm : Sanitizer.Deduped reserved g m) : Linked anchorClass level slug m := by
  obtain ⟨children, rfl⟩ := h
  obtain ⟨⟨kept, rfl⟩, hattrs⟩ := hm
  obtain ⟨attrs, hlink, hanchor⟩ := exists_anchor_eq anchorClass slug
  obtain ⟨attrs', kept', -, heq, -⟩ := Sanitizer.exists_idStep reserved kept
    (node level [("id", .str slug)] [anchor anchorClass (.str slug) children])
  obtain ⟨attrs'', kept'', hstep, heq', -⟩ := Sanitizer.exists_idStep reserved kept'
    (element "a" attrs children)
  rw [heq] at hattrs
  have hsame : attrs'' = attrs := by
    cases hstep with
    | keeps hid _ => rfl
    | loses hid _ =>
        rw [elementId?_link hlink] at hid
        cases hid
    | none hid => rfl
  refine ⟨(Sanitizer.distinctIdsAll reserved kept'' children).1, ?_⟩
  change attrs' = [("id", .str slug)] at hattrs
  rw [heq, hattrs, hanchor children]
  rw [hanchor (Sanitizer.distinctIdsAll reserved kept'' children).1]
  change node level _ (Sanitizer.distinctIdsAll reserved kept' [element "a" attrs children]).1 = _
  rw [Sanitizer.distinctIdsAll]
  dsimp only
  rw [heq', hsame]
  rfl

end Heading

end SafeMarkdown
