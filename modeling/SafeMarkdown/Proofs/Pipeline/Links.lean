import SafeMarkdown.Proofs.Footnote.Filter
import SafeMarkdown.Proofs.Gfm.Idempotent
import SafeMarkdown.Proofs.Heading.Linked
import SafeMarkdown.Proofs.Pipeline.Anchors
import SafeMarkdown.Proofs.Tree.Links

/-!
# Links inside links in the default pipeline

Of the links that the stages make, those around URLs never come to stand below another link, and
those of headings stand around whatever a heading holds. With the latter taken off, the links of a
tree stand no deeper in each other at the end than at the beginning.
-/

namespace SafeMarkdown

open Node

variable {n m : Node} {ns ms : List Node}

namespace Gfm

theorem linkDepthAll_withCheckbox?_le (h : withCheckbox? ns = some ms) :
    linkDepthAll ms ≤ linkDepthAll ns := by
  obtain ⟨n, rest, checked, after, rfl, -, -, rfl⟩ := exists_of_withCheckbox? h
  have hbox : (checkboxNode checked).linkDepth = 0 := by
    cases checked <;> decide +kernel
  have hafter : linkDepth { n with value := some after } = n.linkDepth := by
    rw [linkDepth_eq, linkDepth_eq]
    rfl
  rw [linkDepthAll, linkDepthAll, linkDepthAll, hbox, hafter]
  omega

theorem linkDepthAll_taskChildren?_le (h : taskChildren? ns = some ms) :
    linkDepthAll ms ≤ linkDepthAll ns := by
  rcases taskChildren?_cases h with ⟨first, rest, inner, rfl, -, hinner, rfl⟩ | h
  · have hle := linkDepthAll_withCheckbox?_le hinner
    have hweight : linkWeight { first with children := inner } = first.linkWeight := rfl
    rw [linkDepthAll, linkDepthAll, linkDepth_eq, linkDepth_eq first, hweight]
    dsimp only
    omega
  · exact linkDepthAll_withCheckbox?_le h

theorem linkDepthAll_of_forall₂ (h : List.Forall₂ (fun n m ↦ m.linkDepth ≤ n.linkDepth) ns ms) :
    linkDepthAll ms ≤ linkDepthAll ns := by
  induction h with
  | nil => exact Nat.le_refl _
  | cons hfirst _ ih =>
      rw [linkDepthAll, linkDepthAll]
      omega

theorem linkDepthAll_markItems_le {found : Bool} (h : markItems ns = .ok (ms, found)) :
    linkDepthAll ms ≤ linkDepthAll ns := by
  refine linkDepthAll_of_forall₂ ((forall₂_markItems h).imp fun n m hmark ↦ ?_)
  rcases hmark with ⟨-, htask⟩ | ⟨rfl, -⟩
  · obtain ⟨attrs, children, hchildren, rfl⟩ := exists_of_task? htask
    rw [linkDepth_eq, linkDepth_eq n]
    exact Nat.add_le_add_left (linkDepthAll_taskChildren?_le hchildren) _
  · exact Nat.le_refl _

theorem linkDepth_taskLists_le (n : Node) {m : Node} (h : taskLists n = .ok m) :
    m.linkDepth ≤ n.linkDepth := by
  have hR : FollowsTasks fun n m ↦ m.linkDepth ≤ n.linkDepth := by
    refine ⟨fun n ↦ Nat.le_refl _, fun {n m children} _ _ hbelow hmark ↦ ?_⟩
    have hbelow := linkDepthAll_of_forall₂ hbelow
    rw [linkDepth_eq, linkDepth_eq n]
    rcases exists_of_markTasks hmark with ⟨attrs, items, found, hitems, rfl⟩ | ⟨-, rfl⟩
    · exact Nat.add_le_add_left (Nat.le_trans (linkDepthAll_markItems_le hitems) hbelow) _
    · exact Nat.add_le_add_left hbelow _
  exact hR.taskLists n h

theorem linkDepth_le_one_of_isLinked (h : IsLinked n) : n.linkDepth ≤ 1 := by
  have htext (s : String) : (ofText s).linkDepth = 0 := rfl
  cases h with
  | text => rw [htext]; omega
  | link url =>
      have hweight : (linkNode url).linkWeight ≤ 1 := by
        rw [linkWeight]
        split <;> omega
      have hbelow : linkDepthAll (linkNode url).children = 0 := rfl
      rw [linkDepth_eq, hbelow]
      omega

theorem linkDepthAll_flatten_le {parts : List (List Node)}
    (h : List.Forall₂ (fun n part ↦ n.All SpellsLink → linkDepthAll part ≤ max 1 n.linkDepth) ns
      parts) (hns : ∀ n ∈ ns, n.All SpellsLink) :
    linkDepthAll parts.flatten ≤ max 1 (linkDepthAll ns) := by
  induction h with
  | nil => exact Nat.zero_le _
  | cons hfirst _ ih =>
      rw [List.forall_mem_cons] at hns
      have hfirst := hfirst hns.1
      have hrest := ih hns.2
      rw [List.flatten_cons, linkDepthAll_append, linkDepthAll]
      omega

/-- A URL is linked outside of links only, if these are spelled in lowercase. -/
theorem followsLinks_linkDepth :
    FollowsLinks fun n part ↦ n.All SpellsLink → linkDepthAll part ≤ max 1 n.linkDepth where
  refl n _ := linkDepthAll_le.mpr (List.forall_mem_singleton.mpr (Nat.le_max_right 1 _))
  text {n} _ _ := linkDepthAll_le.mpr fun k hk ↦
    Nat.le_trans (linkDepth_le_one_of_isLinked (isLinked_of_mem_autolink hk)) (Nat.le_max_left 1 _)
  node {n parts} hexempt hbelow h hn := by
    obtain ⟨hself, hchildren⟩ := all_iff.mp hn
    have hweight : n.linkWeight = 0 := by
      rw [linkWeight, if_neg]
      intro hlink
      rw [isElement_of_subset (hself hlink) (by decide)] at hexempt
      cases hexempt
    have hparts : linkDepthAll parts.flatten ≤ max 1 (linkDepthAll n.children) :=
      linkDepthAll_flatten_le hbelow hchildren
    have hlinks : (links n).linkDepth = linkDepthAll parts.flatten := by
      have hsame : linkWeight { n with children := parts.flatten } = n.linkWeight := rfl
      rw [h, linkDepth_eq, hsame, hweight, Nat.zero_add]
    rw [linkDepth_eq n, hweight, Nat.zero_add]
    exact linkDepthAll_le.mpr (List.forall_mem_singleton.mpr (hlinks ▸ hparts))

theorem linkDepth_links_le (n : Node) (hn : n.All SpellsLink) :
    (links n).linkDepth ≤ max 1 n.linkDepth :=
  linkDepthAll_le.mp (followsLinks_linkDepth.links n hn) _ List.mem_cons_self

end Gfm

namespace Heading

mutual

theorem linkDepth_assignIds : (n : Node) → (taken : List String) →
    (assignIds taken n).1.linkDepth = n.linkDepth
  | ⟨kind, tag, attrs, children, value, data⟩, taken => by
      rw [assignIds, linkDepth_eq ⟨kind, tag, attrs, children, value, data⟩]
      dsimp only
      split
      · rw [linkDepth_eq]
        dsimp only
        rw [linkDepthAll_assignIdsAll children]
        rfl
      · rw [linkDepth_eq]
        dsimp only
        rw [linkDepthAll_assignIdsAll children]
        rfl

theorem linkDepthAll_assignIdsAll : (ns : List Node) → (taken : List String) →
    linkDepthAll (assignIdsAll taken ns).1 = linkDepthAll ns
  | [], taken => by
      rw [assignIdsAll]
  | n :: rest, taken => by
      rw [assignIdsAll]
      dsimp only
      rw [linkDepthAll, linkDepthAll, linkDepth_assignIds n, linkDepthAll_assignIdsAll rest]

end

theorem isOwnLink_anchor (id : Value) (children : List Node) :
    (anchor (some "anchor") id children).isOwnLink = true := by
  have hlist : ("#" ++ id.display).toList = '#' :: id.display.toList := by
    rw [String.toList_append]
    rfl
  simp [anchor, isOwnLink, isElement, Node.element, hlist]

mutual

/-- The links that headings get do not count. -/
theorem foreignDepth_withLinks_le : (n : Node) → (heading : Bool) →
    foreignDepth heading [withLinks (some "anchor") n] ≤ n.linkDepth
  | ⟨kind, tag, attrs, children, value, data⟩, heading => by
      have hbelow (heading : Bool) := foreignDepth_withLinksAll_le children heading
      have hplain : foreignDepth heading
          [⟨kind, tag, attrs, withLinksAll (some "anchor") children, value, data⟩] ≤
            linkDepth ⟨kind, tag, attrs, children, value, data⟩ := by
        refine Nat.le_trans (foreignDepth_singleton_le _ _) ?_
        rw [linkDepth_eq]
        exact Nat.add_le_add_left (hbelow _) _
      rw [withLinks]
      split
      · rename_i level id hlevel hid
        split
        · refine Nat.le_trans (foreignDepth_singleton_le _ _) ?_
          rw [linkDepth_eq]
          refine Nat.add_le_add_left ?_ _
          have hheading : headingLevel ⟨kind, tag, attrs,
              [anchor (some "anchor") id (withLinksAll (some "anchor") children)], value, data⟩ =
                some level := hlevel
          rw [hheading]
          dsimp only
          rw [Option.isSome_some, foreignDepth_own (isOwnLink_anchor id _)]
          exact hbelow _
        · exact hplain
      · exact hplain

theorem foreignDepth_withLinksAll_le : (ns : List Node) → (heading : Bool) →
    foreignDepth heading (withLinksAll (some "anchor") ns) ≤ linkDepthAll ns
  | [], heading => by
      rw [withLinksAll]
      exact Nat.le_refl _
  | n :: rest, heading => by
      have hfirst := foreignDepth_withLinks_le n heading
      have hrest := foreignDepth_withLinksAll_le rest heading
      rw [withLinksAll, foreignDepth_cons, linkDepthAll]
      omega

end

end Heading

namespace Code

variable {config : PipelineConfig}

theorem linkDepthAll_spans (ls : List Lexeme) : linkDepthAll (spans ls) = 0 := by
  rw [linkDepthAll_eq_zero_iff]
  intro m hm
  obtain ⟨n, hn, hm⟩ := mem_walkAll.mp hm
  have hspan : Text.lowercase "span" ≠ "a" := by decide +kernel
  exact all_spans (P := fun n ↦ n.isAnyLink = false) (fun _ ↦ rfl)
    (fun _ _ ↦ by simp [isAnyLink, Node.element, tagName, hspan]) ls n hn m hm

mutual

theorem foreignDepth_highlight_le : (n : Node) → {m : Node} → {noted after : Notes} →
    ((highlight config n).run noted).Returns (m, after) → (heading : Bool) →
    foreignDepth heading [m] ≤ foreignDepth heading [n]
  | ⟨kind, tag, attrs, children, value, data⟩, m, noted, after, h, heading => by
      rcases highlight_cases h with ⟨language, nodes, mid, hfound, rfl⟩ | ⟨nodes, mid, hnodes, rfl⟩
      · obtain ⟨-, ls, rfl⟩ := returns_highlighting hfound
        have hspans := foreignDepth_le_linkDepthAll (spans ls)
        rw [linkDepthAll_spans] at hspans
        apply foreignDepth_singleton_mono
        · exact Nat.le_refl _
        · exact fun h ↦ h
        · exact Nat.le_trans (hspans _) (Nat.zero_le _)
      · apply foreignDepth_singleton_mono
        · exact Nat.le_refl _
        · exact fun h ↦ h
        · exact foreignDepth_highlightAll_le children hnodes _

theorem foreignDepth_highlightAll_le : (ns : List Node) → {ms : List Node} →
    {noted after : Notes} → ((highlightAll config ns).run noted).Returns (ms, after) →
    (heading : Bool) → foreignDepth heading ms ≤ foreignDepth heading ns
  | [], ms, noted, after, h, heading => by
      cases Logged.returns_pure h
      exact Nat.le_refl _
  | n :: rest, ms, noted, after, h, heading => by
      obtain ⟨⟨m, mid⟩, hm, h⟩ := Staged.returns_bind h
      obtain ⟨⟨others, last⟩, hothers, h⟩ := Staged.returns_bind h
      cases Logged.returns_pure h
      exact foreignDepth_cons_mono (foreignDepth_highlight_le n hm heading)
        (foreignDepth_highlightAll_le rest hothers heading)

end

end Code

namespace Sanitizer

theorem exists_of_isOwnLink (h : n.isOwnLink = true) :
    n.kind = .element ∧ n.tag = some "a" ∧ ∃ slug, Heading.LinkAttrs slug n.attrs := by
  obtain ⟨helement, hattrs⟩ := Bool.and_eq_true_iff.mp h
  obtain ⟨hkind, htag⟩ := Bool.and_eq_true_iff.mp helement
  obtain ⟨tag, htag, hmem⟩ := (Option.any_eq_true _ _).mp htag
  rw [List.mem_singleton.mp (List.contains_iff_mem.mp hmem)] at htag
  refine ⟨beq_iff_eq.mp hkind, htag, ?_⟩
  split at hattrs
  · rename_i url heq
    obtain ⟨slug, hslug⟩ := List.isPrefixOf_iff_prefix.mp hattrs
    have hurl : url = "#" ++ String.ofList slug := by
      rw [← String.toList_inj, String.toList_append, ← hslug]
      simp
    rw [heq, hurl]
    exact ⟨_, .classed _⟩
  · cases hattrs

theorem elementId?_of_isOwnLink (h : n.isOwnLink = true) : n.elementId? = none := by
  obtain ⟨kind, tag, attrs, children, value, data⟩ := n
  obtain ⟨rfl, rfl, slug, hattrs⟩ := exists_of_isOwnLink h
  exact Heading.elementId?_link hattrs children

/-- A schema lets through the links that headings have to themselves. -/
theorem isOwnLink_filterAttributes {tag : Option String} {attrs data : Fields}
    {children nodes : List Node} {value : Option String}
    (h : isOwnLink ⟨.element, tag, attrs, children, value, data⟩ = true) :
    isOwnLink ⟨.element, some (Text.lowercase (tag.getD "")),
      (filterAttributes Schema.standard (Text.lowercase (tag.getD "")) attrs).1, nodes, value,
      data⟩ = true := by
  obtain ⟨-, htag, slug, hattrs⟩ := exists_of_isOwnLink h
  dsimp only at htag hattrs
  rw [htag, Option.getD_some, Schema.standard_link.1, Heading.filterAttributes_link hattrs]
  rw [htag] at h
  exact h

theorem exists_tag_of_headingLevel (h : n.headingLevel.isSome = true) :
    ∃ tag ∈ Heading.tags, n.tag = some tag := by
  unfold headingLevel at h
  split at h
  · split at h
    case h_7 => cases h
    all_goals
      refine ⟨_, ?_, ‹_›⟩
      decide
  · cases h

mutual

theorem foreignDepth_filterNode_le : (n : Node) → (heading : Bool) →
    foreignDepth heading (filterNode Schema.standard n).1 ≤ foreignDepth heading [n]
  | ⟨.text, tag, attrs, children, value, data⟩, heading => by
      rw [filterNode]
  | ⟨.raw, tag, attrs, children, value, data⟩, heading => by
      rw [filterNode]
      exact Nat.zero_le _
  | ⟨.root, tag, attrs, children, value, data⟩, heading => by
      rw [filterNode]
      apply foreignDepth_singleton_mono
      · exact Nat.le_refl _
      · exact fun h ↦ h
      · exact Nat.le_trans (foreignDepth_mergeText_le _ _) (foreignDepth_filterAll_le children _)
  | ⟨.component, tag, attrs, children, value, data⟩, heading => by
      rw [filterNode]
      dsimp only
      split
      · exact Nat.zero_le _
      · apply foreignDepth_singleton_mono
        · exact Nat.le_refl _
        · intro h
          cases h
        · exact Nat.le_trans (foreignDepth_mergeText_le _ _) (foreignDepth_filterAll_le children _)
  | ⟨.element, tag, attrs, children, value, data⟩, heading => by
      have hbelow (heading : Bool) :
          foreignDepth heading (mergeText (filterAll Schema.standard children).1) ≤
            foreignDepth heading children :=
        Nat.le_trans (foreignDepth_mergeText_le _ _) (foreignDepth_filterAll_le children _)
      rw [filterNode]
      dsimp only
      split
      · apply foreignDepth_singleton_mono
        · rw [linkWeight, linkWeight]
          simp [isAnyLink, tagName]
        · exact isOwnLink_filterAttributes
        · refine Nat.le_trans ?_ (hbelow _)
          apply foreignDepth_anti
          intro hlevel
          obtain ⟨name, hname, htag⟩ := exists_tag_of_headingLevel hlevel
          dsimp only at htag
          subst htag
          rw [Option.getD_some, (Schema.standard_heading hname).1]
          exact hlevel
      · rename_i hdenied
        split
        · exact Nat.zero_le _
        · -- the tags of headings and of links are allowed
          have hlevel : (headingLevel ⟨.element, tag, attrs, children, value, data⟩).isSome =
              false := by
            apply Bool.eq_false_iff.mpr
            intro hlevel
            obtain ⟨name, hname, rfl⟩ := exists_tag_of_headingLevel hlevel
            obtain ⟨hlower, hallowed, -⟩ := Schema.standard_heading hname
            rw [Option.getD_some, hlower] at hdenied
            exact hdenied hallowed
          have hown : isOwnLink ⟨.element, tag, attrs, children, value, data⟩ = false := by
            apply Bool.eq_false_iff.mpr
            intro hown
            obtain ⟨-, rfl, -⟩ := exists_of_isOwnLink hown
            obtain ⟨hlower, hallowed, -⟩ := Schema.standard_link
            rw [Option.getD_some, hlower] at hdenied
            exact hdenied hallowed
          rw [foreignDepth_counted heading (by rw [hown, Bool.and_false]), hlevel]
          exact Nat.le_trans (hbelow heading) (Nat.le_trans (foreignDepth_le_false heading _)
            (Nat.le_add_left _ _))

theorem foreignDepth_filterAll_le : (ns : List Node) → (heading : Bool) →
    foreignDepth heading (filterAll Schema.standard ns).1 ≤ foreignDepth heading ns
  | [], heading => by
      rw [filterAll]
  | n :: rest, heading => by
      have hfirst := foreignDepth_filterNode_le n heading
      have hrest := foreignDepth_filterAll_le rest heading
      rw [filterAll]
      dsimp only
      rw [foreignDepth_append, foreignDepth_cons heading n]
      omega

end

mutual

theorem foreignDepth_distinctIds_le (reserved : List String) : (n : Node) → (kept : List String) →
    (heading : Bool) →
    foreignDepth heading [(distinctIds reserved kept n).1] ≤ foreignDepth heading [n]
  | ⟨kind, tag, attrs, children, value, data⟩, kept, heading => by
      obtain ⟨attrs', kept', hstep, heq, -⟩ :=
        exists_idStep reserved kept ⟨kind, tag, attrs, children, value, data⟩
      rw [heq]
      apply foreignDepth_singleton_mono
      · exact Nat.le_refl _
      · intro hown
        have hid := elementId?_of_isOwnLink hown
        cases hstep with
        | keeps hsome _ => exact hown
        | loses hsome _ =>
            rw [hid] at hsome
            cases hsome
        | none _ => exact hown
      · exact foreignDepth_distinctIdsAll_le reserved children kept' _

theorem foreignDepth_distinctIdsAll_le (reserved : List String) : (ns : List Node) →
    (kept : List String) → (heading : Bool) →
    foreignDepth heading (distinctIdsAll reserved kept ns).1 ≤ foreignDepth heading ns
  | [], kept, heading => by
      rw [distinctIdsAll]
  | n :: rest, kept, heading => by
      rw [distinctIdsAll]
      exact foreignDepth_cons_mono (foreignDepth_distinctIds_le reserved n kept heading)
        (foreignDepth_distinctIdsAll_le reserved rest _ heading)

end

end Sanitizer

namespace Pipeline

theorem keptByTasks_spellsLink : Gfm.KeptByTasks SpellsLink where
  withChildren h _ := h
  checkbox checked h := by
    have hinput : Text.lowercase "input" ≠ "a" := by decide +kernel
    simp [isAnyLink, Gfm.checkboxNode, Node.element, tagName, hinput] at h
  unchecked h _ _ := h
  withClasses h _ _ := h

theorem keptByTasks_ne_raw : Gfm.KeptByTasks fun n ↦ n.kind ≠ .raw where
  withChildren h _ := h
  checkbox _ := by simp [Gfm.checkboxNode, Node.element]
  unchecked h _ _ := h
  withClasses h _ _ := h

theorem keptByLinks_ne_raw : Gfm.KeptByLinks fun n ↦ n.kind ≠ .raw where
  withChildren h _ := h
  text _ := by simp [ofText]
  link _ := by simp [Gfm.linkNode, Node.element]

/-- The stages before sanitizing bring no raw markup into a tree. -/
theorem rawless_highlighted {config : PipelineConfig} {tree enriched highlighted : Node}
    {noted noted' : Notes} (hraw : Sanitizer.Rawless tree) (henrich : Gfm.enrich tree = .ok enriched)
    (hhighlight : ((Code.highlight config
      (Heading.withLinks config.anchorClass (Heading.withIds enriched))).run noted).Returns
        (highlighted, noted')) : Sanitizer.Rawless highlighted := by
  obtain ⟨marked, hmarked, rfl⟩ := map_eq_ok.mp henrich
  have hmarked : Sanitizer.Rawless marked := Gfm.all_taskLists keptByTasks_ne_raw tree hraw hmarked
  have henriched : Sanitizer.Rawless (Gfm.links marked) :=
    Gfm.all_links keptByLinks_ne_raw marked hmarked
  have htitled : Sanitizer.Rawless (Heading.withIds (Gfm.links marked)) :=
    Heading.all_assignIds (fun h _ _ ↦ h) _ [] henriched
  have hlinked : Sanitizer.Rawless
      (Heading.withLinks config.anchorClass (Heading.withIds (Gfm.links marked))) :=
    Heading.all_withLinks _ (fun h _ ↦ h) (fun _ _ ↦ by simp [Heading.anchor, Node.element]) _
      htitled
  have hspans (ls : List Code.Lexeme) : ∀ n ∈ Code.spans ls, n.All fun n ↦ n.kind ≠ .raw :=
    Code.all_spans (fun _ ↦ by simp [ofText]) (fun _ _ ↦ by simp [Node.element]) ls
  exact Code.all_highlight (fun h _ _ ↦ h) hspans _ hlinked hhighlight

/-- What the default pipeline makes of a tree, once it is known to satisfy something. -/
theorem exists_run_default {tree : Node} {q : Node → Prop} [DecidablePred q]
    (h : ((Pipeline.run ⟨{}, Markdown.Dialect.gfmLike, Stage.registered⟩
      tree).outcome.1.toOption.map fun r ↦ decide (q r.1)) = some true) :
    ∃ p out notes, (make {}).Returns p ∧ (p.run tree).Returns (out, notes) ∧ q out := by
  obtain ⟨⟨out, notes⟩, hrun, hq⟩ := Logged.exists_returns h
  exact ⟨_, out, notes, Logged.returns_of_outcome rfl, hrun, of_decide_eq_true hq⟩

/-- A heading and a list with URLs, behind a link to a page. -/
def linkedPage : Node :=
  root [
    element "p" [] [element "a" [("href", .str "/b")] [ofText "http://a.b"]],
    element "h2" [] [ofText "see http://c.d"],
    element "ul" [] [element "li" [] [ofText "www.e.f"]]]

def linkedHeading : Node :=
  root [element "h1" [] [element "a" [("href", .str "/b")] [ofText "x"]]]

def shoutedLink : Node :=
  root [element "A" [] [ofText "http://a.b"]]

end Pipeline

end SafeMarkdown
