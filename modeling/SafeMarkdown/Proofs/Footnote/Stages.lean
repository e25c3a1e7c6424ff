import SafeMarkdown.Proofs.Footnote.Parts
import SafeMarkdown.Proofs.Gfm.Autolink
import SafeMarkdown.Proofs.Gfm.Changes
import SafeMarkdown.Proofs.Heading.Linked

/-!
# Footnotes in the stages before sanitizing

Each stage that enriches a tree keeps the parts of footnotes that are in it: items may become tasks,
headings get ids and links, and only the text of a program is replaced.
-/

namespace SafeMarkdown

open Node Markdown

variable {grade : Grade} {n m : Node} {ns ms : List Node} {ps : List NotePart}

namespace Node

theorem Ordinary.setClass {tag : String} {attrs : Fields} (h : Ordinary tag attrs) (ha : tag ≠ "a")
    (v : Value) : Ordinary tag (attrs.set "class" v) where
  lower := h.lower
  safe := h.safe
  notSup := h.notSup
  handlers := by
    have hclass : Schema.isEventHandler "class" = false := by decide +kernel
    intro f hf
    rcases Fields.mem_set hf with hf | rfl
    · exact h.handlers f hf
    · exact hclass
  id := by
    intro f hf hname
    rcases Fields.mem_set hf with hf | rfl
    · exact h.id f hf hname
    · exact absurd hname lowercase_class_ne
  classes := fun heq ↦ (ha heq).elim

theorem Ordinary.setId {tag : String} {attrs : Fields} (h : Ordinary tag attrs)
    (htag : tag ∈ Heading.tags) (id : String) : Ordinary tag (attrs.set "id" (.str id)) where
  lower := h.lower
  safe := h.safe
  notSup := h.notSup
  handlers := by
    have hid : Schema.isEventHandler "id" = false := by decide +kernel
    intro f hf
    rcases Fields.mem_set hf with hf | rfl
    · exact h.handlers f hf
    · exact hid
  id := by
    intro f hf hname
    rcases Fields.mem_set hf with hf | rfl
    · exact h.id f hf hname
    · exact ⟨rfl, htag, id, rfl⟩
  classes := by
    intro heq
    rw [heq] at htag
    exact absurd htag (by decide)

/-- A heading is no part of a footnote. -/
theorem Holds.of_headingLevel (h : Holds grade n ps) (hlevel : n.headingLevel.isSome = true) :
    ∃ tag ∈ Heading.tags, n = Node.element tag n.attrs n.children n.data ∧
      Ordinary tag n.attrs ∧ HoldsAll grade n.children ps := by
  cases h with
  | @element tag attrs data children _ hhead hcode h =>
      refine ⟨tag, ?_, rfl, hhead, h⟩
      unfold headingLevel at hlevel
      rw [if_pos (by rfl)] at hlevel
      dsimp only [Node.element] at hlevel
      split at hlevel <;> simp_all [Heading.tags]
  | _ => cases hlevel

/-- A program holds no part of a footnote. -/
theorem Holds.of_code (h : Holds grade n ps) (hcode : n.isElement ["code"] = true) :
    ps = [] ∧ n = Node.element "code" n.attrs n.children n.data ∧ Ordinary "code" n.attrs := by
  cases h with
  | @element tag attrs data children _ hhead hnone h =>
      have htag : tag = "code" := by simpa [isElement, Node.element] using hcode
      subst htag
      exact ⟨hnone rfl, rfl, hhead⟩
  | _ => cases hcode

end Node

namespace Gfm

theorem holds_checkboxNode (checked : Bool) : Holds grade (checkboxNode checked) [] := by
  refine .element (ordinary_of_plain (by decide) ?_ ?_) (fun _ ↦ rfl) .nil
  · cases checked with
    | true => simp [plainNames]
    | false => simp [plainNames]
  · intro ha
    exact absurd ha (by decide)

theorem holds_withCheckbox? (h : HoldsAll grade ns ps) (hmark : withCheckbox? ns = some ms) :
    HoldsAll grade ms ps := by
  obtain ⟨n, rest, checked, after, rfl, htext, -, rfl⟩ := exists_of_withCheckbox? hmark
  cases h with
  | cons hn hrest =>
      cases hn with
      | text value => exact .cons (holds_checkboxNode checked) (.cons (.text _) hrest)
      | _ => cases htext

theorem holds_taskChildren? (h : HoldsAll grade ns ps) (hmark : taskChildren? ns = some ms) :
    HoldsAll grade ms ps := by
  rcases taskChildren?_cases hmark with ⟨first, rest, inner, rfl, hparagraph, hinner, rfl⟩ | hmark
  · cases h with
    | cons hn hrest =>
        rcases hn.rebuild with ⟨k, label, rfl⟩ | ⟨label, rfl⟩ | hrebuild
        · cases hparagraph
        · cases hparagraph
        · refine .cons (hrebuild inner ?_ fun qs hqs ↦ holds_withCheckbox? hqs hinner) hrest
          intro hnil
          rw [hnil] at hinner
          cases hinner
  · exact holds_withCheckbox? h hmark

theorem holds_addClasses {tag : String} {names : List String} (h : Holds grade n ps)
    (htag : n.tag = some tag) (hlist : tag ∈ ["li", "ul", "ol"])
    (hadd : n.addClasses names = .ok m) : Holds grade m ps := by
  obtain ⟨classes, hclasses, hadd⟩ := bind_eq_ok.mp hadd
  cases hadd
  cases h with
  | text value => cases htag
  | raw h value => cases htag
  | root h => cases htag
  | reference k label =>
      cases htag
      exact absurd hlist (by decide)
  | backlink label =>
      cases htag
      exact absurd hlist (by decide)
  | item k others h =>
      have heq : classes = .str "footnote-item" :: others := by
        simpa [noteItem, Node.classes, Node.element, Fields.get?, List.lookup_cons, Value.isTruthy]
          using hclasses.symm
      rw [heq, List.cons_append]
      exact .item k _ h
  | element hhead hcode h =>
      cases htag
      refine .element (hhead.setClass ?_ _) hcode h
      intro ha
      rw [ha] at hlist
      exact absurd hlist (by decide)
  | component hdata hsafe h => exact .component hdata hsafe h
  | dropped hgrade hdata hdropped h => exact .dropped hgrade hdata hdropped h

theorem holds_task? (h : Holds grade n ps) (htag : n.tag = some "li")
    (htask : task? n = .ok (some m)) : Holds grade m ps := by
  obtain ⟨children, hchildren, hclasses⟩ := task?_eq_some htask
  rcases h.rebuild with ⟨k, label, rfl⟩ | ⟨label, rfl⟩ | hrebuild
  · simp [footnoteReference, Node.element] at htag
  · simp [footnoteBacklink, Node.element] at htag
  · have hitem := hrebuild children ?_ fun qs hqs ↦ holds_taskChildren? hqs hchildren
    · exact holds_addClasses hitem htag (by decide) hclasses
    · intro hnil
      rw [hnil] at hchildren
      cases hchildren

theorem holds_of_forall₂
    (h : List.Forall₂ (fun n m ↦ ∀ ps, Holds grade n ps → Holds grade m ps) ns ms)
    (hns : HoldsAll grade ns ps) : HoldsAll grade ms ps := by
  induction h generalizing ps with
  | nil => exact hns
  | cons hfirst _ ih =>
      cases hns with
      | cons hn hrest => exact .cons (hfirst _ hn) (ih hrest)

theorem holds_markItems {found : Bool} (h : HoldsAll grade ns ps)
    (hmark : markItems ns = .ok (ms, found)) : HoldsAll grade ms ps := by
  refine holds_of_forall₂ ((forall₂_markItems hmark).imp fun n m hmark qs hn ↦ ?_) h
  rcases hmark with ⟨htag, htask⟩ | ⟨rfl, -⟩
  · exact holds_task? hn htag htask
  · exact hn

theorem holds_markTasks (h : Holds grade n ps) (hmark : markTasks n = .ok m) : Holds grade m ps := by
  rcases markTasks_cases hmark with ⟨hlist, children, found, hitems, hmarked⟩ | ⟨-, rfl⟩
  · rcases h.rebuild with ⟨k, label, rfl⟩ | ⟨label, rfl⟩ | hrebuild
    · cases hlist
    · cases hlist
    · have hrebuilt := hrebuild children ?_ fun qs hqs ↦ holds_markItems hqs hitems
      · rcases hmarked with hclasses | rfl
        · obtain ⟨-, htag⟩ := Bool.and_eq_true_iff.mp hlist
          obtain ⟨tag, htag, hmem⟩ := (Option.any_eq_true _ _).mp htag
          have hsub : tag ∈ ["li", "ul", "ol"] :=
            List.mem_cons_of_mem _ (List.contains_iff_mem.mp hmem)
          exact holds_addClasses hrebuilt htag hsub hclasses
        · exact hrebuilt
      · intro hnil
        rw [hnil] at hitems
        cases hitems
        rfl
  · exact h

theorem followsTasks_holds :
    FollowsTasks fun n m ↦ ∀ ps, Holds grade n ps → Holds grade m ps where
  refl _ _ hn := hn
  mark {n m children} h _ hbelow hmark ps hn := by
    rcases hn.rebuild with ⟨k, label, rfl⟩ | ⟨label, rfl⟩ | hrebuild
    · cases h
      exact hn
    · cases h
      exact hn
    · refine holds_markTasks (hrebuild children ?_ fun qs hqs ↦ holds_of_forall₂ hbelow hqs) hmark
      intro hnil
      rw [hnil] at hbelow
      cases hbelow
      rfl

theorem holds_linkNode (url : List Char) : Holds grade (linkNode url) [] := by
  refine .element (ordinary_of_plain (by decide) ?_ ?_) (fun _ ↦ rfl) (Holds.ofText _).single
  · simp [plainNames]
  · simp

theorem holds_autolink (text : String) : HoldsAll grade (autolink text) [] := by
  refine .of_forall fun n hn ↦ ?_
  cases isLinked_of_mem_autolink hn with
  | text => exact Holds.ofText _
  | link url => exact holds_linkNode url

theorem holds_flatten_of_forall₂ {parts : List (List Node)}
    (h : List.Forall₂ (fun n part ↦ ∀ ps, Holds grade n ps → HoldsAll grade part ps) ns parts)
    (hns : HoldsAll grade ns ps) : HoldsAll grade parts.flatten ps := by
  induction h generalizing ps with
  | nil => exact hns
  | cons hfirst _ ih =>
      cases hns with
      | cons hn hrest => exact (hfirst _ hn).append (ih hrest)

theorem followsLinks_holds (grade : Grade) :
    FollowsLinks fun n part ↦ ∀ ps, Holds grade n ps → HoldsAll grade part ps where
  refl _ _ hn := hn.single
  text htext ps hn := by
    obtain rfl := hn.eq_nil_of_isText htext
    exact holds_autolink _
  node {n parts} _ hbelow h ps hn := by
    rcases hn.rebuild with ⟨k, label, rfl⟩ | ⟨label, rfl⟩ | hrebuild
    · exact hn.single
    · exact hn.single
    · rw [h]
      refine (hrebuild parts.flatten ?_ fun qs hqs ↦ holds_flatten_of_forall₂ hbelow hqs).single
      intro hnil
      rw [hnil] at hbelow
      cases hbelow
      rfl

theorem holds_enrich (h : HoldsAll grade ns ps) (henrich : enrich (root ns) = .ok m) :
    ∃ ms, m = root ms ∧ HoldsAll grade ms ps := by
  obtain ⟨marked, hmarked, rfl⟩ := map_eq_ok.mp henrich
  obtain ⟨ms, hms, hmarked⟩ := bind_eq_ok.mp hmarked
  cases hmarked
  have htasks := holds_of_forall₂ (followsTasks_holds.taskListsAmong ns hms) h
  obtain ⟨parts, hparts, hlinked⟩ := (followsLinks_holds grade).linksAmong ms 0
  exact ⟨parts.flatten, congrArg root hparts, holds_flatten_of_forall₂ hlinked htasks⟩

end Gfm

namespace Heading

mutual

theorem holds_assignIds : (n : Node) → (taken : List String) → {ps : List NotePart} →
    Holds grade n ps → Holds grade (assignIds taken n).1 ps
  | ⟨kind, tag, attrs, children, value, data⟩, taken, ps, hn => by
      rcases hn.rebuild with ⟨k, label, heq⟩ | ⟨label, heq⟩ | hrebuild
      · rw [heq] at hn ⊢
        exact hn
      · rw [heq] at hn ⊢
        exact hn
      · rw [assignIds]
        dsimp only
        split
        · rename_i hlevel
          obtain ⟨name, hname, heq, hhead, hchildren⟩ := hn.of_headingLevel hlevel
          cases heq
          refine .element (hhead.setId hname _) ?_ (holds_assignIdsAll children _ hchildren)
          intro hcode
          rw [hcode] at hname
          exact absurd hname (by decide)
        · refine hrebuild (assignIdsAll taken children).1 ?_ fun qs hqs ↦
            holds_assignIdsAll children taken hqs
          intro hnil
          dsimp only at hnil
          rw [hnil, assignIdsAll]

theorem holds_assignIdsAll : (ns : List Node) → (taken : List String) → {ps : List NotePart} →
    HoldsAll grade ns ps → HoldsAll grade (assignIdsAll taken ns).1 ps
  | [], taken, ps, hns => by
      rw [assignIdsAll]
      exact hns
  | n :: rest, taken, ps, hns => by
      cases hns with
      | cons hn hrest =>
          rw [assignIdsAll]
          exact .cons (holds_assignIds n taken hn) (holds_assignIdsAll rest _ hrest)

end

theorem holds_anchor (id : Value) (h : HoldsAll grade ns ps) :
    Holds grade (anchor (some "anchor") id ns) ps := by
  have hanchor : Ordinary "a" [("href", .str ("#" ++ id.display)), ("class", .arr [.str "anchor"])] :=
    ordinary_of_plain (by decide) (by simp [plainNames]) (by simp)
  exact .element hanchor (fun hcode ↦ absurd hcode (by decide)) h

mutual

theorem holds_withLinks : (n : Node) → {ps : List NotePart} → Holds grade n ps →
    Holds grade (withLinks (some "anchor") n) ps
  | ⟨kind, tag, attrs, children, value, data⟩, ps, hn => by
      rcases hn.rebuild with ⟨k, label, heq⟩ | ⟨label, heq⟩ | hrebuild
      · rw [heq] at hn ⊢
        exact hn
      · rw [heq] at hn ⊢
        exact hn
      · rw [withLinks]
        split
        · rename_i level id hlevel hid
          obtain ⟨name, hname, heq, hhead, hchildren⟩ := hn.of_headingLevel (by rw [hlevel]; rfl)
          cases heq
          have hbelow := holds_withLinksAll children hchildren
          refine .element hhead ?_ ?_
          · intro hcode
            rw [hcode] at hname
            exact absurd hname (by decide)
          · split
            · exact (holds_anchor id hbelow).single
            · exact hbelow
        · refine hrebuild (withLinksAll (some "anchor") children) ?_ fun qs hqs ↦
            holds_withLinksAll children hqs
          intro hnil
          dsimp only at hnil
          rw [hnil, withLinksAll]

theorem holds_withLinksAll : (ns : List Node) → {ps : List NotePart} → HoldsAll grade ns ps →
    HoldsAll grade (withLinksAll (some "anchor") ns) ps
  | [], ps, hns => by
      rw [withLinksAll]
      exact hns
  | n :: rest, ps, hns => by
      cases hns with
      | cons hn hrest =>
          rw [withLinksAll]
          exact .cons (holds_withLinks n hn) (holds_withLinksAll rest hrest)

end

/-- The headings of a document get their ids and their links. -/
theorem holds_headings (h : HoldsAll grade ns ps) :
    ∃ ms, withLinks (some "anchor") (withIds (root ns)) = root ms ∧ HoldsAll grade ms ps :=
  ⟨_, rfl, holds_withLinksAll _ (holds_assignIdsAll ns [] h)⟩

end Heading

namespace Code

variable {config : PipelineConfig}

theorem holds_spans (ls : List Lexeme) : HoldsAll grade (spans ls) [] := by
  refine .of_forall fun n hn ↦ ?_
  obtain ⟨r, -, rfl⟩ := List.mem_map.mp hn
  unfold Run.node
  dsimp only
  split
  · exact .ofText _
  · have hspan : Ordinary "span" [("class", .arr [.str r.cssClass])] :=
      ordinary_of_plain (by decide) (by simp [plainNames]) fun ha ↦ absurd ha (by decide)
    exact .element hspan (fun _ ↦ rfl) (Holds.ofText _).single

theorem returns_highlight_ofText {s : String} {noted after : Notes}
    (h : ((highlight config (ofText s)).run noted).Returns (m, after)) : m = ofText s := by
  obtain ⟨nodes, mid, hnodes, rfl⟩ := Heading.returns_highlight_of_not_code h rfl
  cases Logged.returns_pure hnodes
  rfl

theorem returns_highlight_singleton {tag : String} {attrs : Fields} (htag : tag ≠ "code")
    (hn : ∀ m noted after, ((highlight config n).run noted).Returns (m, after) → m = n)
    {noted after : Notes}
    (h : ((highlight config (element tag attrs [n])).run noted).Returns (m, after)) :
    m = element tag attrs [n] := by
  have hcode : (element tag attrs [n]).isElement ["code"] = false := by
    simp [isElement, element, htag]
  obtain ⟨nodes, mid, hnodes, rfl⟩ := Heading.returns_highlight_of_not_code h hcode
  obtain ⟨⟨first, last⟩, hfirst, hnodes⟩ := Staged.returns_bind hnodes
  obtain ⟨⟨others, last'⟩, hothers, hnodes⟩ := Staged.returns_bind hnodes
  cases Logged.returns_pure hothers
  cases Logged.returns_pure hnodes
  rw [hn first _ _ hfirst]
  rfl

theorem returns_highlight_footnoteReference {k label : String} {noted after : Notes}
    (h : ((highlight config (footnoteReference k label)).run noted).Returns (m, after)) :
    m = footnoteReference k label := by
  refine returns_highlight_singleton (by decide) (fun link noted after hlink ↦ ?_) h
  exact returns_highlight_singleton (by decide) (fun _ _ _ ↦ returns_highlight_ofText) hlink

theorem returns_highlight_footnoteBacklink {label : String} {noted after : Notes}
    (h : ((highlight config (footnoteBacklink label)).run noted).Returns (m, after)) :
    m = footnoteBacklink label :=
  returns_highlight_singleton (by decide) (fun _ _ _ ↦ returns_highlight_ofText) h

mutual

theorem holds_highlight : (n : Node) → {m : Node} → {ps : List NotePart} → {noted after : Notes} →
    Holds grade n ps → ((highlight config n).run noted).Returns (m, after) → Holds grade m ps
  | ⟨kind, tag, attrs, children, value, data⟩, m, ps, noted, after, hn, h => by
      rcases hn.rebuild with ⟨k, label, heq⟩ | ⟨label, heq⟩ | hrebuild
      · rw [heq] at hn h
        rw [returns_highlight_footnoteReference h]
        exact hn
      · rw [heq] at hn h
        rw [returns_highlight_footnoteBacklink h]
        exact hn
      · rcases highlight_cases h with
          ⟨language, nodes, mid, hfound, rfl⟩ | ⟨nodes, mid, hnodes, rfl⟩
        · obtain ⟨hcode, ls, rfl⟩ := returns_highlighting hfound
          obtain ⟨rfl, heq, hhead⟩ := hn.of_code hcode
          cases heq
          exact .element hhead (fun _ ↦ rfl) (holds_spans ls)
        · refine hrebuild nodes ?_ fun qs hqs ↦ holds_highlightAll children hqs hnodes
          intro hnil
          dsimp only at hnil hnodes
          rw [hnil] at hnodes
          cases Logged.returns_pure hnodes
          rfl

theorem holds_highlightAll : (ns : List Node) → {ms : List Node} → {ps : List NotePart} →
    {noted after : Notes} → HoldsAll grade ns ps →
    ((highlightAll config ns).run noted).Returns (ms, after) → HoldsAll grade ms ps
  | [], ms, ps, noted, after, hns, h => by
      cases Logged.returns_pure h
      exact hns
  | n :: rest, ms, ps, noted, after, hns, h => by
      cases hns with
      | cons hn hrest =>
          obtain ⟨⟨m, mid⟩, hm, h⟩ := Staged.returns_bind h
          obtain ⟨⟨others, last⟩, hothers, h⟩ := Staged.returns_bind h
          cases Logged.returns_pure h
          exact .cons (holds_highlight n hn hm) (holds_highlightAll rest hrest hothers)

end

theorem holds_highlight_root {noted after : Notes} (h : HoldsAll grade ns ps)
    (hm : ((highlight config (root ns)).run noted).Returns (m, after)) :
    ∃ ms, m = root ms ∧ HoldsAll grade ms ps := by
  obtain ⟨nodes, mid, hnodes, rfl⟩ := Heading.returns_highlight_of_not_code hm rfl
  exact ⟨nodes, rfl, holds_highlightAll ns h hnodes⟩

end Code

end SafeMarkdown
