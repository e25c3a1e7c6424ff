import SafeMarkdown.Proofs.Footnote.Parts
import SafeMarkdown.Proofs.Heading.Linked
import SafeMarkdown.Proofs.Sanitizer.Resolved

/-!
# Footnotes and the standard schema

The standard schema lets the parts of footnotes through with all their attributes; an element that
it does not know gives way to its children, and the components that it drops are those whose parts
do not count.
-/

namespace SafeMarkdown

open Node Markdown

variable {grade : Grade} {n : Node} {ns : List Node} {ps : List NotePart}

namespace Node

/-- What holds of all nodes of a tree holds of those that are around texts only, too. -/
theorem all_ofText {P : Node → Prop} (htext : ∀ s, P (ofText s)) (s : String) : (ofText s).All P :=
  all_iff.mpr ⟨htext s, List.forall_mem_nil _⟩

mutual

/-- What holds of the nodes that hold parts of footnotes and of what is in a reference holds of all
nodes of a tree. -/
theorem Holds.all {P : Node → Prop} (htext : ∀ s, P (ofText s))
    (hlink : ∀ attrs s, P (Node.element "a" attrs [ofText s]))
    (hP : ∀ n ps, Holds grade n ps → P n) :
    {n : Node} → {ps : List NotePart} → Holds grade n ps → n.All P
  | _, _, .text value => all_iff.mpr ⟨hP _ _ (.text value), List.forall_mem_nil _⟩
  | _, _, .raw h value => all_iff.mpr ⟨hP _ _ (.raw h value), List.forall_mem_nil _⟩
  | _, _, .reference n label => by
      refine all_iff.mpr ⟨hP _ _ (.reference n label), List.forall_mem_singleton.mpr ?_⟩
      exact all_iff.mpr ⟨hlink _ _, List.forall_mem_singleton.mpr (all_ofText htext _)⟩
  | _, _, .backlink label =>
      all_iff.mpr ⟨hP _ _ (.backlink label), List.forall_mem_singleton.mpr (all_ofText htext _)⟩
  | _, _, .item n classes h =>
      all_iff.mpr ⟨hP _ _ (.item n classes h), h.all htext hlink hP⟩
  | _, _, .element hhead hcode h =>
      all_iff.mpr ⟨hP _ _ (.element hhead hcode h), h.all htext hlink hP⟩
  | _, _, .component hdata hsafe h =>
      all_iff.mpr ⟨hP _ _ (.component hdata hsafe h), h.all htext hlink hP⟩
  | _, _, .dropped hgrade hdata hdropped h =>
      all_iff.mpr ⟨hP _ _ (.dropped hgrade hdata hdropped h), h.all htext hlink hP⟩
  | _, _, .root h => all_iff.mpr ⟨hP _ _ (.root h), h.all htext hlink hP⟩

theorem HoldsAll.all {P : Node → Prop} (htext : ∀ s, P (ofText s))
    (hlink : ∀ attrs s, P (Node.element "a" attrs [ofText s]))
    (hP : ∀ n ps, Holds grade n ps → P n) :
    {ns : List Node} → {ps : List NotePart} → HoldsAll grade ns ps → ∀ n ∈ ns, n.All P
  | _, _, .nil => List.forall_mem_nil _
  | _, _, .cons h hrest =>
      List.forall_mem_cons.mpr ⟨h.all htext hlink hP, hrest.all htext hlink hP⟩

end

mutual

/-- Without raw markup, a parsed tree holds nothing but components to be dropped. -/
theorem Holds.bare : {n : Node} → {ps : List NotePart} → Holds .parsed n ps →
    n.All (fun m ↦ m.kind ≠ .raw) → Holds .bare n ps
  | _, _, .text value, _ => .text value
  | _, _, .raw h value, hn => ((all_iff.mp hn).1 rfl).elim
  | _, _, .reference n label, _ => .reference n label
  | _, _, .backlink label, _ => .backlink label
  | _, _, .item n classes h, hn => .item n classes (h.bare (all_iff.mp hn).2)
  | _, _, .element hhead hcode h, hn => .element hhead hcode (h.bare (all_iff.mp hn).2)
  | _, _, .component hdata hsafe h, hn => .component hdata hsafe (h.bare (all_iff.mp hn).2)
  | _, _, .dropped hgrade hdata hdropped h, hn =>
      .dropped (by decide) hdata hdropped (h.bare (all_iff.mp hn).2)
  | _, _, .root h, hn => .root (h.bare (all_iff.mp hn).2)

theorem HoldsAll.bare : {ns : List Node} → {ps : List NotePart} → HoldsAll .parsed ns ps →
    (∀ n ∈ ns, n.All fun m ↦ m.kind ≠ .raw) → HoldsAll .bare ns ps
  | _, _, .nil, _ => .nil
  | _, _, .cons h hrest, hns =>
      .cons (h.bare (List.forall_mem_cons.mp hns).1) (hrest.bare (List.forall_mem_cons.mp hns).2)

end

/-- Only an element carries the level of a heading. -/
theorem Holds.all_flagged (h : Holds grade n ps) :
    n.All fun m ↦ m.flagged "level" = true → m.kind = .element := by
  refine h.all (fun s hflag ↦ ?_) (fun _ _ _ ↦ rfl) fun n ps h hflag ↦ ?_
  · cases hflag
  · have hcomponent {data : Fields} (hdata : IsSettled data) :
        (data.get? "level").any Value.isTruthy = false := by
      rw [hdata "level" (by simp)]
      rfl
    cases h with
    | component hdata hsafe h =>
        rw [flagged, hcomponent hdata] at hflag
        cases hflag
    | dropped hgrade hdata hdropped h =>
        rw [flagged, hcomponent hdata] at hflag
        cases hflag
    | text value => cases hflag
    | raw h value => cases hflag
    | root h => cases hflag
    | _ => rfl

theorem Holds.ne_raw (hgrade : grade ≠ .parsed) (h : Holds grade n ps) : n.kind ≠ .raw := by
  cases h with
  | raw h value => exact (hgrade h).elim
  | _ => exact NodeKind.noConfusion

theorem Holds.all_ne_raw (hgrade : grade ≠ .parsed) (h : Holds grade n ps) :
    n.All fun m ↦ m.kind ≠ .raw :=
  h.all (fun _ ↦ NodeKind.noConfusion) (fun _ _ ↦ NodeKind.noConfusion) fun _ _ h ↦
    h.ne_raw hgrade

end Node

namespace Sanitizer

theorem admission_of_ne_raw {ms : List Node} {removals : List Removal}
    (hns : ∀ n ∈ ns, n.All fun m ↦ m.kind ≠ .raw) (h : admission ns = .ok (ms, removals)) :
    ms = ns := by
  rw [admission_of_rawless hns] at h
  cases h
  rfl

section Filter

/-- What the standard schema says of the elements that are parts of footnotes. -/
theorem standard_footnote :
    (Text.lowercase "sup" = "sup" ∧ Schema.standard.allowsTag "sup" = true ∧
      Schema.standard.allowsAttribute "sup" "class" = true) ∧
    (Text.lowercase "li" = "li" ∧ Schema.standard.allowsTag "li" = true ∧
      Schema.standard.allowsAttribute "li" "id" = true ∧
      Schema.standard.allowsAttribute "li" "class" = true) ∧
    Schema.standard.allowsAttribute "a" "id" = true ∧
    Text.lowercase "id" = "id" ∧ Text.lowercase "class" = "class" ∧
    Text.lowercase "href" = "href" := by
  decide +kernel

theorem allowsUrl_id (v : Value) : Schema.standard.allowsUrl "id" v = true :=
  Schema.allowsUrl_of_lookup_eq_none Schema.standard_protocols.1 v

theorem allowsUrl_class (v : Value) : Schema.standard.allowsUrl "class" v = true :=
  Schema.allowsUrl_of_lookup_eq_none Schema.standard_protocols.2 v

theorem filterAttributes_sup (v : Value) :
    (filterAttributes Schema.standard "sup" [("class", v)]).1 = [("class", v)] := by
  obtain ⟨⟨-, -, hallowed⟩, -, -, -, hclass, -⟩ := standard_footnote
  simp [filterAttributes, hallowed, allowsUrl_class, hclass, Fields.set]

theorem filterAttributes_item (id v : Value) :
    (filterAttributes Schema.standard "li" [("id", id), ("class", v)]).1 =
      [("id", id), ("class", v)] := by
  obtain ⟨-, ⟨-, -, hallowed, hallowed'⟩, -, hid, hclass, -⟩ := standard_footnote
  simp [filterAttributes, hallowed, hallowed', allowsUrl_id, allowsUrl_class, hid, hclass, Fields.set]

theorem filterAttributes_reference (slug : String) (id : Value) :
    (filterAttributes Schema.standard "a" [("href", .str ("#" ++ slug)), ("id", id)]).1 =
      [("href", .str ("#" ++ slug)), ("id", id)] := by
  obtain ⟨-, -, hallowed, hid, -, hhref⟩ := standard_footnote
  have hlink := Schema.standard_link.2.2.1
  have hurl := Schema.allowsUrl_fragment Schema.standard "href" slug
  simp [filterAttributes, hallowed, hlink, hurl, allowsUrl_id, hid, hhref, Fields.set]

theorem filterAll_singleton (s : Schema) (n : Node) :
    (filterAll s [n]).1 = (filterNode s n).1 := by
  simp [filterAll]

theorem mergeText_singleton (h : n.isText = false) : mergeText [n] = [n] := by
  simp [mergeText, h]

theorem mergeText_ofText {s : String} (h : s ≠ "") : mergeText [ofText s] = [ofText s] := by
  have hempty : (ofText s).text.isEmpty = false := by simpa [ofText, text] using h
  rw [mergeText, hempty]
  rfl

theorem filterNode_ofText (s : Schema) (text : String) :
    (filterNode s (ofText text)).1 = [ofText text] := by
  rw [ofText, filterNode]

theorem filterNode_footnoteBacklink (label : String) :
    (filterNode Schema.standard (footnoteBacklink label)).1 = [footnoteBacklink label] := by
  have hhref : "#fnref-" ++ label = "#" ++ ("fnref-" ++ label) := by
    rw [← String.append_assoc]
    rfl
  rw [footnoteBacklink, hhref, filterNode_element Schema.standard_link.1 Schema.standard_link.2.1
    (Heading.filterAttributes_link (.classed _)), filterAll_singleton, filterNode_ofText,
    mergeText_ofText (by decide)]

theorem filterNode_footnoteReference (k label : String) :
    (filterNode Schema.standard (footnoteReference k label)).1 = [footnoteReference k label] := by
  have hhref : "#fn-" ++ k = "#" ++ ("fn-" ++ k) := by
    rw [← String.append_assoc]
    rfl
  obtain ⟨⟨hlower, hallowed, -⟩, -⟩ := standard_footnote
  rw [footnoteReference, hhref, filterNode_element hlower hallowed (filterAttributes_sup _), filterAll_singleton,
    filterNode_element Schema.standard_link.1 Schema.standard_link.2.1
      (filterAttributes_reference _ _), filterAll_singleton, filterNode_ofText,
    mergeText_ofText (by simp), mergeText_singleton rfl]

theorem filterNode_noteItem (k : String) (classes : List Value) (children : List Node) :
    (filterNode Schema.standard (noteItem k classes children)).1 =
      [noteItem k classes (mergeText (filterAll Schema.standard children).1)] := by
  obtain ⟨-, ⟨hlower, hallowed, -⟩, -⟩ := standard_footnote
  rw [noteItem, filterNode_element hlower hallowed (filterAttributes_item _ _)]
  rfl

theorem ordinary_filterAttributes {s : Schema} {tag : String} {attrs : Fields}
    (h : Ordinary tag attrs) : Ordinary tag (filterAttributes s tag attrs).1 where
  lower := h.lower
  safe := h.safe
  notSup := h.notSup
  handlers := by
    intro f hf
    obtain ⟨g, -, rfl, hallowed, -⟩ := exists_of_mem_filterAttributes f hf
    simp only [Schema.allowsAttribute, Bool.and_eq_true, Bool.not_eq_true'] at hallowed
    exact hallowed.1
  id := by
    intro f hf hname
    obtain ⟨g, hg, rfl, -⟩ := exists_of_mem_filterAttributes f hf
    rw [Text.lowercase_lowercase] at hname
    exact ⟨hname, (h.id g hg hname).2⟩
  classes := by
    intro ha f hf hname
    obtain ⟨g, hg, rfl, -⟩ := exists_of_mem_filterAttributes f hf
    rw [Text.lowercase_lowercase] at hname
    exact h.classes ha g hg hname

/-- An element that the schema does not know gives way to its children. -/
theorem holds_filterNode_element {s : Schema} {tag : String} {attrs data : Fields}
    {children : List Node} (hhead : Ordinary tag attrs) (hcode : tag = "code" → ps = [])
    (h : HoldsAll grade (filterAll s children).1 ps) :
    HoldsAll grade (filterNode s (Node.element tag attrs children data)).1 ps := by
  rw [Node.element, filterNode]
  dsimp only
  rw [Option.getD_some, hhead.lower]
  split
  · have hself : Holds grade (Node.element tag (filterAttributes s tag attrs).1
        (mergeText (filterAll s children).1) data) ps :=
      .element (ordinary_filterAttributes hhead) hcode h.mergeText
    exact hself.single
  · split
    · rename_i hdrop
      rw [Bool.or_eq_true] at hdrop
      rcases hdrop with hdropped | hhandler
      · exact (hhead.safe (List.contains_iff_mem.mp hdropped)).elim
      · obtain ⟨f, hf, hon⟩ := List.any_eq_true.mp hhandler
        rw [hhead.handlers f hf] at hon
        cases hon
    · exact h.mergeText

mutual

/-- Filtering keeps the parts of footnotes and leaves no component that is to be dropped. -/
theorem holds_filterNode : {n : Node} → {ps : List NotePart} → Holds .bare n ps →
    HoldsAll .clean (filterNode Schema.standard n).1 ps
  | _, _, .text value => by
      rw [filterNode]
      exact Holds.single (.text value)
  | _, _, .raw h value => by cases h
  | _, _, .reference n label => by
      rw [filterNode_footnoteReference]
      exact Holds.single (.reference n label)
  | _, _, .backlink label => by
      rw [filterNode_footnoteBacklink]
      exact Holds.single (.backlink label)
  | _, _, .item n classes h => by
      rw [filterNode_noteItem]
      exact Holds.single (.item n classes (holds_filterAll h).mergeText)
  | _, _, .element hhead hcode h => holds_filterNode_element hhead hcode (holds_filterAll h)
  | _, _, .component hdata hsafe h => by
      rw [isDropped] at hsafe
      rw [filterNode, hsafe, if_neg Bool.false_ne_true]
      exact Holds.single (.component hdata hsafe (holds_filterAll h).mergeText)
  | _, _, .dropped hgrade hdata hdropped h => by
      rw [isDropped] at hdropped
      rw [filterNode, if_pos hdropped]
      exact .nil
  | _, _, .root h => by
      rw [Node.root, filterNode]
      exact Holds.single (.root (holds_filterAll h).mergeText)

theorem holds_filterAll : {ns : List Node} → {ps : List NotePart} → HoldsAll .bare ns ps →
    HoldsAll .clean (filterAll Schema.standard ns).1 ps
  | _, _, .nil => by
      rw [filterAll]
      exact .nil
  | _, _, .cons h hrest => by
      rw [filterAll]
      exact (holds_filterNode h).append (holds_filterAll hrest)

end

end Filter

end Sanitizer

end SafeMarkdown
