import SafeMarkdown.Markdown.Tree
import SafeMarkdown.Proofs.Heading.Regular
import SafeMarkdown.Schema

/-!
# The parts of footnotes in a tree

Of a footnote a tree holds an item, references that link to the item, and links back to these
references. An item and a reference have ids; no other element has one but a heading.
-/

namespace SafeMarkdown

/-- A part of a footnote: its item under its number, a reference to the item with its own label, or
a link back to a reference. -/
inductive NotePart where
  | item (n : String)
  | reference (n label : String)
  | backlink (label : String)

namespace NotePart

/-- The id that a part of a footnote goes by. -/
def id? : NotePart → Option String
  | item n => some ("fn-" ++ n)
  | reference _ label => some ("fnref-" ++ label)
  | backlink _ => none

end NotePart

namespace Node

open Markdown

/-- The item of a footnote. -/
def noteItem (n : String) (classes : List Value) (children : List Node) : Node :=
  element "li"
    [("id", .str ("fn-" ++ n)), ("class", .arr (.str "footnote-item" :: classes))] children

/-- An element that is no part of a footnote and that sanitizing leaves in place. -/
structure Ordinary (tag : String) (attrs : Fields) : Prop where
  lower : Text.lowercase tag = tag
  safe : tag ∉ unsafeTags
  notSup : tag ≠ "sup"
  handlers : ∀ f ∈ attrs, Schema.isEventHandler f.1 = false
  id : ∀ f ∈ attrs, Text.lowercase f.1 = "id" →
    f.1 = "id" ∧ tag ∈ Heading.tags ∧ ∃ s, f.2 = .str s
  classes : tag = "a" → ∀ f ∈ attrs, Text.lowercase f.1 = "class" → f.2 = .arr [.str "anchor"]

/-- The tags of elements that are made without an id. -/
def plainTags : List String :=
  Heading.tags ++ ["p", "blockquote", "div", "ul", "ol", "li", "table", "thead", "tbody", "tr", "th",
    "td", "br", "hr", "code", "pre", "img", "strong", "em", "s", "a", "section", "input", "span"]

/-- The names of their attributes. -/
def plainNames : List String :=
  ["class", "style", "start", "align", "href", "title", "src", "alt", "type", "disabled", "checked"]

theorem ordinary_of_plain {tag : String} {attrs : Fields} (htag : tag ∈ plainTags)
    (hnames : ∀ f ∈ attrs, f.1 ∈ plainNames)
    (hclasses : tag = "a" → ∀ f ∈ attrs, f.1 = "class" → f.2 = .arr [.str "anchor"]) :
    Ordinary tag attrs := by
  have htags : ∀ t ∈ plainTags, Text.lowercase t = t ∧ t ∉ unsafeTags ∧ t ≠ "sup" := by
    decide +kernel
  have hlower : ∀ name ∈ plainNames,
      Text.lowercase name = name ∧ name ≠ "id" ∧ Schema.isEventHandler name = false := by
    decide +kernel
  obtain ⟨hself, hsafe, hsup⟩ := htags tag htag
  refine ⟨hself, hsafe, hsup, fun f hf ↦ (hlower f.1 (hnames f hf)).2.2, ?_, ?_⟩
  · intro f hf hid
    obtain ⟨hname, hne, -⟩ := hlower f.1 (hnames f hf)
    rw [hname] at hid
    exact (hne hid).elim
  · intro ha f hf hclass
    rw [(hlower f.1 (hnames f hf)).1] at hclass
    exact hclasses ha f hf hclass

theorem ordinary_of_attrs_nil {tag : String} (htag : tag ∈ plainTags) : Ordinary tag [] :=
  ordinary_of_plain htag (List.forall_mem_nil _) fun _ ↦ List.forall_mem_nil _

/-- Whether the content of a component is dropped with it. -/
def isDropped (tag : Option String) : Bool :=
  unsafeTags.contains (Text.lowercase (tag.getD ""))

/-- A component that is complete, and no heading. -/
def IsSettled (data : Fields) : Prop :=
  ∀ name ∈ ["open", "close", "level"], data.get? name = none

/-- What a tree may hold for sanitizing to take out: raw markup and components that are to be dropped,
only these components, or neither. -/
inductive Grade where
  | parsed
  | bare
  | clean
  deriving DecidableEq

mutual

/-- The parts of footnotes that a tree holds, in document order; those in components that are going
to be dropped do not count. -/
inductive Holds (grade : Grade) : Node → List NotePart → Prop
  | text (value : Option String) : Holds grade ⟨.text, none, [], [], value, []⟩ []
  | raw (h : grade = .parsed) (value : Option String) : Holds grade ⟨.raw, none, [], [], value, []⟩ []
  | reference (n label : String) : Holds grade (footnoteReference n label) [.reference n label]
  | backlink (label : String) : Holds grade (footnoteBacklink label) [.backlink label]
  | item (n : String) (classes : List Value) {children : List Node} {ps : List NotePart}
      (h : HoldsAll grade children ps) : Holds grade (noteItem n classes children) (.item n :: ps)
  | element {tag : String} {attrs data : Fields} {children : List Node} {ps : List NotePart}
      (hhead : Ordinary tag attrs) (hcode : tag = "code" → ps = [])
      (h : HoldsAll grade children ps) : Holds grade (element tag attrs children data) ps
  | component {tag : Option String} {attrs data : Fields} {children : List Node}
      {ps : List NotePart} (hdata : IsSettled data) (hsafe : isDropped tag = false)
      (h : HoldsAll grade children ps) :
      Holds grade ⟨.component, tag, attrs, children, none, data⟩ ps
  | dropped {tag : Option String} {attrs data : Fields} {children : List Node}
      {ps : List NotePart} (hgrade : grade ≠ .clean) (hdata : IsSettled data)
      (hdropped : isDropped tag = true)
      (h : HoldsAll grade children ps) :
      Holds grade ⟨.component, tag, attrs, children, none, data⟩ []
  | root {children : List Node} {ps : List NotePart} (h : HoldsAll grade children ps) :
      Holds grade (root children) ps

/-- The parts of footnotes that several trees hold. -/
inductive HoldsAll (grade : Grade) : List Node → List NotePart → Prop
  | nil : HoldsAll grade [] []
  | cons {n : Node} {ns : List Node} {ps qs : List NotePart} (h : Holds grade n ps)
      (hrest : HoldsAll grade ns qs) : HoldsAll grade (n :: ns) (ps ++ qs)

end

section Lists

variable {grade : Grade} {n : Node} {ns ms : List Node} {ps qs : List NotePart}

theorem Holds.ofText (s : String) : Holds grade (Node.ofText s) [] :=
  .text (some s)

theorem Holds.single (h : Holds grade n ps) : HoldsAll grade [n] ps := by
  have hall := HoldsAll.cons h .nil
  rwa [List.append_nil] at hall

theorem HoldsAll.append (h : HoldsAll grade ns ps) (h' : HoldsAll grade ms qs) :
    HoldsAll grade (ns ++ ms) (ps ++ qs) := by
  induction ns generalizing ps with
  | nil =>
      cases h
      exact h'
  | cons n ns ih =>
      cases h with
      | cons h hrest =>
          rw [List.cons_append, List.append_assoc]
          exact .cons h (ih hrest)

/-- Nodes that hold no part of a footnote. -/
theorem HoldsAll.of_forall (h : ∀ n ∈ ns, Holds grade n []) : HoldsAll grade ns [] := by
  induction ns with
  | nil => exact .nil
  | cons n ns ih =>
      rw [List.forall_mem_cons] at h
      exact .cons h.1 (ih h.2)

/-- New content with the same parts of footnotes. The links between a footnote and its references stand
around texts. -/
theorem Holds.rebuild (h : Holds grade n ps) :
    (∃ k label, n = Markdown.footnoteReference k label) ∨
      (∃ label, n = Markdown.footnoteBacklink label) ∨
      ∀ children : List Node, (n.children = [] → children = []) →
        (∀ qs, HoldsAll grade n.children qs → HoldsAll grade children qs) →
        Holds grade { n with children } ps := by
  cases h with
  | text value =>
      refine .inr (.inr fun children hnil _ ↦ ?_)
      rw [hnil rfl]
      exact .text value
  | raw h value =>
      refine .inr (.inr fun children hnil _ ↦ ?_)
      rw [hnil rfl]
      exact .raw h value
  | reference k label => exact .inl ⟨k, label, rfl⟩
  | backlink label => exact .inr (.inl ⟨label, rfl⟩)
  | item k classes h => exact .inr (.inr fun children _ hall ↦ .item k classes (hall _ h))
  | element hhead hcode h =>
      exact .inr (.inr fun children _ hall ↦ .element hhead hcode (hall _ h))
  | component hdata hsafe h =>
      exact .inr (.inr fun children _ hall ↦ .component hdata hsafe (hall _ h))
  | dropped hgrade hdata hdropped h =>
      exact .inr (.inr fun children _ hall ↦ .dropped hgrade hdata hdropped (hall _ h))
  | root h => exact .inr (.inr fun children _ hall ↦ .root (hall _ h))

theorem Holds.eq_nil_of_isText (h : Holds grade n ps) (htext : n.isText = true) : ps = [] := by
  cases h with
  | text value => rfl
  | _ => cases htext

theorem HoldsAll.mergeText (h : HoldsAll grade ns ps) : HoldsAll grade (mergeText ns) ps := by
  induction ns generalizing ps with
  | nil => exact h
  | cons n ns ih =>
      cases h with
      | cons hn hrest =>
          have hrest := ih hrest
          rw [Node.mergeText]
          split
          · rename_i htext
            obtain rfl := hn.eq_nil_of_isText htext
            split
            · exact hrest
            · split
              · rename_i hnil
                rw [hnil] at hrest
                exact .cons hn hrest
              · rename_i m more hmore
                rw [hmore] at hrest
                split
                · rename_i hmtext
                  cases hrest with
                  | cons hm hmore =>
                      obtain rfl := hm.eq_nil_of_isText hmtext
                      exact .cons (.ofText _) hmore
                · exact .cons hn hrest
          · exact .cons hn hrest

end Lists

end Node

end SafeMarkdown
