import SafeMarkdown.Code.Highlight
import SafeMarkdown.Proofs.Fields
import SafeMarkdown.Proofs.Returns
import SafeMarkdown.Proofs.Tree.Contents

/-!
# Changes that conserve what a tree holds

A change of a tree conserves what it holds if the tree stays in shape and its contents stay the
same, up to the checkboxes of list items. Most changes replace the children of a node and leave what
counts of the node itself.
-/

namespace SafeMarkdown

namespace Node

/-- A node whose classes can be read, and its language if it is a program. -/
structure Readable (n : Node) : Prop where
  classes : ∃ classes, n.classes = .ok classes
  language : ∃ name, Code.askedLanguage n = .ok name

theorem Readable.of_eq {n m : Node} (h : n.Readable)
    (hclass : m.attrs.get? "class" = n.attrs.get? "class")
    (hlang : Code.askedLanguage m = Code.askedLanguage n) : m.Readable := by
  obtain ⟨⟨classes, hclasses⟩, name, hname⟩ := h
  refine ⟨⟨classes, ?_⟩, name, hlang.trans hname⟩
  rw [Node.classes, hclass]
  exact hclasses

theorem all_readable_element {tag : String} {attrs : Fields} {children : List Node}
    (hclass : attrs.get? "class" = none ∨ ∃ items, attrs.get? "class" = some (.arr items))
    (h : ∀ n ∈ children, n.All Readable) : (element tag attrs children).All Readable := by
  refine all_iff.mpr ⟨⟨?_, none, ?_⟩, h⟩
  · rw [classes]
    rcases hclass with hnone | ⟨items, hsome⟩
    · exact ⟨[], by simp [element, hnone]⟩
    · simp only [element, hsome]
      cases items <;> exact ⟨_, rfl⟩
  · unfold Code.askedLanguage
    split <;> simp [element, Fields.get?]

theorem all_readable_ofText (s : String) : (ofText s).All Readable :=
  all_iff.mpr ⟨⟨⟨[], rfl⟩, none, rfl⟩, List.forall_mem_nil _⟩

/-- Nodes that hold letters alone, are in shape and can be read. -/
structure Spell (cs : List Char) (ns : List Node) : Prop where
  shaped : ∀ n ∈ ns, n.All Shaped
  readable : ∀ n ∈ ns, n.All Readable
  contents : contentsAll ns = cs.map .letter

namespace Spell

variable {cs cs' : List Char} {ns ns' : List Node}

theorem nil : Spell [] [] :=
  ⟨List.forall_mem_nil _, List.forall_mem_nil _, rfl⟩

theorem append (h : Spell cs ns) (h' : Spell cs' ns') : Spell (cs ++ cs') (ns ++ ns') := by
  refine ⟨List.forall_mem_append.mpr ⟨h.shaped, h'.shaped⟩,
    List.forall_mem_append.mpr ⟨h.readable, h'.readable⟩, ?_⟩
  rw [contentsAll_append, h.contents, h'.contents, List.map_append]

theorem ofText (cs : List Char) : Spell cs [Node.ofText (String.ofList cs)] := by
  refine ⟨List.forall_mem_singleton.mpr (all_shaped_ofText _),
    List.forall_mem_singleton.mpr (all_readable_ofText _), ?_⟩
  rw [contentsAll_singleton, contents_ofText, String.toList_ofList]

theorem element {tag : String} {attrs : Fields} (htag : tag ∉ ["li", "input", "code"])
    (hclass : attrs.get? "class" = none ∨ ∃ items, attrs.get? "class" = some (.arr items))
    (h : Spell cs ns) : Spell cs [Node.element tag attrs ns] := by
  refine ⟨List.forall_mem_singleton.mpr (all_shaped_element h.shaped),
    List.forall_mem_singleton.mpr (all_readable_element hclass h.readable), ?_⟩
  rw [contentsAll_singleton, contents_element htag, h.contents]

theorem textContent (h : Spell cs ns) : (root ns).textContent.toList = cs := by
  have hletters := letter_contents (root ns)
  have hroot : (root ns).contents = contentsAll ns := by
    rw [contents_of_not_isProgram (by simp [root]) (by rfl)]
    rfl
  rw [hroot, h.contents, letter_map] at hletters
  exact hletters.symm

end Spell

/-- A node with the head of another one: what counts of a node itself, not of its children, is the
same. -/
structure SameHead (n m : Node) : Prop where
  kind : m.kind = n.kind
  tag : m.tag = n.tag
  value : m.value = n.value
  opening : m.opening = n.opening
  program : m.isProgram = n.isProgram
  readable : n.Readable → m.Readable

namespace SameHead

variable {n : Node}

theorem withChildren (n : Node) (children : List Node) : SameHead n { n with children } :=
  ⟨rfl, rfl, rfl, rfl, rfl, fun h ↦ ⟨h.classes, h.language⟩⟩

theorem trans {m k : Node} (h : SameHead n m) (h' : SameHead m k) : SameHead n k :=
  ⟨h'.kind.trans h.kind, h'.tag.trans h.tag, h'.value.trans h.value, h'.opening.trans h.opening,
    h'.program.trans h.program, h'.readable ∘ h.readable⟩

theorem opening_set {name : String} (hkind : n.kind ≠ .component) (htype : name ≠ "type")
    (hchecked : name ≠ "checked") (v : Value) :
    Node.opening { n with attrs := n.attrs.set name v } = n.opening := by
  have hforeign : foreign? { n with attrs := n.attrs.set name v } = n.foreign? := by
    obtain ⟨kind, tag, attrs, children, value, data⟩ := n
    cases kind <;> first | rfl | exact (hkind rfl).elim
  have hbox : isCheckbox { n with attrs := n.attrs.set name v } = n.isCheckbox := by
    simp only [isCheckbox, isElement, Fields.get?_set_ne htype.symm]
  have hmark : (n.attrs.set name v).has "checked" = n.attrs.has "checked" := by
    rw [Fields.has_set, beq_eq_false_iff_ne.mpr hchecked, Bool.or_false]
  unfold Node.opening
  rw [hforeign, hbox, hmark]
  rfl

theorem withId (hkind : n.kind ≠ .component) (v : Value) :
    SameHead n { n with attrs := n.attrs.set "id" v } :=
  ⟨rfl, rfl, rfl, opening_set hkind (by decide) (by decide) v, rfl,
    fun h ↦ h.of_eq (Fields.get?_set_ne (by decide) v) rfl⟩

theorem withClasses (hkind : n.kind ≠ .component) (items : List Value) :
    SameHead n { n with attrs := n.attrs.set "class" (.arr items) } := by
  refine ⟨rfl, rfl, rfl, opening_set hkind (by decide) (by decide) _, rfl, fun h ↦ ⟨?_, h.language⟩⟩
  rw [classes, Fields.get?_set_self]
  cases items <;> exact ⟨_, rfl⟩

theorem withHighlighted (hkind : n.kind ≠ .component) (v : Value) :
    SameHead n { n with data := n.data.set "highlighted" v } := by
  have hlang : (n.data.set "highlighted" v).get? "lang" = n.data.get? "lang" :=
    Fields.get?_set_ne (by decide) v
  refine ⟨rfl, rfl, rfl, ?_, ?_, fun h ↦ h.of_eq rfl ?_⟩
  · obtain ⟨kind, tag, attrs, children, value, data⟩ := n
    cases kind <;> first | rfl | exact (hkind rfl).elim
  · simp only [isProgram, isElement, flagged, hlang]
  · unfold Code.askedLanguage
    simp only [hlang]
    rfl

/-- What a node with the head of another one holds differs by what their children hold: a text shows
none of it, and of what is in a program only some counts. -/
theorem contents {m : Node} (h : SameHead n m) :
    m.contents = n.contents ∨
      (n.isProgram = true ∧
        (contentsAll m.children = contentsAll n.children → m.contents = n.contents)) ∨
      ∃ front, n.contents = front ++ contentsAll n.children ∧
        m.contents = front ++ contentsAll m.children := by
  by_cases htext : n.kind = .text
  · refine .inl ?_
    rw [contents_text htext, contents_text (h.kind.trans htext), text, text, h.value]
  · have htext' : m.kind ≠ .text := fun hm ↦ htext (h.kind ▸ hm)
    cases hcase : n.isProgram with
    | true =>
        refine .inr (.inl ⟨rfl, fun hbelow ↦ ?_⟩)
        rw [contents_of_isProgram hcase, contents_of_isProgram (h.program.trans hcase), hbelow]
    | false =>
        refine .inr (.inr ⟨n.opening, contents_of_not_isProgram htext hcase, ?_⟩)
        rw [contents_of_not_isProgram htext' (h.program.trans hcase), h.opening]

end SameHead

end Node

open Node

/-- What becomes of some nodes holds the same, up to ticked items, and is still in shape. -/
structure Conserves (ns ms : List Node) : Prop where
  shaped : ∀ m ∈ ms, m.All Shaped
  readable : (∀ n ∈ ns, n.All Readable) → ∀ m ∈ ms, m.All Readable
  contents : Ticked (contentsAll ns) (contentsAll ms)

namespace Conserves

variable {ns ms ks ns' ms' : List Node} {n m : Node}

theorem refl (h : ∀ n ∈ ns, n.All Shaped) : Conserves ns ns :=
  ⟨h, fun hread ↦ hread, .refl _⟩

theorem trans (h : Conserves ns ms) (h' : Conserves ms ks) : Conserves ns ks :=
  ⟨h'.shaped, fun hread ↦ h'.readable (h.readable hread), h.contents.trans h'.contents⟩

theorem append (h : Conserves ns ms) (h' : Conserves ns' ms') :
    Conserves (ns ++ ns') (ms ++ ms') := by
  refine ⟨List.forall_mem_append.mpr ⟨h.shaped, h'.shaped⟩, fun hread ↦ ?_, ?_⟩
  · obtain ⟨hfirst, hsecond⟩ := List.forall_mem_append.mp hread
    exact List.forall_mem_append.mpr ⟨h.readable hfirst, h'.readable hsecond⟩
  · rw [contentsAll_append, contentsAll_append]
    exact h.contents.append h'.contents

/-- A node that keeps its head conserves what it holds if its children do; those of a program must
hold just the same. -/
theorem node (hn : n.All Shaped) (hhead : SameHead n m) (h : Conserves n.children m.children)
    (hleaf : n.kind = .text → m.children = [])
    (hprogram : n.isProgram = true → contentsAll m.children = contentsAll n.children) :
    Conserves [n] [m] := by
  have hshaped : m.All Shaped := by
    refine Shaped.of_children hn hhead.kind hhead.tag hleaf h.shaped fun hm ↦ ?_
    exact ⟨hhead.program ▸ hm, h.contents.foreign⟩
  refine ⟨List.forall_mem_singleton.mpr hshaped, fun hread ↦ ?_, ?_⟩
  · obtain ⟨hself, hbelow⟩ := all_iff.mp (List.forall_mem_singleton.mp hread)
    exact List.forall_mem_singleton.mpr (all_iff.mpr ⟨hhead.readable hself, h.readable hbelow⟩)
  · rw [contentsAll_singleton, contentsAll_singleton]
    rcases hhead.contents with hsame | ⟨hcase, hsame⟩ | ⟨front, hbefore, hafter⟩
    · rw [hsame]
      exact .refl _
    · rw [hsame (hprogram hcase)]
      exact .refl _
    · rw [hbefore, hafter]
      exact (Ticked.refl front).append h.contents

end Conserves

/-- What becomes of some nodes holds just the same, and is still in shape. -/
structure Keeps (ns ms : List Node) : Prop extends Conserves ns ms where
  same : contentsAll ms = contentsAll ns

namespace Keeps

variable {ns ms ns' ms' : List Node} {n m : Node}

theorem refl (h : ∀ n ∈ ns, n.All Shaped) : Keeps ns ns :=
  ⟨.refl h, rfl⟩

theorem of_same (hshaped : ∀ m ∈ ms, m.All Shaped)
    (hread : (∀ n ∈ ns, n.All Readable) → ∀ m ∈ ms, m.All Readable)
    (hsame : contentsAll ms = contentsAll ns) : Keeps ns ms :=
  ⟨⟨hshaped, hread, hsame ▸ .refl _⟩, hsame⟩

theorem append (h : Keeps ns ms) (h' : Keeps ns' ms') : Keeps (ns ++ ns') (ms ++ ms') :=
  ⟨h.toConserves.append h'.toConserves, by
    rw [contentsAll_append, contentsAll_append, h.same, h'.same]⟩

theorem cons (h : Keeps [n] [m]) (h' : Keeps ns ms) : Keeps (n :: ns) (m :: ms) :=
  h.append h'

theorem node (hn : n.All Shaped) (hhead : SameHead n m) (h : Keeps n.children m.children)
    (hleaf : n.kind = .text → m.children = []) : Keeps [n] [m] := by
  refine ⟨h.toConserves.node hn hhead hleaf fun _ ↦ h.same, ?_⟩
  rw [contentsAll_singleton, contentsAll_singleton]
  rcases hhead.contents with hsame | ⟨-, hsame⟩ | ⟨front, hbefore, hafter⟩
  · exact hsame
  · exact hsame h.same
  · rw [hbefore, hafter, h.same]

end Keeps

end SafeMarkdown
