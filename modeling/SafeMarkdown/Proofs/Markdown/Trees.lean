import SafeMarkdown.Markdown.Document
import SafeMarkdown.Proofs.Markdown.Descent
import SafeMarkdown.Proofs.Markdown.Tokens

/-!
# Trees of documents

The trees that tokens become are regular: the only nodes that carry a level are those of the tokens
that open headings. Matching the markers of components makes no other ones.
-/

namespace SafeMarkdown

open Node

namespace Component

theorem regular_component {name : String} {attrs data : Fields} {children : List Node}
    (h : data.has "level" = false) : (Node.component name attrs children data).Regular :=
  .of_not_isMarked h (idIsText_of_ne (by simp [Node.component]))

theorem all_regular_component {name : String} {attrs data : Fields} {children : List Node}
    (h : data.has "level" = false) (hchildren : ∀ c ∈ children, c.All Regular) :
    (Node.component name attrs children data).All Regular :=
  all_iff.mpr ⟨regular_component h, hchildren⟩

theorem all_regular_literal (s : Option String) (block : Bool) : (literal s block).All Regular := by
  have htext : All Regular { kind := .text, value := s } :=
    all_iff.mpr ⟨.of_not_isMarked rfl (idIsText_of_ne (by simp)), List.forall_mem_nil _⟩
  unfold literal
  cases block with
  | false => exact htext
  | true =>
      refine all_iff.mpr ⟨.of_not_isMarked rfl (idIsText_of_attrs_nil rfl), ?_⟩
      intro c hc
      rw [List.mem_singleton.mp hc]
      exact htext

theorem all_regular_literalOf {marker n : Node} (h : literalOf marker = .ok n) : n.All Regular := by
  unfold literalOf at h
  split at h
  · cases h
  · cases h
    exact all_regular_literal _ _
  · cases h
    exact all_regular_literal _ _
  · cases h

theorem regular_complete {marker : Node} (h : marker.Regular) (content : List Node) :
    (complete marker content).Regular where
  idIsText := h.idIsText.of_eq rfl rfl
  heading := by
    intro hmarked
    have hbefore : marker.isMarked = true := by
      obtain ⟨f, hf, hname⟩ := List.any_eq_true.mp hmarked
      have hsub := (List.mem_filter.mp (List.mem_filter.mp hf).1).1
      exact List.any_eq_true.mpr ⟨f, hsub, hname⟩
    obtain ⟨level, hlevel, heq⟩ := h.heading hbefore
    refine ⟨level, hlevel, ?_⟩
    rw [heq]
    rfl

theorem all_regular_complete {marker : Node} (h : marker.Regular) {content : List Node}
    (hcontent : ∀ n ∈ content, n.All Regular) : (complete marker content).All Regular :=
  all_iff.mpr ⟨regular_complete h content, all_regular_mergeText hcontent⟩

/-- Whether the siblings being folded are regular. -/
structure Folding.Regular (f : Folding) : Prop where
  opened : ∀ o ∈ f.opened, o.1.Regular ∧ ∀ n ∈ o.2, n.All Node.Regular
  out : ∀ n ∈ f.out, n.All Node.Regular

namespace Folding

theorem push_regular {f g : Folding} {n : Node} (hf : f.Regular) (hn : n.All Node.Regular)
    (h : f.push n = .ok g) : g.Regular := by
  have hliteral (g : Folding)
      (h : (literalOf n).map (fun t ↦ { f with out := t :: f.out }) = .ok g) : g.Regular := by
    obtain ⟨t, ht, rfl⟩ := map_eq_ok.mp h
    exact ⟨hf.opened, List.forall_mem_cons.mpr ⟨all_regular_literalOf ht, hf.out⟩⟩
  unfold push at h
  split at h
  · cases h
    exact ⟨List.forall_mem_cons.mpr ⟨⟨(all_iff.mp hn).1, hf.out⟩, hf.opened⟩, List.forall_mem_nil _⟩
  · split at h
    · split at h
      · rename_i marker before outer hopened
        have hall := hf.opened
        rw [hopened, List.forall_mem_cons] at hall
        split at h
        · cases h
          have hout : ∀ n ∈ f.out.reverse, n.All Node.Regular :=
            fun n hn ↦ hf.out n (List.mem_reverse.mp hn)
          exact ⟨hall.2, List.forall_mem_cons.mpr ⟨all_regular_complete hall.1.1 hout, hall.1.2⟩⟩
        · exact hliteral g h
      · exact hliteral g h
    · cases h
      exact ⟨hf.opened, List.forall_mem_cons.mpr ⟨hn, hf.out⟩⟩

theorem flatten_regular {opened : List (Node × List Node)} {out nodes : List Node}
    (hopened : ∀ o ∈ opened, ∀ n ∈ o.2, n.All Node.Regular) (hout : ∀ n ∈ out, n.All Node.Regular)
    (h : flatten out opened = .ok nodes) : ∀ n ∈ nodes, n.All Node.Regular := by
  induction opened generalizing out with
  | nil =>
      cases h
      exact hout
  | cons o opened ih =>
      obtain ⟨marker, before⟩ := o
      rw [List.forall_mem_cons] at hopened
      obtain ⟨text, htext, h⟩ := bind_eq_ok.mp h
      refine ih hopened.2 ?_ h
      intro n hn
      rcases List.mem_append.mp hn with hn | hn
      · exact hout n hn
      · rcases List.mem_cons.mp hn with rfl | hn
        · exact all_regular_literalOf htext
        · exact hopened.1 n hn

theorem finish_regular {f : Folding} {nodes : List Node} (hf : f.Regular)
    (h : f.finish = .ok nodes) : ∀ n ∈ nodes, n.All Node.Regular := by
  obtain ⟨out, hout, rfl⟩ := map_eq_ok.mp h
  have hall := flatten_regular (fun o ho ↦ (hf.opened o ho).2) hf.out hout
  exact all_regular_mergeText fun n hn ↦ hall n (List.mem_reverse.mp hn)

end Folding

mutual

theorem foldBelow_regular : (n : Node) → {m : Node} → n.All Regular → foldBelow n = .ok m →
    m.All Regular
  | ⟨kind, tag, attrs, children, value, data⟩, m, hn, h => by
      rw [foldBelow] at h
      obtain ⟨nodes, hnodes, h⟩ := bind_eq_ok.mp h
      cases h
      obtain ⟨hself, hbelow⟩ := all_iff.mp hn
      have hfold := foldFrom_regular children ⟨List.forall_mem_nil _, List.forall_mem_nil _⟩ hbelow
        hnodes
      exact all_regular_mk hself hfold

theorem foldFrom_regular : (ns : List Node) → {f : Folding} → {nodes : List Node} → f.Regular →
    (∀ n ∈ ns, n.All Regular) → foldFrom f ns = .ok nodes → ∀ n ∈ nodes, n.All Regular
  | [], f, nodes, hf, _, h => Folding.finish_regular hf h
  | n :: rest, f, nodes, hf, hns, h => by
      rw [List.forall_mem_cons] at hns
      rw [foldFrom] at h
      obtain ⟨m, hm, h⟩ := bind_eq_ok.mp h
      obtain ⟨g, hg, h⟩ := bind_eq_ok.mp h
      have hg := Folding.push_regular hf (foldBelow_regular n hns.1 hm) hg
      exact foldFrom_regular rest hg hns.2 h

end

theorem fold_regular {ns nodes : List Node} (hns : ∀ n ∈ ns, n.All Regular)
    (h : fold ns = .ok nodes) : ∀ n ∈ nodes, n.All Regular :=
  foldFrom_regular ns ⟨List.forall_mem_nil _, List.forall_mem_nil _⟩ hns h

section Markup

variable {blocks : String → Logged (List Node)}

/-- Whether documents are read as regular trees. -/
def ReadsRegular (blocks : String → Logged (List Node)) : Prop :=
  ∀ src ns, (blocks src).Returns ns → ∀ n ∈ ns, n.All Regular

theorem tail_regular (hblocks : ReadsRegular blocks) {rest : List Char} {block : Bool}
    {ns : List Node} (h : (tail blocks rest block).Returns ns) : ∀ n ∈ ns, n.All Regular := by
  unfold tail at h
  split at h
  · rw [Logged.returns_pure h]
    exact List.forall_mem_nil _
  · split at h
    · exact hblocks _ _ h
    · rw [Logged.returns_pure h]
      exact List.forall_mem_singleton.mpr (all_regular_ofText _)

theorem content_regular (hblocks : ReadsRegular blocks) {inner : List Char} {block : Bool}
    {ns : List Node} (h : (content blocks inner block).Returns ns) : ∀ n ∈ ns, n.All Regular := by
  unfold content at h
  split at h
  · exact hblocks _ _ h
  · rw [Logged.returns_pure h]
    exact all_regular_mergeText (List.forall_mem_singleton.mpr (all_regular_ofText _))

theorem opened_regular (hblocks : ReadsRegular blocks) {tag : OpenTag} {rest : List Char}
    {block : Bool} {ns : List Node} (h : (opened blocks tag rest block).Returns ns) :
    ∀ n ∈ ns, n.All Regular := by
  unfold opened at h
  dsimp only at h
  split at h
  · obtain ⟨more, hmore, h⟩ := Logged.returns_bind h
    rw [Logged.returns_pure h]
    exact List.forall_mem_cons.mpr
      ⟨all_regular_component (by rfl) (List.forall_mem_nil _), tail_regular hblocks hmore⟩
  · split at h
    · obtain ⟨children, hchildren, h⟩ := Logged.returns_bind h
      rw [Logged.returns_pure h]
      exact List.forall_mem_singleton.mpr
        (all_regular_component (by rfl) (content_regular hblocks hchildren))
    · obtain ⟨more, hmore, h⟩ := Logged.returns_bind h
      rw [Logged.returns_pure h]
      exact List.forall_mem_cons.mpr
        ⟨all_regular_component (by rfl) (List.forall_mem_nil _), tail_regular hblocks hmore⟩

theorem unread_regular {message : String} {s : Option String} {block : Bool} {ns : List Node}
    (h : Logged.Returns (do Logged.debug .markdown message; return [literal s block]) ns) :
    ∀ n ∈ ns, n.All Regular := by
  obtain ⟨-, -, h⟩ := Logged.returns_bind h
  rw [Logged.returns_pure h]
  exact List.forall_mem_singleton.mpr (all_regular_literal _ _)

theorem ofMarkup_regular (hblocks : ReadsRegular blocks) {src : String} {block : Bool}
    {ns : List Node} (h : (ofMarkup blocks src block).Returns ns) : ∀ n ∈ ns, n.All Regular := by
  unfold ofMarkup at h
  dsimp only at h
  split at h
  · rw [Logged.returns_pure h]
    refine List.forall_mem_singleton.mpr (all_iff.mpr ⟨?_, List.forall_mem_nil _⟩)
    exact .of_not_isMarked rfl (idIsText_of_ne (by simp [Node.ofMarkup]))
  · split at h
    · exact opened_regular hblocks h
    · split at h
      · split at h
        · rw [Logged.returns_pure h]
          exact List.forall_mem_singleton.mpr
            (all_regular_component (by rfl) (List.forall_mem_nil _))
        · exact unread_regular h
      · exact unread_regular h

end Markup

end Component

namespace Markdown

theorem levelOf_eq {level : Nat} (h : IsLevel level) :
    levelOf ("h" ++ Nat.repr level) = .ok (level : Int) := by
  rcases h.cases with rfl | rfl | rfl | rfl | rfl | rfl <;> rfl

theorem idIsText_elementAttributes {tag : String} {attrs : Fields} {children : List Node}
    {data : Fields} :
    (Node.element tag (elementAttributes tag attrs) children data).IdIsText := by
  intro _
  refine List.foldlRecOn attrs _
    (motive := fun acc : Fields ↦ ∀ f ∈ acc, Text.lowercase f.1 = "id" → ∃ s, f.2 = .str s)
    (List.forall_mem_nil _) ?_
  rintro acc hacc ⟨name, v⟩ -
  dsimp only
  intro f hf hname
  split at hf
  · split at hf
    · rcases Fields.mem_set hf with hf | rfl
      · exact hacc f hf hname
      · exact ⟨_, rfl⟩
    · exact hacc f hf hname
  · split at hf
    · rcases Fields.mem_set hf with hf | rfl
      · exact hacc f hf hname
      · exact absurd hname lowercase_class_ne
    · rcases Fields.mem_set hf with hf | rfl
      · exact hacc f hf hname
      · exact ⟨_, rfl⟩

/-- Whether the element that a container becomes is regular. -/
def Container.Regular : Container → Prop
  | .element n => n.Regular
  | _ => True

theorem headingContainer_regular {t : Token} {c : Container} (ht : t.Leveled)
    (htype : t.type = "heading_open")
    (h : Logged.Returns (do
      let tag := if t.tag.isEmpty then "div" else t.tag
      let level ← Logged.ofExcept (levelOf tag)
      return .element
        { Node.element tag (elementAttributes tag t.attrs) [] with data := [("level", .int level)] })
      c) : c.Regular := by
  obtain ⟨level, hlevel, htag, hattrs⟩ := ht.heading htype
  have hempty : t.tag.isEmpty = false := by simp [htag]
  obtain ⟨level', hread, h⟩ := Logged.returns_bind h
  have hread := Logged.returns_ofExcept hread
  rw [hempty, if_neg Bool.false_ne_true, htag, levelOf_eq hlevel] at hread
  cases hread
  rw [Logged.returns_pure h, hempty, if_neg Bool.false_ne_true, htag, hattrs]
  exact regular_node hlevel []

theorem containerOf_regular {t : Token} {c : Container} (ht : t.Leveled)
    (h : (containerOf t).Returns c) : c.Regular := by
  unfold containerOf at h
  split at h
  · rw [Logged.returns_pure h]
    trivial
  · split at h
    · rw [Logged.returns_pure h]
      trivial
    · split at h
      · obtain ⟨⟨n, label⟩, -, h⟩ := Logged.returns_bind h
        rw [Logged.returns_pure h]
        refine .of_not_isMarked rfl ?_
        intro _ f hf hname
        simp only [Node.element, List.mem_cons, List.not_mem_nil, or_false] at hf
        rcases hf with rfl | rfl
        · exact ⟨_, rfl⟩
        · exact absurd hname lowercase_class_ne
      · extract_lets tag node jp at h
        have hjp (u : Unit) (h : Logged.Returns (jp u) c) : c.Regular := by
          dsimp only [jp] at h
          split at h
          · rename_i htype
            exact headingContainer_regular ht (beq_iff_eq.mp htype) h
          · rw [Logged.returns_pure h]
            exact .of_not_isMarked rfl idIsText_elementAttributes
        by_cases hempty : t.tag.isEmpty = true
        · rw [if_pos hempty] at h
          obtain ⟨u, -, h⟩ := Logged.returns_bind h
          exact hjp u h
        · rw [if_neg hempty] at h
          exact hjp () h

theorem Container.Regular.keeps {c : Container} (hc : c.Regular) : c.Keeps (All Node.Regular) := by
  intro content hcontent
  cases c with
  | element n => exact List.forall_mem_singleton.mpr (all_regular_mk hc hcontent)
  | transparent => exact hcontent
  | footnotes =>
      have hclass (tag name : String) (children : List Node) :
          (Node.element tag [("class", .arr [.str name])] children).Regular := by
        refine .of_not_isMarked rfl ?_
        intro _ f hf hname
        rw [List.mem_singleton.mp hf] at hname
        exact absurd hname lowercase_class_ne
      refine List.forall_mem_singleton.mpr (all_iff.mpr ⟨hclass _ _ _, ?_⟩)
      exact List.forall_mem_singleton.mpr (all_iff.mpr ⟨hclass _ _ _, hcontent⟩)

/-- Whether what has been built is regular. -/
structure Building.Regular (b : Building) : Prop where
  opened : ∀ o ∈ b.opened, o.1.Regular ∧ ∀ n ∈ o.2, n.All Node.Regular
  out : ∀ n ∈ b.out, n.All Node.Regular

namespace Building

variable {b : Building}

theorem Regular.allHold (h : b.Regular) : b.AllHold (Node.All Node.Regular) :=
  ⟨fun o ho ↦ ⟨(h.opened o ho).1.keeps, (h.opened o ho).2⟩, h.out⟩

theorem Regular.add (h : b.Regular) {nodes : List Node} (hnodes : ∀ n ∈ nodes, n.All Node.Regular) :
    (b.add nodes).Regular where
  opened := h.opened
  out := (h.allHold.add hnodes).out

theorem Regular.opening (h : b.Regular) {c : Container} (hc : c.Regular) :
    (b.opening c).Regular where
  opened := List.forall_mem_cons.mpr ⟨⟨hc, h.out⟩, h.opened⟩
  out := List.forall_mem_nil _

theorem Regular.closing (h : b.Regular) : b.closing.Regular := by
  unfold Building.closing
  split
  · exact ⟨h.opened, h.out⟩
  · rename_i c before outer hopened
    have hall := h.opened
    rw [hopened, List.forall_mem_cons] at hall
    exact ⟨hall.2, hall.1.1.keeps.closed hall.1.2 h.out⟩

theorem Regular.nodes (h : b.Regular) : ∀ n ∈ b.nodes, n.All Node.Regular :=
  h.allHold.nodes

end Building

theorem all_regular_element {tag : String} {attrs data : Fields} {children : List Node}
    (hdata : data.has "level" = false) (hattrs : ∀ f ∈ attrs, f.1 = "class" ∨ ∃ s, f.2 = .str s)
    (hchildren : ∀ c ∈ children, c.All Regular) :
    (Node.element tag attrs children data).All Regular := by
  refine all_iff.mpr ⟨.of_not_isMarked hdata ?_, hchildren⟩
  intro _ f hf hname
  rcases hattrs f hf with hclass | hstr
  · rw [hclass] at hname
    exact absurd hname lowercase_class_ne
  · exact hstr

theorem codeBlock_regular (info content : String) : (codeBlock info content).All Regular := by
  have htext := List.forall_mem_singleton.mpr (all_regular_ofText content)
  refine all_regular_element rfl (List.forall_mem_nil _) (List.forall_mem_singleton.mpr ?_)
  dsimp only
  split
  · exact all_regular_element rfl (List.forall_mem_nil _) htext
  · exact all_regular_element (by rfl) (by simp) htext

theorem image_regular (attrs : Fields) (alt : String) : (image attrs alt).All Regular := by
  refine all_regular_element rfl ?_ (List.forall_mem_nil _)
  cases attributeText? attrs "title" with
  | none => simp
  | some title => simp

theorem footnoteReference_regular (n label : String) : (footnoteReference n label).All Regular := by
  refine all_regular_element rfl (by simp) (List.forall_mem_singleton.mpr ?_)
  exact all_regular_element rfl (by simp) (List.forall_mem_singleton.mpr (all_regular_ofText _))

theorem footnoteBacklink_regular (label : String) : (footnoteBacklink label).All Regular :=
  all_regular_element rfl (by simp) (List.forall_mem_singleton.mpr (all_regular_ofText _))

variable {blocks : String → Logged (List Node)}

theorem simpleNodes_regular (hblocks : Component.ReadsRegular blocks) {t : Token} {ns : List Node}
    (h : (simpleNodes blocks t).Returns ns) : ∀ n ∈ ns, n.All Regular := by
  unfold simpleNodes at h
  split at h
  · rw [Logged.returns_pure h]
    exact List.forall_mem_singleton.mpr (all_regular_ofText _)
  · rw [Logged.returns_pure h]
    exact List.forall_mem_singleton.mpr (all_regular_ofText _)
  · rw [Logged.returns_pure h]
    exact List.forall_mem_singleton.mpr
      (all_regular_element rfl (List.forall_mem_nil _) (List.forall_mem_nil _))
  · rw [Logged.returns_pure h]
    exact List.forall_mem_singleton.mpr (all_regular_element rfl (List.forall_mem_nil _)
      (List.forall_mem_singleton.mpr (all_regular_ofText _)))
  · rw [Logged.returns_pure h]
    exact List.forall_mem_singleton.mpr (codeBlock_regular _ _)
  · rw [Logged.returns_pure h]
    exact List.forall_mem_singleton.mpr (codeBlock_regular _ _)
  · exact Component.ofMarkup_regular hblocks h
  · exact Component.ofMarkup_regular hblocks h
  · rw [Logged.returns_pure h]
    exact List.forall_mem_singleton.mpr (image_regular _ _)
  · rw [Logged.returns_pure h]
    exact List.forall_mem_singleton.mpr
      (all_regular_element rfl (List.forall_mem_nil _) (List.forall_mem_nil _))
  · obtain ⟨⟨n, label⟩, -, h⟩ := Logged.returns_bind h
    rw [Logged.returns_pure h]
    exact List.forall_mem_singleton.mpr (footnoteReference_regular _ _)
  · obtain ⟨⟨n, label⟩, -, h⟩ := Logged.returns_bind h
    rw [Logged.returns_pure h]
    exact List.forall_mem_cons.mpr ⟨all_regular_ofText _,
      List.forall_mem_singleton.mpr (footnoteBacklink_regular _)⟩
  · split at h
    · rw [Logged.returns_pure h]
      exact List.forall_mem_nil _
    · obtain ⟨-, -, h⟩ := Logged.returns_bind h
      rw [Logged.returns_pure h]
      exact List.forall_mem_singleton.mpr (all_regular_ofText _)

theorem building_regular_empty : Building.Regular {} :=
  ⟨List.forall_mem_nil _, List.forall_mem_nil _⟩

mutual

theorem leafNodes_regular (hblocks : Component.ReadsRegular blocks) : (t : Token) →
    {ns : List Node} → t.Leveled → (leafNodes blocks t).Returns ns → ∀ n ∈ ns, n.All Regular
  | ⟨type, nesting, tag, attrs, content, info, hidden, children, data⟩, ns, ht, h => by
      rw [leafNodes] at h
      split at h
      · obtain ⟨b, hb, h⟩ := Logged.returns_bind h
        rw [Logged.returns_pure h]
        have hchildren : ∀ c ∈ children, c.Leveled := fun c hc ↦ (ht.children c hc).leveled
        exact all_regular_mergeText
          (convertFrom_regular hblocks children building_regular_empty hchildren hb).nodes
      · exact simpleNodes_regular hblocks h

theorem convertFrom_regular (hblocks : Component.ReadsRegular blocks) : (ts : List Token) →
    {b b' : Building} → b.Regular → (∀ t ∈ ts, t.Leveled) →
    (convertFrom blocks b ts).Returns b' → b'.Regular
  | [], b, b', hb, _, h => by
      rw [Logged.returns_pure h]
      exact hb
  | t :: rest, b, b', hb, hts, h => by
      rw [List.forall_mem_cons] at hts
      obtain ⟨-, ⟨c, -, hc, h⟩ | ⟨-, h⟩ | ⟨ns, -, hns, h⟩⟩ := convertFrom_cons h
      · exact convertFrom_regular hblocks rest (hb.opening (containerOf_regular hts.1 hc)) hts.2 h
      · exact convertFrom_regular hblocks rest hb.closing hts.2 h
      · exact convertFrom_regular hblocks rest (hb.add (leafNodes_regular hblocks t hts.1 hns))
          hts.2 h

end

theorem convert_regular (hblocks : Component.ReadsRegular blocks) {ts : List Token} {ns : List Node}
    (hts : ∀ t ∈ ts, t.Leveled) (h : (convert blocks ts).Returns ns) : ∀ n ∈ ns, n.All Regular := by
  obtain ⟨b, hb, h⟩ := Logged.returns_bind h
  rw [Logged.returns_pure h]
  exact (convertFrom_regular hblocks ts building_regular_empty hts hb).nodes

/-- Documents are read as regular trees, by induction on how deeply they may nest in components. -/
theorem documentNodes_regular (dialect : Dialect) (depth : Nat) :
    Component.ReadsRegular (documentNodes dialect depth) := by
  induction depth with
  | zero =>
      intro body ns h
      rw [Logged.returns_pure h]
      exact List.forall_mem_nil _
  | succ depth ih =>
      intro body ns h
      obtain ⟨ts, hts, h⟩ := Logged.returns_bind h
      obtain ⟨nodes, hnodes, h⟩ := Logged.returns_bind h
      have hts := tokens_leveled (Logged.returns_ofExcept hts)
      exact Component.fold_regular (convert_regular ih hts hnodes) (Logged.returns_ofExcept h)

theorem parse_regular {dialect : Dialect} {body : String} {tree : Node}
    (h : (parse dialect body).Returns tree) : tree.All Regular := by
  obtain ⟨ns, hns, h⟩ := Logged.returns_bind h
  rw [Logged.returns_pure h]
  exact all_iff.mpr ⟨.of_not_isMarked rfl (idIsText_of_ne (by simp [Node.root])),
    documentNodes_regular dialect _ body ns hns⟩

theorem isMarked_parse {dialect : Dialect} {body : String} {tree : Node}
    (h : (parse dialect body).Returns tree) : tree.isMarked = false := by
  obtain ⟨ns, -, h⟩ := Logged.returns_bind h
  rw [Logged.returns_pure h]
  rfl

end Markdown

end SafeMarkdown
