import SafeMarkdown.Code.Highlight
import SafeMarkdown.Proofs.Heading.Ids
import SafeMarkdown.Proofs.Pipeline.Stages

/-!
# Headings under links and highlighting

Linking keeps each heading, around a link to itself. Highlighting keeps each heading that is not in
the text of a program.
-/

namespace SafeMarkdown

open Node

namespace Heading

variable (anchorClass : Option String)

theorem isMarked_withLinks (n : Node) : (withLinks anchorClass n).isMarked = n.isMarked := by
  obtain ⟨kind, tag, attrs, children, value, data⟩ := n
  rw [withLinks]
  split
  · rfl
  · rfl

mutual

theorem descends_withLinks : (n : Node) →
    Descends (fun g m ↦ m = withLinks anchorClass g) [n] [withLinks anchorClass n]
  | ⟨kind, tag, attrs, children, value, data⟩ => by
      have hchildren := descends_withLinksAll children
      refine Descends.node (fun hmarked ↦ ⟨?_, rfl⟩) ?_
      · rwa [isMarked_withLinks] at hmarked
      · rw [withLinks]
        dsimp only
        split
        · dsimp only
          split
          · exact hchildren.around rfl
          · exact hchildren
        · exact hchildren

theorem descends_withLinksAll : (ns : List Node) →
    Descends (fun g m ↦ m = withLinks anchorClass g) ns (withLinksAll anchorClass ns)
  | [] => .of_markedAll_eq_nil rfl
  | n :: rest => by
      rw [withLinksAll]
      exact (descends_withLinks n).append (descends_withLinksAll rest)

end

theorem idIsText_anchor (id : Value) (children : List Node) :
    (anchor anchorClass id children).IdIsText := by
  intro _ f hf hname
  unfold anchor at hf
  dsimp only [Node.element] at hf
  cases anchorClass with
  | none =>
      rw [List.mem_singleton.mp hf]
      exact ⟨_, rfl⟩
  | some c =>
      dsimp only at hf
      split at hf
      · rw [List.mem_singleton.mp hf]
        exact ⟨_, rfl⟩
      · simp only [List.mem_append, List.mem_singleton] at hf
        rcases hf with rfl | rfl
        · exact ⟨_, rfl⟩
        · exact absurd hname lowercase_class_ne

section All

variable {P : Node → Prop}

mutual

theorem all_withLinks (hchildren : ∀ {n}, P n → ∀ children, P { n with children })
    (hanchor : ∀ id children, P (anchor anchorClass id children)) :
    (n : Node) → n.All P → (withLinks anchorClass n).All P
  | ⟨kind, tag, attrs, children, value, data⟩, hn => by
      obtain ⟨hself, hbelow⟩ := all_iff.mp hn
      have hnodes := all_withLinksAll hchildren hanchor children hbelow
      rw [withLinks]
      split
      · refine all_iff.mpr ⟨hchildren hself _, ?_⟩
        dsimp only
        split
        · exact List.forall_mem_singleton.mpr (all_iff.mpr ⟨hanchor _ _, hnodes⟩)
        · exact hnodes
      · exact all_iff.mpr ⟨hchildren hself _, hnodes⟩

theorem all_withLinksAll (hchildren : ∀ {n}, P n → ∀ children, P { n with children })
    (hanchor : ∀ id children, P (anchor anchorClass id children)) :
    (ns : List Node) → (∀ n ∈ ns, n.All P) → ∀ m ∈ withLinksAll anchorClass ns, m.All P
  | [], _ => by
      rw [withLinksAll]
      exact List.forall_mem_nil _
  | n :: rest, hns => by
      rw [List.forall_mem_cons] at hns
      rw [withLinksAll]
      exact List.forall_mem_cons.mpr ⟨all_withLinks hchildren hanchor n hns.1,
        all_withLinksAll hchildren hanchor rest hns.2⟩

end

end All

theorem idIsText_withLinks (n : Node) (hn : n.All IdIsText) :
    (withLinks anchorClass n).All IdIsText :=
  all_withLinks anchorClass (fun h _ ↦ h.of_eq rfl rfl) (idIsText_anchor anchorClass) n hn

end Heading

namespace Code

/-- What highlighting makes of a node. -/
def Highlighted (config : PipelineConfig) (g m : Node) : Prop :=
  ∃ noted after : Notes, ((highlight config g).run noted).Returns (m, after)

variable {config : PipelineConfig}

theorem highlight_eq (n : Node) :
    highlight config n = (do
      match ← highlighting config n with
      | some (language, nodes) =>
        return { n with children := nodes, data := Fields.set n.data "highlighted" (.str language) }
      | none =>
        let nodes ← highlightAll config n.children
        return { n with children := nodes }) := by
  obtain ⟨kind, tag, attrs, children, value, data⟩ := n
  unfold highlight
  rfl

theorem highlight_cases {n m : Node} {noted after : Notes}
    (h : ((highlight config n).run noted).Returns (m, after)) :
    (∃ language nodes mid,
      ((highlighting config n).run noted).Returns (some (language, nodes), mid) ∧
      m = { n with children := nodes, data := Fields.set n.data "highlighted" (.str language) }) ∨
    ∃ nodes mid, ((highlightAll config n.children).run mid).Returns (nodes, after) ∧
      m = { n with children := nodes } := by
  rw [highlight_eq] at h
  obtain ⟨⟨found, mid⟩, hfound, h⟩ := Staged.returns_bind h
  cases found with
  | some r =>
      cases Logged.returns_pure h
      exact .inl ⟨r.1, r.2, mid, hfound, rfl⟩
  | none =>
      obtain ⟨⟨nodes, last⟩, hnodes, h⟩ := Staged.returns_bind h
      cases Logged.returns_pure h
      exact .inr ⟨nodes, mid, hnodes, rfl⟩

theorem isMarked_highlight {n m : Node} {noted after : Notes}
    (h : ((highlight config n).run noted).Returns (m, after)) : m.isMarked = n.isMarked := by
  rcases highlight_cases h with ⟨language, nodes, mid, -, rfl⟩ | ⟨nodes, mid, -, rfl⟩
  · simp [isMarked, Fields.has_set]
  · rfl

theorem marked_runNode (r : Run) : r.node.marked = [] := by
  unfold Run.node
  dsimp only
  split
  · exact marked_ofText _
  · rw [marked_of_not_isMarked rfl]
    exact (markedAll_singleton _).trans (marked_ofText _)

theorem markedAll_spans (ls : List Lexeme) : markedAll (spans ls) = [] := by
  rw [spans]
  generalize runs ls = rs
  induction rs with
  | nil => rfl
  | cons r rs ih => rw [List.map_cons, markedAll_cons, marked_runNode, ih, List.append_nil]

theorem all_spans {P : Node → Prop} (htext : ∀ s, P (ofText s))
    (hspan : ∀ c children, P (element "span" [("class", .arr [.str c])] children))
    (ls : List Lexeme) : ∀ n ∈ spans ls, n.All P := by
  intro n hn
  obtain ⟨r, -, rfl⟩ := List.mem_map.mp hn
  have htext : (ofText (String.ofList r.text)).All P :=
    all_iff.mpr ⟨htext _, List.forall_mem_nil _⟩
  unfold Run.node
  dsimp only
  split
  · exact htext
  · exact all_iff.mpr ⟨hspan _ _, List.forall_mem_singleton.mpr htext⟩

theorem idIsText_spans (ls : List Lexeme) : ∀ n ∈ spans ls, n.All IdIsText := by
  refine all_spans idIsText_ofText (fun c children _ f hf hname ↦ ?_) ls
  rw [List.mem_singleton.mp hf] at hname
  exact absurd hname lowercase_class_ne

/-- Only the text of a program is replaced, by spans. -/
theorem returns_highlighting {n : Node} {language : String} {nodes : List Node}
    {noted after : Notes}
    (h : ((highlighting config n).run noted).Returns (some (language, nodes), after)) :
    n.isElement ["code"] = true ∧ ∃ ls, nodes = spans ls := by
  unfold highlighting at h
  obtain ⟨⟨asked, mid⟩, hasked, h⟩ := Staged.returns_bind h
  have hasked := Staged.returns_ofExcept hasked
  cases asked with
  | none => cases Logged.returns_pure h
  | some name =>
      have hcode : n.isElement ["code"] = true := by
        unfold askedLanguage at hasked
        split at hasked
        · assumption
        · cases hasked
      refine ⟨hcode, ?_⟩
      dsimp only at h
      split at h
      · obtain ⟨logged, -, h⟩ := Staged.returns_bind h
        cases Logged.returns_pure h
      · split at h
        · obtain ⟨logged, -, h⟩ := Staged.returns_bind h
          cases Logged.returns_pure h
        · split at h
          · obtain ⟨logged, -, h⟩ := Staged.returns_bind h
            cases Logged.returns_pure h
          · cases Logged.returns_pure h
            exact ⟨_, rfl⟩

mutual

theorem descends_highlight : (n : Node) → {m : Node} → {noted after : Notes} →
    ((highlight config n).run noted).Returns (m, after) →
    Descends (Highlighted config) [n] [m]
  | ⟨kind, tag, attrs, children, value, data⟩, m, noted, after, h => by
      have hself : Highlighted config ⟨kind, tag, attrs, children, value, data⟩ m :=
        ⟨noted, after, h⟩
      rcases highlight_cases h with ⟨language, nodes, mid, hfound, rfl⟩ | ⟨nodes, mid, hnodes, rfl⟩
      · obtain ⟨-, ls, rfl⟩ := returns_highlighting hfound
        refine Descends.node (fun hmarked ↦ ⟨?_, hself⟩) (.of_markedAll_eq_nil (markedAll_spans ls))
        rwa [isMarked_highlight h] at hmarked
      · exact Descends.node (fun hmarked ↦ ⟨hmarked, hself⟩) (descends_highlightAll children hnodes)

theorem descends_highlightAll : (ns : List Node) → {ms : List Node} → {noted after : Notes} →
    ((highlightAll config ns).run noted).Returns (ms, after) →
    Descends (Highlighted config) ns ms
  | [], ms, noted, after, h => by
      cases Logged.returns_pure h
      exact .of_markedAll_eq_nil rfl
  | n :: rest, ms, noted, after, h => by
      obtain ⟨⟨m, mid⟩, hm, h⟩ := Staged.returns_bind h
      obtain ⟨⟨others, last⟩, hothers, h⟩ := Staged.returns_bind h
      cases Logged.returns_pure h
      exact (descends_highlight n hm).append (descends_highlightAll rest hothers)

end

section All

variable {P : Node → Prop}

mutual

theorem all_highlight (hparts : ∀ {n}, P n → ∀ children data, P { n with children, data })
    (hspans : ∀ ls, ∀ n ∈ spans ls, n.All P) : (n : Node) → {m : Node} → {noted after : Notes} →
    n.All P → ((highlight config n).run noted).Returns (m, after) → m.All P
  | ⟨kind, tag, attrs, children, value, data⟩, m, noted, after, hn, h => by
      obtain ⟨hself, hbelow⟩ := all_iff.mp hn
      rcases highlight_cases h with ⟨language, nodes, mid, hfound, rfl⟩ | ⟨nodes, mid, hnodes, rfl⟩
      · obtain ⟨-, ls, rfl⟩ := returns_highlighting hfound
        exact all_iff.mpr ⟨hparts hself _ _, hspans ls⟩
      · exact all_iff.mpr ⟨hparts hself _ _, all_highlightAll hparts hspans children hbelow hnodes⟩

theorem all_highlightAll (hparts : ∀ {n}, P n → ∀ children data, P { n with children, data })
    (hspans : ∀ ls, ∀ n ∈ spans ls, n.All P) : (ns : List Node) → {ms : List Node} →
    {noted after : Notes} → (∀ n ∈ ns, n.All P) →
    ((highlightAll config ns).run noted).Returns (ms, after) → ∀ m ∈ ms, m.All P
  | [], ms, noted, after, _, h => by
      cases Logged.returns_pure h
      exact List.forall_mem_nil _
  | n :: rest, ms, noted, after, hns, h => by
      rw [List.forall_mem_cons] at hns
      obtain ⟨⟨m, mid⟩, hm, h⟩ := Staged.returns_bind h
      obtain ⟨⟨others, last⟩, hothers, h⟩ := Staged.returns_bind h
      cases Logged.returns_pure h
      exact List.forall_mem_cons.mpr ⟨all_highlight hparts hspans n hns.1 hm,
        all_highlightAll hparts hspans rest hns.2 hothers⟩

end

end All

theorem idIsText_highlight (n : Node) {m : Node} {noted after : Notes} (hn : n.All IdIsText)
    (h : ((highlight config n).run noted).Returns (m, after)) : m.All IdIsText :=
  all_highlight (fun h _ _ ↦ h.of_eq rfl rfl) idIsText_spans n hn h

end Code

end SafeMarkdown
