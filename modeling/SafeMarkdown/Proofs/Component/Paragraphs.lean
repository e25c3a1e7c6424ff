import SafeMarkdown.Proofs.Component.Elements
import SafeMarkdown.Proofs.Component.Shapes
import SafeMarkdown.Proofs.Markdown.PlainDocuments

/-!
# Elements in a paragraph

The lines of a paragraph become texts and markers. Where the lines are those of whole elements, the
markers are paired. Where no tag is left as text, as many of the lines open an element as close one.
-/

namespace SafeMarkdown.Component

open Node Node.components Markdown Item.lines Item.elements

variable {ms : List SourceLine}

section Lines

/-- The nodes of lines, each behind a line end. -/
def nodesOf (ms : List SourceLine) : List Node :=
  ms.flatMap fun m ↦ [lineEnd, lineNode m]

theorem nodesOf_append (ms ns : List SourceLine) : nodesOf (ms ++ ns) = nodesOf ms ++ nodesOf ns :=
  List.flatMap_append

theorem nodesOf_cons (m : SourceLine) (ms : List SourceLine) :
    nodesOf (m :: ms) = lineEnd :: lineNode m :: nodesOf ms :=
  List.flatMap_cons

theorem nodesOf_eq (m : SourceLine) (ms : List SourceLine) :
    nodesOf (m :: ms) = lineEnd :: ((m :: ms).map lineNode).intersperse lineEnd := by
  induction ms generalizing m with
  | nil => rfl
  | cons n ms ih =>
      rw [nodesOf_cons, ih]
      rfl

mutual

theorem spells_lines : (i : Item) → Spells (nodesOf i.lines) i.elements
  | .words line => by
      refine .text (by decide) (.text ?_ .nil)
      rw [String.toList_ofList]
      intro hmem
      rcases line.letters _ hmem with h | h
      · cases h
      · cases h
  | .element t content => by
      have hinside : Spells (nodesOf (linesAll content) ++ [lineEnd]) (elementsAll content ++ []) :=
        (spells_linesAll content).append (.text (by decide) .nil)
      have hpair : Spells (openMarker t.name t.attrs (String.ofList t.opening) false ::
          (nodesOf (linesAll content) ++ [lineEnd]) ++
            [closeMarker t.name (String.ofList t.closing) false])
          [.component (some t.name) (elementsAll content ++ [])] :=
        .pair rfl rfl rfl hinside .nil
      rw [List.append_nil, List.cons_append, List.append_assoc] at hpair
      rw [Item.lines, List.cons_append, nodesOf_cons, nodesOf_append]
      exact .text (by decide) hpair

/-- The nodes of the lines of elements spell these elements. -/
theorem spells_linesAll : (is : List Item) → Spells (nodesOf (linesAll is)) (elementsAll is)
  | [] => .nil
  | i :: rest => by
      rw [linesAll, nodesOf_append, elementsAll]
      exact (spells_lines i).append (spells_linesAll rest)

end

theorem childless_lineNode (m : SourceLine) : (lineNode m).children = [] := by
  cases m with
  | words line => rfl
  | opens t => rfl
  | closes t => rfl

theorem wellMarked_lineNode (m : SourceLine) : WellMarked (lineNode m) := by
  cases m with
  | words line => exact wellMarked_of_not_isMarker rfl fun _ ↦ rfl
  | opens t => exact wellMarked_openMarker _ _ _ _
  | closes t => exact wellMarked_closeMarker _ _ _

theorem mem_of_lineNode {m : SourceLine} (hmarker : isMarker (lineNode m) = true) {s : String}
    (h : (lineNode m).data.get? "source" = some (.str s)) : '<' ∈ s.toList := by
  cases m with
  | words line => cases hmarker
  | opens t =>
      obtain ⟨u, hu⟩ := t.exists_opening
      cases h
      rw [String.toList_ofList, hu]
      exact List.mem_cons_self
  | closes t =>
      obtain ⟨u, hu⟩ := t.exists_closing
      cases h
      rw [String.toList_ofList, hu]
      exact List.mem_cons_self

/-- A node of the lines of a paragraph comes from a line or is a text. -/
theorem mem_children_paragraphNode {n : Node} (h : n ∈ (paragraphNode ms).children) :
    (∃ m ∈ ms, n = lineNode m) ∨ ∃ s, n = ofText s := by
  rcases mem_mergeText h with hn | htext
  · cases ms with
    | nil => cases hn
    | cons m ms =>
        have hmem : n ∈ nodesOf (m :: ms) := nodesOf_eq m ms ▸ List.mem_cons_of_mem _ hn
        obtain ⟨k, hk, hmem⟩ := List.mem_flatMap.mp hmem
        rw [List.mem_pair] at hmem
        rcases hmem with rfl | rfl
        · exact .inr ⟨_, rfl⟩
        · exact .inl ⟨k, hk, rfl⟩
  · exact .inr htext

theorem wellMarked_paragraphNode (ms : List SourceLine) :
    ∀ n ∈ walk.walkAll (paragraphNode ms).children, WellMarked n := by
  intro n hn
  obtain ⟨k, hk, hn⟩ := mem_walkAll.mp hn
  have hall : k.All WellMarked := by
    rcases mem_children_paragraphNode hk with ⟨m, -, rfl⟩ | ⟨s, rfl⟩
    · refine all_iff.mpr ⟨wellMarked_lineNode m, ?_⟩
      rw [childless_lineNode]
      exact List.forall_mem_nil _
    · exact all_iff.mpr ⟨wellMarked_of_not_isMarker rfl fun _ ↦ rfl, List.forall_mem_nil _⟩
  exact hall n hn

theorem hasTags_paragraphNode (ms : List SourceLine) : HasTags (paragraphNode ms).children := by
  intro n hn hmarker s hs
  rcases mem_children_paragraphNode hn with ⟨m, -, rfl⟩ | ⟨u, rfl⟩
  · exact mem_of_lineNode hmarker hs
  · cases hmarker

end Lines

section Counting

variable {p : Node → Bool}

theorem countP_mergeText (hp : ∀ n : Node, n.isText = true → p n = false) (ns : List Node) :
    (mergeText ns).countP p = ns.countP p := by
  induction ns with
  | nil => rfl
  | cons n ns ih =>
      cases htext : n.isText with
      | false => rw [mergeText_cons_of_not_isText htext, List.countP_cons, List.countP_cons, ih]
      | true =>
          have hskip (ms : List Node) : (n :: ms).countP p = ms.countP p :=
            List.countP_cons_of_neg (by rw [hp n htext]; exact Bool.false_ne_true)
          rw [hskip, ← ih, mergeText, if_pos htext]
          split
          · rfl
          · cases mergeText ns with
            | nil => exact hskip []
            | cons m more =>
                dsimp only
                split
                · rename_i hm
                  rw [List.countP_cons_of_neg, List.countP_cons_of_neg]
                  · rw [hp m hm]
                    exact Bool.false_ne_true
                  · rw [hp _ rfl]
                    exact Bool.false_ne_true
                · exact hskip _

theorem countP_paragraphNode {q : SourceLine → Bool}
    (hp : ∀ n : Node, n.isText = true → p n = false) (hq : ∀ m, p (lineNode m) = q m)
    (ms : List SourceLine) : (paragraphNode ms).children.countP p = ms.countP q := by
  have hnodes : (nodesOf ms).countP p = ms.countP q := by
    induction ms with
    | nil => rfl
    | cons m ms ih =>
        rw [nodesOf_cons, List.countP_cons_of_neg, List.countP_cons, List.countP_cons, ih, hq]
        rw [hp lineEnd rfl]
        exact Bool.false_ne_true
  refine (countP_mergeText hp _).trans ?_
  cases ms with
  | nil => rfl
  | cons m ms =>
      rw [← hnodes, nodesOf_eq, List.countP_cons_of_neg]
      rw [hp lineEnd rfl]
      exact Bool.false_ne_true

end Counting

section Paragraphs

variable {out children : List Node}

/-- A paragraph of the lines of elements has these elements as components. -/
theorem exists_fold_paragraphNode {is : List Item} (hne : is ≠ []) : ∃ children,
    fold (paragraphNode (linesAll is)).children = .ok children ∧
      componentsAll children = elementsAll is ∧ Sign.letter '<' ∉ signsAll children := by
  obtain ⟨m, ms, hlines⟩ := List.exists_cons_of_ne_nil (mt eq_nil_of_linesAll hne)
  have hspells := spells_linesAll is
  rw [hlines, nodesOf_eq] at hspells
  have hself : ∀ n ∈ (paragraphNode (linesAll is)).children, WellMarked n := fun n hn ↦
    wellMarked_paragraphNode _ n (mem_walkAll.mpr ⟨n, hn, mem_walk.mpr (.inl rfl)⟩)
  have hchildren := hspells.of_cons_ofText.mergeText
  rw [← hlines] at hchildren
  exact hchildren.exists_fold hself

/-- Where no tag of a paragraph is left as text, as many tags open as close. -/
theorem countP_of_fold_paragraphNode (h : fold (paragraphNode ms).children = .ok children)
    (hsigns : Sign.letter '<' ∉ signsAll children) :
    ms.countP SourceLine.isOpening = ms.countP SourceLine.isClosing := by
  have hopen (n : Node) (hn : n.isText = true) :
      isOpenMarker n = false ∧ isCloseMarker n = false := by
    have hmarker := not_isMarker_of_kind (n := n) (by rw [kind_of_isText hn]; exact nofun)
    rwa [isMarker, Bool.or_eq_false_iff] at hmarker
  have hcount := countP_eq_of_fold h (wellMarked_paragraphNode ms) (hasTags_paragraphNode ms) hsigns
  rw [countP_paragraphNode (fun n hn ↦ (hopen n hn).1) (q := SourceLine.isOpening),
    countP_paragraphNode (fun n hn ↦ (hopen n hn).2) (q := SourceLine.isClosing)] at hcount
  · exact hcount
  · intro m
    cases m <;> rfl
  · intro m
    cases m <;> rfl

end Paragraphs

end SafeMarkdown.Component
