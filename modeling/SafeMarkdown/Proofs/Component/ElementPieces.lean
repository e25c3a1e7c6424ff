import SafeMarkdown.Proofs.Component.Elements
import SafeMarkdown.Proofs.Component.Pieces
import SafeMarkdown.Proofs.Footnote.Documents

/-!
# Elements at the start of raw markup

Raw markup that starts with an element is a component if its last tag has the name of the element.
That component has the content of the element exactly if nothing follows the element. In the
documents that are read no marker is left, so a marker before a document stays without its partner.
-/

namespace SafeMarkdown

open Node Node.components Markdown

namespace Component

open Item.lines Item.elements Item.tags

section Unmarked

mutual

theorem unmarked_of_holds {grade : Grade} {n : Node} {ps : List NotePart} :
    Holds grade n ps → (isMarker n = false ∧ n.IsLeafText) ∧ IsUnmarked n.children
  | .text _ => ⟨⟨rfl, fun _ ↦ rfl⟩, isUnmarked_nil⟩
  | .raw _ _ => ⟨⟨rfl, nofun⟩, isUnmarked_nil⟩
  | .reference _ _ =>
      ⟨⟨rfl, nofun⟩,
        isUnmarked_cons.mpr ⟨⟨rfl, nofun⟩, isUnmarked_singleton rfl rfl, isUnmarked_nil⟩⟩
  | .backlink _ => ⟨⟨rfl, nofun⟩, isUnmarked_singleton rfl rfl⟩
  | .item _ _ h => ⟨⟨rfl, nofun⟩, isUnmarked_of_holdsAll h⟩
  | .element _ _ h => ⟨⟨rfl, nofun⟩, isUnmarked_of_holdsAll h⟩
  | .component hdata _ h => ⟨⟨isMarker_of_isSettled hdata, nofun⟩, isUnmarked_of_holdsAll h⟩
  | .dropped _ hdata _ h => ⟨⟨isMarker_of_isSettled hdata, nofun⟩, isUnmarked_of_holdsAll h⟩
  | .root h => ⟨⟨rfl, nofun⟩, isUnmarked_of_holdsAll h⟩

theorem isUnmarked_of_holdsAll {grade : Grade} {ns : List Node} {ps : List NotePart} :
    HoldsAll grade ns ps → IsUnmarked ns
  | .nil => isUnmarked_nil
  | .cons h hrest =>
      isUnmarked_cons.mpr ⟨(unmarked_of_holds h).1, (unmarked_of_holds h).2,
        isUnmarked_of_holdsAll hrest⟩

end

theorem documentNodes_unmarked (dialect : Dialect) (depth : Nat) :
    ReadsUnmarked (documentNodes dialect depth) := by
  intro src ns h
  obtain ⟨ps, hps, -⟩ := documentNodes_closed dialect depth src ns h
  exact isUnmarked_of_holdsAll hps

theorem blocks_unmarked (dialect : Dialect) : ReadsUnmarked (blocks dialect) :=
  fun src ns h ↦ documentNodes_unmarked dialect _ src ns h

end Unmarked

/-- Whether siblings have the elements of a source as components, and no tag as text. -/
structure Shows (ns : List Node) (is : List Item) : Prop where
  components : componentsAll ns = elementsAll is
  noTags : Sign.letter '<' ∉ signsAll ns

section Pieces

variable {blocks : String → Logged (List Node)} {t : TagPair} {content more : List Item}
  {src : String} {ns children out : List Node}

/-- The component of an element. -/
def elementNode (t : TagPair) (children : List Node) : Node :=
  Node.component t.name t.attrs children [("source", .str (String.ofList t.opening))]

/-- The text between the tags of an element. -/
def innerText (is : List Item) : List Char :=
  '\n' :: endedLines (linesAll is)

/-- What follows the opening tag of an element. -/
def behindTag (t : TagPair) (content more : List Item) : List Char :=
  '\n' :: joinedLines (linesAll content ++ .closes t :: linesAll more)

theorem ofMarkup_element
    (hsrc : Text.trim src.toList = joinedLines (linesAll (.element t content :: more))) :
    ofMarkup blocks src true = opened blocks t.openTag (behindTag t content more) true := by
  have hlines : linesAll content ++ .closes t :: linesAll more ≠ [] :=
    List.append_ne_nil_of_right_ne_nil _ (List.cons_ne_nil _ _)
  refine ofMarkup_opening ?_
  rw [hsrc, linesAll_element, joinedLines_cons _ hlines]
  exact readOpenTag?_append t.readOpenTag?_opening _

theorem beforeCloseTag?_behindTag (t : TagPair) (content : List Item) :
    beforeCloseTag? t.name (behindTag t content []) = some (innerText content) := by
  rw [behindTag, linesAll, joinedLines_append_cons, joinedLines_singleton, ← List.cons_append]
  exact beforeCloseTag?_append t.closes _

/-- One element is a component around the document between its tags. -/
theorem ofMarkup_single
    (hsrc : Text.trim src.toList = joinedLines (linesAll [.element t content])) :
    ofMarkup blocks src true = blocks (String.ofList (innerText content)) >>=
      fun children ↦ pure [elementNode t children] := by
  have hinner : beforeCloseTag? t.openTag.name (behindTag t content []) =
      some (innerText content) := beforeCloseTag?_behindTag t content
  rw [ofMarkup_element hsrc, opened_complete rfl hinner]
  rfl

theorem exists_fold_elementNode (t : TagPair) (h : IsUnmarked children) : ∃ out,
    fold [elementNode t children] = .ok out ∧
      componentsAll out = [.component (some t.name) (componentsAll children)] ∧
      ∀ c, Sign.letter c ∈ signsAll out ↔ Sign.letter c ∈ signsAll children := by
  obtain ⟨out, hfold, hcomponents, hsigns⟩ := (isUnmarked_component h).exists_fold
  refine ⟨out, hfold, hcomponents.trans ?_, fun c ↦ ?_⟩
  · rw [componentsAll, components_of_component rfl]
    rfl
  · rw [hsigns, signsAll_cons, signs_of_not_isText rfl, signsAll_nil, List.append_nil]
    simp [Node.component]

/-- What is read of raw markup that starts with an element: a component, if a closing tag of the
same name ends the markup, and else a marker before a document. -/
theorem ofMarkup_element_cases (hblocks : ReadsUnmarked blocks)
    (hsrc : Text.trim src.toList = joinedLines (linesAll (.element t content :: more)))
    (h : (ofMarkup blocks src true).Returns ns) :
    (∃ inner children, beforeCloseTag? t.name (behindTag t content more) = some inner ∧
      (blocks (String.ofList inner)).Returns children ∧ ns = [elementNode t children]) ∨
    ∃ after, IsUnmarked after ∧
      ns = openMarker t.name t.attrs (String.ofList t.opening) true :: after := by
  rw [ofMarkup_element hsrc] at h
  cases hinner : beforeCloseTag? t.openTag.name (behindTag t content more) with
  | some inner =>
      rw [opened_complete rfl hinner] at h
      obtain ⟨children, hchildren, h⟩ := Logged.returns_bind h
      exact .inl ⟨inner, children, hinner, hchildren, Logged.returns_pure h⟩
  | none =>
      rw [opened_marker rfl hinner] at h
      obtain ⟨after, hafter, h⟩ := Logged.returns_bind h
      exact .inr ⟨after, tail_unmarked hblocks hafter, Logged.returns_pure h⟩

theorem eq_words_of_elementsAll {is : List Item} (h : elementsAll is = []) :
    ∀ m ∈ linesAll is, ∃ line, m = .words line := by
  induction is with
  | nil => exact List.forall_mem_nil _
  | cons i rest ih =>
      rw [elementsAll, List.append_eq_nil_iff] at h
      cases i with
      | words line => exact List.forall_mem_cons.mpr ⟨⟨line, rfl⟩, ih h.2⟩
      | element t content => cases h.1

/-- Words are no closing tag. -/
theorem beforeCloseTag?_of_words {name : String} (ms : List SourceLine) (line : WordLine) :
    beforeCloseTag? name ('\n' :: joinedLines (ms ++ [.words line])) = none := by
  obtain ⟨init, c, hchars, hc⟩ := line.ends
  have hlast : ('\n' :: joinedLines (ms ++ [.words line])).getLast? = some c := by
    have hjoined := getLast?_joinedLines ms (.words line)
    rw [SourceLine.chars, hchars, List.getLast?_concat] at hjoined
    rw [List.getLast?_cons, hjoined]
    rfl
  have htrim : Text.trimEnd ('\n' :: joinedLines (ms ++ [.words line])) =
      '\n' :: joinedLines (ms ++ [.words line]) := by
    have hhead := hlast
    rw [← List.head?_reverse] at hhead
    rw [Text.trimEnd, Text.dropEndWhile,
      Text.dropWhile_of_head hhead (not_isBlank_of_isAlpha hc), List.reverse_reverse]
  rw [Option.eq_none_iff_forall_not_mem]
  intro inner hinner
  have hclose := getLast?_of_beforeCloseTag? hinner
  rw [htrim, hlast] at hclose
  cases hclose
  cases hc

/-- One element is recognised if its content is. -/
theorem exists_shows_element (hblocks : ReadsUnmarked blocks)
    (hsrc : Text.trim src.toList = joinedLines (linesAll [.element t content]))
    (h : Succeeds (blocks (String.ofList (innerText content))) children)
    (hshows : Shows children content) : ∃ ns out, Succeeds (ofMarkup blocks src true) ns ∧
      (∀ n ∈ walk.walkAll ns, WellMarked n) ∧ fold ns = .ok out ∧
      Shows out [.element t content] := by
  have hunmarked := hblocks _ _ (Logged.returns_of_succeeds h)
  obtain ⟨out, hfold, hcomponents, hsigns⟩ := exists_fold_elementNode t hunmarked
  refine ⟨_, out, ?_, (isUnmarked_component hunmarked).wellMarked, hfold, ?_,
    mt (hsigns '<').mp hshows.noTags⟩
  · rw [ofMarkup_single hsrc]
    exact h.bind (succeeds_pure _)
  · rw [hcomponents, hshows.components]
    rfl

/-- An element is recognised only if nothing follows it and its content is recognised. -/
theorem eq_nil_of_shows (hblocks : ReadsUnmarked blocks)
    (hsrc : Text.trim src.toList = joinedLines (linesAll (.element t content :: more)))
    (h : (ofMarkup blocks src true).Returns ns) (hfold : fold ns = .ok out)
    (hshows : Shows out (.element t content :: more)) :
    more = [] ∧ ∃ children, (blocks (String.ofList (innerText content))).Returns children ∧
      Shows children content := by
  have hwell := ofMarkup_wellMarked hblocks h
  rcases ofMarkup_element_cases hblocks hsrc h with
    ⟨inner, children, hinner, hchildren, rfl⟩ | ⟨after, hafter, rfl⟩
  · obtain ⟨out', hfold', hcomponents, hsigns⟩ := exists_fold_elementNode t (hblocks _ _ hchildren)
    obtain rfl := Except.ok.inj (hfold.symm.trans hfold')
    have hshapes := hcomponents.symm.trans hshows.components
    rw [elementsAll, Item.elements, List.singleton_append, List.cons.injEq,
      Shape.component.injEq, eq_comm (a := [])] at hshapes
    obtain ⟨⟨-, hinside⟩, hnone⟩ := hshapes
    have hmore : more = [] := by
      by_contra hne
      have hlines : linesAll more ≠ [] := mt eq_nil_of_linesAll hne
      obtain ⟨init, m, hlast⟩ : ∃ init m, linesAll more = init ++ [m] :=
        ⟨_, _, (List.dropLast_concat_getLast hlines).symm⟩
      obtain ⟨line, rfl⟩ := eq_words_of_elementsAll hnone m (by simp [hlast])
      rw [behindTag, hlast, ← List.cons_append, ← List.append_assoc, beforeCloseTag?_of_words]
        at hinner
      cases hinner
    subst hmore
    rw [beforeCloseTag?_behindTag] at hinner
    cases hinner
    exact ⟨rfl, children, hchildren, hinside, mt (hsigns '<').mpr hshows.noTags⟩
  · have htags : HasTags (openMarker t.name t.attrs (String.ofList t.opening) true :: after) := by
      refine List.forall_mem_cons.mpr ⟨fun _ s hs ↦ ?_, fun n hn hmarker ↦ ?_⟩
      · obtain ⟨u, hu⟩ := t.exists_opening
        cases hs
        rw [String.toList_ofList, hu]
        exact List.mem_cons_self
      · rw [hafter.not_isMarker n hn] at hmarker
        cases hmarker
    have hcount := countP_eq_of_fold hfold hwell htags hshows.noTags
    have hclosing : (openMarker t.name t.attrs (String.ofList t.opening) true :: after).countP
        isCloseMarker = 0 := by
      rw [List.countP_eq_zero, List.forall_mem_cons]
      refine ⟨Bool.false_ne_true, ?_⟩
      intro n hn hclose
      have hmarker := isMarker_of_close hclose
      rw [hafter.not_isMarker n hn] at hmarker
      cases hmarker
    rw [hclosing, List.countP_cons_of_pos (by rfl)] at hcount
    cases hcount

end Pieces

end Component

end SafeMarkdown
