import SafeMarkdown.Proofs.Component.ElementPieces
import SafeMarkdown.Proofs.Component.Paragraphs

/-!
# Which nested components are recognised

A source of nested elements starts with a tag. Read as raw markup and matched, it is recognised if
each element has become a component inside of the components around it and no tag is left as text.
This is so exactly if the source is one element whose content fits.
-/

namespace SafeMarkdown

open Node Node.components Markdown

namespace Component

open Item.lines Item.elements Item.tags

section Kinds

variable {t : TagPair} {is : List Item} {m : SourceLine}

theorem ofLine?_words (line : WordLine) : MarkupBlock.ofLine? line.chars = none := by
  obtain ⟨c, rest, hchars, hc⟩ := line.starts
  rw [hchars]
  unfold MarkupBlock.ofLine?
  split
  · rename_i heq
    cases heq
    cases hc
  · rfl

theorem eq_of_ite_eq {α : Type} {p : Prop} [Decidable p] {a b c : α}
    (h : (if p then a else b) = c) (hne : a ≠ c) : b = c := by
  split at h
  · exact (hne h).elim
  · exact h

theorem isLoneTag_of_ofLine? {s : List Char} (h : MarkupBlock.ofLine? s = some .tag) :
    MarkupBlock.isLoneTag s = true := by
  unfold MarkupBlock.ofLine? at h
  split at h
  · dsimp only at h
    -- Each of the six other kinds is tried before.
    iterate 6 replace h := eq_of_ite_eq h nofun
    by_contra hlone
    rw [if_neg hlone] at h
    cases h
  · cases h

/-- Tags that do not interrupt a paragraph are read as they stand in it. -/
theorem afterTag?_of_ofLine? (hm : m.IsTag) (h : MarkupBlock.ofLine? m.chars = some .tag) :
    afterTag? m.chars = some [] := by
  obtain ⟨u, hchars⟩ := hm.exists_chars
  rw [hchars] at h ⊢
  exact afterTag?_of_isLoneTag (isLoneTag_of_ofLine? h)

/-- Whether a line may stand in a paragraph behind another one. -/
def StaysInline (m : SourceLine) : Prop :=
  (∃ line, m = .words line) ∨ m.IsTag ∧ MarkupBlock.ofLine? m.chars = some .tag

theorem staysInline_of_mem (hinline : ∀ s ∈ tagsAll is, s.HasKind .tag) (hm : m ∈ linesAll is) :
    StaysInline m := by
  rcases mem_tagsAll_of_mem_linesAll is hm with hwords | ⟨t, ht, rfl | rfl⟩
  · exact .inl hwords
  · exact .inr ⟨trivial, (hinline t ht).opening⟩
  · exact .inr ⟨trivial, (hinline t ht).closing⟩

/-- Whether a readable line ends a paragraph tells what kind of line it is. -/
theorem kind_of_mem (hreadable : ∀ s ∈ tagsAll is, s.IsReadable) (hm : m ∈ linesAll is) :
    StaysInline m ∨ MarkupBlock.ofLine? m.chars = some .element := by
  rcases mem_tagsAll_of_mem_linesAll is hm with hwords | ⟨t, ht, rfl | rfl⟩
  · exact .inl (.inl hwords)
  · rcases (hreadable t ht).kind with h | h
    · exact .inr h.opening
    · exact .inl (.inr ⟨trivial, h.opening⟩)
  · rcases (hreadable t ht).kind with h | h
    · exact .inr h.closing
    · exact .inl (.inr ⟨trivial, h.closing⟩)

/-- Readable lines part at the first tag that ends a paragraph. -/
theorem exists_split {ms : List SourceLine}
    (h : ∀ m ∈ ms, StaysInline m ∨ MarkupBlock.ofLine? m.chars = some .element) :
    ∃ ps rs, ms = ps ++ rs ∧ (∀ p ∈ ps, StaysInline p) ∧
      ∀ r ∈ rs.head?, MarkupBlock.ofLine? r.chars = some .element := by
  induction ms with
  | nil => exact ⟨[], [], rfl, List.forall_mem_nil _, nofun⟩
  | cons m ms ih =>
      rw [List.forall_mem_cons] at h
      rcases h.1 with hm | hm
      · obtain ⟨ps, rs, rfl, hps, hrs⟩ := ih h.2
        exact ⟨m :: ps, rs, rfl, List.forall_mem_cons.mpr ⟨hm, hps⟩, hrs⟩
      · refine ⟨[], m :: ms, rfl, List.forall_mem_nil _, ?_⟩
        rintro _ ⟨⟩
        exact hm

theorem StaysInline.not_interruptsWords (h : StaysInline m) : interruptsWords m = false := by
  rcases h with ⟨line, rfl⟩ | ⟨-, h⟩
  · rw [interruptsWords, SourceLine.chars, ofLine?_words]
    rfl
  · rw [interruptsWords, h]
    rfl

theorem StaysInline.afterTag? (h : StaysInline m) (htag : m.IsTag) :
    Markdown.afterTag? m.chars = some [] := by
  rcases h with ⟨line, rfl⟩ | ⟨-, h⟩
  · exact htag.elim
  · exact afterTag?_of_ofLine? htag h

theorem ne_nul_of_mem (hreadable : ∀ s ∈ tagsAll is, s.IsReadable) (hm : m ∈ linesAll is) :
    ∀ c ∈ m.chars, c.toNat ≠ 0 := by
  rcases mem_tagsAll_of_mem_linesAll is hm with ⟨line, rfl⟩ | ⟨t, ht, rfl | rfl⟩
  · intro c hc
    rcases line.letters c hc with halpha | rfl
    · have hbounds := Text.toNat_of_isAlphanum (c := c) (by rw [Char.isAlphanum, halpha]; rfl)
      omega
    · decide
  · exact fun c hc ↦ (hreadable t ht).chars c (List.mem_append_left _ hc)
  · exact fun c hc ↦ (hreadable t ht).chars c (List.mem_append_right _ hc)

theorem trim_ofList_endedLines (i : Item) :
    Text.trim (String.ofList (endedLines (linesAll (i :: is)))).toList =
      joinedLines (linesAll (i :: is)) := by
  rw [String.toList_ofList]
  exact trim_endedLines (mt eq_nil_of_linesAll (List.cons_ne_nil i is))

end Kinds

section Depth

theorem exists_eq_succ_of_nestingBound_le {body : String} {depth : Nat}
    (h : nestingBound body ≤ depth) : ∃ d, depth = d + 1 := by
  rw [nestingBound] at h
  exact ⟨depth - 1, by omega⟩

/-- An element has a tag more than its content. -/
theorem nestingBound_lt (t : TagPair) (before content after : List Item) :
    nestingBound (String.ofList (innerText content)) <
      nestingBound (String.ofList (innerText (before ++ .element t content :: after))) := by
  obtain ⟨u, hu⟩ := t.exists_opening
  rw [nestingBound, nestingBound, String.toList_ofList, String.toList_ofList, innerText, innerText,
    linesAll_append, linesAll_element, endedLines_append, endedLines_cons, endedLines_append,
    SourceLine.chars, hu]
  simp only [List.count_cons, List.count_append]
  simp
  omega

end Depth

variable {dialect : Dialect} {is : List Item} {out : List Node}

section Documents

variable (hcore : dialect.core = true) (hhtml : dialect.rawHtml = true)
  (hnesting : 0 < dialect.nesting)

include hnesting

theorem documentNodes_innerText_nil (depth : Nat) :
    documentNodes dialect (depth + 1) (String.ofList (innerText [])) = pure [] :=
  documentNodes_nil hnesting depth

include hcore hhtml

/-- Content that starts with an element is one piece of raw markup. -/
theorem documentNodes_element {t : TagPair} {content more : List Item} (depth : Nat)
    (hreadable : ∀ s ∈ tagsAll (.element t content :: more), s.IsReadable) :
    documentNodes dialect (depth + 1) (String.ofList (innerText (.element t content :: more))) =
      ofMarkup (documentNodes dialect depth)
        (String.ofList (endedLines (linesAll (.element t content :: more)))) true >>=
        fun nodes ↦ Logged.ofExcept (fold nodes) := by
  have hnul (n : SourceLine) (hn : n ∈ linesAll (.element t content :: more)) :=
    ne_nul_of_mem hreadable hn
  have hkind : ∃ k, MarkupBlock.ofLine? (SourceLine.opens t).chars = some k ∧
      (k = .element ∨ k = .tag) := by
    rcases (hreadable t (by simp [tagsAll, Item.tags])).kind with h | h
    · exact ⟨_, h.opening, .inl rfl⟩
    · exact ⟨_, h.opening, .inr rfl⟩
  obtain ⟨k, hline, hk⟩ := hkind
  rw [innerText, linesAll_element] at *
  exact documentNodes_tag hcore hhtml hnesting depth hnul hline hk

/-- Content that starts with words is a paragraph up to the first tag that interrupts it. -/
theorem documentNodes_words_innerText {line : WordLine} {ps rs : List SourceLine} (depth : Nat)
    (hreadable : ∀ s ∈ tagsAll is, s.IsReadable) (hlines : linesAll is = .words line :: ps ++ rs)
    (hps : ∀ p ∈ ps, StaysInline p)
    (hrs : ∀ r ∈ rs.head?, MarkupBlock.ofLine? r.chars = some .element) :
    documentNodes dialect (depth + 1) (String.ofList (innerText is)) =
      (if rs = [] then pure [] else
        ofMarkup (documentNodes dialect depth) (String.ofList (endedLines rs)) true) >>=
        fun more ↦ Logged.ofExcept (fold (paragraphNode (.words line :: ps) :: more)) := by
  have hnul (n : SourceLine) (hn : n ∈ linesAll is) := ne_nul_of_mem hreadable hn
  have hlone (n : SourceLine) (hn : n ∈ .words line :: ps) (htag : n.IsTag) :
      afterTag? n.chars = some [] := by
    rcases List.mem_cons.mp hn with rfl | hn
    · exact htag.elim
    · exact (hps n hn).afterTag? htag
  rw [hlines] at hnul
  rw [innerText, hlines]
  exact documentNodes_words hcore hhtml hnesting depth hnul (ofLine?_words line)
    (fun p hp ↦ (hps p hp).not_interruptsWords) hrs hlone

end Documents

section Paragraphs

variable {ms : List SourceLine} {nodes more children : List Node}

theorem fold_paragraphNode (hchildren : fold (paragraphNode ms).children = .ok children)
    (hnodes : ∀ n ∈ walk.walkAll nodes, WellMarked n) (hfold : fold nodes = .ok more) :
    fold (paragraphNode ms :: nodes) = .ok ({ paragraphNode ms with children } :: more) :=
  fold_cons rfl rfl hchildren hnodes hfold

theorem componentsAll_paragraphNode :
    componentsAll ({ paragraphNode ms with children } :: more) =
      componentsAll children ++ componentsAll more :=
  rfl

theorem mem_signsAll_paragraphNode {c : Char} :
    Sign.letter c ∈ signsAll ({ paragraphNode ms with children } :: more) ↔
      Sign.letter c ∈ signsAll children ∨ Sign.letter c ∈ signsAll more := by
  rw [signsAll_cons, signs_of_not_isText rfl, List.mem_append, List.mem_append]
  simp [paragraphNode, Node.element]

end Paragraphs

section Recognition

variable (hcore : dialect.core = true) (hhtml : dialect.rawHtml = true)
  (hnesting : 0 < dialect.nesting)

include hcore hhtml hnesting

theorem exists_shows_words {line : WordLine} {after : List Item} {nodes more : List Node}
    (depth : Nat) (hreadable : ∀ s ∈ tagsAll (.words line :: is ++ after), s.IsReadable)
    (hinline : ∀ s ∈ tagsAll is, s.HasKind .tag)
    (hafter : ∀ r ∈ (linesAll after).head?, MarkupBlock.ofLine? r.chars = some .element)
    (hnodes : Succeeds (if linesAll after = [] then pure [] else ofMarkup
      (documentNodes dialect depth) (String.ofList (endedLines (linesAll after))) true) nodes)
    (hwell : ∀ n ∈ walk.walkAll nodes, WellMarked n) (hfold : fold nodes = .ok more)
    (hmore : Shows more after) :
    ∃ out, Succeeds (documentNodes dialect (depth + 1)
      (String.ofList (innerText (.words line :: is ++ after)))) out ∧
      Shows out (.words line :: is ++ after) := by
  have hlines : linesAll (.words line :: is ++ after) =
      .words line :: linesAll is ++ linesAll after :=
    linesAll_append (.words line :: is) after
  obtain ⟨children, hchildren, hcomponents, hsigns⟩ :=
    exists_fold_paragraphNode (List.cons_ne_nil (.words line) is)
  rw [documentNodes_words_innerText hcore hhtml hnesting depth hreadable hlines
    (fun p hp ↦ staysInline_of_mem hinline hp) hafter]
  have hout := Logged.succeeds_ofExcept (fold_paragraphNode hchildren hwell hfold)
  refine ⟨_, hnodes.bind hout, ?_, ?_⟩
  · rw [componentsAll_paragraphNode, hcomponents, hmore.components, elementsAll_append]
  · rw [mem_signsAll_paragraphNode, not_or]
    exact ⟨hsigns, hmore.noTags⟩

/-- Content that fits is recognised, by induction on how it fits. -/
theorem exists_shows_of_fits {depth : Nat} (hfits : Fits is)
    (hreadable : ∀ s ∈ tagsAll is, s.IsReadable)
    (hdepth : nestingBound (String.ofList (innerText is)) ≤ depth) :
    ∃ out, Succeeds (documentNodes dialect depth (String.ofList (innerText is))) out ∧
      Shows out is := by
  induction hfits generalizing depth with
  | nil =>
      obtain ⟨depth, rfl⟩ := exists_eq_succ_of_nestingBound_le hdepth
      rw [documentNodes_innerText_nil hnesting]
      exact ⟨[], succeeds_pure [], rfl, List.not_mem_nil⟩
  | @element t body _ ih =>
      have hbody : ∀ s ∈ tagsAll body, s.IsReadable := fun s hs ↦
        hreadable s (by simp [tagsAll, Item.tags, hs])
      have hlt := nestingBound_lt t [] body []
      obtain ⟨depth, rfl⟩ := exists_eq_succ_of_nestingBound_le hdepth
      obtain ⟨children, hchildren, hshows⟩ :=
        ih hbody (Nat.le_of_lt_succ (Nat.lt_of_lt_of_le hlt hdepth))
      obtain ⟨nodes, out, hnodes, -, hfold, hout⟩ := exists_shows_element (t := t)
        (documentNodes_unmarked dialect depth) (trim_ofList_endedLines _) hchildren hshows
      rw [documentNodes_element hcore hhtml hnesting depth hreadable]
      exact ⟨out, hnodes.bind (Logged.succeeds_ofExcept hfold), hout⟩
  | @text line is hinline =>
      obtain ⟨depth, rfl⟩ := exists_eq_succ_of_nestingBound_le hdepth
      rw [← List.append_nil (.words line :: is)] at hreadable ⊢
      exact exists_shows_words hcore hhtml hnesting depth hreadable hinline nofun (succeeds_pure [])
        (List.forall_mem_nil _) rfl ⟨rfl, List.not_mem_nil⟩
  | @textAndElement line is t body hinline ht _ ih =>
      have hbody : ∀ s ∈ tagsAll body, s.IsReadable := fun s hs ↦
        hreadable s (by rw [tagsAll_append]; simp [tagsAll, Item.tags, hs])
      have hlt := nestingBound_lt t (.words line :: is) body []
      obtain ⟨depth, rfl⟩ := exists_eq_succ_of_nestingBound_le hdepth
      obtain ⟨children, hchildren, hshows⟩ :=
        ih hbody (Nat.le_of_lt_succ (Nat.lt_of_lt_of_le hlt hdepth))
      obtain ⟨nodes, more, hnodes, hwell, hfold, hmore⟩ := exists_shows_element (t := t)
        (documentNodes_unmarked dialect depth) (trim_ofList_endedLines _) hchildren hshows
      have hlines : linesAll [.element t body] ≠ [] :=
        mt eq_nil_of_linesAll (List.cons_ne_nil _ _)
      refine exists_shows_words hcore hhtml hnesting depth hreadable hinline ?_ ?_ hwell hfold hmore
      · rintro r ⟨⟩
        exact ht.opening
      · rw [if_neg hlines]
        exact hnodes

/-- Words and what follows them are recognised only if the paragraph ends with an item and what
follows the paragraph is recognised. -/
theorem exists_append_of_shows {line : WordLine} {depth : Nat}
    (hreadable : ∀ s ∈ tagsAll (.words line :: is), s.IsReadable)
    (h : (documentNodes dialect (depth + 1)
      (String.ofList (innerText (.words line :: is)))).Returns out)
    (hshows : Shows out (.words line :: is)) :
    ∃ before after, is = before ++ after ∧ (∀ s ∈ tagsAll before, s.HasKind .tag) ∧
      (after ≠ [] → (∀ r ∈ (linesAll after).head?, MarkupBlock.ofLine? r.chars = some .element) ∧
        ∃ nodes more, (ofMarkup (documentNodes dialect depth)
          (String.ofList (endedLines (linesAll after))) true).Returns nodes ∧
          fold nodes = .ok more ∧ Shows more after) := by
  have hrest : ∀ s ∈ tagsAll is, s.IsReadable := hreadable
  obtain ⟨ps, rs, hsplit, hps, hrs⟩ := exists_split fun m hm ↦ kind_of_mem hrest hm
  have hlines : linesAll (.words line :: is) = .words line :: ps ++ rs := by
    rw [linesAll, Item.lines, hsplit]
    rfl
  rw [documentNodes_words_innerText hcore hhtml hnesting depth hreadable hlines hps hrs] at h
  obtain ⟨nodes, hnodes, h⟩ := Logged.returns_bind h
  have hout := Logged.returns_ofExcept h
  have hwell : ∀ n ∈ walk.walkAll nodes, WellMarked n := by
    split at hnodes
    · rw [Logged.returns_pure hnodes]
      exact List.forall_mem_nil _
    · exact ofMarkup_wellMarked (documentNodes_unmarked dialect depth) hnodes
  obtain ⟨children, hchildren⟩ := fold_isOk (wellMarked_paragraphNode (.words line :: ps))
  obtain ⟨more, hmore⟩ := fold_isOk hwell
  obtain rfl := Except.ok.inj (hout.symm.trans (fold_paragraphNode hchildren hwell hmore))
  have hsigns := hshows.noTags
  rw [mem_signsAll_paragraphNode, not_or] at hsigns
  -- As many tags open in the paragraph as close, so its last line ends an item.
  have hcount := countP_of_fold_paragraphNode hchildren hsigns.1
  rcases split_linesAll _ hlines with ⟨before, after, heq, hbefore, hafter⟩ | hlt
  · cases before with
    | nil => cases hbefore
    | cons i before =>
        rw [List.cons_append, List.cons.injEq] at heq
        obtain ⟨rfl, rfl⟩ := heq
        have hlast : linesAll before = ps := (List.cons.inj hbefore).2
        have hinline (s : TagPair) (hs : s ∈ tagsAll before) : s.HasKind .tag := by
          have hstays := hps _ (hlast ▸ mem_linesAll_of_mem_tagsAll before hs)
          have hs' := hrest s (by rw [tagsAll_append]; exact List.mem_append_left _ hs)
          refine hs'.kind.resolve_left fun hkind ↦ ?_
          have hinterrupts := hstays.not_interruptsWords
          rw [interruptsWords, SourceLine.chars, hkind.opening] at hinterrupts
          cases hinterrupts
        refine ⟨before, after, rfl, hinline, fun hne ↦ ⟨hafter ▸ hrs, ?_⟩⟩
        rw [if_neg (hafter ▸ mt eq_nil_of_linesAll hne)] at hnodes
        refine ⟨nodes, more, hafter ▸ hnodes, hmore, ?_, hsigns.2⟩
        obtain ⟨children', hchildren', hcomponents, -⟩ :=
          exists_fold_paragraphNode (List.cons_ne_nil (.words line) before)
        rw [hbefore] at hchildren'
        obtain rfl := Except.ok.inj (hchildren.symm.trans hchildren')
        have hshapes := hshows.components
        rw [componentsAll_paragraphNode, hcomponents, ← List.cons_append, elementsAll_append]
          at hshapes
        exact List.append_cancel_left hshapes
  · omega

/-- Content is recognised only if it fits, by induction on its lines. -/
theorem fits_of_shows {depth : Nat} (hreadable : ∀ s ∈ tagsAll is, s.IsReadable)
    (hdepth : nestingBound (String.ofList (innerText is)) ≤ depth)
    (h : (documentNodes dialect depth (String.ofList (innerText is))).Returns out)
    (hshows : Shows out is) : Fits is := by
  induction hlength : (linesAll is).length using Nat.strongRecOn generalizing is depth out with
  | ind length ih =>
      subst hlength
      obtain ⟨depth, rfl⟩ := exists_eq_succ_of_nestingBound_le hdepth
      -- The last element of the content is recognised only if its own content fits.
      have helement {before more : List Item} {t : TagPair} {body : List Item}
          {nodes folded : List Node} (his : is = before ++ .element t body :: more)
          (hnodes : (ofMarkup (documentNodes dialect depth)
            (String.ofList (endedLines (linesAll (.element t body :: more)))) true).Returns nodes)
          (hfold : fold nodes = .ok folded) (hfolded : Shows folded (.element t body :: more)) :
          more = [] ∧ Fits body := by
        obtain ⟨rfl, children, hchildren, hbody⟩ := eq_nil_of_shows
          (documentNodes_unmarked dialect depth) (trim_ofList_endedLines _) hnodes hfold hfolded
        subst his
        have hlt := nestingBound_lt t before body []
        refine ⟨rfl, ih _ ?_ ?_ ?_ hchildren hbody rfl⟩
        · rw [linesAll_append, linesAll_element, List.length_append, List.length_cons,
            List.length_append]
          omega
        · intro s hs
          exact hreadable s (by rw [tagsAll_append]; simp [tagsAll, Item.tags, hs])
        · omega
      cases is with
      | nil => exact .nil
      | cons i rest =>
          cases i with
          | element t body =>
              rw [documentNodes_element hcore hhtml hnesting depth hreadable] at h
              obtain ⟨nodes, hnodes, h⟩ := Logged.returns_bind h
              obtain ⟨rfl, hbody⟩ := helement (List.nil_append _).symm hnodes
                (Logged.returns_ofExcept h) hshows
              exact .element hbody
          | words line =>
              obtain ⟨before, after, rfl, hinline, hafter⟩ :=
                exists_append_of_shows hcore hhtml hnesting hreadable h hshows
              cases after with
              | nil =>
                  rw [List.append_nil]
                  exact .text hinline
              | cons i after =>
                  obtain ⟨hkind, nodes, more, hnodes, hmore, hshowsMore⟩ :=
                    hafter (List.cons_ne_nil i after)
                  cases i with
                  | words line' =>
                      have hwords := hkind (.words line') rfl
                      rw [SourceLine.chars, ofLine?_words] at hwords
                      cases hwords
                  | element t body =>
                      have his : Item.words line :: (before ++ .element t body :: after) =
                          (.words line :: before) ++ .element t body :: after := rfl
                      obtain ⟨rfl, hbody⟩ := helement his hnodes hmore hshowsMore
                      have ht : t.HasKind .element := by
                        refine (hreadable t ?_).kind.resolve_right fun htag ↦ ?_
                        · rw [← List.cons_append, tagsAll_append]
                          simp [tagsAll, Item.tags]
                        · have hopening := hkind (.opens t) rfl
                          rw [SourceLine.chars, htag.opening] at hopening
                          cases hopening
                      exact .textAndElement hinline ht hbody

end Recognition

/-- Whether the nodes that raw markup is read as become the components of a source. -/
def Recognised (dialect : Dialect) (src : String) (is : List Item) : Prop :=
  ∃ nodes out, Succeeds (markupNodes dialect src true) nodes ∧ fold nodes = .ok out ∧ Shows out is

/-- A source that starts with an element is recognised exactly if it is one element and the content
of that fits. -/
theorem recognised_iff {src : String} {t : TagPair} {content more : List Item}
    (hcore : dialect.core = true) (hhtml : dialect.rawHtml = true) (hnesting : 0 < dialect.nesting)
    (hsrc : Text.trim src.toList = joinedLines (linesAll (.element t content :: more)))
    (hreadable : ∀ s ∈ tagsAll content, s.IsReadable) :
    Recognised dialect src (.element t content :: more) ↔ more = [] ∧ Fits content := by
  constructor
  · rintro ⟨nodes, out, hnodes, hfold, hshows⟩
    obtain ⟨rfl, children, hchildren, hcontent⟩ :=
      eq_nil_of_shows (blocks_unmarked dialect) hsrc (Logged.returns_of_succeeds hnodes) hfold
        hshows
    exact ⟨rfl, fits_of_shows hcore hhtml hnesting hreadable (Nat.le_refl _) hchildren hcontent⟩
  · rintro ⟨rfl, hfits⟩
    obtain ⟨children, hchildren, hshows⟩ :=
      exists_shows_of_fits hcore hhtml hnesting hfits hreadable (Nat.le_refl _)
    obtain ⟨nodes, out, hnodes, -, hfold, hout⟩ :=
      exists_shows_element (blocks_unmarked dialect) hsrc hchildren hshows
    exact ⟨nodes, out, hnodes, hfold, hout⟩

/-- A pair of tags without attributes. -/
def badgeTags : TagPair where
  name := "Badge"
  opening := "<Badge>".toList
  closing := "</Badge>".toList
  opens := ⟨_, rfl, rfl, rfl⟩
  closes := rfl
  oneLine := by simp

/-- A pair of tags with the name of an element of HTML. -/
def sectionTags : TagPair where
  name := "Section"
  opening := "<Section>".toList
  closing := "</Section>".toList
  opens := ⟨_, rfl, rfl, rfl⟩
  closes := rfl
  oneLine := by simp

def cardTags : TagPair where
  name := "Card"
  opening := "<Card tone=\"soft\">".toList
  closing := "</Card>".toList
  opens := ⟨_, rfl, rfl, rfl⟩
  closes := rfl
  oneLine := by simp

def someWords : WordLine where
  chars := "some words".toList
  letters := by simp
  starts := ⟨_, _, rfl, rfl⟩
  ends := ⟨"some word".toList, 's', rfl, rfl⟩

/-- A card around words, a component in their text and one behind it. -/
theorem recognised_iff_card : Recognised .gfmLike
    "<Card tone=\"soft\">\nsome words\n<Badge>\nsome words\n</Badge>\n<Section>\n</Section>\n</Card>\n"
    [.element cardTags [.words someWords, .element badgeTags [.words someWords],
      .element sectionTags []]] := by
  have hbadge : badgeTags.HasKind .tag := ⟨by decide +kernel, by decide +kernel⟩
  have hsection : sectionTags.HasKind .element := ⟨by decide +kernel, by decide +kernel⟩
  refine (recognised_iff rfl rfl (by decide) (by decide +kernel) ?_).mpr ⟨rfl, ?_⟩
  · refine List.forall_mem_cons.mpr ⟨⟨.inr hbadge, ?_⟩,
      List.forall_mem_singleton.mpr ⟨.inl hsection, ?_⟩⟩
    · simp [badgeTags]
    · simp [sectionTags]
  · have hinline : ∀ s ∈ tagsAll [.element badgeTags [.words someWords]], s.HasKind .tag :=
      List.forall_mem_singleton.mpr hbadge
    exact .textAndElement hinline hsection .nil

/-- Of two elements with one name only the first tag and the last become a component. -/
theorem not_recognised_twice :
    Text.trim "<Badge>\n</Badge>\n<Badge>\n</Badge>".toList =
        joinedLines (linesAll [.element badgeTags [], .element badgeTags []]) ∧
      ¬ Recognised .gfmLike "<Badge>\n</Badge>\n<Badge>\n</Badge>"
        [.element badgeTags [], .element badgeTags []] := by
  have hsrc : Text.trim "<Badge>\n</Badge>\n<Badge>\n</Badge>".toList =
      joinedLines (linesAll [.element badgeTags [], .element badgeTags []]) := by decide +kernel
  refine ⟨hsrc, ?_⟩
  rintro ⟨nodes, out, hnodes, hfold, hshows⟩
  obtain ⟨hnil, -⟩ :=
    eq_nil_of_shows (blocks_unmarked _) hsrc (Logged.returns_of_succeeds hnodes) hfold hshows
  cases hnil

end Component

end SafeMarkdown
