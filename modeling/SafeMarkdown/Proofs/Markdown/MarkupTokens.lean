import SafeMarkdown.Proofs.Markdown.Blocks
import SafeMarkdown.Proofs.Markdown.Tokens

/-!
# Tokens of raw markup

The tokens of raw markup that stand where blocks do are those of the blocks, in their order. Neither
reading the texts nor moving the footnotes to the end adds one, so each has at most the angle
brackets of the document.
-/

namespace SafeMarkdown.Markdown

/-- The raw markup among tokens that stands where blocks do. -/
def markupTexts (ts : List Token) : List String :=
  (ts.filter (·.type == "html_block")).map Token.content

variable {t : Token} {ts us : List Token}

@[simp]
theorem markupTexts_nil : markupTexts [] = [] :=
  rfl

@[simp]
theorem markupTexts_append (ts us : List Token) :
    markupTexts (ts ++ us) = markupTexts ts ++ markupTexts us := by
  simp [markupTexts]

theorem markupTexts_cons_of_ne (h : t.type ≠ "html_block") (ts : List Token) :
    markupTexts (t :: ts) = markupTexts ts := by
  simp [markupTexts, h]

theorem mem_markupTexts (ht : t ∈ ts) (h : t.type = "html_block") : t.content ∈ markupTexts ts :=
  List.mem_map_of_mem (List.mem_filter.mpr ⟨ht, by simpa using h⟩)

section Blocks

theorem markupTexts_enclosed {name tag : String} {attrs : Fields} {content : List Token}
    (hopen : name ++ "_open" ≠ "html_block") (hclose : name ++ "_close" ≠ "html_block") :
    markupTexts (enclosed name tag attrs content) = markupTexts content := by
  rw [enclosed, List.cons_append, markupTexts_cons_of_ne hopen, markupTexts_append,
    markupTexts_cons_of_ne hclose, markupTexts_nil, List.append_nil]

theorem markupTexts_flatMap {α : Type} {f : α → List Token} (h : ∀ a, markupTexts (f a) = [])
    (as : List α) : markupTexts (as.flatMap f) = [] := by
  induction as with
  | nil => rfl
  | cons a as ih => rw [List.flatMap_cons, markupTexts_append, h, ih, List.append_nil]

theorem markupTexts_textToken (s : List Char) : markupTexts [textToken s] = [] :=
  rfl

theorem markupTexts_rowTokens {tag : String} (hopen : tag ++ "_open" ≠ "html_block")
    (hclose : tag ++ "_close" ≠ "html_block") (columns : List (Option Alignment))
    (cells : List (List Char)) : markupTexts (rowTokens tag columns cells) = [] := by
  rw [rowTokens, markupTexts_enclosed (by decide) (by decide)]
  refine markupTexts_flatMap (fun cell ↦ ?_) _
  exact (markupTexts_enclosed hopen hclose).trans (markupTexts_textToken _)

theorem markupTexts_tableTokens (columns : List (Option Alignment)) (header : List (List Char))
    (rows : List (List (List Char))) : markupTexts (tableTokens columns header rows) = [] := by
  rw [tableTokens, markupTexts_enclosed (by decide) (by decide), markupTexts_append,
    markupTexts_enclosed (by decide) (by decide), markupTexts_rowTokens (by decide) (by decide)]
  split
  · rfl
  · rw [markupTexts_enclosed (by decide) (by decide),
      markupTexts_flatMap (markupTexts_rowTokens (by decide) (by decide) columns),
      List.append_nil]

theorem markupTexts_quoteTokens (dialect : Dialect) (content : List Block) (ts : List Token) :
    markupTexts (quoteTokens dialect content ts) = markupTexts ts := by
  rw [quoteTokens]
  split
  · rw [markupTexts_enclosed (by decide) (by decide), markupTexts_append, alertTitle,
      markupTexts_enclosed (by decide) (by decide), markupTexts_cons_of_ne (by simp),
      markupTexts_nil, List.nil_append]
  · exact markupTexts_enclosed (by decide) (by decide)

mutual

theorem markupTexts_blockTokens (dialect : Dialect) : (b : Block) → (hidden : Bool) →
    markupTexts (blockTokens dialect hidden b) = (markupIn b).map String.ofList
  | .paragraph s, hidden => rfl
  | .heading level s, hidden => by
      rw [blockTokens, markupTexts_enclosed (by decide) (by decide)]
      rfl
  | .code s, hidden => rfl
  | .fence info s, hidden => rfl
  | .markup s, hidden => rfl
  | .rule, hidden => rfl
  | .quote content, hidden => by
      rw [blockTokens, markupTexts_quoteTokens, markupIn,
        markupTexts_containerTokens dialect content]
  | .list start tight items, hidden => by
      rw [blockTokens, markupIn, ← markupTexts_containerTokens dialect items tight none]
      dsimp only
      split
      · exact markupTexts_enclosed (by decide) (by decide)
      · exact markupTexts_enclosed (by decide) (by decide)
  | .item content, hidden => by
      rw [blockTokens, markupTexts_enclosed (by decide) (by decide), markupIn,
        markupTexts_containerTokens dialect content]
  | .table columns header rows, hidden => by
      rw [blockTokens, markupTexts_tableTokens]
      rfl
  | .definition _, hidden => rfl
  | .footnote label content, hidden => by
      rw [blockTokens, markupIn, List.cons_append, markupTexts_cons_of_ne (by simp [Token.opening]),
        markupTexts_append, markupTexts_containerTokens dialect content,
        markupTexts_cons_of_ne (by simp [Token.closing]), markupTexts_nil, List.append_nil]

theorem markupTexts_containerTokens (dialect : Dialect) : (bs : List Block) → (hidden : Bool) →
    (start : Option Bool) →
    markupTexts (containerTokens dialect hidden start bs) = (markupAmong bs).map String.ofList
  | [], hidden, start => by
      rw [containerTokens]
      rfl
  | b :: rest, hidden, start => by
      have hrest := markupTexts_containerTokens dialect rest hidden none
      have hshown (omitted : Bool) (s : List Char) :
          markupTexts (if omitted = true then [] else paragraphTokens hidden s) = [] := by
        cases omitted with
        | true => rfl
        | false => rfl
      unfold containerTokens
      split
      · rename_i heq
        cases heq
      · rename_i heq
        cases heq
        rw [markupTexts_append, hshown, hrest]
        rfl
      · rename_i heq
        cases heq
        rw [markupTexts_append, markupTexts_blockTokens dialect b hidden, hrest, markupAmong,
          List.map_append]

end

end Blocks

theorem markupTexts_readTexts {dialect : Dialect} {definitions : List Definition}
    {notes notes' : Notes} (h : readTexts dialect definitions notes ts = .ok (us, notes')) :
    markupTexts us = markupTexts ts := by
  induction ts generalizing notes us with
  | nil =>
      cases h
      rfl
  | cons t ts ih =>
      rw [readTexts] at h
      split at h
      · rename_i htype
        obtain ⟨⟨children, mid⟩, -, h⟩ := bind_eq_ok.mp h
        obtain ⟨⟨more, last⟩, hmore, h⟩ := bind_eq_ok.mp h
        cases h
        have hne : t.type ≠ "html_block" := by
          rw [beq_iff_eq.mp htype]
          decide
        rw [markupTexts_cons_of_ne hne ts, ← ih hmore]
        exact markupTexts_cons_of_ne (t := { t with children }) hne more
      · obtain ⟨⟨more, last⟩, hmore, h⟩ := bind_eq_ok.mp h
        cases h
        have hmarkup := ih hmore
        simp only [markupTexts, List.filter_cons] at hmarkup ⊢
        split
        · rw [List.map_cons, List.map_cons, hmarkup]
        · exact hmarkup

/-- A token of raw markup has at most the angle brackets of the document. -/
theorem count_le_of_mem_tokens {dialect : Dialect} {body : String}
    (h : tokens dialect body = .ok ts) (ht : t ∈ ts) (htype : t.type = "html_block") :
    t.content.toList.count '<' ≤ body.toList.count '<' := by
  obtain ⟨⟨us, notes⟩, hread, h⟩ := bind_eq_ok.mp h
  cases h
  rcases mem_withNotes ht with ht | hnote
  · have hmem := mem_markupTexts ht htype
    rw [markupTexts_readTexts hread, markupTexts_containerTokens] at hmem
    obtain ⟨s, hs, hcontent⟩ := List.mem_map.mp hmem
    rw [← hcontent, String.toList_ofList]
    exact blocksOf_within dialect body s hs
  · exact absurd htype (hnote.type_ne (by decide) (by decide))

end SafeMarkdown.Markdown
