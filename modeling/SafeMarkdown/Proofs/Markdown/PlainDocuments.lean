import SafeMarkdown.Markdown.Document
import SafeMarkdown.Proofs.Component.Pieces
import SafeMarkdown.Proofs.Markdown.Descent
import SafeMarkdown.Proofs.Markdown.PlainLines
import SafeMarkdown.Proofs.Markdown.PlainText

/-!
# Documents of words and tags

A document whose lines are words and tags is raw markup, if it starts with a tag. If it starts with
words it is a paragraph of words and markers, which raw markup may follow.
-/

namespace SafeMarkdown.Markdown

open Component

variable {dialect : Dialect} {ms : List SourceLine}

section Normal

theorem unifyLineEnds_of_forall {s : List Char} (h : ∀ c ∈ s, c ≠ '\r') :
    Text.unifyLineEnds s = s := by
  induction s with
  | nil => rfl
  | cons c rest ih =>
      rw [List.forall_mem_cons] at h
      rw [Text.unifyLineEnds, ih h.2]
      · exact fun more hc ↦ absurd hc h.1
      · exact h.1

theorem normalize_of_forall {s : List Char} (h : ∀ c ∈ s, c ≠ '\r' ∧ c.toNat ≠ 0) :
    normalize (String.ofList s) = s := by
  rw [normalize, String.toList_ofList, unifyLineEnds_of_forall fun c hc ↦ (h c hc).1]
  refine (List.map_congr_left fun c hc ↦ ?_).trans s.map_id
  rw [if_neg (h c hc).2]
  rfl

theorem mem_endedLines {c : Char} (h : c ∈ endedLines ms) : c = '\n' ∨ ∃ m ∈ ms, c ∈ m.chars := by
  obtain ⟨m, hm, hc⟩ := List.mem_flatMap.mp h
  rcases List.mem_append.mp hc with hc | hc
  · exact .inr ⟨m, hm, hc⟩
  · exact .inl (List.mem_singleton.mp hc)

theorem normalize_endedLines (h : ∀ m ∈ ms, ∀ c ∈ m.chars, c.toNat ≠ 0) :
    normalize (String.ofList ('\n' :: endedLines ms)) = '\n' :: endedLines ms := by
  refine normalize_of_forall (List.forall_mem_cons.mpr ⟨by decide, fun c hc ↦ ?_⟩)
  rcases mem_endedLines hc with rfl | ⟨m, hm, hc⟩
  · decide
  · exact ⟨(m.oneLine c hc).2, h m hm c hc⟩

end Normal

section Tokens

def markupToken (ms : List SourceLine) : Token :=
  { type := "html_block", content := String.ofList (endedLines ms) }

/-- The tokens of a paragraph of lines. -/
def lineTokens (ms : List SourceLine) : List Token :=
  [Token.opening "paragraph_open" "p",
    { textToken (joinedLines ms) with children := (ms.map lineToken).intersperse softBreak },
    Token.closing "paragraph_close" "p"]

theorem containerTokens_paragraph (hidden : Bool) (s : List Char) (bs : List Block) :
    containerTokens dialect hidden none (.paragraph s :: bs) =
      paragraphTokens hidden s ++ containerTokens dialect hidden none bs := by
  rw [containerTokens, show ((none : Option Bool) == some false) = false from rfl, Bool.and_false,
    if_neg Bool.false_ne_true]

section Texts

variable {definitions : List Definition} {notes notes' : Notes} {t : Token} {ts us : List Token}

theorem readTexts_cons_plain (ht : t.type ≠ "inline")
    (h : readTexts dialect definitions notes ts = .ok (us, notes')) :
    readTexts dialect definitions notes (t :: ts) = .ok (t :: us, notes') := by
  rw [readTexts, if_neg (by simpa using ht), h]
  rfl

theorem readTexts_cons_text {children : List Token} {mid : Notes} (ht : t.type = "inline")
    (hread : readInline dialect definitions t.content.toList notes = .ok (children, mid))
    (h : readTexts dialect definitions mid ts = .ok (us, notes')) :
    readTexts dialect definitions notes (t :: ts) = .ok ({ t with children } :: us, notes') := by
  rw [readTexts, if_pos (beq_iff_eq.mpr ht), hread]
  change (readTexts dialect definitions mid ts >>= _) = _
  rw [h]
  rfl

end Texts

variable (hcore : dialect.core = true) (hhtml : dialect.rawHtml = true)
  (hnesting : 0 < dialect.nesting)

include hnesting

theorem tokens_nil : tokens dialect (String.ofList ['\n']) = .ok [] := by
  have hnormal : normalize (String.ofList ['\n']) = ['\n'] :=
    normalize_of_forall (List.forall_mem_singleton.mpr (by decide))
  rw [tokens, hnormal, blocksOf_nil hnesting]
  rfl

include hcore hhtml

theorem tokens_tag {m : SourceLine} {k : MarkupBlock}
    (hnul : ∀ n ∈ m :: ms, ∀ c ∈ n.chars, c.toNat ≠ 0)
    (hline : MarkupBlock.ofLine? m.chars = some k) (hk : k = .element ∨ k = .tag) :
    tokens dialect (String.ofList ('\n' :: endedLines (m :: ms))) =
      .ok [markupToken (m :: ms)] := by
  rw [tokens, normalize_endedLines hnul, blocksOf_tag hcore hhtml hnesting hline hk]
  rfl

theorem tokens_words {m : SourceLine} {ps rs : List SourceLine}
    (hnul : ∀ n ∈ m :: ps ++ rs, ∀ c ∈ n.chars, c.toNat ≠ 0)
    (hline : MarkupBlock.ofLine? m.chars = none) (hps : ∀ p ∈ ps, interruptsWords p = false)
    (hrs : ∀ r ∈ rs.head?, MarkupBlock.ofLine? r.chars = some .element)
    (hlone : ∀ n ∈ m :: ps, n.IsTag → afterTag? n.chars = some []) :
    tokens dialect (String.ofList ('\n' :: endedLines (m :: ps ++ rs))) =
      .ok (lineTokens (m :: ps) ++ if rs = [] then [] else [markupToken rs]) := by
  have hinline (definitions : List Definition) (notes : Notes) :
      readInline dialect definitions (textToken (joinedLines (m :: ps))).content.toList notes =
        .ok (((m :: ps).map lineToken).intersperse softBreak, notes) := by
    rw [textToken, String.toList_ofList]
    exact readInline_lines hcore hhtml hnesting hlone (List.cons_ne_nil m ps) notes
  have hread (notes : Notes) (more : List Token)
      (hmore : readTexts dialect [] notes more = .ok (more, notes)) :
      readTexts dialect [] notes (paragraphTokens false (joinedLines (m :: ps)) ++ more) =
        .ok (lineTokens (m :: ps) ++ more, notes) :=
    readTexts_cons_plain (by decide)
      (readTexts_cons_text rfl (hinline [] notes) (readTexts_cons_plain (by decide) hmore))
  rw [tokens, normalize_endedLines hnul, blocksOf_words hcore hhtml hnesting hline hps hrs]
  cases rs with
  | nil =>
      rw [if_pos rfl, if_pos rfl]
      dsimp only
      rw [containerTokens_paragraph]
      change (readTexts dialect [] {}
        (paragraphTokens false (joinedLines (m :: ps)) ++ []) >>= _) = _
      rw [hread {} [] rfl]
      rfl
  | cons r rs =>
      rw [if_neg (List.cons_ne_nil r rs), if_neg (List.cons_ne_nil r rs)]
      dsimp only
      rw [containerTokens_paragraph]
      change (readTexts dialect [] {} (paragraphTokens false (joinedLines (m :: ps)) ++
        [markupToken (r :: rs)]) >>= _) = _
      rw [hread {} _ rfl]
      rfl

end Tokens

section Conversion

variable {blocks : String → Logged (List Node)} {b : Building} {t : Token}

/-- The node of a line in a paragraph. -/
def lineNode : SourceLine → Node
  | .words line => Node.ofText (String.ofList line.chars)
  | .opens tags => openMarker tags.name tags.attrs (String.ofList tags.opening) false
  | .closes tags => closeMarker tags.name (String.ofList tags.closing) false

def lineEnd : Node :=
  Node.ofText "\n"

/-- The element of a paragraph of lines. -/
def paragraphNode (ms : List SourceLine) : Node :=
  Node.element "p" [] (Node.mergeText ((ms.map lineNode).intersperse lineEnd))

theorem trim_chars (m : SourceLine) : Text.trim m.chars = m.chars := by
  have htrim := trim_joinedLines_append (List.cons_ne_nil m []) (List.forall_mem_nil _)
    (List.forall_mem_nil _)
  rwa [joinedLines_singleton, List.nil_append, List.append_nil] at htrim

theorem leafNodes_lineToken (m : SourceLine) :
    leafNodes blocks (lineToken m) = pure [lineNode m] := by
  cases m with
  | words line => rfl
  | opens tags =>
      have hread : readOpenTag? (Text.trim (String.ofList tags.opening).toList) =
          some (tags.openTag, []) := by
        rw [String.toList_ofList, ← tags.readOpenTag?_opening]
        exact congrArg readOpenTag? (trim_chars (.opens tags))
      change ofMarkup blocks (String.ofList tags.opening) false = _
      rw [ofMarkup_opening hread, opened_marker rfl rfl]
      rfl
  | closes tags =>
      have htrim : Text.trim (String.ofList tags.closing).toList = tags.closing := by
        rw [String.toList_ofList]
        exact trim_chars (.closes tags)
      have hread : readCloseTag? (Text.trim (String.ofList tags.closing).toList) =
          some (tags.name, []) := by
        rw [htrim, tags.closes]
      change ofMarkup blocks (String.ofList tags.closing) false = _
      rw [ofMarkup_closing hread, htrim]
      rfl

theorem convertFrom_leaf {ns : List Node} (hb : b.ended = false) (ht : t.nesting = .single)
    (hleaf : leafNodes blocks t = pure ns) (rest : List Token) :
    convertFrom blocks b (t :: rest) = convertFrom blocks (b.add ns) rest := by
  rw [convertFrom_cons_of_not_ended hb, ht]
  dsimp only
  rw [hleaf, pure_bind]

theorem convertFrom_open {c : Container} (hb : b.ended = false) (ht : t.nesting = .opens)
    (hcontainer : containerOf t = pure c) (rest : List Token) :
    convertFrom blocks b (t :: rest) = convertFrom blocks (b.opening c) rest := by
  rw [convertFrom_cons_of_not_ended hb, ht]
  dsimp only
  rw [hcontainer, pure_bind]

theorem convertFrom_close (hb : b.ended = false) (ht : t.nesting = .closes) (rest : List Token) :
    convertFrom blocks b (t :: rest) = convertFrom blocks b.closing rest := by
  rw [convertFrom_cons_of_not_ended hb, ht]

theorem nesting_lineToken (m : SourceLine) : (lineToken m).nesting = .single := by
  cases m with
  | words line => rfl
  | opens tags => rfl
  | closes tags => rfl

theorem convertFrom_lineTokens (hb : b.ended = false) (ms : List SourceLine) :
    convertFrom blocks b ((ms.map lineToken).intersperse softBreak) =
      pure (b.add ((ms.map lineNode).intersperse lineEnd)) := by
  induction ms generalizing b with
  | nil => rfl
  | cons m ms ih =>
      cases ms with
      | nil =>
          exact convertFrom_leaf hb (nesting_lineToken m) (leafNodes_lineToken m) []
      | cons n ms =>
          have hbreak : leafNodes blocks softBreak = pure [lineEnd] := rfl
          have hline : (b.add [lineNode m]).ended = false := hb
          have hended : ((b.add [lineNode m]).add [lineEnd]).ended = false := hb
          rw [List.map_cons, List.map_cons, List.intersperse_cons_cons,
            convertFrom_leaf hb (nesting_lineToken m) (leafNodes_lineToken m),
            convertFrom_leaf hline rfl hbreak, ← List.map_cons, ih hended]
          change _ = pure (b.add (lineNode m :: lineEnd ::
            ((n :: ms).map lineNode).intersperse lineEnd))
          simp [Building.add]

theorem convertFrom_paragraph (ms : List SourceLine) (rest : List Token) :
    convertFrom blocks {} (lineTokens ms ++ rest) =
      convertFrom blocks (Building.add {} [paragraphNode ms]) rest := by
  have hcontainer : containerOf (Token.opening "paragraph_open" "p") =
      pure (.element (Node.element "p" [] [])) := rfl
  have hleaf : leafNodes blocks { textToken (joinedLines ms) with
      children := (ms.map lineToken).intersperse softBreak } =
        pure (Node.mergeText ((ms.map lineNode).intersperse lineEnd)) := by
    change (convertFrom blocks {} _ >>= fun b ↦ pure (Node.mergeText b.nodes)) = _
    rw [convertFrom_lineTokens rfl, pure_bind]
    simp [Building.nodes, Building.unwind, Building.add]
  rw [lineTokens, List.cons_append, List.cons_append, List.singleton_append,
    convertFrom_open rfl rfl hcontainer, convertFrom_leaf rfl rfl hleaf, convertFrom_close rfl rfl]
  simp [Building.opening, Building.add, Building.closing, Container.close, paragraphNode,
    Node.element]

theorem convertFrom_markup (hb : b.ended = false) (ms : List SourceLine) :
    convertFrom blocks b [markupToken ms] =
      ofMarkup blocks (String.ofList (endedLines ms)) true >>= fun ns ↦ pure (b.add ns) := by
  have hleaf : leafNodes blocks (markupToken ms) =
      ofMarkup blocks (String.ofList (endedLines ms)) true := rfl
  rw [convertFrom_cons_of_not_ended hb]
  change (leafNodes blocks (markupToken ms) >>= fun ns ↦ pure (b.add ns)) = _
  rw [hleaf]

end Conversion

section Documents

variable (hcore : dialect.core = true) (hhtml : dialect.rawHtml = true)
  (hnesting : 0 < dialect.nesting) (depth : Nat)

theorem documentNodes_of_tokens {body : String} {ts : List Token}
    (h : tokens dialect body = .ok ts) :
    documentNodes dialect (depth + 1) body =
      convertFrom (documentNodes dialect depth) {} ts >>= fun b ↦
        Logged.ofExcept (fold b.nodes) := by
  rw [documentNodes, h]
  change (convert (documentNodes dialect depth) ts >>= fun nodes ↦ Logged.ofExcept (fold nodes)) = _
  rw [convert, bind_assoc]
  simp only [pure_bind]

include hnesting

theorem documentNodes_nil : documentNodes dialect (depth + 1) (String.ofList ['\n']) = pure [] := by
  rw [documentNodes_of_tokens depth (tokens_nil hnesting)]
  rfl

include hcore hhtml

/-- A document that starts with a tag is read as one piece of raw markup. -/
theorem documentNodes_tag {m : SourceLine} {k : MarkupBlock}
    (hnul : ∀ n ∈ m :: ms, ∀ c ∈ n.chars, c.toNat ≠ 0)
    (hline : MarkupBlock.ofLine? m.chars = some k) (hk : k = .element ∨ k = .tag) :
    documentNodes dialect (depth + 1) (String.ofList ('\n' :: endedLines (m :: ms))) =
      ofMarkup (documentNodes dialect depth) (String.ofList (endedLines (m :: ms))) true >>=
        fun nodes ↦ Logged.ofExcept (fold nodes) := by
  rw [documentNodes_of_tokens depth (tokens_tag hcore hhtml hnesting hnul hline hk),
    convertFrom_markup rfl, bind_assoc]
  simp [Building.nodes, Building.unwind, Building.add]

/-- A document that starts with words is a paragraph and perhaps a piece of raw markup. -/
theorem documentNodes_words {m : SourceLine} {ps rs : List SourceLine}
    (hnul : ∀ n ∈ m :: ps ++ rs, ∀ c ∈ n.chars, c.toNat ≠ 0)
    (hline : MarkupBlock.ofLine? m.chars = none) (hps : ∀ p ∈ ps, interruptsWords p = false)
    (hrs : ∀ r ∈ rs.head?, MarkupBlock.ofLine? r.chars = some .element)
    (hlone : ∀ n ∈ m :: ps, n.IsTag → afterTag? n.chars = some []) :
    documentNodes dialect (depth + 1) (String.ofList ('\n' :: endedLines (m :: ps ++ rs))) =
      (if rs = [] then pure [] else
        ofMarkup (documentNodes dialect depth) (String.ofList (endedLines rs)) true) >>=
        fun more ↦ Logged.ofExcept (fold (paragraphNode (m :: ps) :: more)) := by
  rw [documentNodes_of_tokens depth (tokens_words hcore hhtml hnesting hnul hline hps hrs hlone),
    convertFrom_paragraph]
  split
  · simp [convertFrom, Building.nodes, Building.unwind, Building.add]
  · rw [convertFrom_markup rfl, bind_assoc]
    simp [Building.nodes, Building.unwind, Building.add]

end Documents

end SafeMarkdown.Markdown
