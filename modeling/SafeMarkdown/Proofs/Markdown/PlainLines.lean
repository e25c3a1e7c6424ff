import SafeMarkdown.Markdown.Block.Read
import SafeMarkdown.Proofs.Component.Elements

/-!
# Blocks of words and tags

Lines that start with a letter or with an angle bracket make two kinds of blocks only. A line of
words starts a paragraph, which goes on up to a tag that may interrupt it, and a tag starts raw
markup, which goes on up to a blank line.
-/

namespace SafeMarkdown.Markdown

open Component

/-- A line of a source as the reader of blocks sees it. -/
def plainLine (m : SourceLine) : Line :=
  { lead := [], body := m.chars, indent := 0 }

variable {dialect : Dialect} {m : SourceLine} {ms : List SourceLine}

/-- The first character of a line is no sign but an angle bracket. -/
theorem exists_first (m : SourceLine) : ∃ c rest, m.chars = c :: rest ∧
    ∀ d : Char, d.isAlpha = false → d ≠ '<' → (c == d) = false := by
  obtain ⟨c, rest, hchars, hc⟩ := m.exists_cons
  refine ⟨c, rest, hchars, fun d hd hne ↦ beq_eq_false_iff_ne.mpr ?_⟩
  rintro rfl
  rcases hc with rfl | hc
  · exact hne rfl
  · rw [hd] at hc
    cases hc

section Starts

theorem isCode_plainLine (m : SourceLine) : Scope.isCode { dialect } (plainLine m) = false := by
  rw [Scope.isCode]
  cases dialect.core with
  | true => rfl
  | false => rfl

theorem isEmpty_plainLine (m : SourceLine) : (plainLine m).isEmpty = false := by
  rw [Line.isEmpty, plainLine, List.isEmpty_eq_false_iff]
  exact m.chars_ne_nil

theorem fence?_plainLine (m : SourceLine) : fence? { dialect } (plainLine m) = none := by
  obtain ⟨c, rest, hchars, hc⟩ := exists_first m
  rw [fence?, plainLine]
  dsimp only
  rw [hchars]
  simp [hc '`' rfl (by decide), hc '~' rfl (by decide)]

theorem isQuoteLine_plainLine (m : SourceLine) : isQuoteLine { dialect } (plainLine m) = false := by
  obtain ⟨c, rest, hchars, hc⟩ := exists_first m
  rw [isQuoteLine, plainLine]
  dsimp only
  rw [hchars, List.head?_cons, Option.some_beq_some, hc '>' rfl (by decide), Bool.and_false]

theorem isRule_plainLine (m : SourceLine) : isRule { dialect } (plainLine m) = false := by
  obtain ⟨c, rest, hchars, hc⟩ := exists_first m
  rw [isRule, plainLine]
  dsimp only
  rw [hchars]
  simp [hc '*' rfl (by decide), hc '-' rfl (by decide), hc '_' rfl (by decide)]

theorem not_isAlpha_of_isDigit {c : Char} (h : c.isDigit = true) : c.isAlpha = false ∧ c ≠ '<' := by
  constructor
  · rw [Text.isDigit_iff] at h
    rw [← Bool.not_eq_true, Text.isAlpha_iff, Text.isUpper_iff, Text.isLower_iff]
    omega
  · rintro rfl
    cases h

theorem listMark?_chars (m : SourceLine) : listMark? m.chars = none := by
  obtain ⟨c, rest, hchars, hc⟩ := exists_first m
  have hdigit : ¬ c.isDigit = true := by
    intro hdigit
    obtain ⟨halpha, hne⟩ := not_isAlpha_of_isDigit hdigit
    have hself := hc c halpha hne
    rw [beq_self_eq_true] at hself
    cases hself
  rw [hchars, listMark?, List.takeWhile_cons_of_neg hdigit]
  simp [hc '*' rfl (by decide), hc '-' rfl (by decide), hc '+' rfl (by decide)]

theorem listLine?_plainLine (m : SourceLine) : listLine? { dialect } (plainLine m) = none := by
  rw [listLine?, plainLine, listMark?_chars]
  split
  · rfl
  · rfl

theorem headingLine?_plainLine (m : SourceLine) :
    headingLine? { dialect } (plainLine m) = none := by
  obtain ⟨c, rest, hchars, hc⟩ := exists_first m
  rw [headingLine?, plainLine]
  dsimp only
  rw [hchars]
  simp [hc '#' rfl (by decide)]

theorem footnoteLine?_plainLine (m : SourceLine) :
    footnoteLine? { dialect } (plainLine m) = none := by
  obtain ⟨c, rest, hchars, hc⟩ := exists_first m
  rw [footnoteLine?, plainLine]
  dsimp only
  rw [hchars]
  split
  · rename_i heq
    cases heq
    cases hc '[' rfl (by decide)
  · rfl

theorem underline?_plainLine (m : SourceLine) : underline? { dialect } (plainLine m) = none := by
  obtain ⟨c, rest, hchars, hc⟩ := exists_first m
  rw [underline?, plainLine]
  dsimp only
  rw [hchars]
  simp [hc '-' rfl (by decide), hc '=' rfl (by decide)]

theorem alignmentRow?_chars (m : SourceLine) : alignmentRow? m.chars = none := by
  obtain ⟨c, rest, hchars, hc⟩ := exists_first m
  have hchar : isAlignmentChar c = false := by
    rw [isAlignmentChar, Text.isSpaceOrTab, hc '|' rfl (by decide), hc '-' rfl (by decide),
      hc ':' rfl (by decide), hc ' ' rfl (by decide), hc '\t' rfl (by decide)]
    rfl
  rw [hchars]
  unfold alignmentRow?
  split
  · rename_i heq
    cases heq
    rw [if_neg]
    simp [hchar]
  · rfl

theorem tableStart?_plainLines (ms : List SourceLine) (limit : Nat) :
    tableStart? { dialect } (ms.map plainLine) limit = none := by
  cases ms with
  | nil => rfl
  | cons m ms =>
      cases ms with
      | nil => rfl
      | cons n ms =>
          rw [List.map_cons, List.map_cons, tableStart?]
          split
          · rfl
          · have hrow : alignmentRow? (plainLine n).body = none := alignmentRow?_chars n
            rw [hrow]

end Starts

/-- Whether a line ends a paragraph before it. -/
def interruptsWords (m : SourceLine) : Bool :=
  ((MarkupBlock.ofLine? m.chars).map MarkupBlock.interrupts).getD false

section Extents

theorem isContinuation_plainLine (m : SourceLine) :
    Scope.isContinuation { dialect } (plainLine m) = false := by
  simp [Scope.isContinuation, plainLine]

theorem isOutside_plainLine (m : SourceLine) :
    Scope.isOutside { dialect } (plainLine m) = false := by
  simp [Scope.isOutside, plainLine]

/-- No line underlines a heading. -/
theorem underlinedExtent_plainLines (ms : List SourceLine) :
    underlinedExtent { dialect } (ms.map plainLine) = none := by
  induction ms with
  | nil => rfl
  | cons m ms ih =>
      have hindent : ¬ 3 < (plainLine m).indent - (({ dialect } : Scope).indent : Int) := by
        simp [plainLine]
      rw [List.map_cons, underlinedExtent, isEmpty_plainLine, if_neg Bool.false_ne_true,
        underline?_plainLine, ih, if_neg hindent]
      dsimp only
      split
      · rfl
      · rfl

/-- Raw markup that a blank line ends goes on to the last line. -/
theorem markupExtent_plainLines {k : MarkupBlock} (hk : k = .element ∨ k = .tag)
    (ms : List SourceLine) : markupExtent { dialect } k (ms.map plainLine) = ms.length := by
  induction ms with
  | nil => rfl
  | cons m ms ih =>
      have hends : k.endsWith (plainLine m).body = false := by
        rcases hk with rfl | rfl
        all_goals exact isEmpty_plainLine m
      rw [List.map_cons, markupExtent, isOutside_plainLine, if_neg Bool.false_ne_true, hends,
        if_neg Bool.false_ne_true, ih, List.length_cons]

theorem cut_plainLine (m : SourceLine) : (plainLine m).cut 0 = m.chars := by
  obtain ⟨c, rest, hchars, -⟩ := exists_first m
  rw [Line.cut, plainLine]
  dsimp only
  rw [hchars]
  rfl

theorem join_ended (ms : List SourceLine) :
    Line.join 0 true (ms.map plainLine) = endedLines ms := by
  induction ms with
  | nil => rfl
  | cons m ms ih =>
      rw [List.map_cons, endedLines_cons, ← ih]
      cases ms with
      | nil =>
          change (plainLine m).cut 0 ++ ['\n'] = m.chars ++ ['\n']
          rw [cut_plainLine]
      | cons n ms =>
          change (plainLine m).cut 0 ++ _ = _
          rw [cut_plainLine]

theorem join_joined (ms : List SourceLine) :
    Line.join 0 false (ms.map plainLine) = joinedLines ms := by
  induction ms with
  | nil => rfl
  | cons m ms ih =>
      cases ms with
      | nil =>
          change (plainLine m).cut 0 ++ [] = _
          rw [cut_plainLine, List.append_nil, joinedLines_singleton]
      | cons n ms =>
          change (plainLine m).cut 0 ++ '\n' :: Line.join 0 false ((n :: ms).map plainLine) = _
          rw [cut_plainLine, ih, joinedLines_cons_cons]

variable (hhtml : dialect.rawHtml = true)

include hhtml

theorem markupLine?_plainLine (m : SourceLine) :
    markupLine? { dialect } (plainLine m) = MarkupBlock.ofLine? m.chars := by
  rw [markupLine?, isCode_plainLine, hhtml]
  rfl

theorem interruptsText_plainLines (cautious : Bool) (m : SourceLine) (ms : List SourceLine)
    (limit : Nat) : interruptsText { dialect } cautious ((m :: ms).map plainLine) limit =
      interruptsWords m := by
  have htable : tableStart? { dialect } ((m :: ms).map plainLine) limit = none :=
    tableStart?_plainLines (m :: ms) limit
  rw [List.map_cons] at htable ⊢
  rw [interruptsText, htable, startsMarked, fence?_plainLine, isQuoteLine_plainLine,
    isRule_plainLine, interruptsByList, listLine?_plainLine, footnoteLine?_plainLine,
    startsMarkupOrHeading, headingLine?_plainLine, markupLine?_plainLine hhtml]
  cases cautious <;> simp [interruptsWords]

/-- A paragraph goes on up to the first line that interrupts it. -/
theorem textExtent_plainLines (cautious : Bool) (ms : List SourceLine) :
    textExtent { dialect } cautious (ms.map plainLine) =
      (ms.takeWhile fun m ↦ !interruptsWords m).length := by
  induction ms with
  | nil => rfl
  | cons m ms ih =>
      have hinterrupts :=
        interruptsText_plainLines hhtml cautious m ms ((ms.map plainLine).length + 1)
      rw [List.map_cons] at hinterrupts ⊢
      rw [textExtent, isEmpty_plainLine, if_neg Bool.false_ne_true, isContinuation_plainLine,
        if_neg Bool.false_ne_true, hinterrupts, ih, List.takeWhile_cons]
      cases interruptsWords m with
      | true => rfl
      | false => rfl

end Extents

section Rules

variable (m : SourceLine) (ms : List SourceLine) (limit : Nat) (read readItem : Reader)

theorem table?_plainLines (startsOther : Line → Bool) :
    table? { dialect } startsOther ((m :: ms).map plainLine) limit = none := by
  rw [table?, tableStart?_plainLines]
  rfl

theorem code?_plainLines : code? { dialect } ((m :: ms).map plainLine) limit = none := by
  rw [List.map_cons, code?, isCode_plainLine, if_neg Bool.false_ne_true]

theorem fenced?_plainLines : fenced? { dialect } ((m :: ms).map plainLine) limit = none := by
  rw [List.map_cons, fenced?, fence?_plainLine]
  rfl

theorem quote?_plainLines : quote? read { dialect } ((m :: ms).map plainLine) limit = none := by
  rw [List.map_cons, quote?, isQuoteLine_plainLine]
  rfl

theorem rule?_plainLines : rule? { dialect } ((m :: ms).map plainLine) limit = none := by
  rw [List.map_cons, rule?, isRule_plainLine, if_neg Bool.false_ne_true]

theorem list?_plainLines : list? readItem { dialect } ((m :: ms).map plainLine) limit = none := by
  rw [List.map_cons, list?, listLine?_plainLine]
  rfl

theorem footnote?_plainLines :
    footnote? read { dialect } ((m :: ms).map plainLine) limit = none := by
  rw [List.map_cons, footnote?, footnoteLine?_plainLine]
  rfl

theorem definition?_plainLines :
    definition? { dialect } ((m :: ms).map plainLine) limit = none := by
  obtain ⟨c, rest, hchars, hc⟩ := exists_first m
  have hbracket : ((plainLine m).body.head? != some '[') = true := by
    rw [bne, plainLine, hchars, List.head?_cons, Option.some_beq_some, hc '[' rfl (by decide)]
    rfl
  rw [List.map_cons, definition?, hbracket, Bool.or_true, if_pos rfl]

theorem heading?_plainLines : heading? { dialect } ((m :: ms).map plainLine) limit = none := by
  rw [List.map_cons, heading?, headingLine?_plainLine]
  rfl

theorem underlined?_plainLines :
    underlined? { dialect } ((m :: ms).map plainLine) limit = none := by
  rw [List.map_cons, underlined?, isCode_plainLine, if_neg Bool.false_ne_true, ← List.map_take,
    underlinedExtent_plainLines]
  rfl

variable (hcore : dialect.core = true) (hhtml : dialect.rawHtml = true)

include hhtml

theorem markup?_plainLines {k : MarkupBlock} (hline : MarkupBlock.ofLine? m.chars = some k)
    (hk : k = .element ∨ k = .tag) :
    markup? { dialect } ((m :: ms).map plainLine) (ms.length + 1) =
      some (.markup (endedLines (m :: ms)), ms.length + 1) := by
  have hends : k.endsWith (plainLine m).body = false := by
    rcases hk with rfl | rfl
    all_goals exact isEmpty_plainLine m
  have htake : ((m :: ms).map plainLine).take (1 + ms.length) = (m :: ms).map plainLine := by
    rw [← List.map_take, List.take_of_length_le (Nat.le_of_eq (Nat.add_comm _ _))]
  have hlength : (ms.map plainLine).length = ms.length := List.length_map plainLine
  rw [List.map_cons] at htake ⊢
  rw [markup?, markupLine?_plainLine hhtml, hline, Option.map_some]
  dsimp only
  rw [hends, if_neg Bool.false_ne_true, Nat.add_sub_cancel,
    ← hlength, List.take_length,
    markupExtent_plainLines hk, htake, ← List.map_cons, join_ended, List.length_map, Nat.add_comm]

theorem paragraph?_plainLines :
    paragraph? { dialect } ((m :: ms).map plainLine) limit =
      some (.paragraph (joinedLines (m :: ms.takeWhile fun m ↦ !interruptsWords m)),
        (ms.takeWhile fun m ↦ !interruptsWords m).length + 1) := by
  have htrim := trim_joinedLines_append
    (List.cons_ne_nil m (ms.takeWhile fun m ↦ !interruptsWords m)) (List.forall_mem_nil _)
    (List.forall_mem_nil _)
  rw [List.nil_append, List.append_nil] at htrim
  have htake : ms.take (ms.takeWhile fun m ↦ !interruptsWords m).length =
      ms.takeWhile fun m ↦ !interruptsWords m :=
    List.prefix_iff_eq_take.mp (List.takeWhile_prefix _) |>.symm
  rw [List.map_cons, paragraph?]
  dsimp only
  rw [textExtent_plainLines hhtml, ← List.map_take, htake, ← List.map_cons, join_joined, htrim]

include hcore

/-- A tag starts raw markup. -/
theorem rulesOf_tag {k : MarkupBlock} (hline : MarkupBlock.ofLine? m.chars = some k)
    (hk : k = .element ∨ k = .tag) :
    rulesOf read readItem { dialect } ((m :: ms).map plainLine) (m :: ms).length =
      some (.markup (endedLines (m :: ms)), (m :: ms).length) := by
  rw [rulesOf, if_pos hcore, firstRule, List.length_cons]
  simp only [List.findSome?_cons, table?_plainLines, code?_plainLines, fenced?_plainLines,
    quote?_plainLines, rule?_plainLines, list?_plainLines, footnote?_plainLines,
    definition?_plainLines, markup?_plainLines m ms hhtml hline hk]

/-- A line that is no tag starts a paragraph. -/
theorem rulesOf_words (hline : MarkupBlock.ofLine? m.chars = none) :
    rulesOf read readItem { dialect } ((m :: ms).map plainLine) limit =
      some (.paragraph (joinedLines (m :: ms.takeWhile fun m ↦ !interruptsWords m)),
        (ms.takeWhile fun m ↦ !interruptsWords m).length + 1) := by
  have hmarkup : markup? { dialect } ((m :: ms).map plainLine) limit = none := by
    rw [List.map_cons, markup?, markupLine?_plainLine hhtml, hline]
    rfl
  rw [rulesOf, if_pos hcore, firstRule]
  simp only [List.findSome?_cons, table?_plainLines, code?_plainLines, fenced?_plainLines,
    quote?_plainLines, rule?_plainLines, list?_plainLines, footnote?_plainLines,
    definition?_plainLines, hmarkup, heading?_plainLines, underlined?_plainLines,
    paragraph?_plainLines m ms limit hhtml]

end Rules

section Steps

variable {rule : Rule} {b : Block} {n fuel : Nat}

theorem isGapAt_plainLines {i : Nat} (h : i < ms.length) :
    isGapAt (ms.map plainLine) i = false := by
  have hget : (ms.map plainLine)[i]? = some (plainLine ms[i]) := by
    rw [List.getElem?_map, List.getElem?_eq_getElem h]
    rfl
  rw [isGapAt, hget]
  exact isEmpty_plainLine _

theorem content_readSteps_nil (scope : Scope) (gap : Bool) (limit : Nat) :
    (readSteps rule scope fuel gap [] limit).content = [] := by
  cases fuel with
  | zero => rfl
  | succ fuel => rfl

/-- Lines without a gap are read from block to block. -/
theorem content_readSteps (hrule : rule (ms.map plainLine) ms.length = some (b, n)) (hms : ms ≠ [])
    (gap : Bool) :
    (readSteps rule { dialect } (fuel + 1) gap (ms.map plainLine) ms.length).content =
      b :: (readSteps rule { dialect } fuel gap ((ms.drop n).map plainLine)
        (ms.length - n)).content := by
  obtain ⟨m, rest, rfl⟩ := List.exists_cons_of_ne_nil hms
  have hblank : blankLines ((m :: rest).map plainLine) = 0 := by
    rw [blankLines, List.map_cons, List.takeWhile_cons_of_neg]
    · rfl
    · rw [isEmpty_plainLine]
      exact Bool.false_ne_true
  have hhead : ((m :: rest).map plainLine).head?.filter (!Scope.isOutside { dialect } ·) =
      some (plainLine m) := by
    rw [List.map_cons, List.head?_cons, Option.filter_some, isOutside_plainLine]
    rfl
  have hbefore : (decide (n ≤ (m :: rest).length) &&
      isGapAt ((m :: rest).map plainLine) (n - 1)) = false := by
    rw [Bool.and_eq_false_imp, decide_eq_true_eq]
    intro hn
    exact isGapAt_plainLines (by rw [List.length_cons] at hn ⊢; omega)
  have hafter : (decide (n < (m :: rest).length) &&
      isGapAt ((m :: rest).map plainLine) n) = false := by
    rw [Bool.and_eq_false_imp, decide_eq_true_eq]
    exact isGapAt_plainLines
  rw [readSteps]
  dsimp only
  rw [hblank, List.drop_zero, Nat.sub_zero, hhead, Option.bind_some,
    if_pos (List.length_pos_iff.mpr hms), hrule]
  dsimp only
  rw [hbefore, hafter, if_neg Bool.false_ne_true, Bool.or_false, Bool.or_false, List.map_drop]

theorem content_readSteps_blank (scope : Scope) (gap : Bool) {l : Line} (h : l.isEmpty = true)
    (lines : List Line) (limit : Nat) :
    (readSteps rule scope (fuel + 1) gap (l :: lines) (limit + 1)).content =
      (readSteps rule scope (fuel + 1) gap lines limit).content := by
  have hblank : blankLines (l :: lines) = blankLines lines + 1 := by
    rw [blankLines, List.takeWhile_cons_of_pos h, List.length_cons, blankLines]
  rw [readSteps, readSteps]
  dsimp only
  rw [hblank, List.drop_succ_cons, Nat.add_sub_add_right]
  split
  · rfl
  · rfl

end Steps

section Texts

theorem splitAtEach_endedLines (ms : List SourceLine) :
    Text.splitAtEach (· == '\n') (endedLines ms) = ms.map SourceLine.chars ++ [[]] := by
  induction ms with
  | nil => rfl
  | cons m ms ih =>
      have hchars (c : Char) (hc : c ∈ m.chars) : (c == '\n') = false :=
        beq_eq_false_iff_ne.mpr (m.oneLine c hc).1
      rw [endedLines_cons, Text.splitAtEach_append hchars rfl, ih, List.map_cons, List.cons_append]

theorem ofChars_plain (m : SourceLine) : Line.ofChars m.chars true = plainLine m := by
  obtain ⟨c, rest, hchars, hc⟩ := exists_first m
  have hblank : Text.isSpaceOrTab c = false := by
    rw [Text.isSpaceOrTab, hc ' ' rfl (by decide), hc '\t' rfl (by decide)]
    rfl
  have hlead : leadingBlanks m.chars = [] := by
    rw [leadingBlanks, hchars, List.takeWhile_cons_of_neg]
    rw [hblank]
    exact Bool.false_ne_true
  have hbody : dropBlanks m.chars = m.chars :=
    Text.dropWhile_of_head (hchars ▸ rfl) hblank
  rw [Line.ofChars, hlead, hbody]
  rfl

/-- The lines of a text that starts with a line end. -/
theorem linesOf_endedLines (ms : List SourceLine) :
    linesOf ('\n' :: endedLines ms) = Line.ofChars [] true :: ms.map plainLine := by
  have hpieces : Text.splitAtEach (· == '\n') ('\n' :: endedLines ms) =
      ([] :: ms.map SourceLine.chars) ++ [[]] := by
    rw [Text.splitAtEach, if_pos (by rfl), splitAtEach_endedLines, List.cons_append]
  have hlines : (ms.map SourceLine.chars).map (Line.ofChars · true) = ms.map plainLine := by
    rw [List.map_map]
    exact List.map_congr_left fun m _ ↦ ofChars_plain m
  rw [linesOf, hpieces, List.getLast?_concat, List.dropLast_concat, List.map_cons, hlines]
  rfl

/-- Blocks are read with the rules of the dialect where they may nest. -/
theorem exists_rulesOf (dialect : Dialect) (hnesting : 0 < dialect.nesting) :
    ∃ read readItem, ∀ scope lines limit, readBlocks dialect.nesting scope lines limit =
      readSteps (rulesOf read readItem scope) scope (limit + 1) false lines limit := by
  obtain ⟨n, hn⟩ := Nat.exists_eq_add_one_of_ne_zero (Nat.pos_iff_ne_zero.mp hnesting)
  rw [hn]
  cases n with
  | zero => exact ⟨_, _, fun _ _ _ ↦ rfl⟩
  | succ room => exact ⟨_, _, fun _ _ _ ↦ rfl⟩

variable (hcore : dialect.core = true) (hhtml : dialect.rawHtml = true)
  (hnesting : 0 < dialect.nesting)

include hnesting

theorem exists_blocksOf_endedLines (ms : List SourceLine) : ∃ read readItem,
    blocksOf dialect ('\n' :: endedLines ms) =
      (readSteps (rulesOf read readItem { dialect }) { dialect } (ms.length + 2) false
        (ms.map plainLine) ms.length).content := by
  obtain ⟨read, readItem, hread⟩ := exists_rulesOf dialect hnesting
  refine ⟨read, readItem, ?_⟩
  have hempty : (Line.ofChars [] true).isEmpty = true := rfl
  rw [blocksOf, hread, linesOf_endedLines, List.length_cons, List.length_map,
    content_readSteps_blank _ _ hempty]

theorem blocksOf_nil : blocksOf dialect ['\n'] = [] := by
  obtain ⟨read, readItem, hblocks⟩ := exists_blocksOf_endedLines hnesting []
  exact hblocks

include hcore hhtml

omit hnesting in
theorem content_readSteps_tag {m : SourceLine} {ms : List SourceLine} {k : MarkupBlock}
    (hline : MarkupBlock.ofLine? m.chars = some k) (hk : k = .element ∨ k = .tag)
    (read readItem : Reader) (fuel : Nat) (gap : Bool) :
    (readSteps (rulesOf read readItem { dialect }) { dialect } (fuel + 1) gap
      ((m :: ms).map plainLine) (m :: ms).length).content = [.markup (endedLines (m :: ms))] := by
  have hrule := rulesOf_tag m ms read readItem hcore hhtml hline hk
  rw [content_readSteps hrule (List.cons_ne_nil m ms), List.drop_length, List.map_nil,
    content_readSteps_nil]

/-- Lines that start with a tag are raw markup. -/
theorem blocksOf_tag {m : SourceLine} {ms : List SourceLine} {k : MarkupBlock}
    (hline : MarkupBlock.ofLine? m.chars = some k) (hk : k = .element ∨ k = .tag) :
    blocksOf dialect ('\n' :: endedLines (m :: ms)) = [.markup (endedLines (m :: ms))] := by
  obtain ⟨read, readItem, hblocks⟩ := exists_blocksOf_endedLines hnesting (m :: ms)
  rw [hblocks, content_readSteps_tag hcore hhtml hline hk]

/-- Lines that start with words are a paragraph up to the first tag that ends it, and raw markup
from there on. -/
theorem blocksOf_words {m : SourceLine} {ps rs : List SourceLine}
    (hline : MarkupBlock.ofLine? m.chars = none) (hps : ∀ p ∈ ps, interruptsWords p = false)
    (hrs : ∀ r ∈ rs.head?, MarkupBlock.ofLine? r.chars = some .element) :
    blocksOf dialect ('\n' :: endedLines (m :: ps ++ rs)) =
      .paragraph (joinedLines (m :: ps)) :: if rs = [] then [] else [.markup (endedLines rs)] := by
  obtain ⟨read, readItem, hblocks⟩ := exists_blocksOf_endedLines hnesting (m :: (ps ++ rs))
  have htake : (ps ++ rs).takeWhile (fun m ↦ !interruptsWords m) = ps := by
    have hps (p : SourceLine) (hp : p ∈ ps) : (!interruptsWords p) = true := by
      rw [hps p hp]
      rfl
    rw [List.takeWhile_append_of_pos hps]
    cases rs with
    | nil => exact List.append_nil ps
    | cons r rs =>
        rw [List.takeWhile_cons_of_neg, List.append_nil]
        rw [interruptsWords, hrs r rfl]
        decide
  have hrule := rulesOf_words m (ps ++ rs) (m :: (ps ++ rs)).length read readItem hcore hhtml hline
  rw [htake] at hrule
  rw [List.cons_append, hblocks, content_readSteps hrule (List.cons_ne_nil m _),
    List.drop_succ_cons, List.drop_left, List.length_cons, Nat.add_sub_add_right,
    List.length_append, Nat.add_sub_cancel_left]
  cases rs with
  | nil => rw [if_pos rfl, List.map_nil, content_readSteps_nil]
  | cons r rs =>
      rw [if_neg (List.cons_ne_nil r rs), content_readSteps_tag hcore hhtml (hrs r rfl) (.inl rfl)]

end Texts

end SafeMarkdown.Markdown
