import SafeMarkdown.Html.Fragment

/-!
# Reading goes forward

What is left after an item of HTML is no longer than what was there before it. So a bound on the
steps of reading can be taken from the length of the text.
-/

namespace SafeMarkdown.Html

theorem length_dropWhile_le (p : Char → Bool) (s : List Char) : (s.dropWhile p).length ≤ s.length :=
  (List.dropWhile_suffix p).length_le

theorem length_skipSeparators_le (before : Char) (s : List Char) :
    (skipSeparators before s).rest.length ≤ s.length := by
  induction s generalizing before with
  | nil => exact Nat.le_refl 0
  | cons c rest ih =>
      rw [skipSeparators]
      split
      · exact Nat.le_succ_of_le (ih c)
      · exact Nat.le_refl _

theorem length_bareValue_le (before : Char) (s : List Char) :
    (bareValue before s).2.rest.length ≤ s.length :=
  length_dropWhile_le isBareChar s

theorem length_takeWhile_add_dropWhile (p : Char → Bool) (s : List Char) :
    (s.takeWhile p).length + (s.dropWhile p).length = s.length := by
  rw [← List.length_append, List.takeWhile_append_dropWhile]

theorem length_attributeValue_le {s value : List Char} {place : Place}
    (h : attributeValue? s = some (value, place)) : place.rest.length ≤ s.length := by
  have hblank := length_dropWhile_le Text.isBlank s
  rw [attributeValue?] at h
  generalize s.dropWhile Text.isBlank = t at h hblank
  have hsigns := length_takeWhile_add_dropWhile (· == '=') t
  dsimp only at h
  generalize t.takeWhile (· == '=') = signs at h hsigns
  generalize t.dropWhile (· == '=') = afterSigns at h hsigns
  have hspace := length_dropWhile_le Text.isBlank afterSigns
  generalize afterSigns.takeWhile Text.isBlank = space at h
  generalize afterSigns.dropWhile Text.isBlank = body at h hspace
  split at h
  · cases h
  · split at h
    · rename_i q inner
      rw [List.length_cons] at hspace
      split at h
      · split at h
        · rename_i after hafter
          have hclosed := length_dropWhile_le (· != q) inner
          rw [hafter, List.length_cons] at hclosed
          cases h
          dsimp only
          omega
        · split at h
          · cases h
            dsimp only
            omega
          · split at h
            · cases h
              have hbare := length_bareValue_le '=' ('=' :: q :: inner)
              simp only [List.length_cons] at hbare
              omega
            · cases h
      · cases h
        have hbare := length_bareValue_le (lastOr '=' space) (q :: inner)
        rw [List.length_cons] at hbare
        omega
    · cases h
      exact Nat.zero_le _

theorem length_readAttributes_le (fuel : Nat) (p : Place) :
    (readAttributes fuel p).2.rest.length ≤ p.rest.length := by
  induction fuel generalizing p with
  | zero => exact Nat.le_refl _
  | succ fuel ih =>
      rw [readAttributes]
      split
      · rename_i c rest hrest
        split
        · have hname := length_dropWhile_le isAttributeChar rest
          rw [hrest, List.length_cons]
          cases hvalue : attributeValue? (rest.dropWhile isAttributeChar) with
          | none =>
              refine Nat.le_trans (ih _) (Nat.le_trans (length_skipSeparators_le _ _) ?_)
              rw [hvalue, Option.getD_none]
              dsimp only
              omega
          | some found =>
              have hafter := length_attributeValue_le hvalue
              refine Nat.le_trans (ih _) (Nat.le_trans (length_skipSeparators_le _ _) ?_)
              rw [hvalue, Option.getD_some]
              omega
        · exact Nat.le_refl _
      · exact Nat.le_refl _

/-- What is left after a tag, or where a tag breaks off. -/
def TagReading.after : TagReading → List Char
  | .tag _ _ _ after => after
  | .broken after => after
  | .incomplete => []

theorem length_readTag_le (s : List Char) : (readTag s).after.length ≤ s.length := by
  have hname := length_dropWhile_le isTagNameChar s
  have hstart := length_skipSeparators_le (lastOr '<' (s.takeWhile isTagNameChar))
    (s.dropWhile isTagNameChar)
  have hread := length_readAttributes_le s.length
    (skipSeparators (lastOr '<' (s.takeWhile isTagNameChar)) (s.dropWhile isTagNameChar))
  rw [readTag]
  dsimp only
  split
  · exact Nat.zero_le _
  · rename_i after hfinal
    rw [hfinal, List.length_cons] at hread
    simp only [TagReading.after]
    omega
  · rename_i after hfinal
    rw [hfinal, List.length_cons, List.length_cons] at hread
    simp only [TagReading.after]
    omega
  · rename_i c rest hbracket hslash hfinal
    rw [hfinal] at hread
    split
    · exact Nat.zero_le _
    · simp only [TagReading.after]
      omega

/-- What is left after what a test accepts is no longer than before it. -/
def Shortens (test : List Char → Option (List Char)) : Prop :=
  ∀ s after, test s = some after → after.length ≤ s.length

theorem shortens_splitBefore {test : List Char → Option (List Char)} (h : Shortens test)
    {s head after : List Char} (hsplit : splitBefore test s = some (head, after)) :
    after.length ≤ s.length := by
  induction s generalizing head with
  | nil =>
      rw [splitBefore] at hsplit
      obtain ⟨found, hfound, heq⟩ := Option.map_eq_some_iff.mp hsplit
      cases heq
      exact h [] after hfound
  | cons c rest ih =>
      rw [splitBefore] at hsplit
      split at hsplit
      · rename_i found hfound
        cases hsplit
        exact h _ _ hfound
      · obtain ⟨⟨more, found⟩, hfound, heq⟩ := Option.map_eq_some_iff.mp hsplit
        cases heq
        exact Nat.le_succ_of_le (ih hfound)

theorem shortens_closingBracket : Shortens closingBracket := by
  intro s after h
  have hblank := length_dropWhile_le Text.isBlank s
  rw [closingBracket] at h
  split at h
  · rename_i rest hrest
    cases h
    rw [hrest, List.length_cons] at hblank
    omega
  · cases h

theorem shortens_commentEnd : Shortens commentEnd := by
  intro s after h
  unfold commentEnd at h
  split at h
  · rename_i rest
    have hrest := shortens_closingBracket rest after h
    simp only [List.length_cons]
    omega
  · cases h

theorem shortens_sectionEnd : Shortens sectionEnd := by
  intro s after h
  unfold sectionEnd at h
  split at h
  · rename_i rest
    have hrest := shortens_closingBracket rest after h
    rw [List.length_cons]
    omega
  · cases h

theorem shortens_doubleSectionEnd : Shortens doubleSectionEnd := by
  intro s after h
  unfold doubleSectionEnd at h
  split at h
  · rename_i rest
    have hblank := length_dropWhile_le Text.isBlank rest
    split at h
    · rename_i more hmore
      have hclosed := shortens_closingBracket more after h
      rw [hmore, List.length_cons] at hblank
      rw [List.length_cons]
      omega
    · cases h
  · cases h

theorem shortens_afterBracket : Shortens afterBracket := by
  intro s after h
  have hskip := length_dropWhile_le (· != '>') s
  rw [afterBracket] at h
  split at h
  · rename_i c rest hrest
    cases h
    rw [hrest, List.length_cons] at hskip
    omega
  · cases h

theorem shortens_afterWordAnyCase (word : List Char) : Shortens (afterWordAnyCase word) := by
  induction word with
  | nil =>
      intro s after h
      cases h
      exact Nat.le_refl _
  | cons w word ih =>
      intro s after h
      cases s with
      | nil => cases h
      | cons c rest =>
          rw [afterWordAnyCase] at h
          split at h
          · exact Nat.le_succ_of_le (ih rest after h)
          · cases h

theorem shortens_rawTextEnd (name : String) : Shortens (rawTextEnd name) := by
  intro s after h
  unfold rawTextEnd at h
  split at h
  · rename_i rest
    obtain ⟨more, hword, hclosed⟩ := Option.bind_eq_some_iff.mp h
    have hblank := length_dropWhile_le Text.isBlank rest
    have hmore := shortens_afterWordAnyCase name.toList _ _ hword
    have hafter := shortens_closingBracket more after hclosed
    simp only [List.length_cons]
    omega
  · cases h

/-- What is left after an item. -/
def ItemReading.after : ItemReading → List Char
  | .item _ after => after
  | .incomplete => []
  | .unreadable => []

theorem length_markupUpTo_le {s : List Char} {after? : Option (List Char)}
    (h : ∀ after, after? = some after → after.length ≤ s.length) :
    (markupUpTo after?).after.length ≤ s.length := by
  unfold markupUpTo
  split
  · exact h _ rfl
  · exact Nat.zero_le _

theorem length_markupUpTo_splitBefore_le {test : List Char → Option (List Char)}
    (h : Shortens test) (s : List Char) :
    (markupUpTo ((splitBefore test s).map Prod.snd)).after.length ≤ s.length := by
  refine length_markupUpTo_le fun after hafter ↦ ?_
  obtain ⟨⟨head, found⟩, hfound, rfl⟩ := Option.map_eq_some_iff.mp hafter
  exact shortens_splitBefore h hfound

theorem length_plainEndTag_le {s name after : List Char}
    (h : plainEndTag? s = some (name, after)) : after.length ≤ s.length := by
  have hblank := length_dropWhile_le Text.isBlank s
  rw [plainEndTag?] at h
  split at h
  · split at h
    · obtain ⟨found, hfound, heq⟩ := Option.map_eq_some_iff.mp h
      cases heq
      have hname := length_dropWhile_le isEndNameChar (s.dropWhile Text.isBlank)
      have hclosed := shortens_closingBracket _ after hfound
      omega
    · cases h
  · cases h

theorem length_readEndTag_le (s : List Char) : (readEndTag s).after.length ≤ s.length := by
  rw [readEndTag]
  split
  · exact Nat.zero_le _
  · rename_i afterFirst hfirst
    split
    · rename_i name after hplain
      exact length_plainEndTag_le hplain
    · split
      · exact Nat.le_succ _
      · rename_i c rest _ _
        split
        · have hname := length_dropWhile_le isTagNameChar (c :: rest)
          have hskip := length_skipSeparators_le c ((c :: rest).dropWhile isTagNameChar)
          dsimp only [ItemReading.after]
          cases hend : afterBracket
              (skipSeparators c ((c :: rest).dropWhile isTagNameChar)).rest with
          | none => exact Nat.zero_le _
          | some after =>
              have hafter := shortens_afterBracket _ after hend
              rw [Option.getD_some]
              omega
        · exact shortens_afterBracket _ _ hfirst
      · exact Nat.zero_le _

theorem length_readSection_le (s : List Char) : (readSection s).after.length ≤ s.length := by
  unfold readSection
  split
  · exact Nat.zero_le _
  · split
    · dsimp only
      split
      · exact Nat.zero_le _
      · split
        · exact length_markupUpTo_splitBefore_le shortens_doubleSectionEnd _
        · split
          · exact length_markupUpTo_splitBefore_le shortens_sectionEnd _
          · exact Nat.zero_le _
    · exact Nat.zero_le _

theorem length_readItem_le {s : List Char} {reading : ItemReading}
    (h : readItem? s = some reading) : reading.after.length ≤ s.length := by
  unfold readItem? at h
  split at h
  · rename_i rest
    cases h
    exact Nat.le_succ_of_le (length_readEndTag_le rest)
  · rename_i rest
    cases h
    have hrest := length_markupUpTo_splitBefore_le shortens_commentEnd rest
    simp only [List.length_cons]
    omega
  · rename_i rest
    cases h
    exact Nat.le_succ_of_le (length_markupUpTo_le (shortens_afterBracket rest))
  · rename_i rest
    cases h
    have hrest := length_readSection_le rest
    simp only [List.length_cons]
    omega
  · rename_i rest _ _
    cases h
    exact Nat.le_succ_of_le (length_markupUpTo_le (shortens_afterBracket rest))
  · cases h

theorem length_resume_le (s : List Char) : (resume s).length ≤ s.length := by
  unfold resume
  split
  · rename_i after hafter
    exact shortens_afterBracket s after hafter
  · split
    · exact length_dropWhile_le _ s
    · exact Nat.le_refl _

theorem length_dropSemicolon_le (s : List Char) : (dropSemicolon s).length ≤ s.length := by
  unfold dropSemicolon
  split
  · exact Nat.le_succ _
  · exact Nat.le_refl _

theorem length_numericBody_le {s after : List Char} {n : Nat}
    (h : numericBody s = some (n, after)) : after.length ≤ s.length := by
  unfold numericBody at h
  split at h
  · rename_i x rest
    split at h
    · dsimp only at h
      split at h
      · cases h
      · cases h
        exact Nat.le_succ_of_le (length_dropWhile_le isHexDigit rest)
    · dsimp only at h
      split at h
      · cases h
      · cases h
        exact length_dropWhile_le isDigit (x :: rest)
  · cases h

theorem length_textNumber_le {s after : List Char} {n : Nat}
    (h : textNumber? s = some (n, after)) : after.length ≤ s.length := by
  unfold textNumber? at h
  split at h
  · rename_i m c rest hbody
    split at h
    · cases h
    · cases h
      exact length_numericBody_le hbody
  · cases h

theorem length_lastBreak_le {word name after : List Char}
    (h : lastBreak? word = some (name, after)) : after.length ≤ word.length := by
  have hparts := length_takeWhile_add_dropWhile Char.isAlphanum word.reverse
  rw [List.length_reverse] at hparts
  rw [lastBreak?] at h
  split at h
  · rename_i mark more hmark
    cases h
    rw [hmark, List.length_cons] at hparts
    rw [List.length_cons, List.length_reverse]
    omega
  · cases h

theorem length_textName_le {s name after : List Char}
    (h : textName? s = some (name, after)) : after.length ≤ s.length := by
  have hparts := length_takeWhile_add_dropWhile isReferenceChar s
  unfold textName? at h
  split at h
  · dsimp only at h
    split at h
    · have hbreak := length_lastBreak_le h
      omega
    · cases h
      omega
  · cases h

end SafeMarkdown.Html
