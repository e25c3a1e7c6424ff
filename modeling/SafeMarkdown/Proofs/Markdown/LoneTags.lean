import SafeMarkdown.Markdown.Markup
import SafeMarkdown.Proofs.Component.Tags

/-!
# Tags of elements with more text behind them

A tag that is complete ends at the same place whatever follows it. A line that is one tag, and the
tag of a component, is read as markup to its end.
-/

namespace SafeMarkdown.Markdown

open Text Component

variable {s after : List Char} {c : Char}

section Attributes

theorem afterValue?_append (h : afterValue? s = some after) (hne : after ≠ []) (r : List Char) :
    afterValue? (s ++ r) = some (after ++ r) := by
  cases s with
  | nil => cases h
  | cons d s =>
      simp only [afterValue?, List.cons_append] at h ⊢
      split at h
      · rename_i hquote
        split at h
        · rename_i quote behind hdrop
          cases h
          rw [if_pos hquote, dropWhile_append_of_ne_nil (by rw [hdrop]; exact List.cons_ne_nil _ _),
            hdrop, List.cons_append]
        · cases h
      · rename_i hquote
        rw [if_neg hquote]
        split at h
        · rename_i hbare
          cases h
          rw [if_pos hbare, dropWhile_append_of_ne_nil hne]
        · cases h

theorem afterValue?_suffix (h : afterValue? s = some after) : after <:+ s := by
  cases s with
  | nil => cases h
  | cons d s =>
      rw [afterValue?] at h
      refine List.IsSuffix.trans ?_ (List.suffix_cons d s)
      split at h
      · split at h
        · rename_i quote behind hdrop
          cases h
          exact (List.suffix_cons _ _).trans (hdrop ▸ List.dropWhile_suffix _)
        · cases h
      · split at h
        · cases h
          exact List.dropWhile_suffix _
        · cases h

theorem afterAttribute?_append (h : afterAttribute? s = some after)
    (hafter : firstSign? after = some c) (hc : c ≠ '=') (r : List Char) :
    afterAttribute? (s ++ r) = some (after ++ r) := by
  unfold afterAttribute? at h ⊢
  split at h
  · rename_i d t hdrop
    have hne : s.dropWhile isBlank ≠ [] := by
      rw [hdrop]
      exact List.cons_ne_nil _ _
    rw [dropWhile_append_of_ne_nil hne, takeWhile_append_of_ne_nil hne, hdrop, List.cons_append]
    simp only
    split at h
    · rename_i hstart
      rw [if_pos hstart]
      dsimp only at h
      cases hnamed : (t.dropWhile isAttributeChar).dropWhile isBlank with
      | nil =>
          rw [hnamed] at h
          cases h
          rw [firstSign?, hnamed] at hafter
          cases hafter
      | cons e value =>
          have hnamed' : (t.dropWhile isAttributeChar).dropWhile isBlank ≠ [] := by
            rw [hnamed]
            exact List.cons_ne_nil _ _
          have hname : t.dropWhile isAttributeChar ≠ [] := by
            intro hnil
            rw [hnil] at hnamed
            cases hnamed
          rw [dropWhile_append_of_ne_nil hname, dropWhile_append_of_ne_nil hnamed', hnamed,
            List.cons_append]
          rw [hnamed] at h
          by_cases he : e = '='
          · subst he
            simp only at h ⊢
            cases hvalue : afterValue? (value.dropWhile isBlank) with
            | none =>
                rw [hvalue] at h
                cases h
                rw [firstSign?, hnamed] at hafter
                cases hafter
                exact (hc rfl).elim
            | some behind =>
                rw [hvalue] at h
                cases h
                have hstarts : value.dropWhile isBlank ≠ [] := by
                  intro hnil
                  rw [hnil] at hvalue
                  cases hvalue
                rw [dropWhile_append_of_ne_nil hstarts,
                  afterValue?_append hvalue (ne_nil_of_firstSign hafter)]
          · have hafter : after = t.dropWhile isAttributeChar := by
              split at h
              · rename_i hequals
                cases hequals
                exact (he rfl).elim
              · exact (Option.some.inj h).symm
            rw [hafter]
            split
            · rename_i hequals
              cases hequals
              exact (he rfl).elim
            · rfl
    · cases h
  · cases h

/-- An attribute does not start where a tag ends. -/
theorem afterAttribute?_eq_none (h : firstSign? s = some c) (hc : endsTag c = true) :
    afterAttribute? s = none := by
  rw [endsTag, Bool.or_eq_true, beq_iff_eq, beq_iff_eq] at hc
  unfold afterAttribute?
  split
  · rename_i d t hdrop
    rw [firstSign?, hdrop] at h
    cases h
    rcases hc with rfl | rfl
    · rfl
    · rfl
  · rfl

theorem afterAttribute?_suffix (h : afterAttribute? s = some after) :
    after <:+ s ∧ after.length < s.length := by
  unfold afterAttribute? at h
  split at h
  · rename_i d t hdrop
    split at h
    · have hsuffix : after <:+ t := by
        dsimp only at h
        refine List.IsSuffix.trans ?_ (List.dropWhile_suffix isAttributeChar)
        split at h
        · rename_i value hvalue
          split at h
          · rename_i behind hread
            cases h
            exact (((afterValue?_suffix hread).trans (List.dropWhile_suffix _)).trans
              (List.suffix_cons _ _)).trans (hvalue ▸ List.dropWhile_suffix _)
          · cases h
            exact List.suffix_refl _
        · cases h
          exact List.suffix_refl _
      have hwhole : d :: t <:+ s := hdrop ▸ List.dropWhile_suffix _
      exact ⟨(hsuffix.trans (List.suffix_cons _ _)).trans hwhole,
        Nat.lt_of_lt_of_le (Nat.lt_succ_of_le hsuffix.length_le) hwhole.length_le⟩
    · cases h
  · cases h

theorem afterAttributes_suffix (fuel : Nat) (s : List Char) : afterAttributes fuel s <:+ s := by
  induction fuel generalizing s with
  | zero => exact List.suffix_refl s
  | succ fuel ih =>
      rw [afterAttributes]
      split
      · rename_i after hread
        exact (ih after).trans (afterAttribute?_suffix hread).1
      · exact List.suffix_refl s

/-- What attributes are read from does not start with an equals sign if a tag ends behind them. -/
theorem firstSign?_of_afterAttributes {fuel : Nat}
    (h : firstSign? (afterAttributes fuel s) = some c) (hc : endsTag c = true) :
    ∃ d, firstSign? s = some d ∧ d ≠ '=' := by
  cases fuel with
  | zero => exact ⟨c, h, ne_equals_of_endsTag hc⟩
  | succ fuel =>
      rw [afterAttributes] at h
      cases hread : afterAttribute? s with
      | none =>
          rw [hread] at h
          exact ⟨c, h, ne_equals_of_endsTag hc⟩
      | some after =>
          unfold afterAttribute? at hread
          rw [firstSign?]
          cases hdrop : s.dropWhile isBlank with
          | nil =>
              rw [hdrop] at hread
              cases hread
          | cons d t =>
              refine ⟨d, rfl, ?_⟩
              rintro rfl
              rw [hdrop] at hread
              cases hread

theorem afterAttributes_append {fuel fuel' : Nat} (hfuel : s.length ≤ fuel)
    (h : firstSign? (afterAttributes fuel s) = some c) (hc : endsTag c = true) (r : List Char)
    (hfuel' : (s ++ r).length ≤ fuel') :
    afterAttributes fuel' (s ++ r) = afterAttributes fuel s ++ r := by
  induction fuel generalizing s fuel' with
  | zero =>
      cases List.eq_nil_of_length_eq_zero (Nat.le_zero.mp hfuel)
      cases h
  | succ fuel ih =>
      obtain ⟨d, hd, -⟩ := firstSign?_of_afterAttributes h hc
      have hpos : 0 < s.length := List.length_pos_iff.mpr (ne_nil_of_firstSign hd)
      rw [List.length_append] at hfuel'
      obtain ⟨fuel', rfl⟩ : ∃ k, fuel' = k + 1 := ⟨fuel' - 1, by omega⟩
      rw [afterAttributes] at h ⊢
      rw [afterAttributes]
      cases hread : afterAttribute? s with
      | none =>
          rw [hread] at h
          rw [afterAttribute?_eq_none (firstSign?_append h r) hc]
      | some after =>
          rw [hread] at h
          obtain ⟨e, he, hequals⟩ := firstSign?_of_afterAttributes h hc
          have hlt := (afterAttribute?_suffix hread).2
          rw [afterAttribute?_append hread he hequals]
          exact ih (by omega) h (by rw [List.length_append]; omega)

end Attributes

section Tags

theorem afterTagName?_append (h : afterTagName? s = some after) (hne : after ≠ []) (r : List Char) :
    afterTagName? (s ++ r) = some (after ++ r) := by
  cases s with
  | nil => cases h
  | cons d s =>
      simp only [afterTagName?, List.cons_append] at h ⊢
      split at h
      · rename_i halpha
        cases h
        rw [if_pos halpha, dropWhile_append_of_ne_nil hne]
      · cases h

theorem afterTagName?_suffix (h : afterTagName? s = some after) : after <:+ s := by
  cases s with
  | nil => cases h
  | cons d s =>
      rw [afterTagName?] at h
      split at h
      · cases h
        exact (List.dropWhile_suffix _).trans (List.suffix_cons _ _)
      · cases h

/-- What an opening tag consists of: the name, the attributes, and how it ends. -/
theorem afterOpenTag?_eq_some : afterOpenTag? s = some after ↔
    ∃ named, afterTagName? s = some named ∧
      ((afterAttributes s.length named).dropWhile isBlank = '>' :: after ∨
        (afterAttributes s.length named).dropWhile isBlank = '/' :: '>' :: after) := by
  constructor
  · intro h
    obtain ⟨named, hnamed, h⟩ := Option.bind_eq_some_iff.mp h
    refine ⟨named, hnamed, ?_⟩
    split at h
    · rename_i hclosing
      cases h
      exact .inl hclosing
    · rename_i hclosing
      cases h
      exact .inr hclosing
    · cases h
  · rintro ⟨named, hnamed, hclosing | hclosing⟩
    · rw [afterOpenTag?, hnamed]
      simp only [Option.bind_eq_bind, Option.bind_some, hclosing]
    · rw [afterOpenTag?, hnamed]
      simp only [Option.bind_eq_bind, Option.bind_some, hclosing]

theorem afterOpenTag?_append (h : afterOpenTag? s = some after) (r : List Char) :
    afterOpenTag? (s ++ r) = some (after ++ r) := by
  rw [afterOpenTag?_eq_some] at h ⊢
  obtain ⟨named, hnamed, hclosing⟩ := h
  obtain ⟨c, hafter, hc⟩ :
      ∃ c, firstSign? (afterAttributes s.length named) = some c ∧ endsTag c = true := by
    rw [firstSign?]
    rcases hclosing with h | h
    · exact ⟨'>', by rw [h]; rfl, rfl⟩
    · exact ⟨'/', by rw [h]; rfl, rfl⟩
  obtain ⟨d, hd, -⟩ := firstSign?_of_afterAttributes hafter hc
  have hle := (afterTagName?_suffix hnamed).length_le
  refine ⟨named ++ r, afterTagName?_append hnamed (ne_nil_of_firstSign hd) r, ?_⟩
  have hfuel : (named ++ r).length ≤ (s ++ r).length := by
    rw [List.length_append, List.length_append]
    omega
  rw [afterAttributes_append hle hafter hc r hfuel,
    dropWhile_append_of_ne_nil (dropWhile_ne_nil_of_firstSign hafter)]
  rcases hclosing with h | h
  · exact .inl (by rw [h]; rfl)
  · exact .inr (by rw [h]; rfl)

theorem afterOpenTag?_suffix (h : afterOpenTag? s = some after) : after <:+ s := by
  obtain ⟨named, hnamed, hclosing⟩ := afterOpenTag?_eq_some.mp h
  have hattrs := (List.dropWhile_suffix isBlank).trans (afterAttributes_suffix s.length named)
  have hdrop := hattrs.trans (afterTagName?_suffix hnamed)
  rcases hclosing with h | h
  · rw [h] at hdrop
    exact (List.suffix_cons _ _).trans hdrop
  · rw [h] at hdrop
    exact ((List.suffix_cons _ _).trans (List.suffix_cons _ _)).trans hdrop

theorem afterCloseTag?_eq_some : afterCloseTag? s = some after ↔
    ∃ named, afterTagName? s = some named ∧ named.dropWhile isBlank = '>' :: after := by
  constructor
  · intro h
    obtain ⟨named, hnamed, h⟩ := Option.bind_eq_some_iff.mp h
    refine ⟨named, hnamed, ?_⟩
    split at h
    · rename_i hclosing
      cases h
      exact hclosing
    · cases h
  · rintro ⟨named, hnamed, hclosing⟩
    rw [afterCloseTag?, hnamed]
    simp only [Option.bind_eq_bind, Option.bind_some, hclosing]

theorem afterCloseTag?_append (h : afterCloseTag? s = some after) (r : List Char) :
    afterCloseTag? (s ++ r) = some (after ++ r) := by
  rw [afterCloseTag?_eq_some] at h ⊢
  obtain ⟨named, hnamed, hclosing⟩ := h
  have hne : named.dropWhile isBlank ≠ [] := by
    rw [hclosing]
    exact List.cons_ne_nil _ _
  have hnamed' : named ≠ [] := by
    rintro rfl
    exact hne rfl
  refine ⟨named ++ r, afterTagName?_append hnamed hnamed' r, ?_⟩
  rw [dropWhile_append_of_ne_nil hne, hclosing, List.cons_append]

theorem afterCloseTag?_suffix (h : afterCloseTag? s = some after) : after <:+ s := by
  obtain ⟨named, hnamed, hclosing⟩ := afterCloseTag?_eq_some.mp h
  have hdrop := (List.dropWhile_suffix isBlank).trans (afterTagName?_suffix hnamed)
  rw [hclosing] at hdrop
  exact (List.suffix_cons _ _).trans hdrop

/-- A tag ends at the same place whatever follows it. -/
theorem afterTag?_append (h : afterTag? s = some after) (r : List Char) :
    afterTag? (s ++ r) = some (after ++ r) := by
  unfold afterTag? at h
  split at h
  · exact afterCloseTag?_append h r
  · rename_i rest hslash
    have hne : rest ≠ [] := by
      rintro rfl
      cases h
    rw [List.cons_append, afterTag?]
    · exact afterOpenTag?_append h r
    · intro more hmore
      obtain ⟨d, rest, rfl⟩ := List.exists_cons_of_ne_nil hne
      cases hmore
      exact hslash rest rfl
  · cases h

theorem afterTag?_suffix (h : afterTag? s = some after) : after <:+ s := by
  unfold afterTag? at h
  split at h
  · exact ((afterCloseTag?_suffix h).trans (List.suffix_cons _ _)).trans (List.suffix_cons _ _)
  · exact (afterOpenTag?_suffix h).trans (List.suffix_cons _ _)
  · cases h

/-- A line that is one tag and ends with an angle bracket is that tag to its end. -/
theorem afterTag?_of_isLoneTag (h : MarkupBlock.isLoneTag (s ++ ['>']) = true) :
    afterTag? (s ++ ['>']) = some [] := by
  rw [MarkupBlock.isLoneTag] at h
  split at h
  · rename_i after hafter
    rw [hafter]
    obtain ⟨u, hu⟩ := afterTag?_suffix hafter
    rcases List.eq_nil_or_concat after with rfl | ⟨init, last, rfl⟩
    · rfl
    · rw [List.concat_eq_append, ← List.append_assoc] at hu
      cases (List.append_inj' hu rfl).2
      rw [List.concat_eq_append, List.all_append, Bool.and_eq_true] at h
      cases h.2
  · cases h

/-- Markup that is no comment, no instruction and no declaration is a tag. -/
theorem afterMarkup?_eq_afterTag? (hbang : c ≠ '!') (hquestion : c ≠ '?') :
    afterMarkup? ('<' :: c :: s) = afterTag? ('<' :: c :: s) := by
  unfold afterMarkup?
  split
  case h_4 heq =>
      cases heq
      exact (hquestion rfl).elim
  case h_7 => rfl
  all_goals
    rename_i heq
    cases heq
    exact (hbang rfl).elim

end Tags

end SafeMarkdown.Markdown
