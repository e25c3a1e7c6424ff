import SafeMarkdown.Proofs.Component.Attributes

/-!
# Component tags with more text behind them

A complete tag is read the same whatever follows it, and the closing tag of a component is found at
the end of a text whatever precedes it. The attributes of a tag are those that stand in the part of
the tag that they take up, when this part is searched for attributes on its own.
-/

namespace SafeMarkdown.Component

open Text

variable {s rest : List Char}

section Attributes

/-- Whether a character ends a tag that has been read to there. -/
def endsTag (c : Char) : Bool :=
  c == '>' || c == '/'

theorem ne_equals_of_endsTag {c : Char} (h : endsTag c = true) : c ≠ '=' := by
  rintro rfl
  cases h

theorem isAttributeStart_of_endsTag {c : Char} (h : endsTag c = true) :
    isAttributeStart c = false := by
  rw [endsTag, Bool.or_eq_true, beq_iff_eq, beq_iff_eq] at h
  rcases h with rfl | rfl
  · rfl
  · rfl

/-- What attributes are read from does not start with an equals sign if a tag ends behind them. -/
theorem firstSign?_of_tagAttributes {fuel : Nat} {attrs : List Attribute} {c : Char}
    (h : tagAttributes fuel s = (attrs, rest)) (hrest : firstSign? rest = some c)
    (hc : endsTag c = true) : ∃ d, firstSign? s = some d ∧ d ≠ '=' := by
  have hself (h : ([], s) = (attrs, rest)) : ∃ d, firstSign? s = some d ∧ d ≠ '=' := by
    cases h
    exact ⟨c, hrest, ne_equals_of_endsTag hc⟩
  cases fuel with
  | zero => exact hself h
  | succ fuel =>
      rw [tagAttributes] at h
      dsimp only at h
      split at h
      · exact hself h
      · split at h
        · rename_i a after hread
          rw [firstSign?]
          cases hdrop : s.dropWhile isBlank with
          | nil =>
              rw [hdrop] at hread
              cases hread
          | cons d t =>
              refine ⟨d, rfl, ?_⟩
              rintro rfl
              rw [hdrop] at hread
              cases hread
        · exact hself h

theorem tagAttributes_append {fuel fuel' : Nat} {attrs : List Attribute} {c : Char}
    (h : tagAttributes fuel s = (attrs, rest)) (hfuel : s.length ≤ fuel)
    (hrest : firstSign? rest = some c) (hc : endsTag c = true) (r : List Char)
    (hfuel' : (s ++ r).length ≤ fuel') : tagAttributes fuel' (s ++ r) = (attrs, rest ++ r) := by
  induction fuel generalizing s fuel' attrs with
  | zero =>
      cases h
      cases List.eq_nil_of_length_eq_zero (Nat.le_zero.mp hfuel)
      cases hrest
  | succ fuel ih =>
      obtain ⟨d, hd, -⟩ := firstSign?_of_tagAttributes h hrest hc
      have hne := dropWhile_ne_nil_of_firstSign hd
      have hpos : 0 < s.length := List.length_pos_iff.mpr (ne_nil_of_firstSign hd)
      rw [List.length_append] at hfuel'
      obtain ⟨fuel', rfl⟩ : ∃ k, fuel' = k + 1 := ⟨fuel' - 1, by omega⟩
      rw [tagAttributes] at h ⊢
      dsimp only at h ⊢
      rw [dropWhile_append_of_ne_nil hne, List.length_append, List.length_append]
      split at h
      · rename_i hlength
        cases h
        rw [if_pos (by rw [hlength])]
      · rename_i hlength
        rw [if_neg fun heq ↦ hlength (Nat.add_right_cancel heq)]
        split at h
        · rename_i a after hread
          cases h
          obtain ⟨e, he, hequals⟩ := firstSign?_of_tagAttributes rfl hrest hc
          obtain ⟨hsuffix, hlt⟩ := readAttribute?_suffix hread
          have hle := (List.dropWhile_suffix (p := isBlank) (l := s)).length_le
          rw [readAttribute?_append hread he hequals]
          dsimp only
          rw [ih rfl (by omega) (by rw [List.length_append]; omega)]
        · cases h
          rw [readAttribute?_eq_none (c := c) ?_ (isAttributeStart_of_endsTag hc)]
          rw [List.head?_append]
          rw [firstSign?] at hrest
          rw [hrest]
          rfl

theorem tagAttributes_suffix (fuel : Nat) (s : List Char) : (tagAttributes fuel s).2 <:+ s := by
  induction fuel generalizing s with
  | zero => exact List.suffix_refl s
  | succ fuel ih =>
      rw [tagAttributes]
      dsimp only
      split
      · exact List.suffix_refl s
      · split
        · rename_i a after hread
          exact ((ih after).trans (readAttribute?_suffix hread).1).trans (List.dropWhile_suffix _)
        · exact List.suffix_refl s

end Attributes

section Tags

theorem readName?_append {name after : List Char} (h : readName? s = some (name, after))
    (hne : after ≠ []) (r : List Char) : readName? (s ++ r) = some (name, after ++ r) := by
  cases s with
  | nil => cases h
  | cons c s =>
      simp only [readName?, List.cons_append] at h ⊢
      split at h
      · rename_i hcapital
        cases h
        rw [if_pos hcapital, dropWhile_append_of_ne_nil hne, takeWhile_append_of_ne_nil hne]
      · cases h

theorem readName?_suffix {name after : List Char} (h : readName? s = some (name, after)) :
    after <:+ s := by
  cases s with
  | nil => cases h
  | cons c s =>
      rw [readName?] at h
      split at h
      · cases h
        exact (List.dropWhile_suffix _).trans (List.suffix_cons _ _)
      · cases h

/-- What an opening tag consists of: the name, the attributes, and how it ends. -/
structure OpenParts (s : List Char) (tag : OpenTag) (rest : List Char) : Prop where
  parts : ∃ t name named attrs after, s = '<' :: t ∧ readName? t = some (name, named) ∧
    tagAttributes named.length named = (attrs, after) ∧
    after.dropWhile isBlank = (if tag.selfClosing then ['/'] else []) ++ '>' :: rest ∧
    tag.name = String.ofList name ∧ tag.attrs = fieldsOf attrs
  source : tag.source = String.ofList (s.take (s.length - rest.length))

theorem readOpenTag?_eq_some {tag : OpenTag} :
    readOpenTag? s = some (tag, rest) ↔ OpenParts s tag rest := by
  constructor
  · intro h
    unfold readOpenTag? at h
    split at h
    · rename_i t
      obtain ⟨⟨name, named⟩, hname, h⟩ := Option.bind_eq_some_iff.mp h
      dsimp only at h
      split at h
      · rename_i after hclosing
        cases h
        refine ⟨⟨t, name, named, _, _, rfl, hname, rfl, ?_, rfl, rfl⟩, rfl⟩
        dsimp only
        split at hclosing
        · rename_i hslash
          rw [if_pos hslash]
          cases hdrop : (tagAttributes named.length named).2.dropWhile isBlank with
          | nil =>
              rw [hdrop] at hslash
              cases hslash
          | cons c u =>
              rw [hdrop] at hslash hclosing
              cases beq_iff_eq.mp hslash
              exact congrArg _ hclosing
        · rename_i hslash
          rw [if_neg hslash, hclosing]
          rfl
      · cases h
    · cases h
  · rintro ⟨⟨t, name, named, attrs, after, rfl, hname, hattrs, hclosing, hn, ha⟩, hsource⟩
    obtain ⟨tagName, tagAttrs, selfClosing, source⟩ := tag
    cases hn
    cases ha
    cases hsource
    rw [readOpenTag?, hname]
    simp only [Option.bind_eq_bind, Option.bind_some, hattrs]
    cases selfClosing with
    | true =>
        rw [hclosing]
        rfl
    | false =>
        rw [hclosing]
        rfl

/-- A tag is read the same whatever follows it. -/
theorem readOpenTag?_append {tag : OpenTag} (h : readOpenTag? s = some (tag, rest))
    (r : List Char) : readOpenTag? (s ++ r) = some (tag, rest ++ r) := by
  rw [readOpenTag?_eq_some] at h ⊢
  obtain ⟨⟨t, name, named, attrs, after, rfl, hname, hattrs, hclosing, hn, ha⟩, hsource⟩ := h
  obtain ⟨c, hafter, hc⟩ : ∃ c, firstSign? after = some c ∧ endsTag c = true := by
    rw [firstSign?, hclosing]
    cases tag.selfClosing with
    | true => exact ⟨'/', rfl, rfl⟩
    | false => exact ⟨'>', rfl, rfl⟩
  obtain ⟨d, hnamed, -⟩ := firstSign?_of_tagAttributes hattrs hafter hc
  refine ⟨⟨t ++ r, name, named ++ r, attrs, after ++ r, rfl,
    readName?_append hname (ne_nil_of_firstSign hnamed) r,
    tagAttributes_append hattrs (Nat.le_refl _) hafter hc r (Nat.le_refl _), ?_, hn, ha⟩, ?_⟩
  · rw [dropWhile_append_of_ne_nil (dropWhile_ne_nil_of_firstSign hafter), hclosing,
      List.append_assoc, List.cons_append]
  · rw [hsource, List.length_append, List.length_append, Nat.add_sub_add_right,
      List.take_append_of_le_length (Nat.sub_le _ _)]

/-- A tag ends with its angle bracket. -/
theorem exists_of_readOpenTag? {tag : OpenTag} (h : readOpenTag? s = some (tag, rest)) :
    ∃ t, s = '<' :: t ++ '>' :: rest ∧ tag.source = String.ofList ('<' :: t ++ ['>']) := by
  obtain ⟨⟨t, name, named, attrs, after, rfl, hname, hattrs, hclosing, -, -⟩, hsource⟩ :=
    readOpenTag?_eq_some.mp h
  have hafter : after <:+ t := by
    have hsuffix := tagAttributes_suffix named.length named
    rw [hattrs] at hsuffix
    exact hsuffix.trans (readName?_suffix hname)
  have hdrop := List.dropWhile_suffix isBlank (l := after)
  rw [hclosing] at hdrop
  obtain ⟨u, rfl⟩ : '>' :: rest <:+ t := (List.suffix_append _ _).trans (hdrop.trans hafter)
  refine ⟨u, rfl, ?_⟩
  have hsplit : '<' :: (u ++ '>' :: rest) = '<' :: u ++ ['>'] ++ rest := by simp
  rw [hsource, hsplit, List.take_left']
  simp only [List.length_append, List.length_cons, List.length_nil]
  omega

/-- What a closing tag consists of: the name and white space. -/
theorem readCloseTag?_eq_some {name : String} :
    readCloseTag? s = some (name, rest) ↔ ∃ t named, s = '<' :: '/' :: t ∧
      readName? t = some (name.toList, named) ∧ named.dropWhile isBlank = '>' :: rest := by
  constructor
  · intro h
    unfold readCloseTag? at h
    split at h
    · rename_i t
      obtain ⟨⟨n, named⟩, hname, h⟩ := Option.bind_eq_some_iff.mp h
      dsimp only at h
      split at h
      · rename_i after hclosing
        cases h
        rw [String.toList_ofList]
        exact ⟨t, named, rfl, hname, hclosing⟩
      · cases h
    · cases h
  · rintro ⟨t, named, rfl, hname, hclosing⟩
    rw [readCloseTag?, hname]
    simp only [Option.bind_eq_bind, Option.bind_some, hclosing, String.ofList_toList]

/-- The name of a component, as it is written. -/
structure IsName (name : List Char) : Prop where
  exists_cons : ∃ c cs, name = c :: cs ∧ isCapital c = true
  chars : ∀ c ∈ name, isNameChar c = true

theorem isNameChar_of_isCapital {c : Char} (h : isCapital c = true) : isNameChar c = true := by
  have halpha : c.isAlphanum = true := by
    rw [isCapital, Bool.and_eq_true, decide_eq_true_eq, decide_eq_true_eq] at h
    rw [Text.isAlphanum_iff, Text.isAlpha_iff]
    exact .inl (.inl (decide_eq_true h))
  rw [isNameChar, halpha]
  rfl

theorem readName?_eq_some {name after : List Char} (h : readName? s = some (name, after)) :
    IsName name ∧ s = name ++ after := by
  cases s with
  | nil => cases h
  | cons c s =>
      rw [readName?] at h
      split at h
      · rename_i hcapital
        cases h
        refine ⟨⟨⟨c, _, rfl, hcapital⟩, List.forall_mem_cons.mpr
          ⟨isNameChar_of_isCapital hcapital, fun d hd ↦ ?_⟩⟩, ?_⟩
        · exact List.all_eq_true.mp List.all_takeWhile d hd
        · rw [List.cons_append, List.takeWhile_append_dropWhile]
      · cases h

theorem exists_of_readCloseTag? {name : String} (h : readCloseTag? s = some (name, rest)) :
    ∃ blanks, (∀ c ∈ blanks, isBlank c = true) ∧ IsName name.toList ∧
      s = '<' :: '/' :: name.toList ++ blanks ++ '>' :: rest := by
  obtain ⟨t, named, rfl, hname, hclosing⟩ := readCloseTag?_eq_some.mp h
  obtain ⟨hisName, rfl⟩ := readName?_eq_some hname
  refine ⟨named.takeWhile isBlank, List.all_eq_true.mp List.all_takeWhile, hisName, ?_⟩
  rw [← hclosing, List.append_assoc, List.takeWhile_append_dropWhile]
  rfl

theorem not_isBlank_of_isNameChar {c : Char} (h : isNameChar c = true) : isBlank c = false := by
  rw [isNameChar, Bool.or_eq_true, Bool.or_eq_true, beq_iff_eq, beq_iff_eq] at h
  rcases h with (h | rfl) | rfl
  · exact isBlank_of_isAlphanum h
  · rfl
  · rfl

theorem reverse_trimEnd {c : Char} (hc : isBlank c = false) :
    (trimEnd (s ++ [c])).reverse = c :: s.reverse := by
  rw [trimEnd, dropEndWhile, List.reverse_reverse, List.reverse_append, List.reverse_singleton,
    List.singleton_append, List.dropWhile_cons_of_neg]
  rw [hc]
  exact Bool.false_ne_true

/-- The closing tag at the end of a text is found. -/
theorem beforeCloseTag?_append {name : String} {closing : List Char}
    (h : readCloseTag? closing = some (name, [])) (s : List Char) :
    beforeCloseTag? name (s ++ closing) = some s := by
  obtain ⟨blanks, hblanks, hname, rfl⟩ := exists_of_readCloseTag? h
  have hwritten :
      (blanks.reverse ++ (s ++ ("</".toList ++ name.toList)).reverse).dropWhile isBlank =
        (s ++ ("</".toList ++ name.toList)).reverse := by
    obtain ⟨⟨c, cs, hcons, -⟩, hchars⟩ := hname
    rw [hcons] at hchars ⊢
    obtain ⟨init, last, hlast⟩ :=
      (List.eq_nil_or_concat (c :: cs)).resolve_left (List.cons_ne_nil c cs)
    rw [hlast] at hchars ⊢
    rw [List.dropWhile_append_of_pos fun d hd ↦ hblanks d (List.mem_reverse.mp hd)]
    refine dropWhile_of_head (c := last) ?_ (not_isBlank_of_isNameChar (hchars _ (by simp)))
    simp
  have hsplit : s ++ ('<' :: '/' :: name.toList ++ blanks ++ ['>']) =
      s ++ ("</".toList ++ name.toList) ++ blanks ++ ['>'] := by
    simp
  rw [beforeCloseTag?, hsplit, reverse_trimEnd rfl, List.reverse_append]
  simp only
  rw [hwritten, List.reverse_reverse, if_pos]
  · rw [List.length_append, Nat.add_sub_cancel, List.take_left' rfl]
  · exact List.isSuffixOf_iff_suffix.mpr (List.suffix_append _ _)

/-- A text whose last component is closed ends with an angle bracket. -/
theorem getLast?_of_beforeCloseTag? {name : String} {inner : List Char}
    (h : beforeCloseTag? name s = some inner) : (trimEnd s).getLast? = some '>' := by
  unfold beforeCloseTag? at h
  split at h
  · rename_i behind hreverse
    rw [← List.head?_reverse, hreverse]
    rfl
  · cases h

theorem looksLikeTag_of_readOpenTag? {tag : OpenTag} (h : readOpenTag? s = some (tag, rest)) :
    looksLikeTag s = true := by
  obtain ⟨⟨t, name, named, attrs, after, rfl, hname, -, -, -, -⟩, -⟩ := readOpenTag?_eq_some.mp h
  obtain ⟨⟨⟨c, cs, rfl, hc⟩, -⟩, rfl⟩ := readName?_eq_some hname
  rw [List.cons_append, looksLikeTag]
  · exact hc
  · rintro d rest rfl
    cases hc

theorem looksLikeTag_of_readCloseTag? {name : String} (h : readCloseTag? s = some (name, rest)) :
    looksLikeTag s = true := by
  obtain ⟨blanks, -, ⟨⟨c, cs, hcons, hc⟩, -⟩, rfl⟩ := exists_of_readCloseTag? h
  rw [hcons]
  exact hc

theorem readOpenTag?_of_readCloseTag? {name : String} (h : readCloseTag? s = some (name, rest)) :
    readOpenTag? s = none := by
  obtain ⟨t, named, rfl, -, -⟩ := readCloseTag?_eq_some.mp h
  rfl

/-- A tag with content behind it has white space or its end behind its name. -/
theorem exists_name_of_readOpenTag? {tag : OpenTag} (h : readOpenTag? s = some (tag, rest))
    (hopen : tag.selfClosing = false) : ∃ name c t, s = '<' :: name ++ c :: t ∧ IsName name ∧
      (isBlank c = true ∨ c = '>') := by
  obtain ⟨⟨t, name, named, attrs, after, rfl, hname, hattrs, hclosing, -, -⟩, -⟩ :=
    readOpenTag?_eq_some.mp h
  rw [hopen, if_neg Bool.false_ne_true, List.nil_append] at hclosing
  obtain ⟨hisName, rfl⟩ := readName?_eq_some hname
  cases named with
  | nil =>
      cases hattrs
      cases hclosing
  | cons c named =>
      refine ⟨name, c, named, rfl, hisName, ?_⟩
      cases hblank : isBlank c with
      | true => exact .inl rfl
      | false =>
          have hdrop : (c :: named).dropWhile isBlank = c :: named := dropWhile_of_head rfl hblank
          rw [List.length_cons, tagAttributes] at hattrs
          dsimp only at hattrs
          rw [hdrop, if_pos rfl] at hattrs
          cases hattrs
          rw [hdrop] at hclosing
          cases hclosing
          exact .inr rfl

/-- The part of an opening tag that its attributes take up. -/
def attributeText (s : List Char) : List Char :=
  match s with
  | '<' :: t =>
    match readName? t with
    | some (_, named) => named.take (named.length - (tagAttributes named.length named).2.length)
    | none => []
  | _ => []

/-- A tag has the attributes that stand in its attribute text. -/
theorem attrs_of_readOpenTag? {tag : OpenTag} (h : readOpenTag? s = some (tag, rest)) :
    tag.attrs = parseAttributes (attributeText s) := by
  obtain ⟨⟨t, name, named, attrs, after, rfl, hname, hattrs, -, -, hfields⟩, -⟩ :=
    readOpenTag?_eq_some.mp h
  obtain ⟨taken, htaken, hread⟩ := attributesIn_of_tagAttributes hattrs
  have htext : attributeText ('<' :: t) = taken := by
    rw [attributeText, hname]
    dsimp only
    rw [hattrs, htaken, List.length_append, Nat.add_sub_cancel, List.take_left' rfl]
  rw [htext, parseAttributes, hread _ (Nat.le_refl _), hfields]

end Tags

end SafeMarkdown.Component
