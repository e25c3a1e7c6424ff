import SafeMarkdown.Proofs.Html.Progress

/-!
# Reading HTML place by place

The tokens of a text come one step after the other, each from a place: a round and what is left of
the text. The steps that a bound on their number allows are all there are, so the tokens of a text
are what a relation without bounds says they are.
-/

namespace SafeMarkdown.Html

/-- What a step of reading comes to. -/
inductive Advance where
  /-- The last tokens of the text. -/
  | stop (ts : List Token)
  /-- Some tokens, and the place from which reading goes on. -/
  | go (ts : List Token) (second : Bool) (rest : List Char)
  /-- The text is unreadable. -/
  | unreadable

/-- The step from an angle bracket that starts something unfinished. -/
def unfinished (second : Bool) (rest : List Char) : Advance :=
  if second then .go [.text ('<' :: upTo rest (resume rest))] second (resume rest)
  else .go [] true ('<' :: rest)

/-- The step from an angle bracket. -/
def advanceTag (second : Bool) (rest : List Char) : Advance :=
  if rest.head?.any isLetter then
    match readTag rest with
    | .tag name attrs selfClosing after =>
      if isRawText name && !selfClosing then
        match splitBefore (rawTextEnd name) after with
        | some (content, afterEnd) =>
          .go (.startTag name attrs selfClosing ::
            (if content.isEmpty then [] else [.text content]) ++ [.endTag name]) second afterEnd
        | none => .stop [.startTag name attrs selfClosing]
      else .go [.startTag name attrs selfClosing] second after
    | .broken after => .go [.text ('<' :: upTo rest after)] second after
    | .incomplete => unfinished second rest
  else
    match readItem? rest with
    | some (.item token after) => .go token.toList second after
    | some .incomplete => unfinished second rest
    | some .unreadable => .unreadable
    | none => .go [.text ['<']] second rest

/-- The step from an ampersand and a number sign. -/
def advanceNumber (second : Bool) (rest : List Char) : Advance :=
  match textNumber? rest with
  | some (n, after) => .go [.text [textNumber n]] second (dropSemicolon after)
  | none =>
    if rest.contains ';' then
      if second then .stop [.text ['&', '#'], .text rest] else .go [.text ['&', '#']] true rest
    else .stop [.text ('&' :: '#' :: rest)]

/-- The step from an ampersand that no number sign follows. -/
def advanceName (second : Bool) (rest : List Char) : Advance :=
  match textName? rest with
  | some (name, after) => .go [.text (namedText name)] second (dropSemicolon after)
  | none =>
    match rest with
    | [] => .stop [.text ['&']]
    | [c] => if isLetter c then .stop [.text [c]] else .go [.text ['&']] second [c]
    | c :: _ =>
      if isLetter c then .stop [.text ('&' :: rest)] else .go [.text ['&']] second rest

/-- The step from a place. -/
def advance (second : Bool) : List Char → Advance
  | [] => .stop []
  | '<' :: rest => advanceTag second rest
  | '&' :: '#' :: rest => advanceNumber second rest
  | '&' :: rest => advanceName second rest
  | c :: rest => .go [.text (c :: rest.takeWhile isPlain)] second (rest.dropWhile isPlain)

/-- The tokens of the rest in so many steps, after a step. -/
def Advance.follow (fuel : Nat) : Advance → Except Failure (List Token)
  | .stop ts => .ok ts
  | .go ts second rest => (tokenSteps fuel second rest).map (ts ++ ·)
  | .unreadable => .error rejected

theorem map_nil_append (r : Except Failure (List Token)) : r.map ([] ++ ·) = r := by
  cases r <;> rfl

theorem follow_unfinished (fuel : Nat) (second : Bool) (rest : List Char) :
    (unfinished second rest).follow fuel =
      if second then
        (tokenSteps fuel second (resume rest)).map (.text ('<' :: upTo rest (resume rest)) :: ·)
      else tokenSteps fuel true ('<' :: rest) := by
  cases second with
  | true => rfl
  | false => exact map_nil_append _

theorem tokenSteps_tag (fuel : Nat) (second : Bool) (rest : List Char) :
    tokenSteps (fuel + 1) second ('<' :: rest) = (advanceTag second rest).follow fuel := by
  rw [tokenSteps, advanceTag]
  cases hletter : rest.head?.any isLetter with
  | true =>
      cases hread : readTag rest with
      | tag name attrs selfClosing after =>
          cases hraw : isRawText name && !selfClosing with
          | true =>
              cases hend : splitBefore (rawTextEnd name) after with
              | none => simp [hraw, hend, Advance.follow]
              | some found => simp [hraw, hend, Advance.follow]
          | false => simp [hraw, Advance.follow]
      | broken after => rfl
      | incomplete => exact (follow_unfinished fuel second rest).symm
  | false =>
      cases hitem : readItem? rest with
      | none => rfl
      | some reading =>
          cases reading with
          | item token after =>
              cases token with
              | none => exact (map_nil_append _).symm
              | some token => rfl
          | incomplete => exact (follow_unfinished fuel second rest).symm
          | unreadable => rfl

theorem tokenSteps_number (fuel : Nat) (second : Bool) (rest : List Char) :
    tokenSteps (fuel + 1) second ('&' :: '#' :: rest) = (advanceNumber second rest).follow fuel := by
  rw [tokenSteps, advanceNumber]
  cases hnumber : textNumber? rest with
  | some number => rfl
  | none =>
      cases hsemicolon : rest.contains ';' with
      | true => cases second <;> rfl
      | false => rfl

theorem tokenSteps_name (fuel : Nat) (second : Bool) (rest : List Char)
    (hnumber : ∀ more, rest ≠ '#' :: more) :
    tokenSteps (fuel + 1) second ('&' :: rest) = (advanceName second rest).follow fuel := by
  unfold advanceName
  match rest with
  | [] =>
      rw [tokenSteps.eq_5]
      cases hname : textName? [] with
      | some name => rfl
      | none => rfl
  | [c] =>
      rw [tokenSteps.eq_6 _ _ _ (by simpa using hnumber)]
      cases hname : textName? [c] with
      | some name => rfl
      | none => cases hletter : isLetter c <;> simp [hletter, Advance.follow]
  | c :: d :: more =>
      rw [tokenSteps.eq_7 _ _ _ _ (by simp)]
      · cases hname : textName? (c :: d :: more) with
        | some name => rfl
        | none => cases hletter : isLetter c <;> simp [hletter, Advance.follow]
      · simpa using hnumber

theorem tokenSteps_succ (fuel : Nat) (second : Bool) (s : List Char) :
    tokenSteps (fuel + 1) second s = (advance second s).follow fuel := by
  unfold advance
  split
  · rfl
  · exact tokenSteps_tag fuel second _
  · exact tokenSteps_number fuel second _
  · rename_i rest hnumber
    exact tokenSteps_name fuel second rest hnumber
  · rename_i c rest htag hnumber hname
    rw [tokenSteps]
    · rfl
    · exact htag
    · exact hnumber
    · exact hname

/-- What a place still weighs: no step comes to a heavier one. -/
def weight (second : Bool) (s : List Char) : Nat :=
  2 * s.length + if second then 0 else 1

/-- Whether a step comes to a lighter place than one of a round and a length. -/
def Advance.Lightens (second : Bool) (length : Nat) : Advance → Prop
  | .go _ second' rest => weight second' rest < 2 * length + if second then 0 else 1
  | _ => True

theorem lightens_of_length_lt {second : Bool} {length : Nat} {ts : List Token} {rest : List Char}
    (h : rest.length < length) : (Advance.go ts second rest).Lightens second length := by
  simp only [Advance.Lightens, weight]
  omega

theorem lightens_unfinished (second : Bool) (rest : List Char) :
    (unfinished second rest).Lightens second (rest.length + 1) := by
  have hresume := length_resume_le rest
  cases second with
  | true => exact lightens_of_length_lt (Nat.lt_succ_of_le hresume)
  | false =>
      simp only [unfinished, Advance.Lightens, weight, Bool.false_eq_true, if_false, if_true,
        List.length_cons]
      omega

theorem lightens_advanceTag (second : Bool) (rest : List Char) :
    (advanceTag second rest).Lightens second (rest.length + 1) := by
  have htag := length_readTag_le rest
  rw [advanceTag]
  split
  · split
    · rename_i name attrs selfClosing after hread
      rw [hread] at htag
      split
      · split
        · rename_i content afterEnd hend
          exact lightens_of_length_lt (Nat.lt_succ_of_le
            (Nat.le_trans (shortens_splitBefore (shortens_rawTextEnd name) hend) htag))
        · trivial
      · exact lightens_of_length_lt (Nat.lt_succ_of_le htag)
    · rename_i after hread
      rw [hread] at htag
      exact lightens_of_length_lt (Nat.lt_succ_of_le htag)
    · exact lightens_unfinished second rest
  · split
    · rename_i token after hitem
      exact lightens_of_length_lt (Nat.lt_succ_of_le (length_readItem_le hitem))
    · exact lightens_unfinished second rest
    · trivial
    · exact lightens_of_length_lt (Nat.lt_succ_self _)

theorem lightens_advanceNumber (second : Bool) (rest : List Char) :
    (advanceNumber second rest).Lightens second (rest.length + 2) := by
  unfold advanceNumber
  split
  · rename_i n after hnumber
    have hafter := length_textNumber_le hnumber
    have hdrop := length_dropSemicolon_le after
    exact lightens_of_length_lt (by omega)
  · split
    · split
      · trivial
      · rename_i hfirst
        rw [Bool.not_eq_true] at hfirst
        simp only [Advance.Lightens, weight, hfirst, Bool.false_eq_true, if_false, if_true]
        omega
    · trivial

theorem lightens_advanceName (second : Bool) (rest : List Char) :
    (advanceName second rest).Lightens second (rest.length + 1) := by
  unfold advanceName
  split
  · rename_i name after hname
    have hafter := length_textName_le hname
    have hdrop := length_dropSemicolon_le after
    exact lightens_of_length_lt (by omega)
  · split
    · trivial
    · split
      · trivial
      · exact lightens_of_length_lt (Nat.lt_succ_self _)
    · split
      · trivial
      · exact lightens_of_length_lt (Nat.lt_succ_self _)

theorem lightens_advance (second : Bool) (s : List Char) :
    (advance second s).Lightens second s.length := by
  unfold advance
  split
  · trivial
  · exact lightens_advanceTag second _
  · exact lightens_advanceNumber second _
  · exact lightens_advanceName second _
  · rename_i c rest _ _ _
    exact lightens_of_length_lt (Nat.lt_succ_of_le (length_dropWhile_le isPlain rest))

/-- The tokens that reading from a place finds, however many steps it takes. -/
inductive Reads : Bool → List Char → List Token → Prop
  | stop {second : Bool} {s : List Char} {ts : List Token} (h : advance second s = .stop ts) :
      Reads second s ts
  | go {second second' : Bool} {s rest : List Char} {ts us : List Token}
      (h : advance second s = .go ts second' rest) (more : Reads second' rest us) :
      Reads second s (ts ++ us)

theorem Reads.tokenSteps_eq {second : Bool} {s : List Char} {ts : List Token}
    (h : Reads second s ts) {fuel : Nat} (hfuel : weight second s < fuel) :
    tokenSteps fuel second s = .ok ts := by
  induction h generalizing fuel with
  | stop hstop =>
      obtain ⟨fuel, rfl⟩ := Nat.exists_eq_succ_of_ne_zero (Nat.ne_of_gt (Nat.zero_lt_of_lt hfuel))
      rw [tokenSteps_succ, hstop]
      rfl
  | go hgo more ih =>
      rename_i second second' s rest ts us
      obtain ⟨fuel, rfl⟩ := Nat.exists_eq_succ_of_ne_zero (Nat.ne_of_gt (Nat.zero_lt_of_lt hfuel))
      have hlight := lightens_advance second s
      rw [hgo] at hlight
      have hless : weight second' rest < fuel := by
        simp only [Advance.Lightens] at hlight
        simp only [weight] at hfuel hlight ⊢
        omega
      rw [tokenSteps_succ, hgo, Advance.follow, ih hless]
      rfl

/-- The tokens of a text are those that reading finds. -/
theorem Reads.tokens_eq {s : List Char} {ts : List Token} (h : Reads false s ts) :
    tokens s = .ok ts :=
  h.tokenSteps_eq (by simp [weight])

/-- The places that reading comes to in so many steps: what is left of the text there. -/
def placesFrom : Nat → Bool → List Char → List (List Char)
  | 0, _, _ => []
  | fuel + 1, second, s =>
    s :: match advance second s with
      | .go _ second rest => placesFrom fuel second rest
      | _ => []

/-- The places that reading a text comes to. -/
def placesOf (s : List Char) : List (List Char) :=
  placesFrom (2 * s.length + 2) false s

/-- Whether a marked section starts at a place whose keyword is none of the known ones. One that the
text ends in right behind the keyword does not count. -/
def opensUnknownSection : List Char → Bool
  | '<' :: '!' :: '[' :: c :: rest =>
    if isLetter c then
      let keyword := String.ofList (((c :: rest).takeWhile isKeywordChar).map Char.toLower)
      !(((c :: rest).dropWhile isKeywordChar).dropWhile Text.isBlank).isEmpty &&
        !(doubleSections ++ singleSections).contains keyword
    else true
  | _ => false

theorem markupUpTo_ne_unreadable (after? : Option (List Char)) :
    markupUpTo after? ≠ .unreadable := by
  cases after? <;> simp [markupUpTo]

theorem readEndTag_ne_unreadable (s : List Char) : readEndTag s ≠ .unreadable := by
  unfold readEndTag
  split
  · simp
  · split
    · simp
    · split
      · simp
      · split <;> simp
      · simp

theorem readSection_eq_unreadable_iff (s : List Char) :
    readSection s = .unreadable ↔ opensUnknownSection ('<' :: '!' :: '[' :: s) = true := by
  cases s with
  | nil => simp [readSection, opensUnknownSection]
  | cons c rest =>
      rw [readSection, opensUnknownSection]
      split
      · dsimp only
        split
        · rename_i hempty
          simp [hempty]
        · rename_i hmore
          rw [Bool.not_eq_true] at hmore
          rw [hmore, List.contains_append]
          split
          · rename_i hdouble
            rw [hdouble]
            simp [markupUpTo_ne_unreadable]
          · rename_i hdouble
            rw [Bool.not_eq_true] at hdouble
            rw [hdouble, Bool.false_or]
            split
            · rename_i hsingle
              rw [hsingle]
              simp [markupUpTo_ne_unreadable]
            · rename_i hsingle
              rw [Bool.not_eq_true] at hsingle
              rw [hsingle]
              simp
      · simp

theorem readItem?_eq_unreadable_iff (s : List Char) :
    readItem? s = some .unreadable ↔ opensUnknownSection ('<' :: s) = true := by
  unfold readItem?
  split
  · simp [readEndTag_ne_unreadable, opensUnknownSection]
  · simp [markupUpTo_ne_unreadable, opensUnknownSection]
  · simp [markupUpTo_ne_unreadable, opensUnknownSection]
  · rw [Option.some.injEq]
    exact readSection_eq_unreadable_iff _
  · rename_i rest hcomment hsection
    have hother : opensUnknownSection ('<' :: '!' :: rest) = false := by
      unfold opensUnknownSection
      split
      · rename_i heq
        cases heq
        exact (hsection _ rfl).elim
      · rfl
    simp [markupUpTo_ne_unreadable, hother]
  · rename_i hend hcomment hinstruction hsection hdeclaration
    have hother : opensUnknownSection ('<' :: s) = false := by
      unfold opensUnknownSection
      split
      · rename_i heq
        cases heq
        exact (hsection _ rfl).elim
      · rfl
    simp [hother]

theorem advanceTag_eq_unreadable_iff (second : Bool) (rest : List Char) :
    advanceTag second rest = .unreadable ↔ opensUnknownSection ('<' :: rest) = true := by
  have hunfinished : unfinished second rest ≠ .unreadable := by
    unfold unfinished
    split <;> simp
  rw [advanceTag]
  split
  · rename_i hletter
    have hother : opensUnknownSection ('<' :: rest) = false := by
      unfold opensUnknownSection
      split
      · rename_i heq
        cases heq
        have hmark : isLetter '!' = true := hletter
        exact absurd hmark (by decide)
      · rfl
    rw [hother]
    split
    · split
      · split <;> simp
      · simp
    · simp
    · simp [hunfinished]
  · rw [← readItem?_eq_unreadable_iff]
    split
    · rename_i hitem
      simp [hitem]
    · rename_i hitem
      simp [hitem, hunfinished]
    · rename_i hitem
      simp [hitem]
    · rename_i hitem
      simp [hitem]

/-- Nothing but a marked section of an unknown kind stops the reading of a text. -/
theorem advance_eq_unreadable_iff (second : Bool) (s : List Char) :
    advance second s = .unreadable ↔ opensUnknownSection s = true := by
  unfold advance
  split
  · simp [opensUnknownSection]
  · exact advanceTag_eq_unreadable_iff second _
  · rename_i rest
    have hnumber : advanceNumber second rest ≠ .unreadable := by
      unfold advanceNumber
      split
      · simp
      · split
        · split <;> simp
        · simp
    simp [hnumber, opensUnknownSection]
  · rename_i rest _
    have hname : advanceName second rest ≠ .unreadable := by
      unfold advanceName
      split
      · simp
      · split
        · simp
        · split <;> simp
        · split <;> simp
    simp [hname, opensUnknownSection]
  · rename_i c rest htag _ _
    have hother : opensUnknownSection (c :: rest) = false := by
      unfold opensUnknownSection
      split
      · rename_i heq
        cases heq
        exact (htag rfl).elim
      · rfl
    simp [hother]

/-- Whether reading a text meets no marked section of an unknown kind. -/
def IsReadable (s : List Char) : Prop :=
  ∀ place ∈ placesOf s, opensUnknownSection place = false

instance (s : List Char) : Decidable (IsReadable s) :=
  inferInstanceAs (Decidable (∀ place ∈ placesOf s, opensUnknownSection place = false))

theorem tokenSteps_cases (fuel : Nat) (second : Bool) (s : List Char) :
    (∃ ts, tokenSteps fuel second s = .ok ts) ∧
        (∀ place ∈ placesFrom fuel second s, opensUnknownSection place = false) ∨
      tokenSteps fuel second s = .error rejected ∧
        ∃ place ∈ placesFrom fuel second s, opensUnknownSection place = true := by
  induction fuel generalizing second s with
  | zero => exact .inl ⟨⟨[], by rw [tokenSteps]⟩, List.forall_mem_nil _⟩
  | succ fuel ih =>
      have hiff := advance_eq_unreadable_iff second s
      rw [tokenSteps_succ, placesFrom]
      cases hstep : advance second s with
      | stop ts =>
          rw [hstep] at hiff
          have hself : opensUnknownSection s = false := by simpa using hiff
          exact .inl ⟨⟨ts, rfl⟩, List.forall_mem_singleton.mpr hself⟩
      | go ts second' rest =>
          rw [hstep] at hiff
          have hself : opensUnknownSection s = false := by simpa using hiff
          rcases ih second' rest with ⟨⟨us, hus⟩, hreadable⟩ | ⟨herror, place, hplace, hopens⟩
          · refine .inl ⟨⟨ts ++ us, ?_⟩, List.forall_mem_cons.mpr ⟨hself, hreadable⟩⟩
            rw [Advance.follow, hus]
            rfl
          · refine .inr ⟨?_, place, List.mem_cons_of_mem s hplace, hopens⟩
            rw [Advance.follow, herror]
            rfl
      | unreadable => exact .inr ⟨rfl, s, List.mem_cons_self, hiff.mp hstep⟩

/-- A text is readable, or reading it is given up. -/
theorem tokens_cases (s : List Char) :
    (∃ ts, tokens s = .ok ts) ∧ IsReadable s ∨ tokens s = .error rejected ∧ ¬ IsReadable s := by
  rcases tokenSteps_cases (2 * s.length + 2) false s with ⟨hok, hreadable⟩ | ⟨herror, place, hplace⟩
  · exact .inl ⟨hok, hreadable⟩
  · refine .inr ⟨herror, fun h ↦ ?_⟩
    rw [h place hplace.1] at hplace
    cases hplace.2

/-- How many characters are left before and after the content of a script or a style that starts at
a place; without an end tag the content is all that follows. -/
def rawSpan? : List Char → Option (Nat × Nat)
  | '<' :: rest =>
    match readTag rest with
    | .tag name _ false after =>
      if isRawText name then
        match splitBefore (rawTextEnd name) after with
        | some (_, afterEnd) => some (after.length, afterEnd.length)
        | none => some (after.length, 0)
      else none
    | _ => none
  | _ => none

/-- Whether what stands where so many characters of a text are left is content of a script or a
style. -/
def isRawContent (s : List Char) (left : Nat) : Bool :=
  (placesOf s).any fun place ↦
    (rawSpan? place).any fun (before, after) ↦ after < left && left ≤ before

end SafeMarkdown.Html
