import SafeMarkdown.Proofs.Html.Reading
import SafeMarkdown.Proofs.Sanitizer.Layout

/-!
# Reading spliced siblings

A piece of markup is self-contained if what follows it is read as if it stood alone and it opens no
slot. Escaped text is self-contained, and the text of a slot is read as the two tags of the slot. So
siblings whose raw markup is self-contained are read with one slot for each structured sibling.
-/

namespace SafeMarkdown

namespace Html

/-- Whether a token is a start tag or an end tag. -/
def Token.isTag : Token → Bool
  | .startTag _ _ _ => true
  | .endTag _ => true
  | _ => false

/-- The tags among tokens. -/
def tagsOf (ts : List Token) : List Token :=
  ts.filter Token.isTag

/-- A text has certain tags whatever follows it, and what follows it is read on its own. -/
def HasTags (s : List Char) (tags : List Token) : Prop :=
  ∀ rest us, Reads false rest us → ∃ vs, Reads false (s ++ rest) vs ∧ tagsOf vs = tags ++ tagsOf us

theorem hasTags_nil : HasTags [] [] :=
  fun _ us h ↦ ⟨us, h, rfl⟩

theorem HasTags.append {s t : List Char} {first second : List Token} (hs : HasTags s first)
    (ht : HasTags t second) : HasTags (s ++ t) (first ++ second) := by
  intro rest us hus
  obtain ⟨vs, hvs, htags⟩ := ht rest us hus
  obtain ⟨ws, hws, hmore⟩ := hs (t ++ rest) vs hvs
  exact ⟨ws, by rwa [List.append_assoc], by rw [hmore, htags, List.append_assoc]⟩

theorem hasTags_of_advance {s : List Char} (ts : List Token)
    (h : ∀ rest, advance false (s ++ rest) = .go ts false rest) : HasTags s (tagsOf ts) :=
  fun rest us hus ↦ ⟨ts ++ us, .go (h rest) hus, by simp [tagsOf]⟩

theorem advance_plain {c : Char} (h : isPlain c = true) (second : Bool) (rest : List Char) :
    advance second (c :: rest) =
      .go [.text (c :: rest.takeWhile isPlain)] second (rest.dropWhile isPlain) := by
  unfold advance
  split
  · rename_i heq
    cases heq
  · rename_i heq
    cases heq
    cases h
  · rename_i heq
    cases heq
    cases h
  · rename_i heq
    cases heq
    cases h
  · rename_i heq
    cases heq
    rfl

/-- Running text that starts with a character is read with the running text that follows. -/
theorem hasTags_plain {c : Char} (h : isPlain c = true) : HasTags [c] [] := by
  intro rest us hus
  have hskip : rest.takeWhile isPlain = [] ∧ rest.dropWhile isPlain = rest ∨
      ∃ d more, rest = d :: more ∧ isPlain d = true := by
    cases rest with
    | nil => exact .inl ⟨rfl, rfl⟩
    | cons d more =>
        cases hd : isPlain d with
        | true => exact .inr ⟨d, more, rfl, hd⟩
        | false => exact .inl ⟨by simp [hd], by simp [hd]⟩
  rcases hskip with ⟨-, hrest⟩ | ⟨d, more, rfl, hd⟩
  · refine ⟨_, .go (advance_plain h false rest) (by rwa [hrest]), ?_⟩
    simp [tagsOf, Token.isTag]
  · have hdrop : (d :: more).dropWhile isPlain = more.dropWhile isPlain := by simp [hd]
    cases hus with
    | stop hstop => simp [advance_plain hd] at hstop
    | go hgo hmore =>
        rw [advance_plain hd] at hgo
        cases hgo
        refine ⟨_, .go (advance_plain h false (d :: more)) (by rwa [hdrop]), ?_⟩
        simp [tagsOf, Token.isTag]

theorem hasTags_escapeTextChar (c : Char) : HasTags (escapeTextChar c) [] := by
  unfold escapeTextChar
  split
  · exact hasTags_of_advance [.text (namedText "amp".toList)] fun _ ↦ rfl
  · split
    · exact hasTags_of_advance [.text (namedText "lt".toList)] fun _ ↦ rfl
    · split
      · exact hasTags_of_advance [.text (namedText "gt".toList)] fun _ ↦ rfl
      · rename_i hamp hlt _
        have hplain : isPlain c = true := by
          simpa [isPlain] using And.intro (by simpa using hamp) (by simpa using hlt)
        exact hasTags_plain hplain

theorem hasTags_escapeText (s : String) : HasTags (escapeText s).toList [] := by
  rw [escapeText, String.toList_ofList]
  induction s.toList with
  | nil => exact hasTags_nil
  | cons c rest ih => exact (hasTags_escapeTextChar c).append ih

end Html

namespace Sanitizer

theorem unescape_digits {digits : List Char} (hdigits : ∀ c ∈ digits, c.isDigit = true) :
    Html.unescape digits = digits := by
  have hsteps (fuel : Nat) : Html.unescapeSteps fuel digits = digits := by
    induction digits generalizing fuel with
    | nil => cases fuel <;> rfl
    | cons c rest ih =>
        cases fuel with
        | zero => rfl
        | succ fuel =>
            have hamp : (c == '&') = false := by
              refine beq_eq_false_iff_ne.mpr fun heq ↦ ?_
              have hdigit := hdigits c List.mem_cons_self
              rw [heq] at hdigit
              cases hdigit
            rw [Html.unescapeSteps, hamp, if_neg Bool.false_ne_true,
              ih (fun d hd ↦ hdigits d (List.mem_cons_of_mem c hd)) fuel]
  exact hsteps digits.length

theorem attributeValue_digits {digits : List Char} (hdigits : ∀ c ∈ digits, c.isDigit = true)
    (rest : List Char) :
    Html.attributeValue? ('=' :: '"' :: (digits ++ '"' :: rest)) = some (digits, ⟨'"', rest⟩) := by
  have hquote : ∀ c ∈ digits, (c != '"') = true := by
    intro c hc
    refine bne_iff_ne.mpr fun heq ↦ ?_
    have hdigit := hdigits c hc
    rw [heq] at hdigit
    cases hdigit
  have htake : (digits ++ '"' :: rest).takeWhile (· != '"') = digits := by
    rw [List.takeWhile_append_of_pos hquote]
    simp
  have hdrop : (digits ++ '"' :: rest).dropWhile (· != '"') = '"' :: rest := by
    rw [List.dropWhile_append_of_pos hquote]
    simp
  have hsign : Text.isBlank '=' = false := by decide
  have hopening : Text.isBlank '"' = false := by decide
  simp [Html.attributeValue?, hsign, hopening, hdrop, htake, unescape_digits hdigits]

theorem readAttributes_bracket (fuel : Nat) (before : Char) (rest : List Char) :
    Html.readAttributes fuel ⟨before, '>' :: rest⟩ = ([], ⟨before, '>' :: rest⟩) := by
  cases fuel with
  | zero => rfl
  | succ fuel =>
      have hstart : Html.isAttributeStart '>' = false := by decide
      simp [Html.readAttributes, hstart]

theorem readAttributes_index {digits : List Char} (hdigits : ∀ c ∈ digits, c.isDigit = true)
    (fuel : Nat) (rest : List Char) :
    Html.readAttributes (fuel + 1) ⟨' ', "data-index=\"".toList ++ (digits ++ '"' :: '>' :: rest)⟩ =
      ([("data-index".toList, digits)], ⟨'"', '>' :: rest⟩) := by
  have hread : Html.readAttributes (fuel + 1)
      ⟨' ', "data-index=\"".toList ++ (digits ++ '"' :: '>' :: rest)⟩ =
      let found := (Html.attributeValue? ('=' :: '"' :: (digits ++ '"' :: '>' :: rest))).getD
        ([], ⟨'x', '=' :: '"' :: (digits ++ '"' :: '>' :: rest)⟩)
      let more := Html.readAttributes fuel (Html.skipSeparators found.2.before found.2.rest)
      ((Text.lower "data-index".toList, found.1) :: more.1, more.2) := rfl
  rw [hread, attributeValue_digits hdigits]
  have hskip : Html.skipSeparators '"' ('>' :: rest) = ⟨'"', '>' :: rest⟩ := rfl
  have hlower : Text.lower "data-index".toList = "data-index".toList := by decide +kernel
  simp only [Option.getD_some, hskip, readAttributes_bracket, hlower]

theorem readTag_slot {digits : List Char} (hdigits : ∀ c ∈ digits, c.isDigit = true)
    (rest : List Char) :
    Html.readTag ("mdrender-slot data-index=\"".toList ++ (digits ++ '"' :: '>' :: rest)) =
      .tag slotTag [(slotAttribute, String.ofList digits)] false rest := by
  have htake : ("mdrender-slot data-index=\"".toList ++ (digits ++ '"' :: '>' :: rest)).takeWhile
      Html.isTagNameChar = "mdrender-slot".toList := rfl
  have hdrop : ("mdrender-slot data-index=\"".toList ++ (digits ++ '"' :: '>' :: rest)).dropWhile
      Html.isTagNameChar = ' ' :: ("data-index=\"".toList ++ (digits ++ '"' :: '>' :: rest)) := rfl
  have hskip : Html.skipSeparators (Html.lastOr '<' "mdrender-slot".toList)
      (' ' :: ("data-index=\"".toList ++ (digits ++ '"' :: '>' :: rest))) =
      ⟨' ', "data-index=\"".toList ++ (digits ++ '"' :: '>' :: rest)⟩ := rfl
  have hlength : ("mdrender-slot data-index=\"".toList ++ (digits ++ '"' :: '>' :: rest)).length =
      ("drender-slot data-index=\"".toList ++ (digits ++ '"' :: '>' :: rest)).length + 1 := rfl
  have hlower : Text.lower "mdrender-slot".toList = "mdrender-slot".toList := by decide +kernel
  rw [Html.readTag, htake, hdrop, hskip, hlength, readAttributes_index hdigits]
  simp only [hlower]
  rfl

theorem advance_slot {digits : List Char} (hdigits : ∀ c ∈ digits, c.isDigit = true)
    (rest : List Char) :
    Html.advance false
        ("<mdrender-slot data-index=\"".toList ++ (digits ++ '"' :: '>' :: rest)) =
      .go [.startTag slotTag [(slotAttribute, String.ofList digits)] false] false rest := by
  have hadvance : Html.advance false
      ("<mdrender-slot data-index=\"".toList ++ (digits ++ '"' :: '>' :: rest)) =
      Html.advanceTag false
        ("mdrender-slot data-index=\"".toList ++ (digits ++ '"' :: '>' :: rest)) := rfl
  have hletter : (("mdrender-slot data-index=\"".toList ++
      (digits ++ '"' :: '>' :: rest)).head?.any Html.isLetter) = true := rfl
  have hraw : (Html.isRawText slotTag && !false) = false := by decide
  rw [hadvance, Html.advanceTag, hletter, if_pos rfl, readTag_slot hdigits]
  simp only [hraw, Bool.false_eq_true, if_false]

theorem advance_slotEnd (rest : List Char) :
    Html.advance false ("</mdrender-slot>".toList ++ rest) = .go [.endTag slotTag] false rest := by
  rfl

/-- The text of a slot is read as its two tags. -/
theorem hasTags_slot (index : Nat) {n : Node} (hraw : n.isRaw = false) (htext : n.isText = false) :
    Html.HasTags (siblingText index n)
      [.startTag slotTag [(slotAttribute, toString index)] false, .endTag slotTag] := by
  have hdigits : ∀ c ∈ Nat.toDigits 10 index, c.isDigit = true :=
    fun c hc ↦ Nat.isDigit_of_mem_toDigits (by decide) (by decide) hc
  have hsplit : siblingText index n =
      ("<mdrender-slot data-index=\"".toList ++ (Nat.toDigits 10 index ++ ['"', '>'])) ++
        "</mdrender-slot>".toList := by
    simp [siblingText, hraw, htext, slotTag, slotAttribute]
  have hindex : String.ofList (Nat.toDigits 10 index) = toString index := rfl
  have hopen (rest : List Char) : Html.advance false
      ("<mdrender-slot data-index=\"".toList ++ (Nat.toDigits 10 index ++ ['"', '>']) ++ rest) =
      .go [.startTag slotTag [(slotAttribute, toString index)] false] false rest := by
    rw [List.append_assoc, List.append_assoc, ← hindex]
    exact advance_slot hdigits rest
  rw [hsplit]
  exact (Html.hasTags_of_advance _ hopen).append (Html.hasTags_of_advance _ advance_slotEnd)

/-- Whether a token starts a slot. -/
def startsSlot : Html.Token → Bool
  | .startTag name _ _ => name == slotTag
  | _ => false

/-- A text that what follows it does not change, that does not change what follows it, and that
starts no slot. -/
def SelfContained (s : List Char) : Prop :=
  ∃ tags, Html.HasTags s tags ∧ ∀ t ∈ tags, startsSlot t = false

/-- Tags among which slots end where they start, and the indices of these slots. -/
inductive SlotTags : List Html.Token → List String → Prop
  | nil : SlotTags [] []
  | other {t : Html.Token} {ts : List Html.Token} {names : List String}
      (ht : startsSlot t = false) (h : SlotTags ts names) : SlotTags (t :: ts) names
  | slot {index : String} {ts : List Html.Token} {names : List String} (h : SlotTags ts names) :
      SlotTags (.startTag slotTag [(slotAttribute, index)] false :: .endTag slotTag :: ts)
        (index :: names)

theorem SlotTags.append_left {first ts : List Html.Token} {names : List String}
    (hfirst : ∀ t ∈ first, startsSlot t = false) (h : SlotTags ts names) :
    SlotTags (first ++ ts) names := by
  induction first with
  | nil => exact h
  | cons t first ih =>
      exact .other (hfirst t List.mem_cons_self) (ih fun u hu ↦ hfirst u (List.mem_cons_of_mem t hu))

/-- Siblings with self-contained markup are read as one slot for each structured sibling. -/
theorem slotTags_siblings (index : Nat) (siblings : List Node)
    (h : ∀ n ∈ siblings, n.isRaw = true → SelfContained n.text.toList) :
    ∃ tags, Html.HasTags (siblingsText index siblings) tags ∧
      SlotTags tags ((slotsOf index siblings).map Prod.fst) := by
  induction siblings generalizing index with
  | nil => exact ⟨[], Html.hasTags_nil, .nil⟩
  | cons n rest ih =>
      obtain ⟨tags, htags, hslots⟩ := ih (index + 1) fun m hm ↦ h m (List.mem_cons_of_mem n hm)
      rw [siblingsText, slotsOf]
      cases hraw : n.isRaw with
      | true =>
          obtain ⟨first, hfirst, hnone⟩ := h n List.mem_cons_self hraw
          have htext : siblingText index n = n.text.toList := by rw [siblingText, if_pos hraw]
          exact ⟨first ++ tags, (htext ▸ hfirst).append htags, hslots.append_left hnone⟩
      | false =>
          cases htext : n.isText with
          | true =>
              have hescaped : siblingText index n = (Html.escapeText n.text).toList := by
                rw [siblingText, hraw, if_neg Bool.false_ne_true, if_pos htext]
              exact ⟨tags, (hescaped ▸ Html.hasTags_escapeText n.text).append htags, hslots⟩
          | false =>
              exact ⟨_, (hasTags_slot index hraw htext).append htags, .slot hslots⟩

theorem slotNamesAll_append (first second : List Html.Item) :
    slotNamesAll (first ++ second) = slotNamesAll first ++ slotNamesAll second := by
  induction first with
  | nil => rfl
  | cons i first ih => simp [slotNamesAll, ih]

/-- The indices of the slots that a fragment has so far. -/
def slotNamesOf (b : Html.Builder) : List String :=
  slotNamesAll b.outside.reverse ++
    b.opened.reverse.flatMap fun e ↦ slotNamesAll e.content.reverse

/-- A fragment with certain slots so far, none of which is open. -/
structure BetweenSlots (b : Html.Builder) (names : List String) : Prop where
  opened : ∀ e ∈ b.opened, e.name ≠ slotTag
  voids : slotTag ∉ b.voids
  names_eq : slotNamesOf b = names

/-- A fragment whose innermost open element is the slot of an index. -/
def InSlot (b : Html.Builder) (index : String) (names : List String) : Prop :=
  ∃ content rest, b.opened = ⟨slotTag, [(slotAttribute, index)], content⟩ :: rest ∧
    BetweenSlots { b with opened := rest } names

variable {b : Html.Builder} {names : List String} {index : String}

theorem BetweenSlots.add (h : BetweenSlots b names) (item : Html.Item) :
    BetweenSlots (b.add item) (names ++ slotNames item) := by
  obtain ⟨opened, outside, pending, voids⟩ := b
  cases opened with
  | nil =>
      refine ⟨h.opened, h.voids, ?_⟩
      rw [← h.names_eq]
      simp [Html.Builder.add, slotNamesOf, slotNamesAll_append, slotNamesAll]
  | cons e rest =>
      refine ⟨fun f hf ↦ ?_, h.voids, ?_⟩
      · rcases List.mem_cons.mp hf with rfl | hf
        · exact h.opened e List.mem_cons_self
        · exact h.opened f (List.mem_cons_of_mem e hf)
      · rw [← h.names_eq]
        simp [Html.Builder.add, slotNamesOf, slotNamesAll_append, slotNamesAll]

theorem BetweenSlots.flush (h : BetweenSlots b names) : BetweenSlots b.flush names := by
  rw [Html.Builder.flush]
  split
  · exact h
  · have hcleared : BetweenSlots { b with pending := [] } names := ⟨h.opened, h.voids, h.names_eq⟩
    simpa [slotNames] using hcleared.add (.text _)

theorem BetweenSlots.close {e : Html.OpenElement} {rest : List Html.OpenElement}
    (h : BetweenSlots b names) (hopened : b.opened = e :: rest) :
    BetweenSlots ({ b with opened := rest }.add (Html.Builder.OpenElement.close e)) names := by
  have hrest : BetweenSlots { b with opened := rest } (slotNamesOf { b with opened := rest }) :=
    ⟨fun f hf ↦ h.opened f (hopened ▸ List.mem_cons_of_mem e hf), h.voids, rfl⟩
  have hname : e.name ≠ slotTag := h.opened e (hopened ▸ List.mem_cons_self)
  have hclose : slotNames (Html.Builder.OpenElement.close e) = slotNamesAll e.content.reverse := by
    rw [Html.Builder.OpenElement.close, slotNames, if_neg (by simpa using hname)]
  have hnames : names = slotNamesOf { b with opened := rest } ++
      slotNames (Html.Builder.OpenElement.close e) := by
    rw [← h.names_eq, hclose]
    simp [slotNamesOf, hopened]
  rw [hnames]
  exact hrest.add _

theorem BetweenSlots.closeMany (n : Nat) (h : BetweenSlots b names) :
    BetweenSlots (b.closeMany n) names := by
  induction n generalizing b with
  | zero => exact h
  | succ n ih =>
      rw [Html.Builder.closeMany]
      split
      · exact h
      · rename_i e rest hopened
        exact ih (h.close hopened)

theorem opened_add (b : Html.Builder) (item : Html.Item) :
    (b.add item).opened.length = b.opened.length := by
  rw [Html.Builder.add]
  split
  · rfl
  · rename_i e rest hopened
    rw [hopened]
    rfl

theorem opened_closeMany (n : Nat) (b : Html.Builder) (h : b.opened.length ≤ n) :
    (b.closeMany n).opened = [] := by
  induction n generalizing b with
  | zero => exact List.eq_nil_of_length_eq_zero (Nat.le_zero.mp h)
  | succ n ih =>
      rw [Html.Builder.closeMany]
      split
      · assumption
      · rename_i e rest hopened
        refine ih _ ?_
        rw [opened_add]
        rw [hopened, List.length_cons] at h
        exact Nat.le_of_succ_le_succ h

theorem BetweenSlots.closeName (name : String) (h : BetweenSlots b names) :
    BetweenSlots (b.closeName name) names := by
  rw [Html.Builder.closeName]
  split
  · exact h
  · exact h.closeMany _

theorem BetweenSlots.push {t : Html.Token} (ht : startsSlot t = false) (h : BetweenSlots b names) :
    BetweenSlots (b.push t) names := by
  cases t with
  | text s => exact ⟨h.opened, h.voids, h.names_eq⟩
  | markup =>
      have hadd := h.flush.add .markup
      rw [slotNames, List.append_nil] at hadd
      exact hadd
  | endTag name =>
      rw [Html.Builder.push]
      split
      · exact ⟨h.opened, fun hmem ↦ h.voids (List.mem_of_mem_erase hmem), h.names_eq⟩
      · exact h.flush.closeName name
  | startTag name attrs selfClosing =>
      have hname : (name == slotTag) = false := ht
      have hadd : BetweenSlots (b.flush.add (.element name attrs [])) names := by
        simpa [slotNames, slotNamesAll, hname] using h.flush.add (.element name attrs [])
      rw [Html.Builder.push]
      dsimp only
      split
      · exact hadd
      · split
        · refine ⟨hadd.opened, fun hmem ↦ ?_, hadd.names_eq⟩
          rcases List.mem_cons.mp hmem with rfl | hmem
          · simp at hname
          · exact h.flush.voids hmem
        · refine ⟨fun e he ↦ ?_, h.flush.voids, ?_⟩
          · rcases List.mem_cons.mp he with rfl | he
            · exact beq_eq_false_iff_ne.mp hname
            · exact h.flush.opened e he
          · rw [← h.flush.names_eq]
            simp [slotNamesOf, slotNamesAll]

theorem BetweenSlots.push_slot (h : BetweenSlots b names) :
    InSlot (b.push (.startTag slotTag [(slotAttribute, index)] false)) index names := by
  have hvoid : Html.isVoid slotTag = false := by decide
  have hpush : b.push (.startTag slotTag [(slotAttribute, index)] false) =
      { b.flush with opened := ⟨slotTag, [(slotAttribute, index)], []⟩ :: b.flush.opened } := by
    rw [Html.Builder.push, hvoid]
    rfl
  exact ⟨[], b.flush.opened, by rw [hpush], by rw [hpush]; exact h.flush⟩

theorem InSlot.add (h : InSlot b index names) (item : Html.Item) :
    InSlot (b.add item) index names := by
  obtain ⟨content, rest, hopened, hrest⟩ := h
  refine ⟨item :: content, rest, ?_, ?_⟩
  · rw [Html.Builder.add, hopened]
  · rw [Html.Builder.add, hopened]
    exact hrest

theorem InSlot.flush (h : InSlot b index names) : InSlot b.flush index names := by
  rw [Html.Builder.flush]
  split
  · exact h
  · have hcleared : InSlot { b with pending := [] } index names :=
      have ⟨content, rest, hopened, hrest⟩ := h
      ⟨content, rest, hopened, hrest.opened, hrest.voids, hrest.names_eq⟩
    exact hcleared.add (.text _)

theorem InSlot.push {t : Html.Token} (ht : t.isTag = false) (h : InSlot b index names) :
    InSlot (b.push t) index names := by
  cases t with
  | text s =>
      obtain ⟨content, rest, hopened, hrest⟩ := h
      exact ⟨content, rest, hopened, hrest.opened, hrest.voids, hrest.names_eq⟩
  | markup => exact h.flush.add .markup
  | endTag name => cases ht
  | startTag name attrs selfClosing => cases ht

theorem InSlot.push_end (h : InSlot b index names) :
    BetweenSlots (b.push (.endTag slotTag)) (names ++ [index]) := by
  have hvoids : b.voids.contains slotTag = false := by
    obtain ⟨content, rest, hopened, hrest⟩ := h
    simpa using hrest.voids
  obtain ⟨content, rest, hopened, hrest⟩ := h.flush
  have hfind : (b.flush.opened.findIdx? fun e ↦ e.name == slotTag) = some 0 := by
    simp [hopened, List.findIdx?_cons]
  have hpush : b.push (.endTag slotTag) =
      { b.flush with opened := rest }.add
        (.element slotTag [(slotAttribute, index)] content.reverse) := by
    rw [Html.Builder.push, hvoids, if_neg Bool.false_ne_true, Html.Builder.closeName, hfind]
    simp only [Html.Builder.closeMany, hopened]
    rfl
  rw [hpush]
  simpa [slotNames] using
    hrest.add (.element slotTag [(slotAttribute, index)] content.reverse)

/-- Tokens add the slots that their tags write, whether a slot is open before them or not. -/
theorem foldl_push (ts : List Html.Token) (b : Html.Builder) (names more : List String) :
    (BetweenSlots b names → SlotTags (Html.tagsOf ts) more →
      BetweenSlots (ts.foldl Html.Builder.push b) (names ++ more)) ∧
    (∀ index tags, InSlot b index names → Html.tagsOf ts = .endTag slotTag :: tags →
      SlotTags tags more → BetweenSlots (ts.foldl Html.Builder.push b) (names ++ index :: more)) := by
  induction ts generalizing b names more with
  | nil =>
      refine ⟨fun hb hmore ↦ ?_, fun index tags _ htags ↦ by simp [Html.tagsOf] at htags⟩
      cases hmore
      rwa [List.append_nil]
  | cons t ts ih =>
      rw [List.foldl_cons]
      cases htag : t.isTag with
      | false =>
          have hskip : Html.tagsOf (t :: ts) = Html.tagsOf ts := by simp [Html.tagsOf, htag]
          have hstart : startsSlot t = false := by
            cases t with
            | startTag name attrs selfClosing => cases htag
            | endTag name => rfl
            | text s => rfl
            | markup => rfl
          rw [hskip]
          exact ⟨fun hb hmore ↦ (ih _ names more).1 (hb.push hstart) hmore,
            fun index tags hb htags hmore ↦ (ih _ names more).2 index tags (hb.push htag) htags hmore⟩
      | true =>
          have hkeep : Html.tagsOf (t :: ts) = t :: Html.tagsOf ts := by simp [Html.tagsOf, htag]
          rw [hkeep]
          refine ⟨fun hb hmore ↦ ?_, fun index tags hb htags hmore ↦ ?_⟩
          · generalize htags : Html.tagsOf ts = tags at hmore
            cases hmore with
            | other hstart hrest =>
                exact (ih _ names more).1 (hb.push hstart) (htags ▸ hrest)
            | slot hrest => exact (ih _ names _).2 _ _ hb.push_slot htags hrest
          · obtain ⟨rfl, hrest⟩ := List.cons.inj htags
            have hnext := (ih _ (names ++ [index]) more).1 hb.push_end (hrest ▸ hmore)
            rwa [List.append_assoc] at hnext

/-- A text whose tags are those of slots is a fragment with these slots. -/
theorem slotNamesAll_finish {ts : List Html.Token} {names : List String}
    (h : SlotTags (Html.tagsOf ts) names) :
    slotNamesAll (ts.foldl Html.Builder.push {}).finish = names := by
  have hstart : BetweenSlots {} [] := ⟨by simp, by simp, rfl⟩
  have hread := ((foldl_push ts {} [] names).1 hstart h).flush
  rw [List.nil_append] at hread
  rw [Html.Builder.finish]
  generalize (ts.foldl Html.Builder.push {}).flush = b at hread
  have hclosed := hread.closeMany b.opened.length
  have hopened := opened_closeMany b.opened.length b (Nat.le_refl _)
  rw [← hclosed.names_eq, slotNamesOf, hopened]
  simp

/-- Siblings with self-contained markup form a fragment that has their slots, and no other ones. -/
theorem parseFragment_siblings (siblings : List Node)
    (h : ∀ n ∈ siblings, n.isRaw = true → SelfContained n.text.toList) :
    ∃ items, Html.parseFragment (siblingsText 0 siblings) = .ok items ∧
      slotNamesAll items = (slotsOf 0 siblings).map Prod.fst := by
  obtain ⟨tags, htags, hslots⟩ := slotTags_siblings 0 siblings h
  obtain ⟨ts, hts, hread⟩ := htags [] [] (.stop rfl)
  have hsame : Html.tagsOf ts = tags := hread.trans (List.append_nil tags)
  rw [List.append_nil] at hts
  refine ⟨_, ?_, slotNamesAll_finish (hsame ▸ hslots)⟩
  rw [Html.parseFragment, hts.tokens_eq]
  rfl

end Sanitizer

end SafeMarkdown
