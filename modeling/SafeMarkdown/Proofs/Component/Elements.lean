import SafeMarkdown.Markdown.Markup
import SafeMarkdown.Proofs.Component.Shapes
import SafeMarkdown.Proofs.Component.Tags

/-!
# Sources of nested components

Each line of such a source is a tag or a few words. The tags are nested by name, so the source is a
list of elements and of lines of words, and the content of each element is such a list again.

Raw markup ends with its last tag, so a piece of it holds one element. Words start a paragraph, in
which tags are markup as well unless they interrupt it. So the content of an element fits if it is
one element, or words and tags that do not interrupt them, with perhaps one element behind whose
tags do. The lines of a paragraph end inside of an element exactly if more tags open in them than
close.
-/

namespace SafeMarkdown.Component

/-- The tags of an element, each of them a line of its own. -/
structure TagPair where
  name : String
  opening : List Char
  closing : List Char
  opens : ∃ tag, readOpenTag? opening = some (tag, []) ∧ tag.name = name ∧ tag.selfClosing = false
  closes : readCloseTag? closing = some (name, [])
  oneLine : ∀ c ∈ opening ++ closing, c ≠ '\n' ∧ c ≠ '\r'

namespace TagPair

def attrs (t : TagPair) : Fields :=
  ((readOpenTag? t.opening).map fun (tag, _) ↦ tag.attrs).getD []

def openTag (t : TagPair) : OpenTag :=
  { name := t.name, attrs := t.attrs, selfClosing := false, source := String.ofList t.opening }

end TagPair

/-- A line of words: letters and spaces, with a letter at either end. -/
structure WordLine where
  chars : List Char
  letters : ∀ c ∈ chars, c.isAlpha = true ∨ c = ' '
  starts : ∃ c rest, chars = c :: rest ∧ c.isAlpha = true
  ends : ∃ init c, chars = init ++ [c] ∧ c.isAlpha = true

/-- A line of words, or the lines of an element. -/
inductive Item where
  | words (line : WordLine)
  | element (tags : TagPair) (content : List Item)

/-- A line of a source. -/
inductive SourceLine where
  | words (line : WordLine)
  | opens (tags : TagPair)
  | closes (tags : TagPair)

def SourceLine.chars : SourceLine → List Char
  | words line => line.chars
  | opens tags => tags.opening
  | closes tags => tags.closing

/-- The lines of an item, in their order. -/
def Item.lines : Item → List SourceLine
  | words line => [.words line]
  | element tags content => .opens tags :: linesAll content ++ [.closes tags]
where
  linesAll : List Item → List SourceLine
    | [] => []
    | i :: rest => lines i ++ linesAll rest

/-- The text of lines. -/
def joinedLines (ms : List SourceLine) : List Char :=
  List.intercalate ['\n'] (ms.map SourceLine.chars)

/-- The text of lines with a line end behind each. -/
def endedLines (ms : List SourceLine) : List Char :=
  ms.flatMap fun m ↦ m.chars ++ ['\n']

/-- The elements of a source, as the components that they are to become. -/
def Item.elements : Item → List Shape
  | words _ => []
  | element tags content => [.component (some tags.name) (elementsAll content)]
where
  elementsAll : List Item → List Shape
    | [] => []
    | i :: rest => elements i ++ elementsAll rest

open Item.lines Item.elements

section Joined

variable {m : SourceLine} {ms : List SourceLine}

theorem linesAll_append (is js : List Item) : linesAll (is ++ js) = linesAll is ++ linesAll js := by
  induction is with
  | nil => rfl
  | cons i is ih => rw [List.cons_append, linesAll, linesAll, ih, List.append_assoc]

theorem linesAll_element (t : TagPair) (content more : List Item) :
    linesAll (.element t content :: more) =
      .opens t :: (linesAll content ++ .closes t :: linesAll more) := by
  rw [linesAll, Item.lines, List.cons_append, List.cons_append, List.append_assoc,
    List.singleton_append]

theorem elementsAll_append (is js : List Item) :
    elementsAll (is ++ js) = elementsAll is ++ elementsAll js := by
  induction is with
  | nil => rfl
  | cons i is ih => rw [List.cons_append, elementsAll, elementsAll, ih, List.append_assoc]

theorem endedLines_append (ms ns : List SourceLine) :
    endedLines (ms ++ ns) = endedLines ms ++ endedLines ns :=
  List.flatMap_append

@[simp]
theorem joinedLines_singleton (m : SourceLine) : joinedLines [m] = m.chars :=
  List.intercalate_singleton

@[simp]
theorem joinedLines_cons_cons (m n : SourceLine) (ms : List SourceLine) :
    joinedLines (m :: n :: ms) = m.chars ++ '\n' :: joinedLines (n :: ms) := by
  rw [joinedLines, List.map_cons, List.map_cons, List.intercalate_cons_cons, List.append_assoc]
  rfl

theorem joinedLines_cons (m : SourceLine) (h : ms ≠ []) :
    joinedLines (m :: ms) = m.chars ++ '\n' :: joinedLines ms := by
  obtain ⟨n, ns, rfl⟩ := List.exists_cons_of_ne_nil h
  exact joinedLines_cons_cons m n ns

theorem endedLines_cons (m : SourceLine) (ms : List SourceLine) :
    endedLines (m :: ms) = m.chars ++ '\n' :: endedLines ms := by
  rw [endedLines, List.flatMap_cons, List.append_assoc]
  rfl

theorem endedLines_eq (h : ms ≠ []) : endedLines ms = joinedLines ms ++ ['\n'] := by
  induction ms with
  | nil => exact (h rfl).elim
  | cons m ms ih =>
      cases ms with
      | nil => rw [endedLines_cons, joinedLines_singleton]; rfl
      | cons n ms =>
          rw [endedLines_cons, ih (List.cons_ne_nil n ms), joinedLines_cons_cons, List.append_assoc]
          rfl

theorem joinedLines_append_cons (ms : List SourceLine) (n : SourceLine) (ns : List SourceLine) :
    joinedLines (ms ++ n :: ns) = endedLines ms ++ joinedLines (n :: ns) := by
  induction ms with
  | nil => rfl
  | cons m ms ih =>
      cases hms : ms ++ n :: ns with
      | nil => exact (List.append_ne_nil_of_right_ne_nil _ (List.cons_ne_nil _ _) hms).elim
      | cons m' ms' =>
          rw [List.cons_append, hms, joinedLines_cons_cons, ← hms, ih, endedLines_cons,
            List.append_assoc]
          rfl

end Joined

section Lines

variable {m : SourceLine} {ms : List SourceLine}

theorem TagPair.exists_opening (t : TagPair) : ∃ u, t.opening = '<' :: u ++ ['>'] := by
  obtain ⟨tag, h, -⟩ := t.opens
  obtain ⟨u, hu, -⟩ := exists_of_readOpenTag? h
  exact ⟨u, hu⟩

theorem TagPair.exists_closing (t : TagPair) : ∃ u, t.closing = '<' :: u ++ ['>'] := by
  obtain ⟨blanks, -, -, h⟩ := exists_of_readCloseTag? t.closes
  exact ⟨'/' :: t.name.toList ++ blanks, h⟩

theorem TagPair.readOpenTag?_opening (t : TagPair) :
    readOpenTag? t.opening = some (t.openTag, []) := by
  obtain ⟨⟨name, attrs, selfClosing, source⟩, hread, rfl, rfl⟩ := t.opens
  obtain ⟨u, hopening, rfl⟩ := exists_of_readOpenTag? hread
  have hattrs : t.attrs = attrs := by
    rw [TagPair.attrs, hread]
    rfl
  rw [openTag, hattrs, hread, hopening]

namespace SourceLine

/-- Whether a line is a tag. -/
def IsTag : SourceLine → Prop
  | words _ => False
  | opens _ | closes _ => True

theorem IsTag.exists_chars (h : m.IsTag) : ∃ u, m.chars = '<' :: u ++ ['>'] := by
  cases m with
  | words line => exact h.elim
  | opens tags => exact tags.exists_opening
  | closes tags => exact tags.exists_closing

/-- A tag starts with its name, before which a closing one has a slash. -/
theorem IsTag.exists_word (h : m.IsTag) : ∃ word c t, m.chars = '<' :: word ++ c :: t ∧ word ≠ [] ∧
    (∀ d ∈ word, isNameChar d = true ∨ d = '/') ∧ (Text.isBlank c = true ∨ c = '>') := by
  cases m with
  | words line => exact h.elim
  | opens tags =>
      obtain ⟨tag, hread, -, hopen⟩ := tags.opens
      obtain ⟨name, c, t, hchars, hname, hc⟩ := exists_name_of_readOpenTag? hread hopen
      obtain ⟨d, ds, hcons, -⟩ := hname.exists_cons
      exact ⟨name, c, t, hchars, hcons ▸ List.cons_ne_nil d ds,
        fun d hd ↦ .inl (hname.chars d hd), hc⟩
  | closes tags =>
      obtain ⟨blanks, hblanks, hname, hchars⟩ := exists_of_readCloseTag? tags.closes
      have hword : ∀ d ∈ '/' :: tags.name.toList, isNameChar d = true ∨ d = '/' :=
        List.forall_mem_cons.mpr ⟨.inr rfl, fun d hd ↦ .inl (hname.chars d hd)⟩
      cases blanks with
      | nil =>
          refine ⟨'/' :: tags.name.toList, '>', [], ?_, List.cons_ne_nil _ _, hword, .inr rfl⟩
          rw [chars, hchars, List.append_nil]
      | cons c blanks =>
          refine ⟨'/' :: tags.name.toList, c, blanks ++ ['>'], ?_, List.cons_ne_nil _ _, hword,
            .inl (hblanks c List.mem_cons_self)⟩
          rw [chars, hchars, List.append_assoc]
          rfl

theorem exists_cons (m : SourceLine) :
    ∃ c rest, m.chars = c :: rest ∧ (c = '<' ∨ c.isAlpha = true) := by
  cases m with
  | words line =>
      obtain ⟨c, rest, h, hc⟩ := line.starts
      exact ⟨c, rest, h, .inr hc⟩
  | opens tags =>
      obtain ⟨u, h⟩ := tags.exists_opening
      exact ⟨'<', _, h, .inl rfl⟩
  | closes tags =>
      obtain ⟨u, h⟩ := tags.exists_closing
      exact ⟨'<', _, h, .inl rfl⟩

theorem chars_ne_nil (m : SourceLine) : m.chars ≠ [] := by
  obtain ⟨c, rest, h, -⟩ := m.exists_cons
  exact h ▸ List.cons_ne_nil c rest

theorem exists_concat (m : SourceLine) :
    ∃ init c, m.chars = init ++ [c] ∧ (c = '>' ∨ c.isAlpha = true) := by
  cases m with
  | words line =>
      obtain ⟨init, c, h, hc⟩ := line.ends
      exact ⟨init, c, h, .inr hc⟩
  | opens tags =>
      obtain ⟨u, h⟩ := tags.exists_opening
      exact ⟨_, '>', h, .inl rfl⟩
  | closes tags =>
      obtain ⟨u, h⟩ := tags.exists_closing
      exact ⟨_, '>', h, .inl rfl⟩

theorem oneLine (m : SourceLine) : ∀ c ∈ m.chars, c ≠ '\n' ∧ c ≠ '\r' := by
  cases m with
  | words line =>
      intro c hc
      rcases line.letters c hc with halpha | rfl
      · constructor
        · rintro rfl
          cases halpha
        · rintro rfl
          cases halpha
      · decide
  | opens tags => exact fun c hc ↦ tags.oneLine c (List.mem_append_left _ hc)
  | closes tags => exact fun c hc ↦ tags.oneLine c (List.mem_append_right _ hc)

end SourceLine

theorem not_isBlank_of_isAlpha {c : Char} (h : c.isAlpha = true) : Text.isBlank c = false := by
  refine Text.isBlank_of_isAlphanum ?_
  rw [Char.isAlphanum, h, Bool.true_or]

theorem head?_joinedLines (h : ms ≠ []) : ∃ c, (joinedLines ms).head? = some c ∧
    (c = '<' ∨ c.isAlpha = true) := by
  cases ms with
  | nil => exact (h rfl).elim
  | cons m ms =>
      obtain ⟨c, rest, hchars, hc⟩ := m.exists_cons
      refine ⟨c, ?_, hc⟩
      cases ms with
      | nil => rw [joinedLines_singleton, hchars]; rfl
      | cons n ms => rw [joinedLines_cons_cons, hchars]; rfl

theorem getLast?_joinedLines (ms : List SourceLine) (m : SourceLine) :
    (joinedLines (ms ++ [m])).getLast? = m.chars.getLast? := by
  obtain ⟨init, c, hchars, -⟩ := m.exists_concat
  rw [joinedLines_append_cons, joinedLines_singleton, hchars, ← List.append_assoc,
    List.getLast?_concat, List.getLast?_concat]

/-- The text of lines starts and ends with what is no white space. -/
theorem trim_joinedLines_append {before after : List Char} (h : ms ≠ [])
    (hbefore : ∀ c ∈ before, Text.isBlank c = true) (hafter : ∀ c ∈ after, Text.isBlank c = true) :
    Text.trim (before ++ joinedLines ms ++ after) = joinedLines ms := by
  obtain ⟨c, hhead, hc⟩ := head?_joinedLines h
  obtain ⟨init, m, rfl⟩ : ∃ init m, ms = init ++ [m] :=
    ⟨_, _, (List.dropLast_concat_getLast h).symm⟩
  obtain ⟨chars, d, hchars, hd⟩ := m.exists_concat
  refine Text.trim_append_append hbefore hafter hhead
    ((getLast?_joinedLines init m).trans (hchars ▸ List.getLast?_concat)) ?_ ?_
  · rcases hc with rfl | hc
    · rfl
    · exact not_isBlank_of_isAlpha hc
  · rcases hd with rfl | hd
    · rfl
    · exact not_isBlank_of_isAlpha hd

theorem trim_endedLines (h : ms ≠ []) : Text.trim (endedLines ms) = joinedLines ms := by
  have htrim := trim_joinedLines_append h (List.forall_mem_nil _)
    (List.forall_mem_singleton.mpr (by decide : Text.isBlank '\n' = true))
  rwa [List.nil_append, ← endedLines_eq h] at htrim

end Lines

end SafeMarkdown.Component

namespace SafeMarkdown.Component

open Item.lines Item.elements Markdown

/-- The pairs of tags of an item, in document order. -/
def Item.tags : Item → List TagPair
  | words _ => []
  | element t content => t :: tagsAll content
where
  tagsAll : List Item → List TagPair
    | [] => []
    | i :: rest => tags i ++ tagsAll rest

open Item.tags

/-- Whether both tags of a pair start raw markup of one kind. -/
structure TagPair.HasKind (t : TagPair) (k : MarkupBlock) : Prop where
  opening : MarkupBlock.ofLine? t.opening = some k
  closing : MarkupBlock.ofLine? t.closing = some k

/-- Whether Markdown reads the tags of a pair as tags. -/
structure TagPair.IsReadable (t : TagPair) : Prop where
  kind : t.HasKind .element ∨ t.HasKind .tag
  chars : ∀ c ∈ t.opening ++ t.closing, c.toNat ≠ 0

/-- Whether the content of an element is read as it is nested. -/
inductive Fits : List Item → Prop where
  | nil : Fits []
  | element {t body} : Fits body → Fits [.element t body]
  | text {line is} : (∀ s ∈ tagsAll is, s.HasKind .tag) → Fits (.words line :: is)
  | textAndElement {line is t body} :
      (∀ s ∈ tagsAll is, s.HasKind .tag) →
      t.HasKind .element →
      Fits body →
      Fits (.words line :: is ++ [.element t body])

section Tags

theorem tagsAll_append (is js : List Item) : tagsAll (is ++ js) = tagsAll is ++ tagsAll js := by
  induction is with
  | nil => rfl
  | cons i is ih => rw [List.cons_append, tagsAll, tagsAll, ih, List.append_assoc]

mutual

theorem mem_lines_of_mem_tags {t : TagPair} : (i : Item) → t ∈ i.tags →
    SourceLine.opens t ∈ i.lines
  | .words _, h => by
      cases h
  | .element s content, h => by
      rw [Item.tags, List.mem_cons] at h
      rw [Item.lines, List.cons_append, List.mem_cons, List.mem_append]
      rcases h with rfl | h
      · exact .inl rfl
      · exact .inr (.inl (mem_linesAll_of_mem_tagsAll content h))

/-- The opening tag of each element is a line of its own. -/
theorem mem_linesAll_of_mem_tagsAll {t : TagPair} : (is : List Item) → t ∈ tagsAll is →
    SourceLine.opens t ∈ linesAll is
  | [], h => by
      cases h
  | i :: rest, h => by
      rw [tagsAll, List.mem_append] at h
      rw [linesAll, List.mem_append]
      exact h.imp (mem_lines_of_mem_tags i) (mem_linesAll_of_mem_tagsAll rest)

end

mutual

theorem mem_tags_of_mem_lines {m : SourceLine} : (i : Item) → m ∈ i.lines →
    (∃ line, m = .words line) ∨ ∃ t ∈ i.tags, m = .opens t ∨ m = .closes t
  | .words line, h => .inl ⟨line, List.mem_singleton.mp h⟩
  | .element s content, h => by
      rw [Item.lines, List.mem_append, List.mem_cons, List.mem_singleton] at h
      rcases h with (rfl | h) | rfl
      · exact .inr ⟨s, List.mem_cons_self, .inl rfl⟩
      · refine (mem_tagsAll_of_mem_linesAll content h).imp_right ?_
        rintro ⟨t, ht, hm⟩
        exact ⟨t, List.mem_cons_of_mem s ht, hm⟩
      · exact .inr ⟨s, List.mem_cons_self, .inr rfl⟩

/-- Each line is one of words or a tag of an element. -/
theorem mem_tagsAll_of_mem_linesAll {m : SourceLine} : (is : List Item) → m ∈ linesAll is →
    (∃ line, m = .words line) ∨ ∃ t ∈ tagsAll is, m = .opens t ∨ m = .closes t
  | [], h => by
      cases h
  | i :: rest, h => by
      rw [linesAll, List.mem_append] at h
      rcases h with h | h
      · refine (mem_tags_of_mem_lines i h).imp_right ?_
        rintro ⟨t, ht, hm⟩
        exact ⟨t, List.mem_append_left _ ht, hm⟩
      · refine (mem_tagsAll_of_mem_linesAll rest h).imp_right ?_
        rintro ⟨t, ht, hm⟩
        exact ⟨t, List.mem_append_right _ ht, hm⟩

end

end Tags

section Counting

namespace SourceLine

def isOpening : SourceLine → Bool
  | opens _ => true
  | _ => false

def isClosing : SourceLine → Bool
  | closes _ => true
  | _ => false

end SourceLine

open SourceLine

mutual

theorem countP_lines : (i : Item) → i.lines.countP isOpening = i.lines.countP isClosing
  | .words _ => rfl
  | .element t content => by
      rw [Item.lines, List.countP_append, List.countP_append, List.countP_cons_of_pos rfl,
        List.countP_cons_of_neg (by exact Bool.false_ne_true), countP_linesAll content]
      rfl

/-- As many tags open as close. -/
theorem countP_linesAll : (is : List Item) →
    (linesAll is).countP isOpening = (linesAll is).countP isClosing
  | [] => rfl
  | i :: rest => by
      rw [linesAll, List.countP_append, List.countP_append, countP_lines i, countP_linesAll rest]

end

theorem lines_ne_nil (i : Item) : i.lines ≠ [] := by
  cases i with
  | words line => exact List.cons_ne_nil _ _
  | element t content => exact List.cons_ne_nil _ _

theorem eq_nil_of_linesAll {is : List Item} (h : linesAll is = []) : is = [] := by
  cases is with
  | nil => rfl
  | cons i rest =>
      rw [linesAll, List.append_eq_nil_iff] at h
      exact (lines_ne_nil i h.1).elim

mutual

theorem countP_lt_of_lines : (i : Item) → {ps rs : List SourceLine} → i.lines = ps ++ rs →
    ps ≠ [] → rs ≠ [] → ps.countP isClosing < ps.countP isOpening
  | .words line, ps, rs, h, hps, hrs => by
      rcases List.append_eq_singleton_iff.mp h.symm with ⟨hnil, -⟩ | ⟨-, hnil⟩
      · exact (hps hnil).elim
      · exact (hrs hnil).elim
  | .element t content, ps, rs, h, hps, hrs => by
      obtain ⟨p, ps, rfl⟩ := List.exists_cons_of_ne_nil hps
      obtain ⟨init, r, rfl⟩ : ∃ init r, rs = init ++ [r] :=
        ⟨_, _, (List.dropLast_concat_getLast hrs).symm⟩
      rw [Item.lines, List.cons_append, List.cons_append, List.cons.injEq, ← List.append_assoc] at h
      obtain ⟨rfl, h⟩ := h
      obtain ⟨h, -⟩ := List.append_inj' h rfl
      rw [List.countP_cons_of_neg (by exact Bool.false_ne_true), List.countP_cons_of_pos (by rfl)]
      rcases split_linesAll content h with ⟨before, after, rfl, rfl, -⟩ | hlt
      · rw [countP_linesAll]
        exact Nat.lt_succ_self _
      · exact Nat.lt_succ_of_lt hlt

/-- Where the lines of items are cut, an item ends, or more tags open before than close. -/
theorem split_linesAll : (is : List Item) → {ps rs : List SourceLine} → linesAll is = ps ++ rs →
    (∃ before after, is = before ++ after ∧ linesAll before = ps ∧ linesAll after = rs) ∨
      ps.countP isClosing < ps.countP isOpening
  | [], ps, rs, h => by
      obtain ⟨rfl, rfl⟩ := List.append_eq_nil_iff.mp h.symm
      exact .inl ⟨[], [], rfl, rfl, rfl⟩
  | i :: rest, ps, rs, h => by
      rcases List.append_eq_append_iff.mp h with ⟨qs, rfl, hrest⟩ | ⟨qs, hlines, rfl⟩
      · rcases split_linesAll rest hrest with ⟨before, after, rfl, rfl, hafter⟩ | hlt
        · exact .inl ⟨i :: before, after, rfl, rfl, hafter⟩
        · rw [List.countP_append, List.countP_append, countP_lines i]
          exact .inr (Nat.add_lt_add_left hlt _)
      · by_cases hps : ps = []
        · subst hps
          exact .inl ⟨[], i :: rest, rfl, rfl, by rw [linesAll, hlines]; rfl⟩
        · by_cases hqs : qs = []
          · subst hqs
            rw [List.append_nil] at hlines
            refine .inl ⟨[i], rest, rfl, ?_, rfl⟩
            rw [linesAll, linesAll, List.append_nil, hlines]
          · exact .inr (countP_lt_of_lines i hlines hps hqs)

end

end Counting

end SafeMarkdown.Component
