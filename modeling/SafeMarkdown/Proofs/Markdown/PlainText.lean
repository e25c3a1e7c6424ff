import SafeMarkdown.Proofs.Component.Elements
import SafeMarkdown.Proofs.Markdown.LineTokens
import SafeMarkdown.Proofs.Markdown.LoneTags

/-!
# Texts of words and tags

A text whose lines are words and tags is read line by line: words are text, a tag is markup, and a
line end is a break.
-/

namespace SafeMarkdown.Markdown

open Component

namespace Source

variable {src : Source} {i : Nat} {s rest : List Char} {p : Char → Bool}

/-- The text from a position on. -/
def tail (src : Source) (i : Nat) : List Char :=
  src.chars.toList.drop i

theorem at?_eq (src : Source) (i : Nat) : src.at? i = (src.tail i).head? := by
  rw [at?, tail, List.head?_drop, Array.getElem?_toList]

theorem length_tail (src : Source) (i : Nat) : (src.tail i).length = src.chars.size - i := by
  rw [tail, List.length_drop, Array.length_toList]

theorem tail_add (h : src.tail i = s ++ rest) : src.tail (i + s.length) = rest := by
  rw [tail, ← List.drop_drop, ← tail, h, List.drop_left]

theorem slice_eq (h : src.tail i = s ++ rest) : src.slice i (i + s.length) = s := by
  rw [slice, Array.toList_extract, List.extract_eq_take_drop, ← tail, h, Nat.add_sub_cancel_left,
    List.take_left]

/-- A search goes on to the first character that satisfies the condition, or to the end. -/
theorem find_eq (h : src.tail i = s ++ rest) (hi : i ≤ src.chars.size) (hs : ∀ c ∈ s, p c = false)
    (hrest : ∀ c ∈ rest.head?, p c = true) : src.find p i src.chars.size = i + s.length := by
  have hlength := src.length_tail i
  rw [h] at hlength
  induction s generalizing i with
  | nil =>
      unfold find
      cases rest with
      | nil =>
          rw [dif_neg]
          · rfl
          · simp only [List.length_nil, List.append_nil] at hlength
            omega
      | cons c rest =>
          have hat : src.chars[i]? = some c := by
            rw [← at?, at?_eq, h]
            rfl
          rw [dif_pos (by simp at hlength; omega), hat]
          dsimp only
          rw [if_pos (hrest c rfl)]
          rfl
  | cons c s ih =>
      rw [List.forall_mem_cons] at hs
      have hat : src.chars[i]? = some c := by
        rw [← at?, at?_eq, h]
        rfl
      have hnext : src.tail (i + 1) = s ++ rest := tail_add (s := [c]) h
      unfold find
      rw [dif_pos (by simp at hlength; omega), hat]
      dsimp only
      rw [if_neg (by rw [hs.1]; exact Bool.false_ne_true), ih hnext (by simp at hlength; omega) hs.2
        (by simp at hlength ⊢; omega), List.length_cons]
      omega

end Source

section Addresses

variable {word s : List Char} {c : Char}

/-- Whether a character is no angle bracket. -/
def isInside (d : Char) : Bool :=
  !(d == '<' || d == '>')

/-- A character that no tag has in its name is not in what a tag starts with. -/
theorem not_mem_of_isNameChar (hword : ∀ d ∈ word, Component.isNameChar d = true ∨ d = '/')
    (hname : Component.isNameChar c = false) (hslash : c ≠ '/') : c ∉ word := by
  intro hmem
  rcases hword c hmem with h | h
  · rw [h] at hname
    cases hname
  · exact hslash h

/-- Where a scan that white space stops does not find a character in a word, it finds none behind
the word. -/
theorem dropWhile_word_ne {p : Char → Bool} {x : Char} {w : List Char} (hword : x ∉ word)
    (hw : ∀ e ∈ w.head?, p e = false ∧ e ≠ x) (t : List Char) :
    (word ++ w).dropWhile p ≠ x :: t := by
  intro h
  rw [List.dropWhile_append] at h
  split at h
  · cases w with
    | nil => cases h
    | cons e w =>
        obtain ⟨hp, hne⟩ := hw e rfl
        rw [Text.dropWhile_of_head rfl hp] at h
        cases h
        exact hne rfl
  · cases hdrop : word.dropWhile p with
    | nil =>
        rename_i hempty
        rw [hdrop] at hempty
        exact hempty rfl
    | cons e u =>
        rw [hdrop] at h
        cases h
        exact hword ((List.dropWhile_suffix p).subset (hdrop ▸ List.mem_cons_self))

theorem drop_length_takeWhile (p : Char → Bool) (s : List Char) :
    s.drop (s.takeWhile p).length = s.dropWhile p := by
  have h := congrArg (List.drop (s.takeWhile p).length)
    (List.takeWhile_append_dropWhile (p := p) (l := s))
  rw [List.drop_left] at h
  exact h.symm

theorem isSchemeChar_of_isBlank (h : Text.isBlank c = true) : isSchemeChar c = false := by
  rw [Bool.eq_false_iff]
  intro hscheme
  rw [isSchemeChar, Bool.or_eq_true, Bool.or_eq_true, Bool.or_eq_true, beq_iff_eq, beq_iff_eq,
    beq_iff_eq] at hscheme
  rcases hscheme with ((halnum | rfl) | rfl) | rfl
  · rw [Text.isBlank_of_isAlphanum halnum] at h
    cases h
  all_goals cases h

theorem isMailboxChar_of_isBlank (h : Text.isBlank c = true) : isMailboxChar c = false := by
  have hall : (".!#$%&'*+/=?^_`\x7b|\x7d~-".toList.all fun e ↦ !Text.isBlank e) = true := by
    decide
  rw [Bool.eq_false_iff]
  intro hmailbox
  rw [isMailboxChar, Bool.or_eq_true] at hmailbox
  rcases hmailbox with halnum | hmem
  · rw [Text.isBlank_of_isAlphanum halnum] at h
    cases h
  · have hblank := List.all_eq_true.mp hall c (List.contains_iff_mem.mp hmem)
    rw [h] at hblank
    cases hblank

variable (hword : ∀ d ∈ word, Component.isNameChar d = true ∨ d = '/')
  (hs : ∀ d ∈ s.head?, Text.isBlank d = true)

include hword hs

/-- What a tag starts with is no address. -/
theorem isAddress_word : isAddress (word ++ s) = false := by
  unfold isAddress
  dsimp only
  rw [drop_length_takeWhile]
  split
  · rename_i rest hrest
    have hcolon : ':' ∉ word := not_mem_of_isNameChar hword rfl (by decide)
    refine (dropWhile_word_ne hcolon (fun e he ↦ ?_) rest hrest).elim
    refine ⟨isSchemeChar_of_isBlank (hs e he), ?_⟩
    rintro rfl
    cases hs _ he
  · rfl

theorem isMailAddress_word : isMailAddress (word ++ s) = false := by
  unfold isMailAddress
  dsimp only
  rw [drop_length_takeWhile]
  split
  · rename_i rest hrest
    have hsign : '@' ∉ word := not_mem_of_isNameChar hword rfl (by decide)
    refine (dropWhile_word_ne hsign (fun e he ↦ ?_) rest hrest).elim
    refine ⟨isMailboxChar_of_isBlank (hs e he), ?_⟩
    rintro rfl
    cases hs _ he
  · rfl

end Addresses

/-- Whether a cursor stands before the last part of a text, and may go on. -/
structure Cursor.Before (src : Source) (rest : List Char) (c : Cursor) : Prop where
  tail : src.tail c.pos = rest
  inside : c.pos ≤ src.chars.size
  stop : c.stop = src.chars.size
  depth : c.depth < src.dialect.nesting

section Steps

variable {src : Source} {c : Cursor} {s rest : List Char} {fuel : Nat}

/-- What is neither a letter nor a space ends plain text. -/
theorem isSpecial_eq_false {d : Char} (h : d.isAlpha = true ∨ d = ' ') : isSpecial d = false := by
  have hall :
      ("\n!#$%&*+-:<=>@[\\]^_`\x7b\x7d~".toList.all fun e ↦ !e.isAlpha && e != ' ') = true := by
    decide
  rw [isSpecial, Bool.eq_false_iff]
  intro hspecial
  have hd := List.all_eq_true.mp hall d (List.contains_iff_mem.mp hspecial)
  rw [Bool.and_eq_true, Bool.not_eq_true', bne_iff_ne] at hd
  rcases h with h | h
  · rw [hd.1] at h
    cases h
  · exact hd.2 h

/-- At a character at which only plain text can start, that is what starts there. -/
theorem readOne_of_not_special {silent : Bool} {d : Char} (hat : src.at? c.pos = some d)
    (h : isSpecial d = false) :
    readOne src (fuel + 1) silent c = answer c (readText src silent c) := by
  rw [readOne, hat]
  split
  case h_1 heq => cases heq
  case h_13 =>
      cases ‹some d = some _›
      rw [h, if_neg Bool.false_ne_true]
  all_goals
    cases ‹some d = some _›
    cases h

theorem readOne_words (hc : c.Before src (s ++ rest)) (hs : ∀ d ∈ s, d.isAlpha = true ∨ d = ' ')
    (hne : s ≠ []) (hrest : ∀ d ∈ rest.head?, isSpecial d = true) :
    readOne src (fuel + 1) false c =
      .ok (true, { c with pos := c.pos + s.length, pending := s.reverse ++ c.pending }) := by
  have hspecial : ∀ d ∈ s, isSpecial d = false := fun d hd ↦ isSpecial_eq_false (hs d hd)
  have hstop : (if c.pos + s.length < src.chars.size then c.pos + s.length else c.stop) =
      c.pos + s.length := by
    have hlength := src.length_tail c.pos
    rw [hc.tail, List.length_append] at hlength
    have hinside := hc.inside
    rw [hc.stop]
    split
    · rfl
    · omega
  have hpos : 0 < s.length := List.length_pos_iff.mpr hne
  obtain ⟨d, t, rfl⟩ := List.exists_cons_of_ne_nil hne
  have hat : src.at? c.pos = some d := by
    rw [src.at?_eq, hc.tail]
    rfl
  rw [readOne_of_not_special hat (hspecial d List.mem_cons_self), readText,
    Source.find_eq hc.tail hc.inside hspecial hrest, hstop, if_neg (by omega),
    Source.slice_eq hc.tail]
  rfl

theorem Cursor.Before.lt (hc : c.Before src (s ++ rest)) (hs : s ≠ []) : c.pos < c.stop := by
  have hlength := src.length_tail c.pos
  have hpos := List.length_pos_iff.mpr hs
  rw [hc.tail, List.length_append] at hlength
  rw [hc.stop]
  omega

theorem Cursor.Before.of_readOne {d : Cursor} (hc : c.Before src (s ++ rest))
    (hpos : d.pos = c.pos + s.length) (hstop : d.stop = c.stop) (hdepth : d.depth = c.depth) :
    d.Before src rest := by
  have hlength := src.length_tail c.pos
  rw [hc.tail, List.length_append] at hlength
  have hinside := hc.inside
  exact ⟨hpos ▸ Source.tail_add hc.tail, by omega, hstop.trans hc.stop, hdepth ▸ hc.depth⟩

/-- A line end behind no space and before none is a soft break. -/
theorem readOne_lineEnd (hcore : src.dialect.core = true) (hc : c.Before src ('\n' :: rest))
    (hpending : ∀ d ∈ c.pending.head?, d ≠ ' ')
    (hrest : ∀ d ∈ rest.head?, Text.isSpaceOrTab d = false) :
    readOne src (fuel + 1) false c = .ok (true, { c.flush with
      pos := c.pos + 1
      pieces := .tokens [{ type := "softbreak", tag := "br" }] :: c.flush.pieces }) := by
  have hat : src.at? c.pos = some '\n' := by
    rw [src.at?_eq, hc.tail]
    rfl
  have hnext : src.tail (c.pos + 1) = [] ++ rest := Source.tail_add (s := ['\n']) hc.tail
  have hlength := src.length_tail c.pos
  rw [hc.tail, List.length_cons] at hlength
  have hfind : src.find (!Text.isSpaceOrTab ·) (c.pos + 1) c.stop = c.pos + 1 := by
    rw [hc.stop, Source.find_eq hnext (by omega) (List.forall_mem_nil _)]
    · rfl
    · intro d hd
      rw [hrest d hd]
      rfl
  have hkept : c.pending.dropWhile (· == ' ') = c.pending := by
    cases hp : c.pending with
    | nil => rfl
    | cons d t =>
        rw [hp] at hpending
        exact List.dropWhile_cons_of_neg (by simpa using hpending d rfl)
  rw [readOne, hat, hcore]
  simp only [readLineEnd, hfind, hkept, Nat.sub_self, Bool.false_eq_true, if_false]
  rfl

/-- A tag is no address. -/
theorem readAddress_eq_none {word t : List Char} {d : Char} (silent : Bool)
    (hc : c.Before src ('<' :: (word ++ d :: t)))
    (hword : ∀ e ∈ word, Component.isNameChar e = true ∨ e = '/')
    (hd : Text.isBlank d = true ∨ d = '>') :
    readAddress src silent c = none := by
  have hnext : src.tail (c.pos + 1) = word ++ d :: t := Source.tail_add (s := ['<']) hc.tail
  have hlength := src.length_tail c.pos
  rw [hc.tail, List.length_cons] at hlength
  have hsplit := List.takeWhile_append_dropWhile (p := isInside) (l := word ++ d :: t)
  have hfind : src.find (fun e ↦ e == '<' || e == '>') (c.pos + 1) c.stop =
      c.pos + 1 + ((word ++ d :: t).takeWhile isInside).length := by
    rw [hc.stop]
    refine Source.find_eq (hnext.trans hsplit.symm) (by omega) (fun e he ↦ ?_) fun e he ↦ ?_
    · have hinside := List.all_eq_true.mp List.all_takeWhile e he
      rwa [isInside, Bool.not_eq_true'] at hinside
    · have hinside := List.head?_dropWhile_not isInside (word ++ d :: t)
      rw [he] at hinside
      have hangle : isInside e = false := hinside
      rwa [isInside, Bool.not_eq_false'] at hangle
  have hwordInside : ∀ e ∈ word, isInside e = true := by
    intro e he
    rcases hword e he with h | rfl
    · cases hinside : isInside e with
      | true => rfl
      | false =>
          rw [isInside, Bool.not_eq_false', Bool.or_eq_true, beq_iff_eq, beq_iff_eq] at hinside
          rcases hinside with rfl | rfl
          · cases h
          · cases h
    · rfl
  have hurl : (word ++ d :: t).takeWhile isInside = word ++ (d :: t).takeWhile isInside :=
    List.takeWhile_append_of_pos hwordInside
  have hbehind : ∀ e ∈ ((d :: t).takeWhile isInside).head?, Text.isBlank e = true := by
    intro e he
    rcases hd with hblank | rfl
    · cases hinside : isInside d with
      | true =>
          rw [List.takeWhile_cons_of_pos hinside] at he
          cases he
          exact hblank
      | false =>
          rw [List.takeWhile_cons_of_neg (by rw [hinside]; exact Bool.false_ne_true)] at he
          cases he
    · cases he
  unfold readAddress
  dsimp only
  rw [hfind, Source.slice_eq (hnext.trans hsplit.symm), hurl, isAddress_word hword hbehind,
    isMailAddress_word hword hbehind]
  split
  · rfl
  · rfl

/-- A tag is a piece of markup. -/
theorem readOne_tag (hcore : src.dialect.core = true)
    (hhtml : src.dialect.rawHtml = true) {m : SourceLine} (hm : m.IsTag)
    (hlone : afterTag? m.chars = some []) (hc : c.Before src (m.chars ++ rest)) :
    readOne src (fuel + 1) false c = .ok (true, { c.flush with
      pos := c.pos + m.chars.length
      pieces := .tokens [{ type := "html_inline", content := String.ofList m.chars }] ::
        c.flush.pieces }) := by
  obtain ⟨word, d, t, hchars, hne, hword, hd⟩ := hm.exists_word
  have hat : src.at? c.pos = some '<' := by
    rw [src.at?_eq, hc.tail, hchars]
    rfl
  have haddress : readAddress src false c = none := by
    refine readAddress_eq_none (t := t ++ rest) false ?_ hword hd
    have hbefore := hc
    rw [hchars] at hbefore
    simpa using hbefore
  have hafter : afterMarkup? (m.chars ++ rest) = some rest := by
    have htag := afterTag?_append hlone rest
    rw [List.nil_append] at htag
    have hbang : '!' ∉ word := not_mem_of_isNameChar hword rfl (by decide)
    have hquestion : '?' ∉ word := not_mem_of_isNameChar hword rfl (by decide)
    obtain ⟨e, word, rfl⟩ := List.exists_cons_of_ne_nil hne
    rw [hchars] at htag ⊢
    exact (afterMarkup?_eq_afterTag? (List.ne_of_not_mem_cons hbang).symm
      (List.ne_of_not_mem_cons hquestion).symm).trans htag
  have hlength := src.length_tail c.pos
  rw [hc.tail, List.length_append] at hlength
  have hslice : src.slice c.pos src.chars.size = m.chars ++ rest := by
    have hwhole : src.tail c.pos = m.chars ++ rest ++ [] := by rw [hc.tail, List.append_nil]
    have hsize : src.chars.size = c.pos + (m.chars ++ rest).length := by
      have hinside := hc.inside
      rw [List.length_append]
      omega
    rw [hsize, Source.slice_eq hwhole]
  have hlong : 3 ≤ m.chars.length := by
    have hpos : 0 < word.length := List.length_pos_iff.mpr hne
    rw [hchars]
    simp
    omega
  have hmarkup : readMarkup src false c = some { c.flush with
      pos := c.pos + m.chars.length
      pieces := .tokens [{ type := "html_inline", content := String.ofList m.chars }] ::
        c.flush.pieces } := by
    rw [readMarkup, hhtml, if_neg, hslice]
    · dsimp only
      rw [hafter, Option.map_some, List.length_append, Nat.add_sub_cancel, List.take_left]
      rfl
    · rw [hc.stop, Bool.not_true, Bool.false_or, decide_eq_true_eq]
      omega
  rw [readOne, hat, hcore]
  simp only [haddress, hmarkup, Option.none_or]
  rfl

end Steps

/-- The token of a line of words or of a tag. -/
def lineToken : SourceLine → Token
  | .words line => Token.text line.chars
  | .opens tags => { type := "html_inline", content := String.ofList tags.opening }
  | .closes tags => { type := "html_inline", content := String.ofList tags.closing }

def softBreak : Token :=
  { type := "softbreak", tag := "br" }

/-- What is read of a line. -/
def linePiece : SourceLine → Piece
  | .words line => .text line.chars
  | m => .tokens [lineToken m]

section Lines

variable {src : Source} {c d : Cursor} {rest : List Char} {fuel : Nat} {m : SourceLine}
  {ms : List SourceLine}

theorem Cursor.flush_of_pending_eq_nil (h : c.pending = []) : c.flush = c := by
  rw [flush, h]
  rfl

theorem Cursor.pending_flush (c : Cursor) : c.flush.pending = [] := by
  unfold flush
  split
  · rename_i h
    exact List.isEmpty_iff.mp h
  · rfl

/-- What reading a line does to a cursor that has no text pending. -/
structure ReadsLine (c d : Cursor) (m : SourceLine) : Prop where
  pos : d.pos = c.pos + m.chars.length
  stop : d.stop = c.stop
  depth : d.depth = c.depth
  notes : d.notes = c.notes
  pieces : d.flush.pieces = linePiece m :: c.pieces
  pending : ∀ e ∈ d.pending.head?, e ≠ ' '

theorem exists_readsLine (hcore : src.dialect.core = true) (hhtml : src.dialect.rawHtml = true)
    (hlone : m.IsTag → afterTag? m.chars = some []) (hc : c.Before src (m.chars ++ rest))
    (hrest : ∀ e ∈ rest.head?, e = '\n') (hpending : c.pending = []) :
    ∃ d, readOne src (fuel + 1) false c = .ok (true, d) ∧ ReadsLine c d m := by
  have htag (hm : m.IsTag) (hpiece : linePiece m =
      .tokens [{ type := "html_inline", content := String.ofList m.chars }]) :
      ∃ d, readOne src (fuel + 1) false c = .ok (true, d) ∧ ReadsLine c d m := by
    refine ⟨_, readOne_tag hcore hhtml hm (hlone hm) hc, ?_⟩
    rw [Cursor.flush_of_pending_eq_nil hpending]
    refine ⟨rfl, rfl, rfl, rfl, ?_, ?_⟩
    · rw [hpiece]
      refine congrArg Cursor.pieces (Cursor.flush_of_pending_eq_nil ?_)
      exact hpending
    · dsimp only
      rw [hpending]
      nofun
  cases m with
  | words line =>
      obtain ⟨init, e, hchars, he⟩ := line.ends
      have hne : line.chars ≠ [] := hchars ▸ List.append_ne_nil_of_right_ne_nil _ (by simp)
      refine ⟨_, readOne_words hc line.letters hne fun e he ↦ ?_, ⟨rfl, rfl, rfl, rfl, ?_, ?_⟩⟩
      · rw [hrest e he]
        decide
      · rw [hpending, List.append_nil, Cursor.flush, if_neg]
        · dsimp only
          rw [List.reverse_reverse]
          rfl
        · rwa [List.isEmpty_iff, List.reverse_eq_nil_iff]
      · dsimp only
        rw [hpending, List.append_nil, SourceLine.chars, hchars, List.reverse_append]
        rintro _ ⟨⟩ rfl
        cases he
  | opens tags => exact htag trivial rfl
  | closes tags => exact htag trivial rfl

/-- What a line end does to a cursor behind a line. -/
theorem exists_readOne_lineEnd (hcore : src.dialect.core = true)
    (hd : d.Before src ('\n' :: joinedLines (m :: ms)))
    (hpending : ∀ e ∈ d.pending.head?, e ≠ ' ') :
    ∃ f, readOne src (fuel + 1) false d = .ok (true, f) ∧ f.Before src (joinedLines (m :: ms)) ∧
      f.notes = d.notes ∧ f.pending = [] ∧ f.pieces = .tokens [softBreak] :: d.flush.pieces := by
  have hrest : ∀ e ∈ (joinedLines (m :: ms)).head?, Text.isSpaceOrTab e = false := by
    obtain ⟨e, hhead, he⟩ := head?_joinedLines (List.cons_ne_nil m ms)
    rw [hhead]
    rintro _ ⟨⟩
    rcases he with rfl | halpha
    · rfl
    · rw [Text.isSpaceOrTab, Bool.or_eq_false_iff, beq_eq_false_iff_ne, beq_eq_false_iff_ne]
      constructor
      · rintro rfl
        cases halpha
      · rintro rfl
        cases halpha
  have hflush := Cursor.Advances.flush d
  refine ⟨_, readOne_lineEnd hcore hd hpending hrest, ?_, Cursor.Advances.flush_notes d,
    Cursor.pending_flush d, rfl⟩
  rw [← List.singleton_append] at hd
  refine Cursor.Before.of_readOne hd rfl ?_ ?_
  · unfold Cursor.flush
    split
    · rfl
    · rfl
  · unfold Cursor.flush
    split
    · rfl
    · rfl

theorem readAll_succ (hlt : c.pos < c.stop) (hdepth : c.depth < src.dialect.nesting)
    (h : readOne src fuel false c = .ok (true, d)) :
    readAll src (fuel + 1) c = readAll src fuel d := by
  rw [readAll, if_neg (Nat.not_le.mpr hlt), if_pos hdepth, h]
  rfl

theorem readAll_of_stop_le (h : c.stop ≤ c.pos) : readAll src fuel c = .ok c.flush := by
  cases fuel with
  | zero => rfl
  | succ fuel => rw [readAll, if_pos h]

/-- The lines of a text are read one after the other. -/
theorem exists_readAll_lines (hcore : src.dialect.core = true) (hhtml : src.dialect.rawHtml = true)
    (hlone : ∀ m ∈ ms, m.IsTag → afterTag? m.chars = some []) (hne : ms ≠ [])
    (hc : c.Before src (joinedLines ms)) (hpending : c.pending = [])
    (hfuel : (joinedLines ms).length + 2 ≤ fuel) :
    ∃ d, readAll src fuel c = .ok d ∧ d.notes = c.notes ∧ d.pieces =
      ((ms.map linePiece).intersperse (.tokens [softBreak])).reverse ++ c.pieces := by
  induction ms generalizing c fuel with
  | nil => exact (hne rfl).elim
  | cons m ms ih =>
      rw [List.forall_mem_cons] at hlone
      have hread {rest : List Char} (hfuel : (m.chars ++ rest).length + 2 ≤ fuel)
          (hc : c.Before src (m.chars ++ rest)) (hrest : ∀ e ∈ rest.head?, e = '\n') :
          ∃ d, readAll src fuel c = readAll src (fuel - 1) d ∧ d.Before src rest ∧
            ReadsLine c d m := by
        obtain ⟨fuel, rfl⟩ : ∃ k, fuel = k + 2 := ⟨fuel - 2, by omega⟩
        obtain ⟨d, hread, hd⟩ := exists_readsLine hcore hhtml hlone.1 hc hrest hpending
        exact ⟨d, readAll_succ (hc.lt m.chars_ne_nil) hc.depth hread,
          Cursor.Before.of_readOne hc hd.pos hd.stop hd.depth, hd⟩
      cases ms with
      | nil =>
          rw [joinedLines_singleton, ← List.append_nil m.chars] at hc hfuel
          obtain ⟨d, hread, hbefore, hd⟩ := hread hfuel hc nofun
          have hlength := src.length_tail d.pos
          rw [hbefore.tail, List.length_nil] at hlength
          refine ⟨d.flush, ?_, ?_, hd.pieces⟩
          · rw [hread, readAll_of_stop_le]
            rw [hbefore.stop]
            omega
          · rw [Cursor.Advances.flush_notes, hd.notes]
      | cons n ms =>
          rw [joinedLines_cons_cons] at hc hfuel
          obtain ⟨d, hread, hbefore, hd⟩ := hread hfuel hc (by simp)
          rw [List.length_append, List.length_cons] at hfuel
          have hpos := List.length_pos_iff.mpr m.chars_ne_nil
          obtain ⟨fuel, rfl⟩ : ∃ k, fuel = k + 3 := ⟨fuel - 3, by omega⟩
          obtain ⟨f, hend, hf, hfNotes, hfPending, hfPieces⟩ :=
            exists_readOne_lineEnd hcore hbefore hd.pending
          have hfuel : (joinedLines (n :: ms)).length + 2 ≤ fuel + 1 := by omega
          obtain ⟨g, hg, hnotes, hpieces⟩ := ih hlone.2 (List.cons_ne_nil n ms) hf hfPending hfuel
          rw [← List.singleton_append] at hbefore
          refine ⟨g, ?_, ?_, ?_⟩
          · rw [hread]
            exact (readAll_succ (hbefore.lt (List.cons_ne_nil _ _)) hbefore.depth hend).trans hg
          · rw [hnotes, hfNotes, hd.notes]
          · rw [hpieces, hfPieces, hd.pieces, List.map_cons, List.map_cons, List.map_cons,
              List.intersperse_cons_cons]
            simp

end Lines

section Whole

/-- Whether a piece is no mark. -/
def Piece.IsUnmarked : Piece → Prop
  | .mark _ => False
  | _ => True

/-- Pieces without marks become their tokens. -/
theorem resolve_of_unmarked {ps : List Piece} (h : ∀ p ∈ ps, p.IsUnmarked) :
    resolve ps = ps.flatMap (pieceTokens [] 0) := by
  have hmarks : delimitersOf ps = #[] := by
    rw [delimitersOf, List.filterMap_eq_nil_iff.mpr]
    rintro ⟨p, place⟩ hp
    have hunmarked := h p (List.fst_mem_of_mem_zipIdx hp)
    cases p with
    | mark m => exact hunmarked.elim
    | _ => rfl
  have hparts : ps.zipIdx.map (fun x ↦ pieceTokens [] x.2 x.1) = ps.map (pieceTokens [] 0) := by
    have hfirst : ps.map (pieceTokens [] 0) = ps.zipIdx.map (pieceTokens [] 0 ∘ Prod.fst) := by
      rw [← List.map_map, List.zipIdx_map_fst]
    rw [hfirst]
    refine List.map_congr_left ?_
    rintro ⟨p, place⟩ hp
    have hunmarked := h p (List.fst_mem_of_mem_zipIdx hp)
    cases p with
    | mark m => exact hunmarked.elim
    | _ => rfl
  rw [resolve, hmarks]
  change (ps.zipIdx.map fun x ↦ pieceTokens [] x.2 x.1).toArray.toList.flatten = _
  rw [hparts, List.flatMap]

theorem isUnmarked_linePieces (ms : List SourceLine) :
    ∀ p ∈ (ms.map linePiece).intersperse (.tokens [softBreak]), p.IsUnmarked := by
  have hline (m : SourceLine) : (linePiece m).IsUnmarked := by
    cases m <;> trivial
  induction ms with
  | nil => exact List.forall_mem_nil _
  | cons m ms ih =>
      cases ms with
      | nil => exact List.forall_mem_singleton.mpr (hline m)
      | cons n ms =>
          rw [List.map_cons, List.map_cons, List.intersperse_cons_cons]
          exact List.forall_mem_cons.mpr ⟨hline m, List.forall_mem_cons.mpr ⟨trivial, ih⟩⟩

theorem flatMap_linePieces (ms : List SourceLine) :
    ((ms.map linePiece).intersperse (.tokens [softBreak])).flatMap (pieceTokens [] 0) =
      (ms.map lineToken).intersperse softBreak := by
  have hline (m : SourceLine) : pieceTokens [] 0 (linePiece m) = [lineToken m] := by
    cases m with
    | words line => rfl
    | opens tags => rfl
    | closes tags => rfl
  induction ms with
  | nil => rfl
  | cons m ms ih =>
      cases ms with
      | nil => rw [List.map_singleton, List.map_singleton, List.intersperse_singleton,
          List.intersperse_singleton, List.flatMap_singleton, hline]
      | cons n ms =>
          rw [List.map_cons, List.map_cons, List.intersperse_cons_cons, List.flatMap_cons,
            List.flatMap_cons, hline, ← List.map_cons, ih]
          rfl

/-- A text of words and tags is read as what its lines are, with breaks between. -/
theorem readInline_lines {dialect : Dialect} {definitions : List Definition} {ms : List SourceLine}
    (hcore : dialect.core = true) (hhtml : dialect.rawHtml = true) (hnesting : 0 < dialect.nesting)
    (hlone : ∀ m ∈ ms, m.IsTag → afterTag? m.chars = some []) (hne : ms ≠ []) (notes : Notes) :
    readInline dialect definitions (joinedLines ms) notes =
      .ok ((ms.map lineToken).intersperse softBreak, notes) := by
  obtain ⟨fuel, hfuel⟩ : ∃ k, stepBound (joinedLines ms) = k + 1 :=
    ⟨16 * ((joinedLines ms).length + 2) - 1, by rw [stepBound]; omega⟩
  let src : Source := { dialect, definitions, chars := (joinedLines ms).toArray }
  let c : Cursor := { stop := src.chars.size, notes }
  have hc : c.Before src (joinedLines ms) := ⟨rfl, Nat.zero_le _, rfl, hnesting⟩
  have hlength : (joinedLines ms).length + 2 ≤ fuel := by
    rw [stepBound] at hfuel
    omega
  obtain ⟨d, hread, hnotes, hpieces⟩ := exists_readAll_lines hcore hhtml hlone
    hne hc rfl hlength
  have hpart : readPart { dialect, definitions, chars := #[] } (fuel + 1) (joinedLines ms) notes =
      (readAll src fuel c >>= fun c ↦ pure (resolve c.pieces.reverse, c.notes)) := rfl
  rw [readInline, hfuel, hpart, hread]
  change Except.ok (resolve d.pieces.reverse, d.notes) = _
  rw [hnotes, hpieces, List.append_nil, List.reverse_reverse,
    resolve_of_unmarked (isUnmarked_linePieces ms), flatMap_linePieces]

end Whole

end SafeMarkdown.Markdown
