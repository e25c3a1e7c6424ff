import SafeMarkdown.Markdown.Inline.Read
import SafeMarkdown.Proofs.Returns

/-!
# The tokens of a line

A line is read as tokens of a few forms. A reference among them has the number of a footnote that the
document has come to by then; footnotes are only ever added, so the number stays good while reading
goes on.
-/

namespace SafeMarkdown.Markdown

/-- The types and tags of emphasis. -/
def emphases : List (String × String × String) :=
  [("strong_open", "strong_close", "strong"), ("em_open", "em_close", "em"),
    ("s_open", "s_close", "s")]

/-- The tokens of a line, whose references go to less than so many footnotes. -/
inductive LineToken (count : Nat) : Token → Prop where
  | text (s : List Char) : LineToken count (Token.text s)
  | lineEnd {type : String} (h : type ∈ ["softbreak", "hardbreak"]) :
      LineToken count { type, tag := "br" }
  | code (content : String) : LineToken count { type := "code_inline", tag := "code", content }
  | opening {type close tag : String} (h : (type, close, tag) ∈ emphases) :
      LineToken count (Token.opening type tag)
  | closing {type opened tag : String} (h : (opened, type, tag) ∈ emphases) :
      LineToken count (Token.closing type tag)
  | linkOpening (href title : List Char) :
      LineToken count (Token.opening "link_open" "a" (targetAttributes "href" href title))
  | linkClosing : LineToken count (Token.closing "link_close" "a")
  | image (src title : List Char) (content : String) :
      LineToken count
        { type := "image", tag := "img", content, attrs := targetAttributes "src" src title }
  | markup (content : String) : LineToken count { type := "html_inline", content }
  | reference {n : Nat} (h : n < count) (sub : Option Nat) :
      LineToken count (Notes.referenceToken n sub)

theorem LineToken.mono {m n : Nat} {t : Token} (h : LineToken m t) (hle : m ≤ n) :
    LineToken n t := by
  cases h with
  | text s => exact .text s
  | lineEnd h => exact .lineEnd h
  | code content => exact .code content
  | opening h => exact .opening h
  | closing h => exact .closing h
  | linkOpening href title => exact .linkOpening href title
  | linkClosing => exact .linkClosing
  | image src title content => exact .image src title content
  | markup content => exact .markup content
  | reference h sub => exact .reference (Nat.lt_of_lt_of_le h hle) sub

/-- Whether the tokens of a piece are those of a line. -/
def Piece.InLine (count : Nat) : Piece → Prop
  | .tokens ts => ∀ t ∈ ts, LineToken count t
  | _ => True

/-- Whether the tokens of a footnote that stands in the text are those of a line. -/
def Note.InLine (count : Nat) : Note → Prop
  | .inline _ tokens => ∀ t ∈ tokens, LineToken count t
  | .defined _ _ => True

/-- How many footnotes the text has come to. -/
def Notes.count (ns : Notes) : Nat :=
  ns.notes.length

/-- Whether the footnotes that stand in the text have the tokens of lines. -/
def Notes.InLine (ns : Notes) : Prop :=
  ∀ note ∈ ns.notes, note.InLine ns.count

/-- Whether all that a cursor has collected are tokens of lines. -/
structure Cursor.InLine (c : Cursor) : Prop where
  pieces : ∀ p ∈ c.pieces, p.InLine c.notes.count
  notes : c.notes.InLine

/-- Whether a mark becomes emphasis, if anything but text. -/
def Role.InLine : Role → Prop
  | .opens type tag => ∃ close, (type, close, tag) ∈ emphases
  | .closes type tag => ∃ opened, (opened, type, tag) ∈ emphases
  | _ => True

theorem Piece.InLine.mono {m n : Nat} {p : Piece} (h : p.InLine m) (hle : m ≤ n) : p.InLine n := by
  cases p with
  | tokens ts => exact fun t ht ↦ (h t ht).mono hle
  | text s => trivial
  | literal s => trivial
  | mark m => trivial

theorem Note.InLine.mono {m n : Nat} {note : Note} (h : note.InLine m) (hle : m ≤ n) :
    note.InLine n := by
  cases note with
  | inline content tokens => exact fun t ht ↦ (h t ht).mono hle
  | defined label references => trivial

section Resolve

variable {count : Nat}

theorem strikeRoles_inLine (marks : Array Delimiter) : ∀ r ∈ strikeRoles marks, r.2.InLine := by
  intro r hr
  obtain ⟨m, -, hr⟩ := List.mem_flatMap.mp hr
  split at hr
  · split at hr
    · simp only [List.mem_cons, List.not_mem_nil, or_false] at hr
      rcases hr with rfl | rfl
      · exact ⟨"s_close", by simp [emphases]⟩
      · exact ⟨"s_open", by simp [emphases]⟩
    · simp at hr
  · simp at hr

theorem emphasisRoles_inLine (marks : Array Delimiter) (n : Nat) :
    ∀ r ∈ emphasisRoles marks n, r.2.InLine := by
  induction n using Nat.strongRecOn with
  | ind n ih =>
      intro r hr
      unfold emphasisRoles at hr
      split at hr
      · simp at hr
      · rename_i i
        dsimp only at hr
        split at hr
        · exact ih i (Nat.lt_succ_self i) r hr
        · split at hr
          · exact ih i (Nat.lt_succ_self i) r hr
          · split at hr
            · split at hr
              · simp at hr
              · rename_i j _ _ _
                rcases List.mem_append.mp hr with hr | hr
                · simp only [List.mem_cons, List.not_mem_nil, or_false] at hr
                  rcases hr with rfl | rfl | rfl | rfl
                  · exact ⟨"strong_close", by simp [emphases]⟩
                  · exact ⟨"strong_open", by simp [emphases]⟩
                  · trivial
                  · trivial
                · exact ih j (Nat.lt_of_succ_lt (Nat.lt_succ_self (j + 1))) r hr
            · rcases List.mem_append.mp hr with hr | hr
              · simp only [List.mem_cons, List.not_mem_nil, or_false] at hr
                rcases hr with rfl | rfl
                · exact ⟨"em_close", by simp [emphases]⟩
                · exact ⟨"em_open", by simp [emphases]⟩
              · exact ih i (Nat.lt_succ_self i) r hr

theorem pieceTokens_inLine {roles : Roles} (hroles : ∀ r ∈ roles, r.2.InLine) (place : Nat)
    {p : Piece} (hp : p.InLine count) : ∀ t ∈ pieceTokens roles place p, LineToken count t := by
  intro t ht
  cases p with
  | text s =>
      rw [List.mem_singleton.mp ht]
      exact .text s
  | literal s =>
      rw [List.mem_singleton.mp ht]
      exact .text s
  | tokens ts => exact hp t ht
  | mark m =>
      have hrole : ((roles.lookup place).getD .text).InLine := by
        cases hlookup : roles.lookup place with
        | none => trivial
        | some role =>
            obtain ⟨before, after, rfl, -⟩ := List.lookup_eq_some_iff.mp hlookup
            exact hroles (place, role) (by simp)
      rw [pieceTokens] at ht
      split at ht
      · rw [List.mem_singleton.mp ht]
        exact .text _
      · simp at ht
      · rename_i type tag heq
        rw [heq] at hrole
        rw [List.mem_singleton.mp ht]
        obtain ⟨close, hrole⟩ := hrole
        exact .opening hrole
      · rename_i type tag heq
        rw [heq] at hrole
        rw [List.mem_singleton.mp ht]
        obtain ⟨opened, hrole⟩ := hrole
        exact .closing hrole

theorem moveBehindStrikes_inLine {parts : Array (List Token)} (i : Nat)
    (h : ∀ ts ∈ parts, ∀ t ∈ ts, LineToken count t) :
    ∀ ts ∈ moveBehindStrikes parts i, ∀ t ∈ ts, LineToken count t := by
  have hget (j : Nat) : ∀ t ∈ parts.getD j [], LineToken count t := by
    intro t ht
    by_cases hj : j < parts.size
    · rw [Array.getD_eq_getD_getElem?, Array.getElem?_eq_getElem hj] at ht
      exact h _ (Array.getElem_mem hj) t ht
    · rw [Array.getD_eq_getD_getElem?, Array.getElem?_eq_none (Nat.le_of_not_lt hj)] at ht
      simp at ht
  intro ts hts
  rw [moveBehindStrikes] at hts
  rcases Array.mem_or_eq_of_mem_setIfInBounds hts with hts | rfl
  · rcases Array.mem_or_eq_of_mem_setIfInBounds hts with hts | rfl
    · exact h ts hts
    · exact hget _
  · exact hget _

theorem resolve_inLine {pieces : List Piece} (h : ∀ p ∈ pieces, p.InLine count) :
    ∀ t ∈ resolve pieces, LineToken count t := by
  have hroles (marks : Array Delimiter) :
      ∀ r ∈ strikeRoles marks ++ emphasisRoles marks marks.size, r.2.InLine := by
    intro r hr
    rcases List.mem_append.mp hr with hr | hr
    · exact strikeRoles_inLine marks r hr
    · exact emphasisRoles_inLine marks _ r hr
  have hparts (roles : Roles) (hroles : ∀ r ∈ roles, r.2.InLine) :
      ∀ ts ∈ (pieces.zipIdx.map fun p ↦ pieceTokens roles p.2 p.1).toArray,
        ∀ t ∈ ts, LineToken count t := by
    intro ts hts
    rw [List.mem_toArray] at hts
    obtain ⟨⟨p, place⟩, hp, rfl⟩ := List.mem_map.mp hts
    exact pieceTokens_inLine hroles place (h p (List.fst_mem_of_mem_zipIdx hp))
  have hmoved (places : List Nat) (parts : Array (List Token))
      (hparts : ∀ ts ∈ parts, ∀ t ∈ ts, LineToken count t) :
      ∀ ts ∈ places.foldl moveBehindStrikes parts, ∀ t ∈ ts, LineToken count t :=
    List.foldlRecOn places moveBehindStrikes
      (motive := fun parts ↦ ∀ ts ∈ parts, ∀ t ∈ ts, LineToken count t) hparts
      fun _ hparts i _ ↦ moveBehindStrikes_inLine i hparts
  intro t ht
  obtain ⟨ts, hts, ht⟩ := List.mem_flatten.mp ht
  exact hmoved _ _ (hparts _ (hroles _)) ts (Array.mem_toList_iff.mp hts) t ht

end Resolve


namespace Cursor

/-- Reading on: no footnote is lost, and what is collected stays in the forms of a line. -/
structure Advances (c c' : Cursor) : Prop where
  grows : c.notes.count ≤ c'.notes.count
  inLine : c.InLine → c'.InLine

namespace Advances

variable {c c' c'' : Cursor}

theorem refl (c : Cursor) : c.Advances c :=
  ⟨Nat.le_refl _, id⟩

theorem trans (h : c.Advances c') (h' : c'.Advances c'') : c.Advances c'' :=
  ⟨Nat.le_trans h.grows h'.grows, h'.inLine ∘ h.inLine⟩

theorem of_eq (hpieces : c'.pieces = c.pieces) (hnotes : c'.notes = c.notes) : c.Advances c' := by
  refine ⟨Nat.le_of_eq (by rw [hnotes]), fun h ↦ ⟨?_, ?_⟩⟩
  · rw [hpieces, hnotes]
    exact h.pieces
  · rw [hnotes]
    exact h.notes

/-- Collecting one more piece. -/
theorem collect {p : Piece} (hp : p.InLine c.notes.count) (hpieces : c'.pieces = p :: c.pieces)
    (hnotes : c'.notes = c.notes) : c.Advances c' := by
  refine ⟨Nat.le_of_eq (by rw [hnotes]), fun h ↦ ⟨?_, ?_⟩⟩
  · rw [hpieces, hnotes]
    exact List.forall_mem_cons.mpr ⟨hp, h.pieces⟩
  · rw [hnotes]
    exact h.notes

theorem flush (c : Cursor) : c.Advances c.flush := by
  rw [Cursor.flush]
  split
  · exact refl c
  · exact collect (p := .text c.pending.reverse) trivial rfl rfl

theorem flush_notes (c : Cursor) : c.flush.notes = c.notes := by
  rw [Cursor.flush]
  split <;> rfl

theorem push (c : Cursor) (silent : Bool) {p : Piece} (hp : p.InLine c.notes.count) :
    c.Advances (c.push silent p) := by
  rw [Cursor.push]
  split
  · exact refl c
  · refine (flush c).trans (collect (p := p) ?_ rfl rfl)
    rwa [flush_notes]

theorem pushToken (c : Cursor) (silent : Bool) {t : Token} (ht : LineToken c.notes.count t) :
    c.Advances (c.pushToken silent t) :=
  push c silent (List.forall_mem_singleton.mpr ht)

theorem write (c : Cursor) (silent : Bool) (s : List Char) : c.Advances (c.write silent s) := by
  rw [Cursor.write]
  split
  · exact refl c
  · exact of_eq rfl rfl

theorem goto (c : Cursor) (i : Nat) : c.Advances (c.goto i) :=
  of_eq rfl rfl

end Advances

end Cursor

section Rules

open Cursor

variable {src : Source} {silent : Bool} {c c' : Cursor}

theorem readText_advances (h : readText src silent c = some c') : c.Advances c' := by
  unfold readText at h
  dsimp only at h
  obtain ⟨-, heq⟩ := Option.ite_none_left_eq_some.mp h
  cases heq
  exact (Advances.write c silent _).trans (.goto _ _)

theorem readLineEnd_advances (c : Cursor) : c.Advances (readLineEnd src silent c) := by
  unfold readLineEnd
  dsimp only
  have htrim (pending : List Char) :
      c.Advances (if silent = true then c else { c with pending }) := by
    split
    · exact .refl c
    · exact .of_eq rfl rfl
  refine ((htrim _).trans (.pushToken _ silent (.lineEnd ?_))).trans (.goto _ _)
  split
  · simp
  · simp

theorem readEscape_advances (h : readEscape src silent c = some c') : c.Advances c' := by
  unfold readEscape at h
  dsimp only at h
  split at h
  · cases h
  · split at h
    · cases h
    · split at h
      · cases h
        exact (Advances.pushToken c silent (.lineEnd (by simp))).trans (.goto _ _)
      · cases h
        refine (Advances.push c silent ?_).trans (.goto _ _)
        trivial

theorem readTicks_advances (c : Cursor) : c.Advances (readTicks src silent c) := by
  unfold readTicks
  dsimp only
  split
  · exact (Advances.write c silent _).trans (.goto _ _)
  · split
    · rename_i ticks _
      have hstart : c.Advances { c with ticks } := .of_eq rfl rfl
      exact (hstart.trans (.pushToken _ silent (.code _))).trans (.goto _ _)
    · rename_i ticks _
      have hstart : c.Advances { c with ticks, allTicks := true } := .of_eq rfl rfl
      exact (hstart.trans (.write _ silent _)).trans (.goto _ _)

theorem pushes_advances {p : Piece} (hp : ∀ count, p.InLine count) (c : Cursor)
    (places : List Nat) : c.Advances (places.foldl (fun c _ ↦ c.push false p) c) :=
  List.foldlRecOn places _ (motive := c.Advances) (.refl c)
    fun d hd _ _ ↦ hd.trans (.push d false (hp _))

theorem readEmphasis_advances (c : Cursor) (mark : Char) :
    c.Advances (readEmphasis src mark c) := by
  unfold readEmphasis
  refine (pushes_advances (fun count ↦ ?_) c _).trans (.goto _ _)
  trivial

theorem readTildes_advances (h : readTildes src c = some c') : c.Advances c' := by
  unfold readTildes at h
  dsimp only at h
  split at h
  · cases h
    refine (Advances.push c false ?_).trans (.goto _ _)
    split
    · trivial
    · trivial
  · split at h
    · cases h
    · cases h
      have hfirst (odd : Prop) [Decidable odd] :
          c.Advances (if odd then c.push false (.text ['~']) else c) := by
        split
        · refine Advances.push c false ?_
          trivial
        · exact .refl c
      refine ((hfirst _).trans (pushes_advances (fun count ↦ ?_) _ _)).trans (.goto _ _)
      trivial

theorem addressTokens_inLine {count : Nat} (href shown : List Char) :
    ∀ t ∈ addressTokens href shown, LineToken count t := by
  intro t ht
  simp only [addressTokens, List.mem_cons, List.not_mem_nil, or_false] at ht
  rcases ht with rfl | rfl | rfl
  · exact .linkOpening href []
  · exact .text _
  · exact .linkClosing

theorem readAddress_advances (h : readAddress src silent c = some c') : c.Advances c' := by
  unfold readAddress at h
  dsimp only at h
  obtain ⟨-, h⟩ := Option.ite_none_left_eq_some.mp h
  obtain ⟨href, -, heq⟩ := Option.map_eq_some_iff.mp h
  cases heq
  refine (Advances.push c silent ?_).trans (.goto _ _)
  exact addressTokens_inLine _ _

theorem readMarkup_advances (h : readMarkup src silent c = some c') : c.Advances c' := by
  unfold readMarkup at h
  obtain ⟨-, h⟩ := Option.ite_none_left_eq_some.mp h
  obtain ⟨after, -, heq⟩ := Option.map_eq_some_iff.mp h
  cases heq
  exact (Advances.pushToken c silent (.markup _)).trans (.goto _ _)

theorem readEntity_advances (h : readEntity src silent c = some c') : c.Advances c' := by
  unfold readEntity at h
  obtain ⟨-, h⟩ := Option.ite_none_left_eq_some.mp h
  obtain ⟨⟨d, after⟩, -, heq⟩ := Option.map_eq_some_iff.mp h
  cases heq
  refine (Advances.push c silent ?_).trans (.goto _ _)
  trivial

theorem answer_advances {next : Option Cursor} {known : Bool}
    (hnext : ∀ d, next = some d → c.Advances d) (h : answer c next = .ok (known, c')) :
    c.Advances c' := by
  cases next with
  | none =>
      cases h
      exact .refl c
  | some d =>
      cases h
      exact hnext _ rfl

end Rules

section References

variable {ns ns' : Notes} {n : Nat}

/-- A footnote at a place that is taken or the next one. -/
theorem Notes.count_place (hn : n ≤ ns.count) (note : Note) :
    (ns.place n note).count = max ns.count (n + 1) := by
  rw [count] at hn ⊢
  rw [place, count, List.length_append, List.length_cons, List.length_take, List.length_drop]
  omega

theorem Notes.InLine.place {note : Note} (h : ns.InLine) (hn : n ≤ ns.count)
    (hnote : note.InLine (max ns.count (n + 1))) : (ns.place n note).InLine := by
  intro m hm
  rw [count_place hn]
  have hle : ns.count ≤ max ns.count (n + 1) := Nat.le_max_left _ _
  rcases List.mem_append.mp hm with hm | hm
  · exact (h m (List.mem_of_mem_take hm)).mono hle
  · rcases List.mem_cons.mp hm with rfl | hm
    · exact hnote
    · exact (h m (List.mem_of_mem_drop hm)).mono hle

/-- A reference to a label counts the footnote that it goes to. -/
theorem refer_inLine {label : String} {t : Token} (h : ns.refer label = .ok (t, ns')) :
    LineToken ns'.count t ∧ ns.count ≤ ns'.count ∧ (ns.InLine → ns'.InLine) := by
  unfold Notes.refer at h
  split at h
  · cases h
    have hcount (labels : List (String × Option Nat)) :
        Notes.count ⟨labels, ns.notes ++ [.defined label 1]⟩ = ns.count + 1 := by
      rw [Notes.count, Notes.count, List.length_append, List.length_singleton]
    refine ⟨.reference ?_ _, ?_, fun hns note hnote ↦ ?_⟩
    · rw [hcount]
      exact Nat.lt_succ_self _
    · rw [hcount]
      exact Nat.le_succ _
    · rw [hcount]
      rcases List.mem_append.mp hnote with hnote | hnote
      · exact (hns note hnote).mono (Nat.le_succ _)
      · rw [List.mem_singleton.mp hnote]
        trivial
  · split at h
    · rename_i n _ _ l k hget
      cases h
      have hlt : n < ns.count := (List.getElem?_eq_some_iff.mp hget).1
      have hcount (note : Note) : (ns.place n note).count = ns.count := by
        rw [Notes.count_place (Nat.le_of_lt hlt)]
        omega
      refine ⟨.reference ?_ _, ?_, fun hns ↦ hns.place (Nat.le_of_lt hlt) trivial⟩
      · rw [hcount]
        exact hlt
      · exact Nat.le_of_eq (hcount _).symm
    · cases h

theorem readNoteReference_advances {src : Source} {silent : Bool} {c c' : Cursor}
    (h : readNoteReference src silent c = .ok (some c')) : c.Advances c' := by
  unfold readNoteReference at h
  dsimp only at h
  split at h
  · cases h
  · split at h
    · cases h
    · split at h
      · cases h
        exact .goto _ _
      · obtain ⟨⟨t, notes⟩, hrefer, h⟩ := bind_eq_ok.mp h
        cases h
        obtain ⟨ht, hgrows, hnotes⟩ := refer_inLine hrefer
        refine ⟨hgrows, fun hc ↦ ⟨?_, hnotes hc.notes⟩⟩
        intro p hp
        rcases List.mem_cons.mp hp with rfl | hp
        · exact List.forall_mem_singleton.mpr ht
        · have hflush := (Cursor.Advances.flush c).inLine hc
          refine (hflush.pieces p hp).mono ?_
          rwa [Cursor.Advances.flush_notes]

theorem linkTokens_inLine {count : Nat} {pieces : List Piece} (h : ∀ p ∈ pieces, p.InLine count)
    (href title : List Char) :
    Piece.InLine count
      (.tokens (Token.opening "link_open" "a" (targetAttributes "href" href title) ::
        resolve pieces.reverse ++ [Token.closing "link_close" "a"])) := by
  intro t ht
  rcases List.mem_append.mp ht with ht | ht
  · rcases List.mem_cons.mp ht with rfl | ht
    · exact .linkOpening href title
    · exact resolve_inLine (fun p hp ↦ h p (List.mem_reverse.mp hp)) t ht
  · rw [List.mem_singleton.mp ht]
    exact .linkClosing

/-- What is read inside of a link stands in the line around it as one piece. -/
theorem advances_link {c inner : Cursor} {pos stop depth : Nat} (href title : List Char)
    (h : { c.flush with pos, stop, pieces := [], depth }.Advances inner) (pos' stop' depth' : Nat) :
    c.Advances
      { inner with
        pos := pos', stop := stop', depth := depth'
        pieces := .tokens (Token.opening "link_open" "a" (targetAttributes "href" href title) ::
          resolve inner.pieces.reverse ++ [Token.closing "link_close" "a"]) :: c.flush.pieces } := by
  have hgrows : c.notes.count ≤ inner.notes.count := by
    rw [← Cursor.Advances.flush_notes c]
    exact h.grows
  refine ⟨hgrows, fun hc ↦ ?_⟩
  have hflush := (Cursor.Advances.flush c).inLine hc
  have hinner := h.inLine ⟨List.forall_mem_nil _, hflush.notes⟩
  refine ⟨List.forall_mem_cons.mpr ⟨linkTokens_inLine hinner.pieces href title, ?_⟩, hinner.notes⟩
  exact fun p hp ↦ (hflush.pieces p hp).mono h.grows

/-- What is read in the brackets of an image counts for its footnotes only. -/
theorem advances_image {c : Cursor} {notes : Notes} (hgrows : c.notes.count ≤ notes.count)
    (hnotes : c.notes.InLine → notes.InLine) (src title : List Char) (content : String) (pos : Nat) :
    c.Advances
      { c.pushToken false
          { type := "image", tag := "img", content, attrs := targetAttributes "src" src title }
        with pos, notes } := by
  refine ⟨hgrows, fun hc ↦ ⟨fun p hp ↦ ?_, hnotes hc.notes⟩⟩
  have hpushed := (Cursor.Advances.pushToken c false (.image src title content)).inLine hc
  refine (hpushed.pieces p hp).mono ?_
  have hsame : (c.pushToken false { type := "image", tag := "img", content
                                    attrs := targetAttributes "src" src title }).notes = c.notes :=
    Cursor.Advances.flush_notes c
  rw [hsame]
  exact hgrows

/-- A footnote in the text takes its number before what stands in it is read. -/
theorem advances_note {c : Cursor} {notes : Notes} {tokens : List Token} (content : String)
    (hgrows : c.notes.count ≤ notes.count)
    (hnotes : c.notes.InLine → (∀ t ∈ tokens, LineToken notes.count t) ∧ notes.InLine) (pos : Nat) :
    c.Advances
      { c.pushToken false (Notes.referenceToken c.notes.count none) with
        pos, notes := notes.place c.notes.count (.inline content tokens) } := by
  have hcount := Notes.count_place hgrows (.inline content tokens)
  refine ⟨?_, fun hc ↦ ⟨?_, ?_⟩⟩
  · show c.notes.count ≤ (notes.place c.notes.count (.inline content tokens)).count
    omega
  · have hflush := (Cursor.Advances.flush c).inLine hc
    intro p hp
    show p.InLine (notes.place c.notes.count (.inline content tokens)).count
    rcases List.mem_cons.mp hp with rfl | hp
    · refine List.forall_mem_singleton.mpr (.reference ?_ none)
      omega
    · refine (hflush.pieces p hp).mono ?_
      rw [Cursor.Advances.flush_notes]
      omega
  · obtain ⟨htokens, hnotes⟩ := hnotes hc.notes
    refine hnotes.place hgrows fun t ht ↦ (htokens t ht).mono ?_
    exact Nat.le_max_left _ _

end References

section Recursion

open Cursor

mutual

theorem skip_advances : (fuel : Nat) → {src : Source} → {c c' : Cursor} →
    skip src fuel c = .ok c' → c.Advances c'
  | 0, src, c, c', h => by
      cases h
      exact .goto _ _
  | fuel + 1, src, c, c', h => by
      rw [skip] at h
      split at h
      · cases h
        exact .goto _ _
      · dsimp only at h
        split at h
        · obtain ⟨⟨known, next⟩, hread, h⟩ := bind_eq_ok.mp h
          cases h
          have hdeeper : c.Advances { c with depth := c.depth + 1 } := .of_eq rfl rfl
          exact (hdeeper.trans (readOne_advances fuel hread)).trans (.of_eq rfl rfl)
        · cases h
          exact .of_eq rfl rfl

theorem findClosing_advances : (fuel : Nat) → {src : Source} → {single : Bool} → {level : Nat} →
    {c c' : Cursor} → {found : Option Nat} →
    findClosing src single fuel level c = .ok (found, c') → c.Advances c'
  | 0, src, single, level, c, c', found, h => by
      cases h
      exact .refl c
  | fuel + 1, src, single, level, c, c', found, h => by
      rw [findClosing] at h
      split at h
      · cases h
        exact .refl c
      · dsimp only at h
        generalize (if src.has c.pos ']' = true then level - 1 else level) = level' at h
        split at h
        · cases h
          exact .refl c
        · obtain ⟨next, hskip, h⟩ := bind_eq_ok.mp h
          have hnext := skip_advances fuel hskip
          split at h
          · exact hnext.trans (findClosing_advances fuel h)
          · split at h
            · exact hnext.trans (findClosing_advances fuel h)
            · split at h
              · cases h
                exact hnext
              · exact hnext.trans (findClosing_advances fuel h)

theorem labelEnd_advances : (fuel : Nat) → {src : Source} → {single : Bool} → {start : Nat} →
    {c c' : Cursor} → {found : Option Nat} →
    labelEnd src single fuel start c = .ok (found, c') → c.Advances c'
  | 0, src, single, start, c, c', found, h => by
      cases h
      exact .refl c
  | fuel + 1, src, single, start, c, c', found, h => by
      rw [labelEnd] at h
      obtain ⟨⟨found', next⟩, hfind, h⟩ := bind_eq_ok.mp h
      cases h
      exact ((Advances.goto c _).trans (findClosing_advances fuel hfind)).trans (.goto _ _)

theorem reference_advances : (fuel : Nat) → {src : Source} → {text : List Char} →
    {behind i : Nat} → {c c' : Cursor} → {found : Option (Definition × Nat)} →
    reference src fuel text behind i c = .ok (found, c') → c.Advances c'
  | 0, src, text, behind, i, c, c', found, h => by
      cases h
      exact .refl c
  | fuel + 1, src, text, behind, i, c, c', found, h => by
      rw [reference] at h
      split at h
      · cases h
        exact .refl c
      · dsimp only at h
        split at h
        · obtain ⟨⟨stop, next⟩, hfind, h⟩ := bind_eq_ok.mp h
          cases h
          exact labelEnd_advances fuel hfind
        · cases h
          exact .refl c

theorem readLink_advances : (fuel : Nat) → {src : Source} → {silent : Bool} → {c c' : Cursor} →
    {known : Bool} → readLink src silent fuel c = .ok (known, c') → c.Advances c'
  | 0, src, silent, c, c', known, h => by
      cases h
      exact .refl c
  | fuel + 1, src, silent, c, c', known, h => by
      rw [readLink] at h
      obtain ⟨⟨found, c₁⟩, hfind, h⟩ := bind_eq_ok.mp h
      have hc₁ := labelEnd_advances fuel hfind
      cases found with
      | none =>
          cases h
          exact hc₁
      | some stop =>
          dsimp -zeta only at h
          extract_lets text direct target jp at h
          -- what follows once it is known whether the brackets refer to something
          have hjp (x : Option (List Char × List Char × Nat) × Cursor)
              (h : jp x = .ok (known, c')) : x.2.Advances c' := by
            obtain ⟨r, d⟩ := x
            cases r with
            | none =>
                cases h
                exact .refl d
            | some r =>
                obtain ⟨href, title, next⟩ := r
                dsimp only [jp] at h
                split at h
                · cases h
                  exact .goto _ _
                · obtain ⟨inner, hread, h⟩ := bind_eq_ok.mp h
                  cases h
                  exact advances_link href title (readAll_advances fuel hread) _ _ _
          clear_value target jp
          split at h
          · cases h
            exact hc₁
          · split at h
            · split at h
              · obtain ⟨⟨r, d⟩, hr, h⟩ := bind_eq_ok.mp h
                cases hr
                exact hc₁.trans (hjp _ h)
              · obtain ⟨⟨found, d⟩, href, h⟩ := bind_eq_ok.mp h
                exact (hc₁.trans (reference_advances fuel href)).trans (hjp _ h)
            · obtain ⟨⟨found, d⟩, href, h⟩ := bind_eq_ok.mp h
              exact (hc₁.trans (reference_advances fuel href)).trans (hjp _ h)

theorem readImage_advances : (fuel : Nat) → {src : Source} → {silent : Bool} → {c c' : Cursor} →
    {known : Bool} → readImage src silent fuel c = .ok (known, c') → c.Advances c'
  | 0, src, silent, c, c', known, h => by
      cases h
      exact .refl c
  | fuel + 1, src, silent, c, c', known, h => by
      rw [readImage] at h
      split at h
      · cases h
        exact .refl c
      · obtain ⟨⟨found, c₁⟩, hfind, h⟩ := bind_eq_ok.mp h
        have hc₁ := labelEnd_advances fuel hfind
        cases found with
        | none =>
            cases h
            exact hc₁
        | some stop =>
            dsimp -zeta only at h
            extract_lets text jp at h
            have hjp (x : Option (List Char × List Char × Nat) × Cursor)
                (h : jp x = .ok (known, c')) : x.2.Advances c' := by
              obtain ⟨r, d⟩ := x
              cases r with
              | none =>
                  cases h
                  exact .refl d
              | some r =>
                  obtain ⟨href, title, next⟩ := r
                  dsimp only [jp] at h
                  split at h
                  · cases h
                    exact .goto _ _
                  · obtain ⟨⟨ts, notes⟩, hpart, h⟩ := bind_eq_ok.mp h
                    cases h
                    obtain ⟨hgrows, hnotes⟩ := readPart_inLine fuel hpart
                    exact advances_image hgrows (fun hd ↦ (hnotes hd).2) href title _ _
            clear_value jp
            split at h
            · split at h
              · obtain ⟨⟨r, d⟩, hr, h⟩ := bind_eq_ok.mp h
                cases hr
                exact hc₁.trans (hjp _ h)
              · obtain ⟨⟨r, d⟩, hr, h⟩ := bind_eq_ok.mp h
                cases hr
                exact hc₁.trans (hjp _ h)
            · obtain ⟨⟨found, d⟩, href, h⟩ := bind_eq_ok.mp h
              exact (hc₁.trans (reference_advances fuel href)).trans (hjp _ h)

theorem readNote_advances : (fuel : Nat) → {src : Source} → {silent : Bool} → {c c' : Cursor} →
    {known : Bool} → readNote src silent fuel c = .ok (known, c') → c.Advances c'
  | 0, src, silent, c, c', known, h => by
      cases h
      exact .refl c
  | fuel + 1, src, silent, c, c', known, h => by
      rw [readNote] at h
      split at h
      · cases h
        exact .refl c
      · obtain ⟨⟨found, c₁⟩, hfind, h⟩ := bind_eq_ok.mp h
        have hc₁ := labelEnd_advances fuel hfind
        dsimp only at h
        split at h
        · cases h
          exact hc₁
        · split at h
          · cases h
            exact hc₁.trans (.goto _ _)
          · obtain ⟨⟨tokens, notes⟩, hpart, h⟩ := bind_eq_ok.mp h
            cases h
            obtain ⟨hgrows, hnotes⟩ := readPart_inLine fuel hpart
            exact hc₁.trans (advances_note _ hgrows hnotes _)

theorem readOne_advances : (fuel : Nat) → {src : Source} → {silent : Bool} → {c c' : Cursor} →
    {known : Bool} → readOne src fuel silent c = .ok (known, c') → c.Advances c'
  | 0, src, silent, c, c', known, h => by
      cases h
      exact .refl c
  | fuel + 1, src, silent, c, c', known, h => by
      unfold readOne at h
      split at h
      · cases h
        exact .refl c
      · exact readNote_advances fuel h
      · dsimp only at h
        have hafter {d : Cursor}
            (h : (readNoteReference src silent d >>= fun r ↦ match r with
              | some next => pure (true, next)
              | none => pure (false, d)) = Except.ok (known, c')) : d.Advances c' := by
          obtain ⟨next, hread, h⟩ := bind_eq_ok.mp h
          cases next with
          | none =>
              cases h
              exact .refl _
          | some e =>
              cases h
              exact readNoteReference_advances hread
        split at h
        · obtain ⟨⟨known', d⟩, hread, h⟩ := bind_eq_ok.mp h
          have hd := readLink_advances fuel hread
          split at h
          · cases h
            exact hd
          · exact hd.trans (hafter h)
        · exact hafter h
      · cases h
        exact readLineEnd_advances c
      · exact answer_advances (fun d ↦ readEscape_advances) h
      · cases h
        exact readTicks_advances c
      · refine answer_advances (fun d hd ↦ ?_) h
        split at hd
        · exact readTildes_advances hd
        · cases hd
      · refine answer_advances (fun d hd ↦ ?_) h
        split at hd
        · cases hd
        · cases hd
          exact readEmphasis_advances c _
      · refine answer_advances (fun d hd ↦ ?_) h
        split at hd
        · cases hd
        · cases hd
          exact readEmphasis_advances c _
      · exact readImage_advances fuel h
      · refine answer_advances (fun d hd ↦ ?_) h
        rcases Option.or_eq_some_iff.mp hd with hd | ⟨-, hd⟩
        · exact readAddress_advances hd
        · exact readMarkup_advances hd
      · exact answer_advances (fun d ↦ readEntity_advances) h
      · refine answer_advances (fun d hd ↦ ?_) h
        split at hd
        · cases hd
        · exact readText_advances hd

theorem readAll_advances : (fuel : Nat) → {src : Source} → {c c' : Cursor} →
    readAll src fuel c = .ok c' → c.Advances c'
  | 0, src, c, c', h => by
      cases h
      exact .flush c
  | fuel + 1, src, c, c', h => by
      rw [readAll] at h
      split at h
      · cases h
        exact .flush c
      · have hafter {d : Cursor} {known : Bool}
            (h : (if known = true then readAll src fuel d
              else readAll src fuel
                { d.write false (src.slice c.pos (c.pos + 1)) with pos := c.pos + 1 }) =
              .ok c') : d.Advances c' := by
          split at h
          · exact readAll_advances fuel h
          · have hwrite := Advances.write d false (src.slice c.pos (c.pos + 1))
            have hmove := Advances.goto (d.write false (src.slice c.pos (c.pos + 1))) (c.pos + 1)
            exact (hwrite.trans hmove).trans (readAll_advances fuel h)
        dsimp only at h
        split at h
        · obtain ⟨⟨known, d⟩, hread, h⟩ := bind_eq_ok.mp h
          exact (readOne_advances fuel hread).trans (hafter h)
        · obtain ⟨⟨known, d⟩, hread, h⟩ := bind_eq_ok.mp h
          cases hread
          exact hafter h

theorem readPart_inLine : (fuel : Nat) → {src : Source} → {s : List Char} →
    {notes notes' : Notes} → {ts : List Token} → readPart src fuel s notes = .ok (ts, notes') →
    notes.count ≤ notes'.count ∧
      (notes.InLine → (∀ t ∈ ts, LineToken notes'.count t) ∧ notes'.InLine)
  | 0, src, s, notes, notes', ts, h => by
      cases h
      exact ⟨Nat.le_refl _, fun hnotes ↦ ⟨List.forall_mem_nil _, hnotes⟩⟩
  | fuel + 1, src, s, notes, notes', ts, h => by
      rw [readPart] at h
      obtain ⟨c, hread, h⟩ := bind_eq_ok.mp h
      cases h
      have hadvances := readAll_advances fuel hread
      refine ⟨hadvances.grows, fun hnotes ↦ ?_⟩
      have hc := hadvances.inLine ⟨List.forall_mem_nil _, hnotes⟩
      exact ⟨resolve_inLine fun p hp ↦ hc.pieces p (List.mem_reverse.mp hp), hc.notes⟩

end

end Recursion

/-- A line is read as tokens of a line, whose references go to footnotes that have been counted. -/
theorem readInline_inLine {dialect : Dialect} {definitions : List Definition} {s : List Char}
    {notes notes' : Notes} {ts : List Token}
    (h : readInline dialect definitions s notes = .ok (ts, notes')) :
    notes.count ≤ notes'.count ∧
      (notes.InLine → (∀ t ∈ ts, LineToken notes'.count t) ∧ notes'.InLine) :=
  readPart_inLine _ h

end SafeMarkdown.Markdown
