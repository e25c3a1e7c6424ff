import SafeMarkdown.Markdown.Document
import SafeMarkdown.Proofs.Markdown.Blocks
import SafeMarkdown.Proofs.Markdown.LineTokens

/-!
# Tokens of a document

A token that opens a heading has the tag of its level and no attributes; the tokens of a line are
plain. This holds of the tokens of the blocks, and neither reading their texts nor moving the
footnotes to the end of the document changes it.
-/

namespace SafeMarkdown.Markdown

/-- Whether a token opens no heading and holds no tokens. -/
def Token.Plain (t : Token) : Prop :=
  t.type ≠ "heading_open" ∧ t.children = []

theorem LineToken.plain {count : Nat} {t : Token} (h : LineToken count t) : t.Plain := by
  cases h with
  | text s => exact ⟨(by decide : "text" ≠ "heading_open"), rfl⟩
  | lineEnd htype =>
      refine ⟨?_, rfl⟩
      rintro rfl
      exact absurd htype (by decide)
  | opening hemphasis =>
      refine ⟨?_, rfl⟩
      rintro rfl
      simp [emphases] at hemphasis
  | closing hemphasis =>
      refine ⟨?_, rfl⟩
      rintro rfl
      simp [emphases] at hemphasis
  | _ => exact ⟨by simp [Token.opening, Token.closing, Notes.referenceToken], rfl⟩

/-- A token that, if it opens a heading, has the tag of a level and no attributes. -/
structure Token.Leveled (t : Token) : Prop where
  heading : t.type = "heading_open" →
    ∃ level, IsLevel level ∧ t.tag = "h" ++ Nat.repr level ∧ t.attrs = []
  children : ∀ c ∈ t.children, c.Plain

theorem Token.Leveled.of_ne {t : Token} (htype : t.type ≠ "heading_open")
    (hchildren : t.children = []) :
    t.Leveled where
  heading := fun h ↦ (htype h).elim
  children := by simp [hchildren]

theorem Token.Plain.leveled {t : Token} (h : t.Plain) : t.Leveled :=
  .of_ne h.1 h.2

theorem enclosed_leveled {name tag : String} {attrs : Fields} {content : List Token}
    (hopen : (Token.opening (name ++ "_open") tag attrs).Leveled)
    (hclose : name ++ "_close" ≠ "heading_open") (hcontent : ∀ t ∈ content, t.Leveled) :
    ∀ t ∈ enclosed name tag attrs content, t.Leveled := by
  intro t ht
  rcases List.mem_append.mp ht with ht | ht
  · rcases List.mem_cons.mp ht with rfl | ht
    · exact hopen
    · exact hcontent t ht
  · rw [List.mem_singleton.mp ht]
    exact .of_ne hclose rfl

/-- Tokens in a container that is no heading. -/
theorem enclosed_leveled_of_ne {name tag : String} {attrs : Fields} {content : List Token}
    (hopen : name ++ "_open" ≠ "heading_open") (hclose : name ++ "_close" ≠ "heading_open")
    (hcontent : ∀ t ∈ content, t.Leveled) : ∀ t ∈ enclosed name tag attrs content, t.Leveled :=
  enclosed_leveled (.of_ne hopen rfl) hclose hcontent

section Blocks

theorem textToken_leveled (s : List Char) : (textToken s).Leveled :=
  .of_ne (by simp [textToken]) rfl

theorem paragraphTokens_leveled (hidden : Bool) (s : List Char) :
    ∀ t ∈ paragraphTokens hidden s, t.Leveled := by
  intro t ht
  simp only [paragraphTokens, List.mem_cons, List.not_mem_nil, or_false] at ht
  rcases ht with rfl | rfl | rfl
  · exact .of_ne (by simp [Token.opening]) rfl
  · exact textToken_leveled s
  · exact .of_ne (by simp [Token.closing]) rfl

theorem cellTokens_leveled {tag : String} (hopen : tag ++ "_open" ≠ "heading_open")
    (hclose : tag ++ "_close" ≠ "heading_open") (column : Option Alignment) (s : List Char) :
    ∀ t ∈ cellTokens tag column s, t.Leveled := by
  refine enclosed_leveled_of_ne hopen hclose ?_
  intro t ht
  rw [List.mem_singleton.mp ht]
  exact textToken_leveled s

theorem rowTokens_leveled {tag : String} (hopen : tag ++ "_open" ≠ "heading_open")
    (hclose : tag ++ "_close" ≠ "heading_open") (columns : List (Option Alignment))
    (cells : List (List Char)) : ∀ t ∈ rowTokens tag columns cells, t.Leveled := by
  refine enclosed_leveled_of_ne (by decide) (by decide) ?_
  intro t ht
  obtain ⟨⟨a, s⟩, -, ht⟩ := List.mem_flatMap.mp ht
  exact cellTokens_leveled hopen hclose a s t ht

theorem tableTokens_leveled (columns : List (Option Alignment)) (header : List (List Char))
    (rows : List (List (List Char))) : ∀ t ∈ tableTokens columns header rows, t.Leveled := by
  refine enclosed_leveled_of_ne (by decide) (by decide) ?_
  intro t ht
  rcases List.mem_append.mp ht with ht | ht
  · exact enclosed_leveled_of_ne (by decide) (by decide)
      (rowTokens_leveled (by decide) (by decide) columns header) t ht
  · split at ht
    · simp at ht
    · refine enclosed_leveled_of_ne (by decide) (by decide) ?_ t ht
      intro u hu
      obtain ⟨row, -, hu⟩ := List.mem_flatMap.mp hu
      exact rowTokens_leveled (by decide) (by decide) columns row u hu

theorem headingTokens_leveled {level : Nat} (hlevel : IsLevel level) (s : List Char) :
    ∀ t ∈ enclosed "heading" ("h" ++ Nat.repr level) [] [textToken s], t.Leveled := by
  refine enclosed_leveled ⟨fun _ ↦ ⟨level, hlevel, rfl, rfl⟩, List.forall_mem_nil _⟩ (by decide) ?_
  intro t ht
  rw [List.mem_singleton.mp ht]
  exact textToken_leveled s

theorem quoteTokens_leveled (dialect : Dialect) (content : List Block) {ts : List Token}
    (hts : ∀ t ∈ ts, t.Leveled) : ∀ t ∈ quoteTokens dialect content ts, t.Leveled := by
  rw [quoteTokens]
  split
  · refine enclosed_leveled_of_ne (by decide) (by decide) ?_
    intro t ht
    rcases List.mem_append.mp ht with ht | ht
    · refine enclosed_leveled_of_ne (by decide) (by decide) ?_ t ht
      intro u hu
      rw [List.mem_singleton.mp hu]
      exact .of_ne (by simp) rfl
    · exact hts t ht
  · exact enclosed_leveled_of_ne (by decide) (by decide) hts

mutual

theorem blockTokens_leveled (dialect : Dialect) : (b : Block) → (hidden : Bool) → b.Leveled →
    ∀ t ∈ blockTokens dialect hidden b, t.Leveled
  | .paragraph s, hidden, _ => by
      rw [blockTokens]
      exact paragraphTokens_leveled hidden s
  | .heading level s, hidden, h => by
      rw [blockTokens]
      rw [Block.Leveled] at h
      exact headingTokens_leveled h s
  | .code s, hidden, _ => by
      intro t ht
      rw [blockTokens] at ht
      rw [List.mem_singleton.mp ht]
      exact .of_ne (by simp) rfl
  | .fence info s, hidden, _ => by
      intro t ht
      rw [blockTokens] at ht
      rw [List.mem_singleton.mp ht]
      exact .of_ne (by simp) rfl
  | .markup s, hidden, _ => by
      intro t ht
      rw [blockTokens] at ht
      rw [List.mem_singleton.mp ht]
      exact .of_ne (by simp) rfl
  | .rule, hidden, _ => by
      intro t ht
      rw [blockTokens] at ht
      rw [List.mem_singleton.mp ht]
      exact .of_ne (by simp) rfl
  | .quote content, hidden, h => by
      rw [blockTokens]
      rw [Block.Leveled] at h
      exact quoteTokens_leveled dialect content (containerTokens_leveled dialect content _ _ h)
  | .list start tight items, hidden, h => by
      rw [blockTokens]
      rw [Block.Leveled] at h
      dsimp only
      split
      · exact enclosed_leveled_of_ne (by decide) (by decide)
          (containerTokens_leveled dialect items _ _ h)
      · exact enclosed_leveled_of_ne (by decide) (by decide)
          (containerTokens_leveled dialect items _ _ h)
  | .item content, hidden, h => by
      rw [blockTokens]
      rw [Block.Leveled] at h
      exact enclosed_leveled_of_ne (by decide) (by decide)
        (containerTokens_leveled dialect content _ _ h)
  | .table columns header rows, hidden, _ => by
      rw [blockTokens]
      exact tableTokens_leveled columns header rows
  | .definition _, hidden, _ => by
      rw [blockTokens]
      exact List.forall_mem_nil _
  | .footnote label content, hidden, h => by
      rw [Block.Leveled] at h
      intro t ht
      rw [blockTokens] at ht
      rcases List.mem_append.mp ht with ht | ht
      · rcases List.mem_cons.mp ht with rfl | ht
        · exact .of_ne (by simp [Token.opening]) rfl
        · exact containerTokens_leveled dialect content _ _ h t ht
      · rw [List.mem_singleton.mp ht]
        exact .of_ne (by simp [Token.closing]) rfl

theorem containerTokens_leveled (dialect : Dialect) : (bs : List Block) → (hidden : Bool) →
    (start : Option Bool) → Block.AllLeveled bs →
    ∀ t ∈ containerTokens dialect hidden start bs, t.Leveled
  | [], hidden, start, _ => by
      rw [containerTokens]
      exact List.forall_mem_nil _
  | b :: rest, hidden, start, h => by
      rw [Block.AllLeveled] at h
      have hrest := containerTokens_leveled dialect rest hidden none h.2
      have hb := blockTokens_leveled dialect b hidden h.1
      have hshown (omitted : Bool) (s : List Char) :
          ∀ t ∈ if omitted = true then [] else paragraphTokens hidden s, t.Leveled := by
        cases omitted with
        | true => exact List.forall_mem_nil _
        | false => exact paragraphTokens_leveled hidden s
      intro t ht
      unfold containerTokens at ht
      split at ht
      · rename_i heq
        cases heq
      · rename_i heq
        cases heq
        rcases List.mem_append.mp ht with ht | ht
        · exact hshown _ _ t ht
        · exact hrest t ht
      · rename_i heq
        cases heq
        rcases List.mem_append.mp ht with ht | ht
        · exact hb t ht
        · exact hrest t ht

end

end Blocks

section Notes

variable {t : Token} {ts : List Token} {notes : Notes}

/-- Every token that is kept is one of those that come in. -/
structure Parted.Among (p : Parted) (ts : List Token) : Prop where
  text : p.text ⊆ ts
  current : p.current ⊆ ts
  definitions : ∀ d ∈ p.definitions, d.2 ⊆ ts

theorem Parted.Among.add {p : Parted} (hp : p.Among ts) (ht : t ∈ ts) : (p.add t).Among ts := by
  unfold Parted.add
  split
  · exact ⟨hp.text, List.nil_subset _, hp.definitions⟩
  · split
    · exact ⟨hp.text, hp.current, List.forall_mem_cons.mpr ⟨hp.current, hp.definitions⟩⟩
    · split
      · exact ⟨hp.text, List.cons_subset.mpr ⟨ht, hp.current⟩, hp.definitions⟩
      · exact ⟨List.cons_subset.mpr ⟨ht, hp.text⟩, hp.current, hp.definitions⟩

theorem Parted.among_foldl (ts : List Token) : (ts.foldl Parted.add {}).Among ts :=
  List.foldlRecOn ts _ (motive := (Parted.Among · ts))
    ⟨List.nil_subset _, List.nil_subset _, List.forall_mem_nil _⟩ fun _ hp _ ht ↦ hp.add ht

/-- What stands in a footnote with a number. -/
def noteContent (definitions : List (String × List Token)) (n : Nat) : Note → List Token
  | .defined label count =>
      addToLastParagraph ((definitions.lookup label).getD []).reverse (anchors n (max count 1))
  | .inline content tokens =>
      [Token.opening "paragraph_open" "p", { type := "inline", content, children := tokens }] ++
        anchors n 1 ++ [Token.closing "paragraph_close" "p"]

/-- The tokens of a footnote around its content. -/
def itemTokens (n : Nat) (content : List Token) : List Token :=
  { Token.opening "footnote_open" "" with data := [("id", .int n)] } ::
    content ++ [Token.closing "footnote_close" ""]

theorem noteTokens_eq (definitions : List (String × List Token)) (n : Nat) (note : Note) :
    noteTokens definitions n note = itemTokens n (noteContent definitions n note) := by
  cases note with
  | defined label count => rfl
  | inline content tokens => rfl

/-- The types of the tokens that footnotes bring with them, but for the line of one that stands in the
text. -/
def noteTypes : List String :=
  ["footnote_block_open", "footnote_block_close", "footnote_open", "footnote_close",
    "footnote_anchor", "paragraph_open", "paragraph_close"]

/-- A token that the footnotes of a document bring with them. -/
inductive NoteToken (notes : Notes) (t : Token) : Prop
  | own (htype : t.type ∈ noteTypes) (hchildren : t.children = [])
  | line {content : String} (htype : t.type = "inline")
      (hnote : .inline content t.children ∈ notes.notes)

theorem NoteToken.type_ne {type : String} (h : NoteToken notes t) (hline : type ≠ "inline")
    (hown : type ∉ noteTypes) : t.type ≠ type := by
  rintro rfl
  cases h with
  | own htype hchildren => exact hown htype
  | line htype hnote => exact hline htype

theorem mem_addToLastParagraph {added : List Token} (h : t ∈ addToLastParagraph ts added) :
    t ∈ ts ∨ t ∈ added := by
  unfold addToLastParagraph at h
  split at h
  · rename_i last hlast
    split at h
    · simp only [List.mem_append, List.mem_singleton] at h
      rcases h with (h | h) | rfl
      · exact .inl (List.dropLast_subset _ h)
      · exact .inr h
      · exact .inl (List.mem_of_getLast? hlast)
    · exact List.mem_append.mp h
  · exact .inr h

theorem mem_noteContent {definitions : List (String × List Token)} {n : Nat} {note : Note}
    (hdefinitions : ∀ d ∈ definitions, d.2 ⊆ ts) (hnote : note ∈ notes.notes)
    (h : t ∈ noteContent definitions n note) : t ∈ ts ∨ NoteToken notes t := by
  have hanchor {count : Nat} (h : t ∈ anchors n count) : NoteToken notes t := by
    obtain ⟨k, -, rfl⟩ := List.mem_map.mp h
    exact .own (by simp [noteTypes]) rfl
  cases note with
  | defined label count =>
      rcases mem_addToLastParagraph h with h | h
      · cases hlookup : definitions.lookup label with
        | none => simp [hlookup] at h
        | some us =>
            obtain ⟨before, after, rfl, -⟩ := List.lookup_eq_some_iff.mp hlookup
            rw [hlookup] at h
            exact .inl (hdefinitions (label, us) (by simp) (List.mem_reverse.mp h))
      · exact .inr (hanchor h)
  | inline content tokens =>
      simp only [noteContent, List.mem_append, List.mem_cons, List.not_mem_nil, or_false] at h
      rcases h with ((rfl | rfl) | h) | rfl
      · exact .inr (.own (by decide) rfl)
      · exact .inr (.line rfl hnote)
      · exact .inr (hanchor h)
      · exact .inr (.own (by decide) rfl)

/-- Every token of a document with its footnotes at the end was there before or comes with a
footnote. -/
theorem mem_withNotes (h : t ∈ withNotes notes ts) : t ∈ ts ∨ NoteToken notes t := by
  have hkept := Parted.among_foldl ts
  have htext (h : t ∈ (ts.foldl Parted.add {}).text.reverse) : t ∈ ts :=
    hkept.text (List.mem_reverse.mp h)
  unfold withNotes at h
  dsimp only at h
  split at h
  · exact .inl (htext h)
  · simp only [List.mem_append, List.mem_cons, List.not_mem_nil, or_false] at h
    rcases h with (h | rfl | h) | rfl
    · exact .inl (htext h)
    · exact .inr (.own (by decide) rfl)
    · obtain ⟨⟨note, n⟩, hmem, h⟩ := List.mem_flatMap.mp h
      dsimp only at h
      rw [noteTokens_eq, itemTokens] at h
      simp only [List.mem_append, List.mem_cons, List.not_mem_nil, or_false] at h
      rcases h with (rfl | h) | rfl
      · exact .inr (.own (by simp [Token.opening, noteTypes]) rfl)
      · exact mem_noteContent hkept.definitions (List.fst_mem_of_mem_zipIdx hmem) h
      · exact .inr (.own (by decide) rfl)
    · exact .inr (.own (by decide) rfl)

theorem withNotes_leveled (hnotes : notes.InLine) (hts : ∀ t ∈ ts, t.Leveled) :
    ∀ t ∈ withNotes notes ts, t.Leveled := by
  intro t ht
  rcases mem_withNotes ht with ht | hnote
  · exact hts t ht
  · refine ⟨fun htype ↦ absurd htype (hnote.type_ne (by decide) (by decide)), ?_⟩
    cases hnote with
    | own htype hchildren => simp [hchildren]
    | line htype hnote => exact fun c hc ↦ (hnotes _ hnote c hc).plain

end Notes

theorem readTexts_leveled {dialect : Dialect} {definitions : List Definition} {ts us : List Token}
    {notes notes' : Notes} (hnotes : notes.InLine) (hts : ∀ t ∈ ts, t.Leveled)
    (h : readTexts dialect definitions notes ts = .ok (us, notes')) :
    (∀ t ∈ us, t.Leveled) ∧ notes'.InLine := by
  induction ts generalizing notes us with
  | nil =>
      cases h
      exact ⟨hts, hnotes⟩
  | cons t ts ih =>
      rw [List.forall_mem_cons] at hts
      rw [readTexts] at h
      split at h
      · obtain ⟨⟨children, mid⟩, hread, h⟩ := bind_eq_ok.mp h
        obtain ⟨⟨more, last⟩, hmore, h⟩ := bind_eq_ok.mp h
        cases h
        obtain ⟨hchildren, hmid⟩ := (readInline_inLine hread).2 hnotes
        obtain ⟨hall, hlast⟩ := ih hmid hts.2 hmore
        have hplain : ∀ c ∈ children, c.Plain := fun c hc ↦ (hchildren c hc).plain
        exact ⟨List.forall_mem_cons.mpr ⟨⟨hts.1.heading, hplain⟩, hall⟩, hlast⟩
      · obtain ⟨⟨more, last⟩, hmore, h⟩ := bind_eq_ok.mp h
        cases h
        obtain ⟨hall, hlast⟩ := ih hnotes hts.2 hmore
        exact ⟨List.forall_mem_cons.mpr ⟨hts.1, hall⟩, hlast⟩

theorem notes_define (ns : Notes) (label : String) : (ns.define label).notes = ns.notes := by
  unfold Notes.define
  split
  · rfl
  · rfl

/-- A document starts with labels of footnotes at most. -/
theorem inLine_foldl_define (labels : List String) : (labels.foldl Notes.define {}).InLine := by
  have hnil : (labels.foldl Notes.define {}).notes = [] := by
    refine List.foldlRecOn labels _ (motive := fun ns : Notes ↦ ns.notes = []) rfl ?_
    intro ns hns label _
    rw [notes_define, hns]
  intro note hnote
  simp [hnil] at hnote

theorem tokens_leveled {dialect : Dialect} {body : String} {ts : List Token}
    (h : tokens dialect body = .ok ts) : ∀ t ∈ ts, t.Leveled := by
  obtain ⟨⟨us, notes⟩, hread, h⟩ := bind_eq_ok.mp h
  cases h
  obtain ⟨hus, hnotes⟩ := readTexts_leveled (inLine_foldl_define _)
    (containerTokens_leveled dialect _ false none (blocksOf_leveled dialect _)) hread
  exact withNotes_leveled hnotes hus

end SafeMarkdown.Markdown
