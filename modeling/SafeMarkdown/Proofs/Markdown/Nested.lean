import Mathlib.Data.List.Forall2
import SafeMarkdown.Markdown.Document
import SafeMarkdown.Proofs.Markdown.Blocks
import SafeMarkdown.Proofs.Markdown.LineTokens

/-!
# Nested tokens

The tokens of a document open and close containers around those of their content. Footnotes that are
defined apart are moved out of them. One that stands inside of another one, deeper in its containers,
tears these apart: what closes them is left in the text, so the text may close more than it opens, but
never the other way round; and what a footnote is left with is nested again.
-/

namespace SafeMarkdown.Markdown

/-- The tags of what blocks become. -/
def blockTags : List String :=
  ["p", "h1", "h2", "h3", "h4", "h5", "h6", "blockquote", "div", "ul", "ol", "li", "table", "thead",
    "tbody", "tr", "th", "td"]

/-- The types of tokens that are not there for themselves. -/
def structuralTypes : List String :=
  ["inline", "footnote_open", "footnote_block_open", "footnote_reference_open",
    "footnote_reference_close"]

/-- A token that opens a container. -/
structure OpeningToken (t : Token) : Prop where
  nesting : t.nesting = .opens
  type : t.type ∉ structuralTypes
  tag : t.tag ∈ blockTags
  attrs : ∀ f ∈ t.attrs, f.1 ∈ ["class", "style", "start"]

/-- A token that closes a container. -/
structure ClosingToken (t : Token) : Prop where
  nesting : t.nesting = .closes
  type : t.type ∉ structuralTypes

/-- A token of a document that stands by itself; its references go to less than so many
footnotes. -/
inductive LeafToken (count : Nat) : Token → Prop where
  | text (content : String) {children : List Token} (h : ∀ t ∈ children, LineToken count t) :
      LeafToken count { type := "inline", content, children }
  | code (content : String) : LeafToken count { type := "code_block", tag := "code", content }
  | fence (info content : String) :
      LeafToken count { type := "fence", tag := "code", info, content }
  | markup (content : String) : LeafToken count { type := "html_block", content }
  | rule : LeafToken count { type := "hr", tag := "hr" }
  | backlink (n k : Nat) :
      LeafToken count { type := "footnote_anchor", data := [("id", .int n), ("subId", .int k)] }

theorem LeafToken.mono {m n : Nat} {t : Token} (h : LeafToken m t) (hle : m ≤ n) :
    LeafToken n t := by
  cases h with
  | text content h => exact .text content fun t ht ↦ (h t ht).mono hle
  | code content => exact .code content
  | fence info content => exact .fence info content
  | markup content => exact .markup content
  | rule => exact .rule
  | backlink n k => exact .backlink n k

theorem LeafToken.type_ne {count : Nat} {t : Token} (h : LeafToken count t) :
    t.type ≠ "footnote_reference_open" ∧ t.type ≠ "footnote_reference_close" := by
  cases h <;> simp

/-- Tokens in which every container that opens is closed. The first argument says whether footnotes
may be defined among them. -/
inductive Nested (defines : Prop) (count : Nat) : List Token → Prop where
  | nil : Nested defines count []
  | leaf {t : Token} {ts : List Token} (h : LeafToken count t) (hrest : Nested defines count ts) :
      Nested defines count (t :: ts)
  | container {o c : Token} {content ts : List Token} (ho : OpeningToken o) (hc : ClosingToken c)
      (hcontent : Nested defines count content) (hrest : Nested defines count ts) :
      Nested defines count (o :: content ++ c :: ts)
  | definition {o c : Token} {content ts : List Token} (h : defines)
      (ho : o.type = "footnote_reference_open") (hc : c.type = "footnote_reference_close")
      (hcontent : Nested defines count content) (hrest : Nested defines count ts) :
      Nested defines count (o :: content ++ c :: ts)

namespace Nested

variable {defines : Prop} {count : Nat} {ts us : List Token}

theorem append (h : Nested defines count ts) (h' : Nested defines count us) :
    Nested defines count (ts ++ us) := by
  induction h with
  | nil => exact h'
  | leaf h hrest ih => exact .leaf h ih
  | container ho hc hcontent hrest _ ih =>
      rw [List.append_assoc, List.cons_append]
      exact .container ho hc hcontent ih
  | definition h ho hc hcontent hrest _ ih =>
      rw [List.append_assoc, List.cons_append]
      exact .definition h ho hc hcontent ih

theorem mono {count' : Nat} (h : Nested defines count ts) (hle : count ≤ count') :
    Nested defines count' ts := by
  induction h with
  | nil => exact .nil
  | leaf h hrest ih => exact .leaf (h.mono hle) ih
  | container ho hc hcontent hrest ihcontent ih => exact .container ho hc ihcontent ih
  | definition h ho hc hcontent hrest ihcontent ih => exact .definition h ho hc ihcontent ih

theorem of_leaf {t : Token} (h : LeafToken count t) : Nested defines count [t] :=
  .leaf h .nil

theorem of_leaves (h : ∀ t ∈ ts, LeafToken count t) : Nested defines count ts := by
  induction ts with
  | nil => exact .nil
  | cons t ts ih =>
      rw [List.forall_mem_cons] at h
      exact .leaf h.1 (ih h.2)

theorem enclose {o c : Token} (ho : OpeningToken o) (hc : ClosingToken c)
    (h : Nested defines count ts) : Nested defines count (o :: ts ++ [c]) :=
  .container ho hc h .nil

theorem enclosed {name tag : String} {attrs : Fields}
    (hopen : name ++ "_open" ∉ structuralTypes) (hclose : name ++ "_close" ∉ structuralTypes)
    (htag : tag ∈ blockTags) (hattrs : ∀ f ∈ attrs, f.1 ∈ ["class", "style", "start"])
    (h : Nested defines count ts) : Nested defines count (Markdown.enclosed name tag attrs ts) :=
  enclose ⟨rfl, hopen, htag, hattrs⟩ ⟨rfl, hclose⟩ h

theorem flatMap {α : Type} {l : List α} {f : α → List Token}
    (h : ∀ a ∈ l, Nested defines count (f a)) : Nested defines count (l.flatMap f) := by
  induction l with
  | nil => exact .nil
  | cons a l ih =>
      rw [List.forall_mem_cons] at h
      rw [List.flatMap_cons]
      exact h.1.append (ih h.2)

end Nested

section Blocks

theorem nested_textToken (s : List Char) : Nested True 0 [textToken s] :=
  .of_leaf (.text _ (List.forall_mem_nil _))

theorem nested_paragraphTokens (hidden : Bool) (s : List Char) :
    Nested True 0 (paragraphTokens hidden s) :=
  .enclose ⟨rfl, by simp [Token.opening, structuralTypes], by simp [Token.opening, blockTags],
    List.forall_mem_nil _⟩ ⟨rfl, by simp [Token.closing, structuralTypes]⟩ (nested_textToken s)

theorem nested_cellTokens {tag : String} (htag : tag ∈ ["th", "td"]) (column : Option Alignment)
    (s : List Char) : Nested True 0 (cellTokens tag column s) := by
  have htypes : tag ++ "_open" ∉ structuralTypes ∧ tag ++ "_close" ∉ structuralTypes ∧
      tag ∈ blockTags := by
    simp only [List.mem_cons, List.not_mem_nil, or_false] at htag
    rcases htag with rfl | rfl
    · decide
    · decide
  refine .enclosed htypes.1 htypes.2.1 htypes.2.2 ?_ (nested_textToken s)
  cases column with
  | none => exact List.forall_mem_nil _
  | some a => simp

theorem nested_rowTokens {tag : String} (htag : tag ∈ ["th", "td"])
    (columns : List (Option Alignment)) (cells : List (List Char)) :
    Nested True 0 (rowTokens tag columns cells) := by
  refine .enclosed (by decide) (by decide) (by decide) (List.forall_mem_nil _) (.flatMap ?_)
  exact fun cell _ ↦ nested_cellTokens htag cell.1 cell.2

theorem nested_tableTokens (columns : List (Option Alignment)) (header : List (List Char))
    (rows : List (List (List Char))) : Nested True 0 (tableTokens columns header rows) := by
  refine .enclosed (by decide) (by decide) (by decide) (List.forall_mem_nil _) (.append ?_ ?_)
  · exact .enclosed (by decide) (by decide) (by decide) (List.forall_mem_nil _)
      (nested_rowTokens (by simp) columns header)
  · split
    · exact .nil
    · refine .enclosed (by decide) (by decide) (by decide) (List.forall_mem_nil _) (.flatMap ?_)
      exact fun row _ ↦ nested_rowTokens (by simp) columns row

theorem headingTag_mem {level : Nat} (h : IsLevel level) : "h" ++ Nat.repr level ∈ blockTags := by
  have hmem := Heading.tag_mem_tags h
  have hsub : Heading.tags ⊆ blockTags := by decide
  exact hsub hmem

theorem nested_quoteTokens (dialect : Dialect) (content : List Block) {ts : List Token}
    (h : Nested True 0 ts) : Nested True 0 (quoteTokens dialect content ts) := by
  rw [quoteTokens]
  split
  · refine .enclosed (by decide) (by decide) (by decide) (by simp) (.append ?_ h)
    exact .enclosed (by decide) (by decide) (by decide) (by simp)
      (.of_leaf (.text _ (List.forall_mem_nil _)))
  · exact .enclosed (by decide) (by decide) (by decide) (List.forall_mem_nil _) h

theorem listAttributes_mem (dialect : Dialect) (start : Option Nat) (items : List Block) :
    ∀ f ∈ listAttributes dialect start items, f.1 ∈ ["class", "style", "start"] := by
  have hnumber (number : Fields) (h : ∀ f ∈ number, f.1 ∈ ["class", "style", "start"]) :
      ∀ f ∈ (if items.any (isTask dialect) = true then
        number ++ [("class", .str "contains-task-list")] else number),
        f.1 ∈ ["class", "style", "start"] := by
    split
    · exact List.forall_mem_append.mpr ⟨h, by simp⟩
    · exact h
  unfold listAttributes
  apply hnumber
  cases start with
  | none => exact List.forall_mem_nil _
  | some n =>
      dsimp only
      split
      · exact List.forall_mem_nil _
      · simp

mutual

theorem nested_blockTokens (dialect : Dialect) : (b : Block) → (hidden : Bool) → b.Leveled →
    Nested True 0 (blockTokens dialect hidden b)
  | .paragraph s, hidden, _ => by
      rw [blockTokens]
      exact nested_paragraphTokens hidden s
  | .heading level s, hidden, h => by
      rw [Block.Leveled] at h
      rw [blockTokens]
      exact .enclosed (by decide) (by decide) (headingTag_mem h) (List.forall_mem_nil _)
        (nested_textToken s)
  | .code s, hidden, _ => by
      rw [blockTokens]
      exact .of_leaf (.code _)
  | .fence info s, hidden, _ => by
      rw [blockTokens]
      exact .of_leaf (.fence _ _)
  | .markup s, hidden, _ => by
      rw [blockTokens]
      exact .of_leaf (.markup _)
  | .rule, hidden, _ => by
      rw [blockTokens]
      exact .of_leaf .rule
  | .quote content, hidden, h => by
      rw [Block.Leveled] at h
      rw [blockTokens]
      exact nested_quoteTokens dialect content (nested_containerTokens dialect content _ _ h)
  | .list start tight items, hidden, h => by
      rw [Block.Leveled] at h
      rw [blockTokens]
      have hitems := nested_containerTokens dialect items tight none h
      have hattrs := listAttributes_mem dialect start items
      dsimp only
      split
      · exact .enclosed (by decide) (by decide) (by decide) hattrs hitems
      · exact .enclosed (by decide) (by decide) (by decide) hattrs hitems
  | .item content, hidden, h => by
      rw [Block.Leveled] at h
      rw [blockTokens]
      refine .enclosed (by decide) (by decide) (by decide) ?_
        (nested_containerTokens dialect content _ _ h)
      split
      · simp
      · exact List.forall_mem_nil _
  | .table columns header rows, hidden, _ => by
      rw [blockTokens]
      exact nested_tableTokens columns header rows
  | .definition _, hidden, _ => by
      rw [blockTokens]
      exact .nil
  | .footnote label content, hidden, h => by
      rw [Block.Leveled] at h
      rw [blockTokens]
      exact .definition trivial rfl rfl (nested_containerTokens dialect content _ _ h) .nil

theorem nested_containerTokens (dialect : Dialect) : (bs : List Block) → (hidden : Bool) →
    (start : Option Bool) → Block.AllLeveled bs →
    Nested True 0 (containerTokens dialect hidden start bs)
  | [], hidden, start, _ => by
      rw [containerTokens]
      exact .nil
  | b :: rest, hidden, start, h => by
      rw [Block.AllLeveled] at h
      have hrest := nested_containerTokens dialect rest hidden none h.2
      have hb := nested_blockTokens dialect b hidden h.1
      have hshown (omitted : Bool) (s : List Char) :
          Nested True 0 (if omitted = true then [] else paragraphTokens hidden s) := by
        cases omitted with
        | true => exact .nil
        | false => exact nested_paragraphTokens hidden s
      unfold containerTokens
      split
      · rename_i heq
        cases heq
      · rename_i heq
        cases heq
        exact (hshown _ _).append hrest
      · rename_i heq
        cases heq
        exact hb.append hrest

end

end Blocks

section Texts

variable {dialect : Dialect} {definitions : List Definition} {notes notes' : Notes}
  {ts us : List Token}

theorem readTexts_append {out : List Token}
    (h : readTexts dialect definitions notes (ts ++ us) = .ok (out, notes')) :
    ∃ first mid last, readTexts dialect definitions notes ts = .ok (first, mid) ∧
      readTexts dialect definitions mid us = .ok (last, notes') ∧ out = first ++ last := by
  induction ts generalizing notes out with
  | nil => exact ⟨[], notes, out, rfl, h, rfl⟩
  | cons t ts ih =>
      rw [List.cons_append, readTexts] at h
      split at h
      · rename_i htype
        obtain ⟨⟨children, read⟩, hread, h⟩ := bind_eq_ok.mp h
        obtain ⟨⟨more, end'⟩, hmore, h⟩ := bind_eq_ok.mp h
        cases h
        obtain ⟨first, mid, last, hfirst, hlast, rfl⟩ := ih hmore
        refine ⟨{ t with children } :: first, mid, last, ?_, hlast, rfl⟩
        rw [readTexts, if_pos htype, hread]
        dsimp only [bind, Except.bind]
        rw [hfirst]
        rfl
      · rename_i htype
        obtain ⟨⟨more, end'⟩, hmore, h⟩ := bind_eq_ok.mp h
        cases h
        obtain ⟨first, mid, last, hfirst, hlast, rfl⟩ := ih hmore
        refine ⟨t :: first, mid, last, ?_, hlast, rfl⟩
        rw [readTexts, if_neg htype, hfirst]
        rfl

/-- A token that is not a text stays as it is. -/
theorem readTexts_cons_of_ne {t : Token} {out : List Token} (ht : t.type ≠ "inline")
    (h : readTexts dialect definitions notes (t :: ts) = .ok (out, notes')) :
    ∃ more, readTexts dialect definitions notes ts = .ok (more, notes') ∧ out = t :: more := by
  rw [readTexts, if_neg (by simpa using ht)] at h
  obtain ⟨⟨more, last⟩, hmore, h⟩ := bind_eq_ok.mp h
  cases h
  exact ⟨more, hmore, rfl⟩

theorem type_ne_inline {t : Token} (h : t.type ∉ structuralTypes) : t.type ≠ "inline" := by
  intro heq
  rw [heq] at h
  exact h (by decide)

/-- Reading the texts keeps the containers, and all references go to footnotes that are counted. -/
theorem nested_readTexts {defines : Prop} (hts : Nested defines 0 ts) (hnotes : notes.InLine)
    (h : readTexts dialect definitions notes ts = .ok (us, notes')) :
    Nested defines notes'.count us ∧ notes'.InLine ∧ notes.count ≤ notes'.count := by
  induction hts generalizing notes notes' us with
  | nil =>
      cases h
      exact ⟨.nil, hnotes, Nat.le_refl _⟩
  | @leaf t ts ht hrest ih =>
      have hkeep (hne : t.type ≠ "inline") (hleaf : LeafToken notes'.count t) :
          Nested defines notes'.count us ∧ notes'.InLine ∧ notes.count ≤ notes'.count := by
        obtain ⟨more, hmore, rfl⟩ := readTexts_cons_of_ne hne h
        obtain ⟨hnested, hlast, hle⟩ := ih hnotes hmore
        exact ⟨.leaf hleaf hnested, hlast, hle⟩
      cases ht with
      | text content hchildren =>
          rw [readTexts, if_pos (by rfl)] at h
          obtain ⟨⟨children, mid⟩, hread, h⟩ := bind_eq_ok.mp h
          obtain ⟨⟨more, last⟩, hmore, h⟩ := bind_eq_ok.mp h
          cases h
          obtain ⟨hgrows, hline⟩ := readInline_inLine hread
          obtain ⟨hchildren, hmid⟩ := hline hnotes
          obtain ⟨hnested, hlast, hle⟩ := ih hmid hmore
          refine ⟨.leaf (.text content fun t ht ↦ (hchildren t ht).mono hle) hnested, hlast, ?_⟩
          exact Nat.le_trans hgrows hle
      | code content => exact hkeep (by simp) (.code content)
      | fence info content => exact hkeep (by simp) (.fence info content)
      | markup content => exact hkeep (by simp) (.markup content)
      | rule => exact hkeep (by simp) .rule
      | backlink n k => exact hkeep (by simp) (.backlink n k)
  | @container o c content ts ho hc hcontent hrest ihcontent ih =>
      rw [List.cons_append] at h
      obtain ⟨more, hmore, rfl⟩ := readTexts_cons_of_ne (type_ne_inline ho.type) h
      obtain ⟨inner, mid, last, hinner, hlast, rfl⟩ := readTexts_append hmore
      obtain ⟨after, hafter, rfl⟩ := readTexts_cons_of_ne (type_ne_inline hc.type) hlast
      obtain ⟨hinner, hmid, hle⟩ := ihcontent hnotes hinner
      obtain ⟨hafter, hlast, hle'⟩ := ih hmid hafter
      exact ⟨.container ho hc (hinner.mono hle') hafter, hlast, Nat.le_trans hle hle'⟩
  | @definition o c content ts hdefines ho hc hcontent hrest ihcontent ih =>
      rw [List.cons_append] at h
      obtain ⟨more, hmore, rfl⟩ := readTexts_cons_of_ne (by simp [ho]) h
      obtain ⟨inner, mid, last, hinner, hlast, rfl⟩ := readTexts_append hmore
      obtain ⟨after, hafter, rfl⟩ := readTexts_cons_of_ne (by simp [hc]) hlast
      obtain ⟨hinner, hmid, hle⟩ := ihcontent hnotes hinner
      obtain ⟨hafter, hlast, hle'⟩ := ih hmid hafter
      exact ⟨.definition hdefines ho hc (hinner.mono hle') hafter, hlast, Nat.le_trans hle hle'⟩

end Texts

end SafeMarkdown.Markdown
