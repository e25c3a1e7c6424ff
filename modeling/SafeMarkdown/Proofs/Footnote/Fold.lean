import SafeMarkdown.Proofs.Component.Matching
import SafeMarkdown.Proofs.Footnote.Parts

/-!
# Footnotes and the matching of component markers

A reference is answered when its footnote's item is in the same list of nodes, or when it goes to one
of the footnotes of the document that is still being read. Matching the markers of components keeps
references answered: pieces that answer their own references have no markers between their nodes, so
a component is made around all of a piece or none of it.
-/

namespace SafeMarkdown

open Node

/-- The number under which the footnote with an index is shown. -/
def NotePart.number (k : Nat) : String :=
  Value.intText (k + 1 : Int)

/-- Every reference goes to an item that is there, or to one of so many that are still to come. -/
def Answered (count : Nat) (ps : List NotePart) : Prop :=
  ∀ n label, .reference n label ∈ ps → .item n ∈ ps ∨ ∃ k < count, n = NotePart.number k

namespace Answered

variable {count : Nat} {ps qs : List NotePart}

theorem nil : Answered count [] := by
  simp [Answered]

theorem append (h : Answered count ps) (h' : Answered count qs) : Answered count (ps ++ qs) := by
  intro n label hmem
  rcases List.mem_append.mp hmem with hmem | hmem
  · exact (h n label hmem).imp_left (List.mem_append_left qs)
  · exact (h' n label hmem).imp_left (List.mem_append_right ps)

theorem item (h : Answered count ps) (n : String) : Answered count (.item n :: ps) := by
  intro m label hmem
  rcases List.mem_cons.mp hmem with heq | hmem
  · cases heq
  · exact (h m label hmem).imp_left (List.mem_cons_of_mem _)

theorem mono {count' : Nat} (h : Answered count ps) (hle : count ≤ count') :
    Answered count' ps := by
  intro n label hmem
  rcases h n label hmem with hitem | ⟨k, hk, heq⟩
  · exact .inl hitem
  · exact .inr ⟨k, Nat.lt_of_lt_of_le hk hle, heq⟩

end Answered

/-- Nodes whose references are answered. -/
def Closed (count : Nat) (ns : List Node) : Prop :=
  ∃ ps, HoldsAll .parsed ns ps ∧ Answered count ps

namespace Closed

variable {count : Nat} {n : Node} {ns ms : List Node}

theorem of_forall (h : ∀ n ∈ ns, Holds .parsed n []) : Closed count ns :=
  ⟨[], .of_forall h, .nil⟩

theorem nil : Closed count [] :=
  ⟨[], .nil, .nil⟩

theorem mono {count' : Nat} (h : Closed count ns) (hle : count ≤ count') : Closed count' ns := by
  obtain ⟨ps, hps, hanswered⟩ := h
  exact ⟨ps, hps, hanswered.mono hle⟩

theorem append (h : Closed count ns) (h' : Closed count ms) : Closed count (ns ++ ms) := by
  obtain ⟨ps, hps, hanswered⟩ := h
  obtain ⟨qs, hqs, hanswered'⟩ := h'
  exact ⟨ps ++ qs, hps.append hqs, hanswered.append hanswered'⟩

theorem mergeText (h : Closed count ns) : Closed count (mergeText ns) := by
  obtain ⟨ps, hps, hanswered⟩ := h
  exact ⟨ps, hps.mergeText, hanswered⟩

theorem element {tag : String} {attrs data : Fields} (hhead : Ordinary tag attrs)
    (hcode : tag ≠ "code") (h : Closed count ns) :
    Closed count [Node.element tag attrs ns data] := by
  obtain ⟨ps, hps, hanswered⟩ := h
  have hself : Holds .parsed (Node.element tag attrs ns data) ps :=
    .element hhead (fun heq ↦ (hcode heq).elim) hps
  exact ⟨ps, hself.single, hanswered⟩

theorem component {tag : Option String} {attrs data : Fields} (hdata : IsSettled data)
    (h : Closed count ns) : Closed count [⟨.component, tag, attrs, ns, none, data⟩] := by
  obtain ⟨ps, hps, hanswered⟩ := h
  cases hdropped : isDropped tag with
  | true => exact ⟨[], (Holds.dropped (by decide) hdata hdropped hps).single, .nil⟩
  | false => exact ⟨ps, (Holds.component hdata hdropped hps).single, hanswered⟩

end Closed

namespace Component

variable {count : Nat}

/-- A marker as it is made from a tag. -/
inductive IsMarker : Node → Prop
  | opens (name : String) (attrs : Fields) (source : String) (block : Bool) :
      IsMarker (openMarker name attrs source block)
  | closes (name source : String) (block : Bool) : IsMarker (closeMarker name source block)

theorem holds_literal (s : Option String) (block : Bool) : Holds .parsed (literal s block) [] := by
  have htext : Holds .parsed ⟨.text, none, [], [], s, []⟩ [] := .text s
  unfold literal
  cases block with
  | false => exact htext
  | true =>
      exact .element (ordinary_of_attrs_nil (by decide)) (fun _ ↦ rfl) htext.single

theorem holds_literalOf {marker n : Node} (h : literalOf marker = .ok n) : Holds .parsed n [] := by
  unfold literalOf at h
  split at h
  · cases h
  · cases h
    exact holds_literal _ _
  · cases h
    exact holds_literal _ _
  · cases h

theorem isMarker_of_isSettled {tag value : Option String} {attrs data : Fields}
    {children : List Node} (h : IsSettled data) :
    isMarker ⟨.component, tag, attrs, children, value, data⟩ = false := by
  have hopen := h "open" (by simp)
  have hclose := h "close" (by simp)
  simp [isMarker, isOpenMarker, isCloseMarker, flagged, hopen, hclose]

theorem not_isMarker_of_holds {grade : Grade} {n : Node} {ps : List NotePart}
    (h : Holds grade n ps) : isMarker n = false := by
  cases h with
  | component hdata hsafe h => exact isMarker_of_isSettled hdata
  | dropped hgrade hdata hdropped h => exact isMarker_of_isSettled hdata
  | _ => rfl

theorem not_isMarker_of_holdsAll {grade : Grade} {ns : List Node} {ps : List NotePart}
    (h : HoldsAll grade ns ps) : ∀ n ∈ ns, isMarker n = false := by
  induction ns generalizing ps with
  | nil => exact List.forall_mem_nil _
  | cons n ns ih =>
      cases h with
      | cons h hrest => exact List.forall_mem_cons.mpr ⟨not_isMarker_of_holds h, ih hrest⟩

/-- Around nodes without markers. -/
theorem foldBelow_of_holdsAll {grade : Grade} {kind : NodeKind} {tag value : Option String}
    {attrs data : Fields} {children : List Node} {ps : List NotePart} {m : Node}
    (hall : HoldsAll grade children ps)
    (h : foldBelow ⟨kind, tag, attrs, children, value, data⟩ = .ok m) :
    ∃ ms, FoldsEach children ms ∧ m = ⟨kind, tag, attrs, mergeText ms, value, data⟩ := by
  obtain ⟨nodes, hnodes, rfl⟩ := foldBelow_eq_ok h
  obtain ⟨ms, hms, rfl⟩ := fold_of_not_marker (not_isMarker_of_holdsAll hall) hnodes
  exact ⟨ms, hms, rfl⟩

/-- An element around a text that is not empty. -/
theorem foldBelow_element_ofText {tag : String} {attrs : Fields} {s : String} (hs : s ≠ "") :
    foldBelow (element tag attrs [ofText s]) = .ok (element tag attrs [ofText s]) := by
  have hempty : s.isEmpty = false := by simpa using hs
  simp [foldBelow, foldFrom, Folding.push, Folding.finish, Folding.flatten, element, ofText,
    isOpenMarker, isCloseMarker, mergeText, isText, text, hempty, bind, Except.bind, pure,
    Except.pure, Except.map]

theorem foldBelow_element_singleton {tag : String} {attrs : Fields} {n : Node}
    (hn : isMarker n = false) (htext : n.isText = false) (h : foldBelow n = .ok n) :
    foldBelow (element tag attrs [n]) = .ok (element tag attrs [n]) := by
  have hpush := push_of_not_marker {} hn
  simp [element, foldBelow, foldFrom, h, hpush, Folding.finish, Folding.flatten, mergeText, htext,
    bind, Except.bind, pure, Except.pure, Except.map]

theorem foldBelow_footnoteReference (n label : String) :
    foldBelow (Markdown.footnoteReference n label) = .ok (Markdown.footnoteReference n label) := by
  refine foldBelow_element_singleton rfl rfl (foldBelow_element_ofText ?_)
  simp

theorem foldBelow_footnoteBacklink (label : String) :
    foldBelow (Markdown.footnoteBacklink label) = .ok (Markdown.footnoteBacklink label) :=
  foldBelow_element_ofText (by decide)

mutual

/-- Where all markers are matched, matching them again leaves the parts of footnotes. -/
theorem holds_foldBelow {grade : Grade} : {n : Node} → {ps : List NotePart} → Holds grade n ps →
    {m : Node} → foldBelow n = .ok m → Holds grade m ps
  | _, _, .text value, m, hm => by
      obtain ⟨nodes, hnodes, rfl⟩ := foldBelow_eq_ok hm
      cases hnodes
      exact .text value
  | _, _, .raw h value, m, hm => by
      obtain ⟨nodes, hnodes, rfl⟩ := foldBelow_eq_ok hm
      cases hnodes
      exact .raw h value
  | _, _, .reference n label, m, hm => by
      rw [foldBelow_footnoteReference] at hm
      cases hm
      exact .reference n label
  | _, _, .backlink label, m, hm => by
      rw [foldBelow_footnoteBacklink] at hm
      cases hm
      exact .backlink label
  | _, _, .item n classes h, m, hm => by
      obtain ⟨ms, hms, rfl⟩ := foldBelow_of_holdsAll h hm
      exact .item n classes (holds_foldsEach h hms).mergeText
  | _, _, .element hhead hcode h, m, hm => by
      obtain ⟨ms, hms, rfl⟩ := foldBelow_of_holdsAll h hm
      exact .element hhead hcode (holds_foldsEach h hms).mergeText
  | _, _, .component hdata hsafe h, m, hm => by
      obtain ⟨ms, hms, rfl⟩ := foldBelow_of_holdsAll h hm
      exact .component hdata hsafe (holds_foldsEach h hms).mergeText
  | _, _, .dropped hgrade hdata hdropped h, m, hm => by
      obtain ⟨ms, hms, rfl⟩ := foldBelow_of_holdsAll h hm
      exact .dropped hgrade hdata hdropped (holds_foldsEach h hms).mergeText
  | _, _, .root h, m, hm => by
      obtain ⟨ms, hms, rfl⟩ := foldBelow_of_holdsAll h hm
      exact .root (holds_foldsEach h hms).mergeText

theorem holds_foldsEach {grade : Grade} : {ns : List Node} → {ps : List NotePart} →
    HoldsAll grade ns ps → {ms : List Node} → FoldsEach ns ms → HoldsAll grade ms ps
  | _, _, .nil, ms, hms => by
      cases hms
      exact .nil
  | _, _, .cons h hrest, ms, hms => by
      cases hms with
      | cons hm hms => exact .cons (holds_foldBelow h hm) (holds_foldsEach hrest hms)

end

section Matching

variable {multi : Prop}

/-- Neighbours without markers that answer their own references once the markers below them are
matched. -/
structure Piece (count : Nat) (ns : List Node) : Prop where
  unmarked : ∀ n ∈ ns, isMarker n = false
  closed : ∀ ms, FoldsEach ns ms → Closed count ms

/-- Siblings that may still have to be matched: markers and pieces between them. Where documents
stand inside of a component, a piece may have more than one node. -/
inductive Ready (multi : Prop) (count : Nat) : List Node → Prop
  | nil : Ready multi count []
  | marker {n : Node} {ns : List Node} (h : IsMarker n) (hrest : Ready multi count ns) :
      Ready multi count (n :: ns)
  | piece {ns ms : List Node} (h : Piece count ns) (hone : multi ∨ ∃ n, ns = [n])
      (hrest : Ready multi count ms) : Ready multi count (ns ++ ms)

/-- Whether the siblings that have been matched so far answer their references. -/
structure Folding.Ready (count : Nat) (f : Folding) : Prop where
  opened : ∀ o ∈ f.opened,
    (∃ name attrs source block, o.1 = openMarker name attrs source block) ∧ Closed count o.2.reverse
  out : Closed count f.out.reverse

theorem closed_literal {marker t : Node} (h : literalOf marker = .ok t) : Closed count [t] :=
  .of_forall (List.forall_mem_singleton.mpr (holds_literalOf h))

namespace Folding

theorem Ready.push_closed {f : Folding} (hf : f.Ready count) {ns : List Node}
    (hns : Closed count ns) : Ready count { f with out := ns.reverse ++ f.out } where
  opened := hf.opened
  out := by
    rw [List.reverse_append, List.reverse_reverse]
    exact hf.out.append hns

theorem Ready.push_marker {f g : Folding} (hf : f.Ready count) {n : Node} (hn : IsMarker n)
    (h : f.push n = .ok g) : g.Ready count := by
  have hliteral (h : (literalOf n).map (fun t ↦ { f with out := t :: f.out }) = .ok g) :
      g.Ready count := by
    obtain ⟨t, ht, rfl⟩ := map_eq_ok.mp h
    exact hf.push_closed (closed_literal ht)
  cases hn with
  | opens name attrs source block =>
      have hopen : isOpenMarker (openMarker name attrs source block) = true := rfl
      rw [push, hopen, if_pos rfl] at h
      cases h
      exact ⟨List.forall_mem_cons.mpr ⟨⟨⟨name, attrs, source, block, rfl⟩, hf.out⟩, hf.opened⟩, .nil⟩
  | closes name source block =>
      have hopen : isOpenMarker (closeMarker name source block) = false := rfl
      have hclose : isCloseMarker (closeMarker name source block) = true := rfl
      rw [push, hopen, hclose, if_neg Bool.false_ne_true, if_pos rfl] at h
      split at h
      · rename_i marker before outer hopened
        have hall := hf.opened
        rw [hopened, List.forall_mem_cons] at hall
        split at h
        · cases h
          obtain ⟨⟨⟨name', attrs, source', block', heq⟩, hbefore⟩, houter⟩ := hall
          dsimp only at heq hbefore
          refine ⟨houter, ?_⟩
          rw [heq, List.reverse_cons]
          refine hbefore.append (.component ?_ hf.out.mergeText)
          simp [IsSettled, openMarker, Node.component, Fields.erase, Fields.get?]
        · exact hliteral h
      · exact hliteral h

theorem flatten_closed {opened : List (Node × List Node)} {out nodes : List Node}
    (hopened : ∀ o ∈ opened, Closed count o.2.reverse) (hout : Closed count out.reverse)
    (h : flatten out opened = .ok nodes) : Closed count nodes.reverse := by
  induction opened generalizing out with
  | nil =>
      cases h
      exact hout
  | cons o opened ih =>
      obtain ⟨marker, before⟩ := o
      rw [List.forall_mem_cons] at hopened
      obtain ⟨t, ht, h⟩ := bind_eq_ok.mp h
      refine ih hopened.2 ?_ h
      rw [List.reverse_append, List.reverse_cons, List.append_assoc]
      exact hopened.1.append ((closed_literal ht).append hout)

theorem Ready.finish {f : Folding} (hf : f.Ready count) {nodes : List Node}
    (h : f.finish = .ok nodes) : Closed count nodes := by
  obtain ⟨out, hout, rfl⟩ := map_eq_ok.mp h
  exact (flatten_closed (fun o ho ↦ (hf.opened o ho).2) hf.out hout).mergeText

/-- What was matched last stays last. -/
theorem flatten_cons {opened : List (Node × List Node)} {out nodes : List Node} {n : Node}
    (h : flatten (n :: out) opened = .ok nodes) :
    ∃ more, flatten out opened = .ok more ∧ nodes = n :: more := by
  induction opened generalizing out with
  | nil =>
      cases h
      exact ⟨out, rfl, rfl⟩
  | cons o opened ih =>
      obtain ⟨marker, before⟩ := o
      obtain ⟨t, ht, h⟩ := bind_eq_ok.mp h
      obtain ⟨more, hmore, rfl⟩ := ih h
      refine ⟨more, ?_, rfl⟩
      rw [flatten, ht]
      exact hmore

end Folding

theorem isMarker_of_IsMarker {n m : Node} (hn : IsMarker n) (h : foldBelow n = .ok m) : m = n := by
  cases hn with
  | opens name attrs source block =>
      obtain ⟨nodes, hnodes, rfl⟩ := foldBelow_eq_ok h
      cases hnodes
      rfl
  | closes name source block =>
      obtain ⟨nodes, hnodes, rfl⟩ := foldBelow_eq_ok h
      cases hnodes
      rfl

/-- Matching goes on behind siblings that are ready. -/
theorem foldFrom_ready {ns rest out : List Node} {f : Folding} (hns : Ready multi count ns)
    (hf : f.Ready count) (h : foldFrom f (ns ++ rest) = .ok out) :
    ∃ g : Folding, g.Ready count ∧ foldFrom g rest = .ok out := by
  induction hns generalizing f with
  | nil => exact ⟨f, hf, h⟩
  | marker hn hrest ih =>
      rw [List.cons_append, foldFrom] at h
      obtain ⟨m, hm, h⟩ := bind_eq_ok.mp h
      obtain ⟨g, hg, h⟩ := bind_eq_ok.mp h
      rw [isMarker_of_IsMarker hn hm] at hg
      exact ih (hf.push_marker hn hg) h
  | piece hpiece hone hrest ih =>
      rw [List.append_assoc] at h
      obtain ⟨ms, hms, h⟩ := foldFrom_append hpiece.unmarked h
      exact ih (hf.push_closed (hpiece.closed ms hms)) h

theorem folding_ready_empty : Folding.Ready count {} :=
  ⟨List.forall_mem_nil _, .nil⟩

theorem fold_closed {ns out : List Node} (hns : Ready multi count ns) (h : fold ns = .ok out) :
    Closed count out := by
  have h : foldFrom {} (ns ++ []) = .ok out := by
    rwa [List.append_nil]
  obtain ⟨g, hg, h⟩ := foldFrom_ready hns folding_ready_empty h
  rw [foldFrom] at h
  exact hg.finish h

/-- A node behind all others is in no component that they make. -/
theorem fold_concat {ns out : List Node} {n : Node} (hns : Ready multi count ns)
    (hn : isMarker n = false) (h : fold (ns ++ [n]) = .ok out) :
    ∃ before m, foldBelow n = .ok m ∧ Closed count before ∧ out = mergeText (before ++ [m]) := by
  obtain ⟨g, hg, h⟩ := foldFrom_ready hns folding_ready_empty h
  rw [foldFrom] at h
  obtain ⟨m, hm, h⟩ := bind_eq_ok.mp h
  obtain ⟨g', hg', h⟩ := bind_eq_ok.mp h
  rw [push_of_not_marker g ((isMarker_foldBelow hm).trans hn)] at hg'
  cases hg'
  rw [foldFrom] at h
  obtain ⟨nodes, hnodes, rfl⟩ := map_eq_ok.mp h
  obtain ⟨more, hmore, rfl⟩ := Folding.flatten_cons hnodes
  refine ⟨more.reverse, m, hm, ?_, by rw [List.reverse_cons]⟩
  exact Folding.flatten_closed (fun o ho ↦ (hg.opened o ho).2) hg.out hmore

end Matching

section Siblings

variable {multi : Prop} {n : Node} {ns ms : List Node} {ps : List NotePart}

theorem Ready.append (h : Ready multi count ns) (h' : Ready multi count ms) :
    Ready multi count (ns ++ ms) := by
  induction h with
  | nil => exact h'
  | marker hn hrest ih => exact .marker hn ih
  | piece hpiece hone hrest ih =>
      rw [List.append_assoc]
      exact .piece hpiece hone ih

theorem Ready.of_marker (h : IsMarker n) : Ready multi count [n] :=
  .marker h .nil

theorem Ready.of_piece (h : Piece count [n]) : Ready multi count [n] :=
  .piece h (.inr ⟨n, rfl⟩) .nil

/-- A node that is matched and answers its references is a piece. -/
theorem Piece.of_holdsAll (h : HoldsAll .parsed ns ps) (hanswered : Answered count ps) :
    Piece count ns :=
  ⟨not_isMarker_of_holdsAll h, fun _ hms ↦ ⟨ps, holds_foldsEach h hms, hanswered⟩⟩

theorem Ready.of_holds (h : Holds .parsed n ps) (hanswered : Answered count ps) :
    Ready multi count [n] :=
  .of_piece (.of_holdsAll h.single hanswered)

/-- An element around siblings that are ready. -/
theorem Piece.element {tag : String} {attrs data : Fields} (hhead : Ordinary tag attrs)
    (hcode : tag ≠ "code") (h : Ready multi count ns) :
    Piece count [Node.element tag attrs ns data] := by
  refine ⟨List.forall_mem_singleton.mpr rfl, fun ms hms ↦ ?_⟩
  obtain ⟨m, hm, rfl⟩ : ∃ m, foldBelow (Node.element tag attrs ns data) = .ok m ∧ ms = [m] := by
    cases hms with
    | cons hm hrest =>
        cases hrest
        exact ⟨_, hm, rfl⟩
  obtain ⟨nodes, hnodes, rfl⟩ := foldBelow_eq_ok hm
  exact .element hhead hcode (fold_closed h hnodes)

/-- Where every piece is one node, siblings are ready one by one. -/
theorem ready_iff_forall : Ready False count ns ↔ ∀ n ∈ ns, IsMarker n ∨ Piece count [n] := by
  constructor
  · intro h
    induction h with
    | nil => exact List.forall_mem_nil _
    | marker hn hrest ih => exact List.forall_mem_cons.mpr ⟨.inl hn, ih⟩
    | piece hpiece hone hrest ih =>
        obtain ⟨n, rfl⟩ := hone.resolve_left id
        exact List.forall_mem_cons.mpr ⟨.inr hpiece, ih⟩
  · intro h
    induction ns with
    | nil => exact .nil
    | cons n ns ih =>
        rw [List.forall_mem_cons] at h
        rcases h.1 with hn | hn
        · exact .marker hn (ih h.2)
        · exact .piece hn (.inr ⟨n, rfl⟩) (ih h.2)

theorem Ready.weaken (h : Ready False count ns) : Ready multi count ns := by
  induction h with
  | nil => exact .nil
  | marker hn hrest ih => exact .marker hn ih
  | piece hpiece hone hrest ih => exact .piece hpiece (.inr (hone.resolve_left id)) ih

theorem Ready.mergeText (h : Ready False count ns) : Ready False count (mergeText ns) := by
  rw [ready_iff_forall] at h ⊢
  intro n hn
  rcases mem_mergeText hn with hn | ⟨s, rfl⟩
  · exact h n hn
  · exact .inr (.of_holdsAll (Holds.ofText s).single .nil)

end Siblings

end Component

end SafeMarkdown
