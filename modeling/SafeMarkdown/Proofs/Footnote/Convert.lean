import SafeMarkdown.Markdown.Document
import SafeMarkdown.Proofs.Footnote.Fold
import SafeMarkdown.Proofs.Markdown.Descent
import SafeMarkdown.Proofs.Markdown.Parted

/-!
# Footnotes and the conversion of tokens

Converting the tokens of a document makes siblings that are ready to be matched: each token becomes
markers and pieces, given that every reference of a document inside of a component has its item.
-/

namespace SafeMarkdown

open Node

namespace Component

variable {multi : Prop} {count : Nat} {ns : List Node} {blocks : String → Logged (List Node)}

theorem Ready.of_closed (hone : multi ∨ ∃ n, ns = [n]) (h : Closed count ns) :
    Ready multi count ns := by
  obtain ⟨ps, hps, hanswered⟩ := h
  have hready := Ready.piece (Piece.of_holdsAll hps hanswered) hone .nil
  rwa [List.append_nil] at hready

theorem Ready.of_forall (h : ∀ n ∈ ns, Holds .parsed n []) : Ready multi count ns := by
  induction ns with
  | nil => exact .nil
  | cons n ns ih =>
      rw [List.forall_mem_cons] at h
      exact (Ready.of_holds h.1 .nil).append (ih h.2)

/-- Whether documents are read as trees in which every reference has its item. -/
def ReadsClosed (blocks : String → Logged (List Node)) : Prop :=
  ∀ src ns, (blocks src).Returns ns → Closed 0 ns

theorem tail_ready (hblocks : ReadsClosed blocks) {rest : List Char} {block : Bool}
    (hmulti : block = true → multi) (h : (tail blocks rest block).Returns ns) :
    Ready multi count ns := by
  unfold tail at h
  split at h
  · rw [Logged.returns_pure h]
    exact .nil
  · split at h
    · rename_i hblock
      exact .of_closed (.inl (hmulti hblock)) ((hblocks _ _ h).mono (Nat.zero_le count))
    · rw [Logged.returns_pure h]
      exact .of_forall (List.forall_mem_singleton.mpr (Holds.ofText _))

theorem content_closed (hblocks : ReadsClosed blocks) {inner : List Char} {block : Bool}
    (h : (content blocks inner block).Returns ns) : Closed 0 ns := by
  unfold content at h
  split at h
  · exact hblocks _ _ h
  · rw [Logged.returns_pure h]
    exact (Closed.of_forall (List.forall_mem_singleton.mpr (Holds.ofText _))).mergeText

theorem ready_component {name : String} {attrs : Fields} {source : String} (h : Closed 0 ns) :
    Ready multi count [Node.component name attrs ns [("source", .str source)]] := by
  have hsettled : IsSettled [("source", .str source)] := by
    simp [IsSettled, Fields.get?]
  exact .of_closed (.inr ⟨_, rfl⟩) (.component hsettled (h.mono (Nat.zero_le count)))

theorem opened_ready (hblocks : ReadsClosed blocks) {tag : OpenTag} {rest : List Char}
    {block : Bool} (hmulti : block = true → multi)
    (h : (opened blocks tag rest block).Returns ns) : Ready multi count ns := by
  unfold opened at h
  dsimp only at h
  split at h
  · obtain ⟨more, hmore, h⟩ := Logged.returns_bind h
    rw [Logged.returns_pure h]
    exact (ready_component .nil).append (tail_ready hblocks hmulti hmore)
  · split at h
    · obtain ⟨children, hchildren, h⟩ := Logged.returns_bind h
      rw [Logged.returns_pure h]
      exact ready_component (content_closed hblocks hchildren)
    · obtain ⟨more, hmore, h⟩ := Logged.returns_bind h
      rw [Logged.returns_pure h]
      exact .marker (.opens _ _ _ _) (tail_ready hblocks hmulti hmore)

theorem unread_ready {message : String} {s : Option String} {block : Bool}
    (h : Logged.Returns (do Logged.debug .markdown message; return [literal s block]) ns) :
    Ready multi count ns := by
  obtain ⟨-, -, h⟩ := Logged.returns_bind h
  rw [Logged.returns_pure h]
  exact .of_forall (List.forall_mem_singleton.mpr (holds_literal s block))

theorem ofMarkup_ready (hblocks : ReadsClosed blocks) {src : String} {block : Bool}
    (hmulti : block = true → multi) (h : (ofMarkup blocks src block).Returns ns) :
    Ready multi count ns := by
  unfold ofMarkup at h
  dsimp only at h
  split at h
  · rw [Logged.returns_pure h]
    exact .of_forall (List.forall_mem_singleton.mpr (.raw rfl _))
  · split at h
    · exact opened_ready hblocks hmulti h
    · split at h
      · split at h
        · rw [Logged.returns_pure h]
          exact .of_marker (.closes _ _ _)
        · exact unread_ready h
      · exact unread_ready h

end Component

namespace Markdown

open Component

variable {multi : Prop} {count : Nat} {t : Token} {ts : List Token} {ns : List Node}
  {blocks : String → Logged (List Node)}

section Containers

/-- Whether a container becomes an element that is no part of a footnote, or nothing of its own. -/
def Container.Plain : Container → Prop
  | .element n => ∃ tag attrs data, n = Node.element tag attrs [] data ∧ Ordinary tag attrs ∧
      tag ≠ "code"
  | .transparent => True
  | .footnotes => False

theorem close_ready {c : Container} (hc : c.Plain) (h : Ready multi count ns) :
    Ready multi count (c.close ns) := by
  cases c with
  | element n =>
      obtain ⟨tag, attrs, data, rfl, hhead, hcode⟩ := hc
      exact .of_piece (.element hhead hcode h)
  | transparent => exact h
  | footnotes => exact hc.elim

theorem mem_elementAttributes {tag : String} {attrs : Fields} {f : String × Value}
    (hf : f ∈ elementAttributes tag attrs) : f.1 = "align" ∨ ∃ g ∈ attrs, f.1 = g.1 := by
  have hall : ∀ f ∈ elementAttributes tag attrs, f.1 = "align" ∨ ∃ g ∈ attrs, f.1 = g.1 := by
    refine List.foldlRecOn attrs _
      (motive := fun acc : Fields ↦ ∀ f ∈ acc, f.1 = "align" ∨ ∃ g ∈ attrs, f.1 = g.1)
      (List.forall_mem_nil _) ?_
    rintro acc hacc ⟨name, v⟩ hmem
    dsimp only
    intro f hf
    split at hf
    · split at hf
      · rcases Fields.mem_set hf with hf | rfl
        · exact hacc f hf
        · exact .inl rfl
      · exact hacc f hf
    · split at hf
      · rename_i hclass
        rcases Fields.mem_set hf with hf | rfl
        · exact hacc f hf
        · exact .inr ⟨(name, v), hmem, (beq_iff_eq.mp hclass).symm⟩
      · rcases Fields.mem_set hf with hf | rfl
        · exact hacc f hf
        · exact .inr ⟨(name, v), hmem, rfl⟩
  exact hall f hf

/-- A token that opens a container with a tag. -/
theorem containerOf_eq {c : Container} (htype : t.type ≠ "footnote_block_open")
    (hitem : t.type ≠ "footnote_open") (htag : t.tag ≠ "") (h : (containerOf t).Returns c) :
    c = .transparent ∨
      ∃ data, c = .element (Node.element t.tag (elementAttributes t.tag t.attrs) [] data) := by
  have hempty : t.tag.isEmpty = false := by simpa using htag
  unfold containerOf at h
  split at h
  · exact .inl (Logged.returns_pure h)
  · rw [if_neg (by simpa using htype), if_neg (by simpa using hitem), hempty,
      if_neg Bool.false_ne_true] at h
    dsimp only at h
    rw [if_neg Bool.false_ne_true] at h
    refine .inr ?_
    split at h
    · obtain ⟨level, -, h⟩ := Logged.returns_bind h
      exact ⟨_, Logged.returns_pure h⟩
    · exact ⟨_, Logged.returns_pure h⟩

theorem containerOf_plain {c : Container} (htype : t.type ≠ "footnote_block_open")
    (hitem : t.type ≠ "footnote_open") (htag : t.tag ∈ plainTags) (hcode : t.tag ≠ "code")
    (hnames : ∀ f ∈ t.attrs, f.1 ∈ plainNames)
    (hclass : t.tag = "a" → ∀ f ∈ t.attrs, f.1 ≠ "class") (h : (containerOf t).Returns c) :
    c.Plain := by
  have hne : t.tag ≠ "" := fun heq ↦ absurd (heq ▸ htag) (by decide)
  rcases containerOf_eq htype hitem hne h with rfl | ⟨data, rfl⟩
  · trivial
  · refine ⟨_, _, _, rfl, ordinary_of_plain htag ?_ ?_, hcode⟩
    · intro f hf
      rcases mem_elementAttributes hf with heq | ⟨g, hg, heq⟩
      · rw [heq]
        decide
      · rw [heq]
        exact hnames g hg
    · intro ha f hf hname
      rcases mem_elementAttributes hf with heq | ⟨g, hg, heq⟩
      · rw [hname] at heq
        exact absurd heq (by decide)
      · exact (hclass ha g hg (heq ▸ hname)).elim

end Containers

section Leaves

theorem holds_codeBlock (info content : String) : Holds .parsed (codeBlock info content) [] := by
  have hpre : Ordinary "pre" [] := ordinary_of_attrs_nil (by decide)
  refine .element hpre (fun _ ↦ rfl) (Holds.single ?_)
  have htext : HoldsAll .parsed [ofText content] [] := (Holds.ofText content).single
  dsimp only
  split
  · exact .element (ordinary_of_attrs_nil (by decide)) (fun _ ↦ rfl) htext
  · refine .element (ordinary_of_plain (by decide) ?_ ?_) (fun _ ↦ rfl) htext
    · simp [plainNames]
    · intro ha
      exact absurd ha (by decide)

theorem holds_image (attrs : Fields) (alt : String) : Holds .parsed (image attrs alt) [] := by
  refine .element (ordinary_of_plain (by decide) ?_ ?_) (fun _ ↦ rfl) .nil
  · cases attributeText? attrs "title" with
    | none => simp [plainNames]
    | some title => simp [plainNames]
  · intro ha
    exact absurd ha (by decide)

theorem holds_empty {tag : String} (htag : tag ∈ plainTags) :
    Holds .parsed (Node.element tag [] []) [] :=
  .element (ordinary_of_attrs_nil htag) (fun _ ↦ rfl) .nil

theorem holds_codeInline (content : String) :
    Holds .parsed (Node.element "code" [] [ofText content]) [] :=
  .element (ordinary_of_attrs_nil (by decide)) (fun _ ↦ rfl) (Holds.ofText content).single

/-- The number of a footnote that a token gives. -/
theorem footnoteLabel_eq {data : Fields} {k : Nat} {n label : String}
    (hid : data.get? "id" = some (.int k)) (h : footnoteLabel data = .ok (n, label)) :
    n = NotePart.number k := by
  unfold footnoteLabel at h
  rw [hid] at h
  dsimp only at h
  split at h
  · cases h
    rfl
  · cases h
    rfl
  · cases h

theorem ready_reference {n : Nat} {sub : Option Nat} (hn : n < count)
    (h : (simpleNodes blocks (Notes.referenceToken n sub)).Returns ns) :
    Ready multi count ns := by
  have htype : (Notes.referenceToken n sub).type = "footnote_ref" := rfl
  have hid : (Notes.referenceToken n sub).data.get? "id" = some (.int n) := rfl
  rw [simpleNodes, htype] at h
  obtain ⟨⟨k, label⟩, hlabel, h⟩ := Logged.returns_bind h
  rw [Logged.returns_pure h]
  obtain rfl := footnoteLabel_eq hid (Logged.returns_ofExcept hlabel)
  refine .of_holds (.reference _ label) ?_
  intro m label' hmem
  cases List.mem_singleton.mp hmem
  exact .inr ⟨n, hn, rfl⟩

theorem ready_backlink {n k : Nat}
    (h : (simpleNodes blocks
      { type := "footnote_anchor", data := [("id", .int n), ("subId", .int k)] }).Returns ns) :
    Ready multi count ns := by
  obtain ⟨⟨m, label⟩, -, h⟩ := Logged.returns_bind h
  rw [Logged.returns_pure h]
  have hanswered : Answered count [.backlink label] := by simp [Answered]
  exact (Ready.of_holds (Holds.ofText " ") .nil).append (.of_holds (.backlink label) hanswered)

end Leaves

section Building

/-- Whether a token is converted to siblings that are ready to be matched. -/
structure Convertible (blocks : String → Logged (List Node)) (multi : Prop) (count : Nat)
    (t : Token) : Prop where
  opens : t.nesting = .opens → ∀ c, (containerOf t).Returns c → c.Plain
  single : t.nesting = .single → ∀ ns, (leafNodes blocks t).Returns ns → Ready multi count ns

/-- Whether the siblings that have been made are ready to be matched. -/
structure Building.Ready (multi : Prop) (count : Nat) (b : Building) : Prop where
  opened : ∀ o ∈ b.opened, o.1.Plain ∧ Component.Ready multi count o.2.reverse
  out : Component.Ready multi count b.out.reverse

namespace Building

variable {b b' : Building}

theorem ready_empty : Building.Ready multi count {} :=
  ⟨List.forall_mem_nil _, .nil⟩

theorem ready_closed {c : Container} {before out : List Node} (hc : c.Plain)
    (hbefore : Component.Ready multi count before.reverse)
    (hout : Component.Ready multi count out.reverse) :
    Component.Ready multi count ((c.close out.reverse).reverse ++ before).reverse := by
  rw [List.reverse_append, List.reverse_reverse]
  exact hbefore.append (close_ready hc hout)

theorem Ready.add (h : b.Ready multi count) (hns : Component.Ready multi count ns) :
    (b.add ns).Ready multi count where
  opened := h.opened
  out := by
    rw [Building.add, List.reverse_append, List.reverse_reverse]
    exact h.out.append hns

theorem Ready.opening (h : b.Ready multi count) {c : Container} (hc : c.Plain) :
    (b.opening c).Ready multi count where
  opened := List.forall_mem_cons.mpr ⟨⟨hc, h.out⟩, h.opened⟩
  out := .nil

theorem Ready.closing (h : b.Ready multi count) : b.closing.Ready multi count := by
  unfold Building.closing
  split
  · exact ⟨h.opened, h.out⟩
  · rename_i c before outer hopened
    have hall := h.opened
    rw [hopened, List.forall_mem_cons] at hall
    exact ⟨hall.2, ready_closed hall.1.1 hall.1.2 h.out⟩

theorem unwind_ready {out : List Node} {opened : List (Container × List Node)}
    (hopened : ∀ o ∈ opened, o.1.Plain ∧ Component.Ready multi count o.2.reverse)
    (hout : Component.Ready multi count out.reverse) :
    Component.Ready multi count (unwind out opened) := by
  induction opened generalizing out with
  | nil => exact hout
  | cons o opened ih =>
      rw [List.forall_mem_cons] at hopened
      exact ih hopened.2 (ready_closed hopened.1.1 hopened.1.2 hout)

theorem Ready.nodes (h : b.Ready multi count) : Component.Ready multi count b.nodes :=
  unwind_ready h.opened h.out

end Building

/-- Converting tokens goes on behind siblings that are ready. Unless one closing token was too many,
the containers that are left open are those that the tokens leave open. -/
theorem convertFrom_convertible {us : List Token} {b b' : Building}
    (hts : ∀ t ∈ ts, Convertible blocks multi count t) (hb : b.Ready multi count)
    (h : (convertFrom blocks b (ts ++ us)).Returns b') :
    ∃ mid : Building, mid.Ready multi count ∧
      (mid.ended = false → b.ended = false ∧ mid.opened.length = b.opened.length + depth ts) ∧
      (convertFrom blocks mid us).Returns b' := by
  induction ts generalizing b with
  | nil => exact ⟨b, hb, fun hended ↦ ⟨hended, by simp⟩, h⟩
  | cons t ts ih =>
      rw [List.forall_mem_cons] at hts
      obtain ⟨hended, ⟨c, hnesting, hc, h⟩ | ⟨hnesting, h⟩ | ⟨ns, hnesting, hns, h⟩⟩ :=
        convertFrom_cons h
      · obtain ⟨mid, hmid, hdepth, h⟩ := ih hts.2 (hb.opening (hts.1.opens hnesting c hc)) h
        refine ⟨mid, hmid, fun hend ↦ ⟨hended, ?_⟩, h⟩
        rw [(hdepth hend).2, depth_cons, hnesting]
        simp only [Building.opening, List.length_cons, Nesting.depth]
        omega
      · obtain ⟨mid, hmid, hdepth, h⟩ := ih hts.2 hb.closing h
        refine ⟨mid, hmid, fun hend ↦ ⟨hended, ?_⟩, h⟩
        obtain ⟨hclosed, hlength⟩ := hdepth hend
        rw [hlength, depth_cons, hnesting]
        unfold Building.closing at hclosed ⊢
        cases hopened : b.opened with
        | nil =>
            rw [hopened] at hclosed
            cases hclosed
        | cons o outer =>
            simp only [List.length_cons, Nesting.depth]
            omega
      · obtain ⟨mid, hmid, hdepth, h⟩ := ih hts.2 (hb.add (hts.1.single hnesting ns hns)) h
        refine ⟨mid, hmid, fun hend ↦ ⟨hended, ?_⟩, h⟩
        rw [(hdepth hend).2, depth_cons, hnesting]
        simp [Building.add, Nesting.depth]

theorem convertFrom_ready {b b' : Building} (hts : ∀ t ∈ ts, Convertible blocks multi count t)
    (hb : b.Ready multi count) (h : (convertFrom blocks b ts).Returns b') :
    b'.Ready multi count := by
  rw [← List.append_nil ts] at h
  obtain ⟨mid, hmid, -, h⟩ := convertFrom_convertible hts hb h
  rw [Logged.returns_pure h]
  exact hmid

end Building

section Tokens

theorem convertible_single (hnesting : t.nesting = .single) (htype : t.type ≠ "inline")
    (h : ∀ ns, (simpleNodes blocks t).Returns ns → Ready multi count ns) :
    Convertible blocks multi count t where
  opens := fun hopens ↦ by simp [hnesting] at hopens
  single := fun _ ↦ by
    rw [leafNodes_of_ne htype]
    exact h

theorem convertible_opening (hnesting : t.nesting = .opens)
    (h : ∀ c, (containerOf t).Returns c → c.Plain) : Convertible blocks multi count t where
  opens := fun _ ↦ h
  single := fun hsingle ↦ by simp [hnesting] at hsingle

theorem convertible_closing (hnesting : t.nesting = .closes) :
    Convertible blocks multi count t where
  opens := fun hopens ↦ by simp [hnesting] at hopens
  single := fun hsingle ↦ by simp [hnesting] at hsingle

theorem convertible_of_holds (hnesting : t.nesting = .single) (htype : t.type ≠ "inline")
    {n : Node} (hn : Holds .parsed n []) (h : simpleNodes blocks t = pure [n]) :
    Convertible blocks multi count t := by
  refine convertible_single hnesting htype fun ns hns ↦ ?_
  rw [h] at hns
  rw [Logged.returns_pure hns]
  exact .of_holds hn .nil

theorem convertible_lineToken (hblocks : ReadsClosed blocks) (h : LineToken count t) :
    Convertible blocks multi count t := by
  cases h with
  | text s => exact convertible_of_holds rfl (by simp [Token.text]) (Holds.ofText _) rfl
  | lineEnd h =>
      simp only [List.mem_cons, List.not_mem_nil, or_false] at h
      rcases h with rfl | rfl
      · exact convertible_of_holds rfl (by simp) (Holds.ofText _) rfl
      · exact convertible_of_holds rfl (by simp) (holds_empty (by decide)) rfl
  | code content => exact convertible_of_holds rfl (by simp) (holds_codeInline _) rfl
  | opening h =>
      refine convertible_opening rfl fun c hc ↦ ?_
      simp only [emphases, List.mem_cons, List.not_mem_nil, or_false, Prod.mk.injEq] at h
      rcases h with ⟨rfl, -, rfl⟩ | ⟨rfl, -, rfl⟩ | ⟨rfl, -, rfl⟩
      · exact containerOf_plain (by decide) (by decide) (by decide) (by decide)
          (List.forall_mem_nil _) (fun _ ↦ List.forall_mem_nil _) hc
      · exact containerOf_plain (by decide) (by decide) (by decide) (by decide)
          (List.forall_mem_nil _) (fun _ ↦ List.forall_mem_nil _) hc
      · exact containerOf_plain (by decide) (by decide) (by decide) (by decide)
          (List.forall_mem_nil _) (fun _ ↦ List.forall_mem_nil _) hc
  | closing h => exact convertible_closing rfl
  | linkOpening href title =>
      have hnames : ∀ f ∈ targetAttributes "href" href title, f.1 = "href" ∨ f.1 = "title" := by
        unfold targetAttributes
        split
        · simp
        · simp
      refine convertible_opening rfl fun c hc ↦ ?_
      refine containerOf_plain (by simp [Token.opening]) (by simp [Token.opening])
        (by simp [Token.opening, plainTags]) (by simp [Token.opening]) ?_ ?_ hc
      · intro f hf
        rcases hnames f hf with heq | heq
        · rw [heq]
          decide
        · rw [heq]
          decide
      · intro _ f hf
        rcases hnames f hf with heq | heq
        · rw [heq]
          decide
        · rw [heq]
          decide
  | linkClosing => exact convertible_closing rfl
  | image src title content => exact convertible_of_holds rfl (by simp) (holds_image _ _) rfl
  | markup content =>
      exact convertible_single rfl (by simp) fun ns hns ↦ ofMarkup_ready hblocks (by simp) hns
  | reference hn sub =>
      exact convertible_single rfl (by simp [Notes.referenceToken]) fun ns hns ↦
        ready_reference hn hns

theorem convertible_leafToken (hblocks : ReadsClosed blocks) (h : LeafToken count t) :
    Convertible blocks True count t := by
  cases h with
  | text content hchildren =>
      refine ⟨fun hopens ↦ by simp at hopens, fun _ ns hns ↦ ?_⟩
      rw [leafNodes, if_pos (by rfl)] at hns
      obtain ⟨b, hb, hns⟩ := Logged.returns_bind hns
      rw [Logged.returns_pure hns]
      have hline : b.Ready False count := convertFrom_ready
        (fun t ht ↦ convertible_lineToken hblocks (hchildren t ht)) Building.ready_empty hb
      exact hline.nodes.mergeText.weaken
  | code content => exact convertible_of_holds rfl (by simp) (holds_codeBlock _ _) rfl
  | fence info content => exact convertible_of_holds rfl (by simp) (holds_codeBlock _ _) rfl
  | markup content =>
      exact convertible_single rfl (by simp) fun ns hns ↦
        ofMarkup_ready hblocks (fun _ ↦ trivial) hns
  | rule => exact convertible_of_holds rfl (by simp) (holds_empty (by decide)) rfl
  | backlink n k => exact convertible_single rfl (by simp) fun ns hns ↦ ready_backlink hns

theorem containerOf_openingToken {c : Container} (ht : OpeningToken t)
    (h : (containerOf t).Returns c) : c.Plain := by
  have htags : ∀ tag ∈ blockTags, tag ∈ plainTags ∧ tag ≠ "code" ∧ tag ≠ "a" := by decide
  obtain ⟨htag, hcode, ha⟩ := htags t.tag ht.tag
  have htype {type : String} (hmem : type ∈ structuralTypes) : t.type ≠ type :=
    fun heq ↦ ht.type (heq ▸ hmem)
  refine containerOf_plain (htype (by decide)) (htype (by decide)) htag hcode ?_ ?_ h
  · intro f hf
    have hnames : ∀ name ∈ ["class", "style", "start"], name ∈ plainNames := by decide
    exact hnames f.1 (ht.attrs f hf)
  · intro heq
    exact (ha heq).elim

theorem convertible_documentToken (hblocks : ReadsClosed blocks) (h : DocumentToken count t) :
    Convertible blocks True count t := by
  cases h with
  | opens h => exact convertible_opening h.nesting fun c ↦ containerOf_openingToken h
  | closes h => exact convertible_closing h.nesting
  | leaf h => exact convertible_leafToken hblocks h

end Tokens

end Markdown

end SafeMarkdown
