import SafeMarkdown.Proofs.Footnote.Convert
import SafeMarkdown.Proofs.Markdown.Descent

/-!
# The footnotes of a document

Behind the siblings that the text becomes stands the section of footnotes. The containers of the text
are all closed before it, so its items are in no component, whatever markers stand in the text. Every
reference has its item there.
-/

namespace SafeMarkdown

open Node

namespace Markdown

open Component

variable {count : Nat} {t : Token} {ts : List Token} {ns : List Node}
  {blocks : String → Logged (List Node)}

section Items

variable {us : List Token} {b b' : Building}

theorem convertFrom_single (hnesting : t.nesting = .single)
    (h : (convertFrom blocks b (t :: ts)).Returns b') :
    ∃ ns, (leafNodes blocks t).Returns ns ∧ (convertFrom blocks (b.add ns) ts).Returns b' := by
  obtain ⟨-, ⟨c, hopens, -⟩ | ⟨hcloses, -⟩ | ⟨ns, -, h⟩⟩ := convertFrom_cons h
  · simp [hnesting] at hopens
  · simp [hnesting] at hcloses
  · exact ⟨ns, h⟩

theorem convertFrom_opening (hnesting : t.nesting = .opens)
    (h : (convertFrom blocks b (t :: ts)).Returns b') :
    b.ended = false ∧ ∃ c, (containerOf t).Returns c ∧
      (convertFrom blocks (b.opening c) ts).Returns b' := by
  obtain ⟨hended, ⟨c, -, h⟩ | ⟨hcloses, -⟩ | ⟨ns, hsingle, -⟩⟩ := convertFrom_cons h
  · exact ⟨hended, c, h⟩
  · simp [hnesting] at hcloses
  · simp [hnesting] at hsingle

theorem convertFrom_closing (hnesting : t.nesting = .closes)
    (h : (convertFrom blocks b (t :: ts)).Returns b') :
    (convertFrom blocks b.closing ts).Returns b' := by
  obtain ⟨-, ⟨c, hopens, -⟩ | ⟨-, h⟩ | ⟨ns, hsingle, -⟩⟩ := convertFrom_cons h
  · simp [hnesting] at hopens
  · exact h
  · simp [hnesting] at hsingle

/-- Nested tokens become siblings, and the containers around them stay as they are. -/
theorem convertFrom_nested (hblocks : ReadsClosed blocks) (hts : Nested False count ts)
    (h : (convertFrom blocks b (ts ++ us)).Returns b') :
    ∃ ns, Ready True count ns ∧ (convertFrom blocks (b.add ns) us).Returns b' := by
  induction hts generalizing b us with
  | nil => exact ⟨[], .nil, h⟩
  | leaf ht hrest ih =>
      obtain ⟨ns, hns, h⟩ := convertFrom_single ht.nesting h
      obtain ⟨ms, hms, h⟩ := ih h
      have hready := (convertible_leafToken hblocks ht).single ht.nesting ns hns
      refine ⟨ns ++ ms, hready.append hms, ?_⟩
      rw [← Building.add_add]
      exact h
  | container ho hc hcontent hrest ihcontent ih =>
      rw [List.cons_append, List.cons_append, List.append_assoc] at h
      obtain ⟨-, c, hopened, h⟩ := convertFrom_opening ho.nesting h
      obtain ⟨ns, hns, h⟩ := ihcontent h
      have h := convertFrom_closing hc.nesting h
      rw [Building.closing_opening] at h
      obtain ⟨ms, hms, h⟩ := ih h
      have hready := close_ready (containerOf_openingToken ho hopened) hns
      refine ⟨c.close ns ++ ms, hready.append hms, ?_⟩
      rw [← Building.add_add]
      exact h
  | definition hdefines => exact hdefines.elim

/-- An item of the section of footnotes before the markers in it are matched. -/
def IsItem (count k : Nat) (n : Node) : Prop :=
  ∃ content, n = noteItem (NotePart.number k) [] content ∧ Ready True count content

theorem convertFrom_item (hblocks : ReadsClosed blocks) {k : Nat} (hts : Nested False count ts)
    (h : (convertFrom blocks b (itemTokens k ts ++ us)).Returns b') :
    ∃ n, IsItem count k n ∧ (convertFrom blocks (b.add [n]) us).Returns b' := by
  rw [itemTokens, List.cons_append, List.cons_append, List.append_assoc] at h
  obtain ⟨-, c, hc, h⟩ := convertFrom_opening rfl h
  obtain ⟨⟨n, label⟩, hlabel, hc⟩ := Logged.returns_bind hc
  obtain rfl := footnoteLabel_eq rfl (Logged.returns_ofExcept hlabel)
  obtain rfl := Logged.returns_pure hc
  obtain ⟨ns, hns, h⟩ := convertFrom_nested hblocks hts h
  have h := convertFrom_closing rfl h
  rw [Building.closing_opening] at h
  exact ⟨_, ⟨ns, rfl, hns⟩, h⟩

theorem convertFrom_items (hblocks : ReadsClosed blocks) {items : List (Nat × List Token)}
    (hitems : ∀ i ∈ items, Nested False count i.2)
    (h : (convertFrom blocks b (items.flatMap (fun i ↦ itemTokens i.1 i.2) ++ us)).Returns b') :
    ∃ ns, List.Forall₂ (IsItem count) (items.map Prod.fst) ns ∧
      (convertFrom blocks (b.add ns) us).Returns b' := by
  induction items generalizing b with
  | nil => exact ⟨[], .nil, h⟩
  | cons i items ih =>
      rw [List.forall_mem_cons] at hitems
      rw [List.flatMap_cons, List.append_assoc] at h
      obtain ⟨n, hn, h⟩ := convertFrom_item hblocks hitems.1 h
      obtain ⟨ns, hns, h⟩ := ih hitems.2 h
      rw [Building.add_add] at h
      exact ⟨n :: ns, .cons hn hns, h⟩

/-- The element around the items of a document. -/
def footnoteSection (items : List Node) : Node :=
  Node.element "section" [("class", .arr [.str "footnotes"])]
    [Node.element "ol" [("class", .arr [.str "footnotes-list"])] items]

/-- A document with footnotes becomes siblings that are ready and the section behind them. -/
theorem convert_laid (hblocks : ReadsClosed blocks) {items : List (Nat × List Token)}
    (hlaid : Laid count ts items) (hsome : items ≠ [])
    (h : (convert blocks (ts ++ sectionTokens items)).Returns ns) :
    ∃ before nodes, ns = before ++ [footnoteSection nodes] ∧ Ready True count before ∧
      List.Forall₂ (IsItem count) (List.range count) nodes := by
  obtain ⟨b, hb, h⟩ := Logged.returns_bind h
  obtain rfl := Logged.returns_pure h
  have htext : ∀ t ∈ ts, Convertible blocks True count t :=
    fun t ht ↦ convertible_documentToken hblocks (hlaid.text t ht)
  obtain ⟨mid, hmid, hdepth, h⟩ := convertFrom_convertible htext Building.ready_empty hb
  rw [sectionTokens, if_neg (by simpa using hsome), List.cons_append] at h
  obtain ⟨hended, c, hc, h⟩ := convertFrom_opening rfl h
  -- The text has closed all that it opened.
  have hopened : mid.opened = [] := by
    have hlength : (mid.opened.length : Int) = (0 : Nat) + depth ts := (hdepth hended).2
    have hle := hlaid.depth
    apply List.eq_nil_of_length_eq_zero
    omega
  obtain rfl := Logged.returns_pure hc
  obtain ⟨nodes, hnodes, h⟩ := convertFrom_items hblocks hlaid.items h
  have h := convertFrom_closing rfl h
  rw [Building.closing_opening] at h
  obtain rfl := Logged.returns_pure h
  rw [hlaid.numbers] at hnodes
  refine ⟨mid.out.reverse, nodes, ?_, hmid.out, hnodes⟩
  simp [Building.nodes, Building.add, hopened, Building.unwind, Container.close, footnoteSection]

end Items

section Documents

theorem holds_item {k : Nat} {n m : Node} (hn : IsItem count k n) (h : foldBelow n = .ok m) :
    ∃ ps, Holds .parsed m ps ∧ Answered count ps ∧ .item (NotePart.number k) ∈ ps := by
  obtain ⟨content, rfl, hcontent⟩ := hn
  obtain ⟨nodes, hnodes, rfl⟩ := foldBelow_eq_ok h
  obtain ⟨ps, hps, hanswered⟩ := fold_closed hcontent hnodes
  exact ⟨_, .item _ [] hps, hanswered.item _, List.mem_cons_self⟩

theorem holds_items {ks : List Nat} {nodes ms : List Node}
    (hnodes : List.Forall₂ (IsItem count) ks nodes) (h : FoldsEach nodes ms) :
    ∃ ps, HoldsAll .parsed ms ps ∧ Answered count ps ∧ ∀ k ∈ ks, .item (NotePart.number k) ∈ ps := by
  induction hnodes generalizing ms with
  | nil =>
      cases h
      exact ⟨[], .nil, .nil, List.forall_mem_nil _⟩
  | cons hn hnodes ih =>
      cases h with
      | cons hm hms =>
          obtain ⟨ps, hps, hanswered, hitem⟩ := holds_item hn hm
          obtain ⟨qs, hqs, hanswered', hitems⟩ := ih hms
          refine ⟨ps ++ qs, .cons hps hqs, hanswered.append hanswered', ?_⟩
          refine List.forall_mem_cons.mpr ⟨List.mem_append_left qs hitem, fun k hk ↦ ?_⟩
          exact List.mem_append_right ps (hitems k hk)

theorem not_isMarker_item {ks : List Nat} {nodes : List Node}
    (h : List.Forall₂ (IsItem count) ks nodes) : ∀ n ∈ nodes, isMarker n = false := by
  induction h with
  | nil => exact List.forall_mem_nil _
  | cons hn hnodes ih =>
      obtain ⟨content, rfl, -⟩ := hn
      exact List.forall_mem_cons.mpr ⟨rfl, ih⟩

theorem holds_footnoteSection {ks : List Nat} {nodes : List Node} {m : Node}
    (hnodes : List.Forall₂ (IsItem count) ks nodes)
    (h : foldBelow (footnoteSection nodes) = .ok m) :
    ∃ ps, Holds .parsed m ps ∧ Answered count ps ∧ ∀ k ∈ ks, .item (NotePart.number k) ∈ ps := by
  obtain ⟨lists, hlists, rfl⟩ := foldBelow_eq_ok h
  obtain ⟨ms, hms, rfl⟩ := fold_of_not_marker (List.forall_mem_singleton.mpr rfl) hlists
  obtain ⟨list, hlist, rfl⟩ : ∃ list, foldBelow
      (Node.element "ol" [("class", .arr [.str "footnotes-list"])] nodes) = .ok list ∧
      ms = [list] := by
    cases hms with
    | cons hm hrest =>
        cases hrest
        exact ⟨_, hm, rfl⟩
  obtain ⟨items, hitems, rfl⟩ := foldBelow_eq_ok hlist
  obtain ⟨each, heach, rfl⟩ := fold_of_not_marker (not_isMarker_item hnodes) hitems
  obtain ⟨ps, hps, hanswered, hall⟩ := holds_items hnodes heach
  refine ⟨ps, ?_, hanswered, hall⟩
  have hordinary {tag name : String} (htag : tag ∈ plainTags) (ha : tag ≠ "a") :
      Ordinary tag [("class", .arr [.str name])] :=
    ordinary_of_plain htag (by simp [plainNames]) fun heq ↦ (ha heq).elim
  have hlist : Holds .parsed
      (Node.element "ol" [("class", .arr [.str "footnotes-list"])] (mergeText each)) ps :=
    .element (hordinary (by decide) (by decide)) (fun heq ↦ absurd heq (by decide)) hps.mergeText
  exact .element (hordinary (by decide) (by decide)) (fun heq ↦ absurd heq (by decide))
    hlist.single.mergeText

/-- Where all items are, no reference waits for one. -/
theorem answered_of_items {ps : List NotePart} (h : Answered count ps)
    (hitems : ∀ k < count, .item (NotePart.number k) ∈ ps) : Answered 0 ps := by
  intro n label hmem
  rcases h n label hmem with hitem | ⟨k, hk, rfl⟩
  · exact .inl hitem
  · exact .inl (hitems k hk)

/-- Every reference of a document has its item, by induction on how deeply documents may nest in
components. -/
theorem documentNodes_closed (dialect : Dialect) (depth : Nat) :
    ReadsClosed (documentNodes dialect depth) := by
  induction depth with
  | zero =>
      intro body ns h
      rw [Logged.returns_pure h]
      exact .nil
  | succ depth ih =>
      intro body ns h
      obtain ⟨ts, hts, h⟩ := Logged.returns_bind h
      obtain ⟨nodes, hnodes, h⟩ := Logged.returns_bind h
      have hfold := Logged.returns_ofExcept h
      obtain ⟨count, text, items, rfl, hlaid⟩ :=
        exists_laid_tokens (Logged.returns_ofExcept hts)
      by_cases hsome : items = []
      · have hcount : count = 0 := by
          have hlength := congrArg List.length hlaid.numbers
          simpa [hsome] using hlength.symm
        subst hcount
        rw [hsome, sectionTokens, if_pos (by rfl), List.append_nil] at hnodes
        obtain ⟨b, hb, hnodes⟩ := Logged.returns_bind hnodes
        rw [Logged.returns_pure hnodes] at hfold
        have hready := convertFrom_ready
          (fun t ht ↦ convertible_documentToken ih (hlaid.text t ht)) Building.ready_empty hb
        exact fold_closed hready.nodes hfold
      · obtain ⟨before, each, rfl, hbefore, heach⟩ := convert_laid ih hlaid hsome hnodes
        obtain ⟨first, m, hm, ⟨ps, hps, hanswered⟩, rfl⟩ := fold_concat hbefore rfl hfold
        obtain ⟨qs, hqs, hanswered', hitems⟩ := holds_footnoteSection heach hm
        refine ⟨ps ++ qs, (hps.append hqs.single).mergeText, ?_⟩
        refine answered_of_items (hanswered.append hanswered') fun k hk ↦ ?_
        exact List.mem_append_right ps (hitems k (List.mem_range.mpr hk))

theorem parse_closed {dialect : Dialect} {body : String} {tree : Node}
    (h : (parse dialect body).Returns tree) :
    ∃ ns ps, tree = root ns ∧ HoldsAll .parsed ns ps ∧ Answered 0 ps := by
  obtain ⟨ns, hns, h⟩ := Logged.returns_bind h
  obtain ⟨ps, hps, hanswered⟩ := documentNodes_closed dialect _ body ns hns
  exact ⟨ns, ps, Logged.returns_pure h, hps, hanswered⟩

end Documents

end Markdown

end SafeMarkdown
