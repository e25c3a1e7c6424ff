import SafeMarkdown.Markdown.Tree
import SafeMarkdown.Proofs.Returns

/-!
# Conversion by recursive descent

The conversion of tokens is a loop over a stack of open containers. On tokens that nest well it does
what a reading by their nesting does: a container is made of what its own content becomes, whatever
is open around it. The two agree as computations: in what they return, in what they log and in how
they fail.

What holds of all nodes that the loop has made holds of the nodes in the end, if the containers leave
it alone.
-/

namespace SafeMarkdown.Markdown

section Nesting

mutual

/-- Whether the tokens of a line, if a token has any, nest well. -/
def lineNestsWell : Token → Bool
  | ⟨type, nesting, _, _, _, _, _, children, _⟩ =>
    nesting != .single || type != "inline" || nestsWellFrom 0 children

/-- Whether tokens close `depth` open containers and all that they open themselves, and no more. -/
def nestsWellFrom (depth : Nat) : List Token → Bool
  | [] => depth == 0
  | t :: rest =>
    lineNestsWell t &&
      match t.nesting with
      | .opens => nestsWellFrom (depth + 1) rest
      | .single => nestsWellFrom depth rest
      | .closes => 0 < depth && nestsWellFrom (depth - 1) rest

end

/-- Tokens in which each opening one is closed by a later one, also in every line. -/
def NestsWell (ts : List Token) : Prop :=
  nestsWellFrom 0 ts = true

instance (ts : List Token) : Decidable (NestsWell ts) :=
  inferInstanceAs (Decidable (_ = true))

/-- A part of a document, told by the nesting of its tokens. -/
inductive Span where
  | leaf (t : Token)
  | line (content : List Span)
  | container (opening : Token) (content : List Span)

/-- The reading of tokens by their nesting. Each token belongs to one span. -/
inductive Reads : List Token → List Span → Prop
  | nil : Reads [] []
  | leaf {t : Token} {ts : List Token} {spans : List Span} (hsingle : t.nesting = .single)
      (hleaf : t.type ≠ "inline") (hrest : Reads ts spans) : Reads (t :: ts) (.leaf t :: spans)
  | line {t : Token} {ts : List Token} {content spans : List Span} (hsingle : t.nesting = .single)
      (hline : t.type = "inline") (hcontent : Reads t.children content) (hrest : Reads ts spans) :
      Reads (t :: ts) (.line content :: spans)
  | container {o c : Token} {inner ts : List Token} {content spans : List Span}
      (hopens : o.nesting = .opens) (hcloses : c.nesting = .closes) (hcontent : Reads inner content)
      (hrest : Reads ts spans) : Reads (o :: (inner ++ c :: ts)) (.container o content :: spans)

/-- Tokens behind `depth` open containers: what the innermost one still holds, the token that closes
it, and so on outwards. -/
inductive Layers : Nat → List Token → Prop
  | top {ts : List Token} {spans : List Span} (h : Reads ts spans) : Layers 0 ts
  | close {depth : Nat} {c : Token} {inner ts : List Token} {spans : List Span}
      (hinner : Reads inner spans) (hcloses : c.nesting = .closes) (hrest : Layers depth ts) :
      Layers (depth + 1) (inner ++ c :: ts)

variable {first ts : List Token} {depth : Nat}

/-- What is read by itself belongs to the innermost layer. -/
theorem Layers.extend (h : Layers depth ts)
    (hfirst : ∀ us spans, Reads us spans → ∃ more, Reads (first ++ us) more) :
    Layers depth (first ++ ts) := by
  cases h with
  | top h =>
      obtain ⟨more, hmore⟩ := hfirst _ _ h
      exact .top hmore
  | close hinner hcloses hrest =>
      obtain ⟨more, hmore⟩ := hfirst _ _ hinner
      rw [← List.append_assoc]
      exact .close hmore hcloses hrest

mutual

theorem exists_reads_children : (t : Token) → lineNestsWell t = true → t.nesting = .single →
    t.type = "inline" → ∃ content, Reads t.children content
  | ⟨type, nesting, tag, attrs, content, info, hidden, children, data⟩, h, hsingle, hline => by
      have hwell : nestsWellFrom 0 children = true := by
        simpa [lineNestsWell, show nesting = .single from hsingle, show type = "inline" from hline]
          using h
      cases layers_of_nestsWellFrom 0 children hwell with
      | top h => exact ⟨_, h⟩

theorem layers_of_nestsWellFrom (depth : Nat) : (ts : List Token) →
    nestsWellFrom depth ts = true → Layers depth ts
  | [], h => by
      have hdepth : depth = 0 := by simpa [nestsWellFrom] using h
      subst hdepth
      exact .top .nil
  | t :: ts, h => by
      unfold nestsWellFrom at h
      rw [Bool.and_eq_true] at h
      obtain ⟨hline, h⟩ := h
      split at h
      · rename_i hopens
        -- the first of the layers behind the token is what its container holds
        cases layers_of_nestsWellFrom (depth + 1) ts h with
        | @close _ c inner rest spans hinner hcloses hrest =>
            have hfirst (us : List Token) (more : List Span) (hus : Reads us more) :
                ∃ more, Reads ((t :: (inner ++ [c])) ++ us) more := by
              refine ⟨.container t spans :: more, ?_⟩
              simpa using Reads.container hopens hcloses hinner hus
            simpa using hrest.extend hfirst
      · rename_i hsingle
        have hfirst (us : List Token) (spans : List Span) (hus : Reads us spans) :
            ∃ more, Reads ([t] ++ us) more := by
          by_cases htype : t.type = "inline"
          · obtain ⟨content, hcontent⟩ := exists_reads_children t hline hsingle htype
            exact ⟨_, .line hsingle htype hcontent hus⟩
          · exact ⟨_, .leaf hsingle htype hus⟩
        exact (layers_of_nestsWellFrom depth ts h).extend hfirst
      · rename_i hcloses
        rw [Bool.and_eq_true, decide_eq_true_eq] at h
        have hdeep := Layers.close .nil hcloses (layers_of_nestsWellFrom (depth - 1) ts h.2)
        rwa [Nat.sub_add_cancel h.1] at hdeep

end

theorem lineNestsWell_of_ne {t : Token} (h : t.nesting = .single → t.type ≠ "inline") :
    lineNestsWell t = true := by
  obtain ⟨type, nesting, tag, attrs, content, info, hidden, children, data⟩ := t
  cases nesting <;> simp_all [lineNestsWell]

theorem lineNestsWell_of_children {t : Token} (h : nestsWellFrom 0 t.children = true) :
    lineNestsWell t = true := by
  obtain ⟨type, nesting, tag, attrs, content, info, hidden, children, data⟩ := t
  simp [lineNestsWell, show nestsWellFrom 0 children = true from h]

/-- Tokens that are read by their nesting leave the depth as it is. -/
theorem nestsWellFrom_append_of_reads {spans : List Span} (h : Reads ts spans) (depth : Nat)
    (rest : List Token) : nestsWellFrom depth (ts ++ rest) = nestsWellFrom depth rest := by
  induction h generalizing depth rest with
  | nil => rfl
  | leaf hsingle hleaf hrest ih =>
      simp [nestsWellFrom, lineNestsWell_of_ne fun _ ↦ hleaf, hsingle, ih]
  | line hsingle hline hcontent hrest ihcontent ihrest =>
      have hchildren := ihcontent 0 []
      rw [List.append_nil] at hchildren
      simp [nestsWellFrom, lineNestsWell_of_children (hchildren.trans rfl), hsingle, ihrest]
  | container hopens hcloses hcontent hrest ihcontent ihrest =>
      simp [nestsWellFrom, lineNestsWell_of_ne, hopens, hcloses, ihcontent, ihrest]

/-- Tokens nest well if and only if they can be read by their nesting. -/
theorem nestsWell_iff_exists_reads : NestsWell ts ↔ ∃ spans, Reads ts spans := by
  constructor
  · intro h
    cases layers_of_nestsWellFrom 0 ts h with
    | top h => exact ⟨_, h⟩
  · rintro ⟨spans, h⟩
    have hsame := nestsWellFrom_append_of_reads h 0 []
    rw [List.append_nil] at hsame
    exact hsame.trans rfl

/-- A reading does not go on behind a token that closes what was opened before. -/
theorem Reads.not_append_closing {inner mid : List Token} {c : Token} {spans spans' : List Span}
    (h : Reads inner spans) (hcloses : c.nesting = .closes) :
    ¬ Reads (inner ++ c :: mid) spans' := by
  intro h'
  have hwell : NestsWell (inner ++ c :: mid) := nestsWell_iff_exists_reads.mpr ⟨_, h'⟩
  rw [NestsWell, nestsWellFrom_append_of_reads h] at hwell
  simp [nestsWellFrom, hcloses] at hwell

theorem Reads.append_closing_inj {inner inner' rest rest' : List Token} {c c' : Token}
    {spans spans' : List Span} (h : Reads inner spans) (h' : Reads inner' spans')
    (hcloses : c.nesting = .closes) (hcloses' : c'.nesting = .closes)
    (heq : inner ++ c :: rest = inner' ++ c' :: rest') : inner = inner' ∧ rest = rest' := by
  rcases List.append_eq_append_iff.mp heq with ⟨mid, hinner, hrest⟩ | ⟨mid, hinner, hrest⟩
  · cases mid with
    | nil => simp_all
    | cons t mid =>
        obtain ⟨rfl, -⟩ := List.cons.inj hrest
        exact (h.not_append_closing hcloses (hinner ▸ h')).elim
  · cases mid with
    | nil => simp_all
    | cons t mid =>
        obtain ⟨rfl, -⟩ := List.cons.inj hrest
        exact (h'.not_append_closing hcloses' (hinner ▸ h)).elim

/-- Tokens are read in one way only. -/
theorem Reads.unique {spans spans' : List Span} (h : Reads ts spans) (h' : Reads ts spans') :
    spans' = spans := by
  induction h generalizing spans' with
  | nil =>
      cases h'
      rfl
  | leaf hsingle hleaf hrest ih =>
      cases h' with
      | leaf _ _ hrest' => rw [ih hrest']
      | line _ hline => exact absurd hline hleaf
      | container hopens => simp [hsingle] at hopens
  | line hsingle hline hcontent hrest ihcontent ihrest =>
      cases h' with
      | leaf _ hleaf => exact absurd hline hleaf
      | line _ _ hcontent' hrest' => rw [ihcontent hcontent', ihrest hrest']
      | container hopens => simp [hsingle] at hopens
  | @container o c inner ts content spans hopens hcloses hcontent hrest ihcontent ihrest =>
      generalize heq : o :: (inner ++ c :: ts) = tokens at h'
      cases h' with
      | nil => cases heq
      | leaf hsingle =>
          obtain ⟨rfl, -⟩ := List.cons.inj heq
          simp [hsingle] at hopens
      | line hsingle =>
          obtain ⟨rfl, -⟩ := List.cons.inj heq
          simp [hsingle] at hopens
      | container _ hcloses' hcontent' hrest' =>
          obtain ⟨rfl, htail⟩ := List.cons.inj heq
          obtain ⟨rfl, rfl⟩ := hcontent.append_closing_inj hcontent' hcloses hcloses' htail
          rw [ihcontent hcontent', ihrest hrest']

end Nesting

section Descent

/-- The element of a container that is no hidden paragraph and no block of footnotes. -/
def elementOf (t : Token) : Logged Node := do
  if t.type == "footnote_open" then
    let (n, _) ← Logged.ofExcept (footnoteLabel t.data)
    return Node.element "li" [("id", .str ("fn-" ++ n)), ("class", .arr [.str "footnote-item"])] []
  if t.tag.isEmpty then
    Logged.debug .markdown ("Container token " ++ t.type ++ " has no tag; using div")
  let tag := if t.tag.isEmpty then "div" else t.tag
  let level ← if t.type == "heading_open" then
      (fun level ↦ [("level", Value.int level)]) <$> Logged.ofExcept (levelOf tag)
    else pure []
  return Node.element tag (elementAttributes tag t.attrs) [] level

variable (blocks : String → Logged (List Node))

mutual

/-- The nodes of a span by recursive descent. A hidden paragraph has no node of its own, and
footnotes are a list in a section. -/
def Span.nodes : Span → Logged (List Node)
  | .leaf t => simpleNodes blocks t
  | .line content => do return Node.mergeText (← nodesOf content)
  | .container t content =>
    if t.type == "paragraph_open" && t.hidden then nodesOf content
    else if t.type == "footnote_block_open" then do
      let items := Node.element "ol" [("class", .arr [.str "footnotes-list"])] (← nodesOf content)
      return [Node.element "section" [("class", .arr [.str "footnotes"])] [items]]
    else do
      let n ← elementOf t
      return [{ n with children := ← nodesOf content }]

def nodesOf : List Span → Logged (List Node)
  | [] => pure []
  | s :: rest => do
    let nodes ← s.nodes
    return nodes ++ (← nodesOf rest)

end

/-- The children of a node with those that tokens are converted to behind them. -/
def convertInto (before : List Node) (ts : List Token) : Logged (List Node) := do
  let b ← convertFrom blocks { out := before.reverse } ts
  return b.nodes

end Descent

section Keeping

variable {P : Node → Prop} {c : Container} {b : Building} {before out ns : List Node}

/-- Whether a container leaves alone what holds of all siblings in it. -/
def Container.Keeps (c : Container) (P : Node → Prop) : Prop :=
  ∀ ns, (∀ n ∈ ns, P n) → ∀ n ∈ c.close ns, P n

/-- A container that closes joins the siblings before it. -/
theorem Container.Keeps.closed (hc : c.Keeps P) (hbefore : ∀ n ∈ before, P n)
    (hout : ∀ n ∈ out, P n) : ∀ n ∈ (c.close out.reverse).reverse ++ before, P n := by
  refine List.forall_mem_append.mpr ⟨fun n hn ↦ ?_, hbefore⟩
  exact hc out.reverse (fun m hm ↦ hout m (List.mem_reverse.mp hm)) n (List.mem_reverse.mp hn)

/-- Closing all containers that are open leaves alone what they all do. -/
theorem Building.forall_mem_unwind {opened : List (Container × List Node)}
    (hopened : ∀ o ∈ opened, o.1.Keeps P ∧ ∀ n ∈ o.2, P n) (hout : ∀ n ∈ out, P n) :
    ∀ n ∈ unwind out opened, P n := by
  induction opened generalizing out with
  | nil => exact fun n hn ↦ hout n (List.mem_reverse.mp hn)
  | cons o opened ih =>
      rw [List.forall_mem_cons] at hopened
      exact ih hopened.2 (hopened.1.1.closed hopened.1.2 hout)

/-- Whether something holds of all nodes that have been made, and the open containers leave it
alone. -/
structure Building.AllHold (P : Node → Prop) (b : Building) : Prop where
  opened : ∀ o ∈ b.opened, o.1.Keeps P ∧ ∀ n ∈ o.2, P n
  out : ∀ n ∈ b.out, P n

namespace Building.AllHold

theorem empty : AllHold P {} :=
  ⟨List.forall_mem_nil _, List.forall_mem_nil _⟩

theorem add (h : b.AllHold P) (hns : ∀ n ∈ ns, P n) : (b.add ns).AllHold P where
  opened := h.opened
  out := List.forall_mem_append.mpr ⟨fun n hn ↦ hns n (List.mem_reverse.mp hn), h.out⟩

theorem opening (h : b.AllHold P) (hc : c.Keeps P) : (b.opening c).AllHold P where
  opened := List.forall_mem_cons.mpr ⟨⟨hc, h.out⟩, h.opened⟩
  out := List.forall_mem_nil _

theorem closing (h : b.AllHold P) : b.closing.AllHold P := by
  unfold Building.closing
  split
  · exact ⟨h.opened, h.out⟩
  · rename_i c before outer hopened
    have hall := h.opened
    rw [hopened, List.forall_mem_cons] at hall
    exact ⟨hall.2, hall.1.1.closed hall.1.2 h.out⟩

theorem nodes (h : b.AllHold P) : ∀ n ∈ b.nodes, P n :=
  forall_mem_unwind h.opened h.out

end Building.AllHold

end Keeping

section Agreement

variable {blocks : String → Logged (List Node)} {ts : List Token} {b : Building}

theorem convert_eq_convertInto (ts : List Token) :
    convert blocks ts = convertInto blocks [] ts := rfl

theorem containerOf_eq_elementOf (t : Token) :
    containerOf t = if t.type == "paragraph_open" && t.hidden then pure .transparent
      else if t.type == "footnote_block_open" then pure .footnotes
      else Container.element <$> elementOf t := by
  unfold containerOf elementOf
  split
  · rfl
  · split
    · rfl
    · split
      · simp
      · by_cases htag : t.tag.isEmpty = true <;>
          by_cases htype : (t.type == "heading_open") = true <;>
            simp [htag, htype, Node.element]

theorem close_transparent : Container.transparent.close = id := rfl

/-- A container opens before its content is converted and takes the content when it closes. -/
theorem nodes_container (t : Token) (content : List Span) :
    (Span.container t content).nodes blocks =
      containerOf t >>= fun c ↦ c.close <$> nodesOf blocks content := by
  rw [Span.nodes, containerOf_eq_elementOf]
  split
  · simp [close_transparent]
  · split
    · rw [pure_bind, map_eq_pure_bind]
      rfl
    · rw [bind_map_left]
      refine bind_congr fun n ↦ ?_
      rw [map_eq_pure_bind]
      rfl

namespace Building

theorem add_nil (b : Building) : b.add [] = b := rfl

theorem add_add (b : Building) (ns ms : List Node) : (b.add ns).add ms = b.add (ns ++ ms) := by
  simp [add]

theorem closing_opening (b : Building) (c : Container) (ns : List Node) :
    ((b.opening c).add ns).closing = b.add (c.close ns) := by
  simp [opening, add, closing]

end Building

theorem convertFrom_cons_of_not_ended {t : Token} (hb : b.ended = false) :
    convertFrom blocks b (t :: ts) =
      match t.nesting with
      | .opens => containerOf t >>= fun c ↦ convertFrom blocks (b.opening c) ts
      | .closes => convertFrom blocks b.closing ts
      | .single => leafNodes blocks t >>= fun ns ↦ convertFrom blocks (b.add ns) ts := by
  rw [convertFrom, hb]
  rfl

/-- What converting one token does before the rest is converted. -/
theorem convertFrom_cons {t : Token} {b' : Building}
    (h : (convertFrom blocks b (t :: ts)).Returns b') :
    b.ended = false ∧
      ((∃ c, t.nesting = .opens ∧ (containerOf t).Returns c ∧
          (convertFrom blocks (b.opening c) ts).Returns b') ∨
        (t.nesting = .closes ∧ (convertFrom blocks b.closing ts).Returns b') ∨
        ∃ ns, t.nesting = .single ∧ (leafNodes blocks t).Returns ns ∧
          (convertFrom blocks (b.add ns) ts).Returns b') := by
  cases hb : b.ended with
  | true =>
      rw [convertFrom, hb, if_pos rfl] at h
      obtain ⟨-, h, -⟩ := Logged.returns_bind h
      exact (Logged.not_returns_throw h).elim
  | false =>
      rw [convertFrom_cons_of_not_ended hb] at h
      refine ⟨rfl, ?_⟩
      cases hnesting : t.nesting with
      | opens =>
          rw [hnesting] at h
          obtain ⟨c, hc, h⟩ := Logged.returns_bind h
          exact .inl ⟨c, rfl, hc, h⟩
      | closes =>
          rw [hnesting] at h
          exact .inr (.inl ⟨rfl, h⟩)
      | single =>
          rw [hnesting] at h
          obtain ⟨ns, hns, h⟩ := Logged.returns_bind h
          exact .inr (.inr ⟨ns, rfl, hns, h⟩)

theorem leafNodes_of_ne {t : Token} (h : t.type ≠ "inline") :
    leafNodes blocks t = simpleNodes blocks t := by
  obtain ⟨type, nesting, tag, attrs, content, info, hidden, children, data⟩ := t
  rw [leafNodes, if_neg (by simpa using h)]

theorem leafNodes_line {t : Token} (h : t.type = "inline") :
    leafNodes blocks t =
      convertFrom blocks {} t.children >>= fun b ↦ pure (Node.mergeText b.nodes) := by
  obtain ⟨type, nesting, tag, attrs, content, info, hidden, children, data⟩ := t
  rw [leafNodes, if_pos (by simpa using h)]

theorem nodesOf_cons (s : Span) (spans : List Span) :
    nodesOf blocks (s :: spans) =
      s.nodes blocks >>= fun ns ↦ nodesOf blocks spans >>= fun ms ↦ pure (ns ++ ms) := by
  rw [nodesOf]

/-- In front of whatever follows, and whatever is open, tokens that are read by their nesting add
the nodes of their spans and leave the open containers as they are. -/
theorem convertFrom_of_reads {spans : List Span} (h : Reads ts spans) :
    ∀ (b : Building) (rest : List Token), b.ended = false →
      convertFrom blocks b (ts ++ rest) =
        nodesOf blocks spans >>= fun ns ↦ convertFrom blocks (b.add ns) rest := by
  induction h with
  | nil =>
      intro b rest hb
      simp [nodesOf, Building.add_nil]
  | leaf hsingle hleaf hrest ih =>
      intro b rest hb
      rw [List.cons_append, convertFrom_cons_of_not_ended hb, hsingle, leafNodes_of_ne hleaf,
        nodesOf_cons, Span.nodes, bind_assoc]
      refine bind_congr fun ns ↦ ?_
      simp [ih (b.add ns) rest hb, Building.add_add]
  | @line t ts content spans hsingle hline hcontent hrest ihcontent ihrest =>
      intro b rest hb
      have hnodes : leafNodes blocks t =
          nodesOf blocks content >>= fun ns ↦ pure (Node.mergeText ns) := by
        have hinner := ihcontent {} [] rfl
        rw [List.append_nil] at hinner
        rw [leafNodes_line hline, hinner, bind_assoc]
        refine bind_congr fun ns ↦ ?_
        simp [convertFrom, Building.nodes, Building.add, Building.unwind]
      rw [List.cons_append, convertFrom_cons_of_not_ended hb, hsingle, nodesOf_cons, Span.nodes,
        bind_assoc, ← hnodes]
      refine bind_congr fun ns ↦ ?_
      simp [ihrest (b.add ns) rest hb, Building.add_add]
  | @container o c inner ts content spans hopens hcloses hcontent hrest ihcontent ihrest =>
      intro b rest hb
      rw [List.cons_append, List.append_assoc, List.cons_append, convertFrom_cons_of_not_ended hb,
        hopens, nodesOf_cons, nodes_container, bind_assoc, bind_assoc]
      refine bind_congr fun k ↦ ?_
      rw [ihcontent (b.opening k) _ hb, bind_map_left]
      refine bind_congr fun ns ↦ ?_
      have hended : ((b.opening k).add ns).ended = false := hb
      rw [convertFrom_cons_of_not_ended hended, hcloses]
      simp [Building.closing_opening, ihrest (b.add (k.close ns)) rest hb, Building.add_add]

theorem convertInto_append {spans : List Span} (h : Reads ts spans) (before : List Node)
    (rest : List Token) :
    convertInto blocks before (ts ++ rest) =
      nodesOf blocks spans >>= fun ns ↦ convertInto blocks (before ++ ns) rest := by
  unfold convertInto
  rw [convertFrom_of_reads h _ rest rfl, bind_assoc]
  refine bind_congr fun ns ↦ ?_
  simp [Building.add]

theorem convertInto_nil (before : List Node) : convertInto blocks before [] = pure before := by
  simp [convertInto, convertFrom, Building.nodes, Building.unwind]

/-- Tokens that nest well are converted to the nodes of the one way to read them, behind what is
there before, and tokens behind them are converted as if they came later and by themselves. -/
theorem convertInto_of_nestsWell (hts : NestsWell ts) :
    ∃ spans, (∀ other, Reads ts other ↔ other = spans) ∧
      convert blocks ts = nodesOf blocks spans ∧
      (∀ before, convertInto blocks before ts =
        nodesOf blocks spans >>= fun ns ↦ pure (before ++ ns)) ∧
      ∀ before us, convertInto blocks before (ts ++ us) =
        convertInto blocks before ts >>= fun between ↦ convertInto blocks between us := by
  obtain ⟨spans, hspans⟩ := nestsWell_iff_exists_reads.mp hts
  have hinto (before : List Node) :
      convertInto blocks before ts = nodesOf blocks spans >>= fun ns ↦ pure (before ++ ns) := by
    have happend : convertInto blocks before (ts ++ []) = _ := convertInto_append hspans before []
    simpa [convertInto_nil] using happend
  refine ⟨spans, fun other ↦ ⟨hspans.unique, ?_⟩, ?_, hinto, ?_⟩
  · rintro rfl
    exact hspans
  · rw [convert_eq_convertInto, hinto]
    simp
  · intro before us
    rw [convertInto_append hspans, hinto, bind_assoc]
    simp

/-- A list without paragraphs of its own, and a footnote. -/
def tightList : List Token := [
  .opening "bullet_list_open" "ul", .opening "list_item_open" "li",
  { Token.opening "paragraph_open" "p" with hidden := true },
  { type := "inline", children := [.text ['a'], .opening "em_open" "em", .text ['b'],
    .closing "em_close" "em"] },
  .closing "paragraph_close" "p", .closing "list_item_close" "li",
  .closing "bullet_list_close" "ul",
  .opening "footnote_block_open" "section",
  { Token.opening "footnote_open" "li" with data := [("id", .int 0)] },
  { type := "text", content := "c" },
  .closing "footnote_close" "li", .closing "footnote_block_close" "section"]

theorem convertInto_of_nestsWell_tightList : NestsWell tightList ∧
    ∃ spans ns, Reads tightList spans ∧ (nodesOf (fun _ ↦ pure []) spans).Returns ns ∧
      (Node.walk.walkAll ns).map (fun n ↦ (n.tagName, n.text)) =
        [("ul", ""), ("li", ""), ("", "a"), ("em", ""), ("", "b"), ("section", ""), ("ol", ""),
          ("li", ""), ("", "c")] := by
  have hwell : NestsWell tightList := by decide
  obtain ⟨spans, hreads, hconvert, -⟩ := @convertInto_of_nestsWell (fun _ ↦ pure []) _ hwell
  have hcomputed : (convert (fun _ ↦ pure []) tightList).outcome.1.toOption.map
      (fun ns ↦ (Node.walk.walkAll ns).map fun n ↦ (n.tagName, n.text)) =
      some [("ul", ""), ("li", ""), ("", "a"), ("em", ""), ("", "b"), ("section", ""), ("ol", ""),
        ("li", ""), ("", "c")] := by
    decide +kernel
  obtain ⟨ns, hreturns, hnames⟩ := Logged.exists_returns hcomputed
  exact ⟨hwell, spans, ns, (hreads spans).mpr rfl, hconvert ▸ hreturns, hnames⟩

end Agreement

end SafeMarkdown.Markdown
