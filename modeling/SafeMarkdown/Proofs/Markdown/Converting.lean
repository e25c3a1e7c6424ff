import SafeMarkdown.Proofs.Appends
import SafeMarkdown.Proofs.Component.Pieces
import SafeMarkdown.Proofs.Footnote.Convert
import SafeMarkdown.Proofs.Markdown.Descent

/-!
# What the conversion of tokens depends on

The conversion of tokens reads the documents in their raw markup and nothing else. On the tokens of a
document it succeeds if these documents can be read and no token comes after one that closes more
containers than have been opened.
-/

namespace SafeMarkdown.Markdown

open Component

variable {blocks other : String → Logged (List Node)} {t : Token} {ts : List Token}

section Documents

mutual

/-- The documents in the raw markup of a token. -/
def documentsIn : Token → List String
  | ⟨type, _, _, _, content, _, _, children, _⟩ =>
    if type == "inline" then documentsAmong children
    else if type == "html_block" then (document? content).toList
    else []

def documentsAmong : List Token → List String
  | [] => []
  | t :: rest => (if t.nesting = .single then documentsIn t else []) ++ documentsAmong rest

end

theorem documentsIn_line (h : t.type = "inline") : documentsIn t = documentsAmong t.children := by
  obtain ⟨type, nesting, tag, attrs, content, info, hidden, children, data⟩ := t
  rw [documentsIn, if_pos (by simpa using h)]

theorem documentsIn_markup (h : t.type = "html_block") :
    documentsIn t = (document? t.content).toList := by
  obtain ⟨type, nesting, tag, attrs, content, info, hidden, children, data⟩ := t
  obtain rfl : type = "html_block" := h
  rfl

theorem documentsIn_of_ne (hline : t.type ≠ "inline") (hmarkup : t.type ≠ "html_block") :
    documentsIn t = [] := by
  obtain ⟨type, nesting, tag, attrs, content, info, hidden, children, data⟩ := t
  rw [documentsIn, if_neg (by simpa using hline), if_neg (by simpa using hmarkup)]

theorem mem_documentsAmong {s : String} (h : s ∈ documentsAmong ts) :
    ∃ t ∈ ts, t.nesting = .single ∧ s ∈ documentsIn t := by
  induction ts with
  | nil => cases h
  | cons t ts ih =>
      rw [documentsAmong] at h
      rcases List.mem_append.mp h with h | h
      · split at h
        · exact ⟨t, List.mem_cons_self, ‹_›, h⟩
        · cases h
      · obtain ⟨u, hu, hfound⟩ := ih h
        exact ⟨u, List.mem_cons_of_mem t hu, hfound⟩

end Documents

section Dependence

/-- A token that stands by itself, and not for a line, is converted by itself or by reading the one
document in it. -/
theorem simpleNodes_cases (h : t.type ≠ "inline") :
    (documentsIn t = [] ∧ ∃ x, ∀ blocks, simpleNodes blocks t = x) ∨
      ∃ s make, documentsIn t = [s] ∧
        ∀ blocks, simpleNodes blocks t = (make : List Node → List Node) <$> blocks s := by
  by_cases hmarkup : t.type = "html_block"
  · have hnodes (blocks : String → Logged (List Node)) :
        simpleNodes blocks t = ofMarkup blocks t.content true := by
      simp only [simpleNodes, hmarkup]
    simp only [hnodes, documentsIn_markup hmarkup]
    cases hdocument : document? t.content with
    | none =>
        obtain ⟨x, -, hx⟩ := ofMarkup_of_document?_eq_none hdocument
        exact .inl ⟨rfl, x, hx⟩
    | some s =>
        obtain ⟨make, hmake⟩ := ofMarkup_of_document? hdocument
        exact .inr ⟨s, make, rfl, hmake⟩
  · refine .inl ⟨documentsIn_of_ne h hmarkup, simpleNodes (fun _ ↦ pure []) t, fun blocks ↦ ?_⟩
    by_cases hinline : t.type = "html_inline"
    · obtain ⟨x, -, hx⟩ := ofMarkup_inline t.content
      simp only [simpleNodes, hinline, hx]
    · unfold simpleNodes
      split <;> first | rfl | contradiction

mutual

theorem leafNodes_congr : (t : Token) → (∀ s ∈ documentsIn t, blocks s = other s) →
    leafNodes blocks t = leafNodes other t
  | ⟨type, nesting, tag, attrs, content, info, hidden, children, data⟩, h => by
      by_cases htype : type = "inline"
      · subst htype
        rw [leafNodes, leafNodes, if_pos (by rfl), if_pos (by rfl),
          convertFrom_congr {} children h]
      · set t : Token := ⟨type, nesting, tag, attrs, content, info, hidden, children, data⟩
        have hne : t.type ≠ "inline" := htype
        rw [leafNodes_of_ne hne, leafNodes_of_ne hne]
        rcases simpleNodes_cases hne with ⟨-, x, hx⟩ | ⟨s, make, hs, hmake⟩
        · rw [hx, hx]
        · rw [hmake, hmake, h s (by simp [hs])]

/-- Tokens are converted alike by what reads the documents in their raw markup alike. -/
theorem convertFrom_congr (b : Building) : (ts : List Token) →
    (∀ s ∈ documentsAmong ts, blocks s = other s) → convertFrom blocks b ts = convertFrom other b ts
  | [], _ => by
      rw [convertFrom, convertFrom]
  | t :: rest, h => by
      rw [documentsAmong, List.forall_mem_append] at h
      rw [convertFrom, convertFrom]
      cases hnesting : t.nesting with
      | opens => simp only [convertFrom_congr _ rest h.2]
      | closes => simp only [convertFrom_congr _ rest h.2]
      | single =>
          rw [if_pos hnesting] at h
          simp only [leafNodes_congr t h.1, convertFrom_congr _ rest h.2]

end

theorem convert_congr (h : ∀ s ∈ documentsAmong ts, blocks s = other s) :
    convert blocks ts = convert other ts := by
  rw [convert, convert, convertFrom_congr {} ts h]

end Dependence

section Success

mutual

/-- Whether the tokens of a line, if a token has any, stay inside of what they open. -/
def lineStaysInside : Token → Bool
  | ⟨type, nesting, _, _, _, _, _, children, _⟩ =>
    nesting != .single || type != "inline" || staysInsideFrom 0 children

/-- Whether tokens stay inside of `depth` open containers and what they open themselves: none comes
after one that closes more. -/
def staysInsideFrom (depth : Nat) : List Token → Bool
  | [] => true
  | t :: rest =>
    lineStaysInside t &&
      match t.nesting with
      | .opens => staysInsideFrom (depth + 1) rest
      | .single => staysInsideFrom depth rest
      | .closes => if depth = 0 then rest.isEmpty else staysInsideFrom (depth - 1) rest

end

theorem lineStaysInside_of_ne (h : t.nesting = .single → t.type ≠ "inline") :
    lineStaysInside t = true := by
  obtain ⟨type, nesting, tag, attrs, content, info, hidden, children, data⟩ := t
  cases nesting <;> simp_all [lineStaysInside]

theorem lineStaysInside_line (hnesting : t.nesting = .single) (h : t.type = "inline") :
    lineStaysInside t = staysInsideFrom 0 t.children := by
  obtain ⟨type, nesting, tag, attrs, content, info, hidden, children, data⟩ := t
  obtain rfl : nesting = .single := hnesting
  obtain rfl : type = "inline" := h
  rfl

/-- Whether a document can be read, whatever was noted before. -/
def CanRead (blocks : String → Logged (List Node)) (src : String) : Prop :=
  ∃ ns, Succeeds (blocks src) ns

/-- Whether a token can be converted: its container, if it opens one, and else what it stands for,
given that its line stays inside of what it opens and the documents in it can be read. -/
structure Sound (blocks : String → Logged (List Node)) (t : Token) : Prop where
  opens : t.nesting = .opens → ∃ c, Succeeds (containerOf t) c
  single : t.nesting = .single → ((∃ ns, Succeeds (leafNodes blocks t) ns) ↔
    lineStaysInside t = true ∧ ∀ s ∈ documentsIn t, CanRead blocks s)

/-- Tokens can be converted if and only if they stay inside of the open containers and the documents
in their raw markup can be read. -/
theorem succeeds_convertFrom_iff (hblocks : ∀ s, (blocks s).Appends)
    (hts : ∀ t ∈ ts, Sound blocks t) {b : Building} (hb : b.ended = false) :
    (∃ b', Succeeds (convertFrom blocks b ts) b') ↔
      staysInsideFrom b.opened.length ts = true ∧ ∀ s ∈ documentsAmong ts, CanRead blocks s := by
  induction ts generalizing b with
  | nil =>
      rw [convertFrom, staysInsideFrom, documentsAmong]
      exact ⟨fun _ ↦ ⟨rfl, List.forall_mem_nil _⟩, fun _ ↦ ⟨b, succeeds_pure b⟩⟩
  | cons t ts ih =>
      rw [List.forall_mem_cons] at hts
      rw [convertFrom_cons_of_not_ended hb, staysInsideFrom, documentsAmong]
      cases hnesting : t.nesting with
      | opens =>
          have hline : lineStaysInside t = true := lineStaysInside_of_ne (by simp [hnesting])
          obtain ⟨c, hc⟩ := hts.1.opens hnesting
          have hrest (c : Container) := ih hts.2 (b := b.opening c) hb
          simp only [Building.opening, List.length_cons] at hrest
          rw [Logged.exists_succeeds_bind (appends_containerOf t)
            fun _ ↦ appends_convertFrom hblocks _ ts]
          simp only [Building.opening, hrest, hline, Bool.true_and, reduceCtorEq, if_false,
            List.nil_append]
          constructor
          · rintro ⟨-, -, h⟩
            exact h
          · exact fun h ↦ ⟨c, hc, h⟩
      | closes =>
          have hline : lineStaysInside t = true := lineStaysInside_of_ne (by simp [hnesting])
          simp only [hline, Bool.true_and, reduceCtorEq, if_false, List.nil_append]
          unfold Building.closing
          cases hopened : b.opened with
          | nil =>
              cases ts with
              | nil =>
                  rw [convertFrom]
                  exact ⟨fun _ ↦ ⟨rfl, List.forall_mem_nil _⟩, fun _ ↦ ⟨_, succeeds_pure _⟩⟩
              | cons u us =>
                  constructor
                  · rintro ⟨b', h⟩
                    obtain ⟨hended, -⟩ := convertFrom_cons (Logged.returns_of_succeeds h)
                    cases hended
                  · simp
          | cons o outer =>
              exact ih hts.2 (b := { b with opened := outer, out := _ }) hb
      | single =>
          have hrest (ns : List Node) := ih hts.2 (b := b.add ns) hb
          simp only [Building.add] at hrest
          rw [Logged.exists_succeeds_bind (appends_leafNodes hblocks t)
            fun _ ↦ appends_convertFrom hblocks _ ts]
          simp only [Building.add, hrest, exists_and_right, hts.1.single hnesting, if_true,
            List.forall_mem_append, Bool.and_eq_true]
          exact and_and_and_comm

theorem succeeds_convert_iff (hblocks : ∀ s, (blocks s).Appends)
    (hts : ∀ t ∈ ts, Sound blocks t) :
    (∃ ns, Succeeds (convert blocks ts) ns) ↔
      staysInsideFrom 0 ts = true ∧ ∀ s ∈ documentsAmong ts, CanRead blocks s := by
  have hconvert := succeeds_convertFrom_iff hblocks hts (b := {}) rfl
  rw [convert, Logged.exists_succeeds_bind (appends_convertFrom hblocks _ ts)
    fun _ ↦ Logged.appends_pure _]
  exact ⟨fun ⟨b, hb, _⟩ ↦ hconvert.mp ⟨b, hb⟩,
    fun h ↦ (hconvert.mpr h).imp fun b hb ↦ ⟨hb, b.nodes, succeeds_pure _⟩⟩

end Success

section Tokens

theorem sound_closing (hnesting : t.nesting = .closes) : Sound blocks t where
  opens := fun hopens ↦ by simp [hnesting] at hopens
  single := fun hsingle ↦ by simp [hnesting] at hsingle

theorem succeeds_elementOf
    (hitem : t.type = "footnote_open" → ∃ label, footnoteLabel t.data = .ok label)
    (hheading : t.type = "heading_open" →
      t.tag.isEmpty = false ∧ ∃ level, levelOf t.tag = .ok level) :
    ∃ n, Succeeds (elementOf t) n := by
  unfold elementOf
  split
  · rename_i htype
    obtain ⟨label, hlabel⟩ := hitem (by simpa using htype)
    exact ⟨_, (Logged.succeeds_ofExcept hlabel).bind (succeeds_pure _)⟩
  · by_cases htype : t.type = "heading_open"
    · obtain ⟨htag, level, hlevel⟩ := hheading htype
      refine ⟨Node.element t.tag (elementAttributes t.tag t.attrs) [] [("level", .int level)], ?_⟩
      simp only [htag, htype, beq_self_eq_true, if_true, Bool.false_eq_true, if_false, hlevel]
      exact succeeds_pure _
    · simp only [beq_eq_false_iff_ne.mpr htype, Bool.false_eq_true, if_false, pure_bind]
      split
      · exact ⟨_, (succeeds_modify _).bind (succeeds_pure _)⟩
      · exact ⟨_, succeeds_pure _⟩

/-- A token opens a container, unless it is a footnote without a number or a heading without a
level. -/
theorem sound_opening (hnesting : t.nesting = .opens)
    (hitem : t.type = "footnote_open" → ∃ label, footnoteLabel t.data = .ok label)
    (hheading : t.type = "heading_open" →
      t.tag.isEmpty = false ∧ ∃ level, levelOf t.tag = .ok level) : Sound blocks t where
  opens := by
    intro _
    obtain ⟨n, hn⟩ := succeeds_elementOf hitem hheading
    rw [containerOf_eq_elementOf]
    split
    · exact ⟨_, succeeds_pure _⟩
    · split
      · exact ⟨_, succeeds_pure _⟩
      · rw [map_eq_pure_bind]
        exact ⟨_, hn.bind (succeeds_pure _)⟩
  single := fun hsingle ↦ by simp [hnesting] at hsingle

/-- A token that stands for nodes whatever is read. -/
theorem sound_simple (hline : t.type ≠ "inline") (hmarkup : t.type ≠ "html_block")
    (hnesting : t.nesting = .single) (h : ∃ ns, Succeeds (simpleNodes blocks t) ns) :
    Sound blocks t where
  opens := fun hopens ↦ by simp [hnesting] at hopens
  single := fun _ ↦ by
    rw [leafNodes_of_ne hline, documentsIn_of_ne hline hmarkup,
      lineStaysInside_of_ne fun _ ↦ hline]
    exact iff_of_true h ⟨rfl, List.forall_mem_nil _⟩

theorem sound_lineToken {count : Nat} (h : LineToken count t) : Sound blocks t := by
  cases h with
  | text s => exact sound_simple (by simp [Token.text]) (by simp [Token.text]) rfl ⟨_, succeeds_pure _⟩
  | lineEnd h =>
      simp only [List.mem_cons, List.not_mem_nil, or_false] at h
      rcases h with rfl | rfl
      · exact sound_simple (by simp) (by simp) rfl ⟨_, succeeds_pure _⟩
      · exact sound_simple (by simp) (by simp) rfl ⟨_, succeeds_pure _⟩
  | code content => exact sound_simple (by simp) (by simp) rfl ⟨_, succeeds_pure _⟩
  | opening h =>
      simp only [emphases, List.mem_cons, List.not_mem_nil, or_false, Prod.mk.injEq] at h
      rcases h with ⟨rfl, -, rfl⟩ | ⟨rfl, -, rfl⟩ | ⟨rfl, -, rfl⟩
      · exact sound_opening rfl (by simp [Token.opening]) (by simp [Token.opening])
      · exact sound_opening rfl (by simp [Token.opening]) (by simp [Token.opening])
      · exact sound_opening rfl (by simp [Token.opening]) (by simp [Token.opening])
  | closing h => exact sound_closing rfl
  | linkOpening href title =>
      exact sound_opening rfl (by simp [Token.opening]) (by simp [Token.opening])
  | linkClosing => exact sound_closing rfl
  | image src title content => exact sound_simple (by simp) (by simp) rfl ⟨_, succeeds_pure _⟩
  | markup content =>
      obtain ⟨x, hx, hmarkup⟩ := ofMarkup_inline content
      refine sound_simple (by simp) (by simp) rfl ?_
      rwa [← hmarkup blocks] at hx
  | reference hn sub =>
      refine sound_simple (by simp [Notes.referenceToken]) (by simp [Notes.referenceToken]) rfl ?_
      cases sub with
      | none => exact ⟨_, (Logged.succeeds_ofExcept rfl).bind (succeeds_pure _)⟩
      | some k => exact ⟨_, (Logged.succeeds_ofExcept rfl).bind (succeeds_pure _)⟩

theorem documentsIn_lineToken {count : Nat} (h : LineToken count t) (hsingle : t.nesting = .single) :
    documentsIn t = [] := by
  cases h with
  | opening h => cases hsingle
  | linkOpening href title => cases hsingle
  | closing h => cases hsingle
  | linkClosing => cases hsingle
  | lineEnd h =>
      simp only [List.mem_cons, List.not_mem_nil, or_false] at h
      rcases h with rfl | rfl
      · rfl
      · rfl
  | _ => rfl

/-- Raw markup in a line has no documents inside of it. -/
theorem documentsAmong_lineTokens {count : Nat} (h : ∀ t ∈ ts, LineToken count t) :
    documentsAmong ts = [] := by
  refine List.eq_nil_iff_forall_not_mem.mpr fun s hs ↦ ?_
  obtain ⟨t, ht, hsingle, hs⟩ := mem_documentsAmong hs
  rw [documentsIn_lineToken (h t ht) hsingle] at hs
  cases hs

theorem sound_leafToken (hblocks : ∀ s, (blocks s).Appends) {count : Nat} (h : LeafToken count t) :
    Sound blocks t := by
  cases h with
  | text content hchildren =>
      refine ⟨fun hopens ↦ by simp at hopens, fun hsingle ↦ ?_⟩
      have hline := succeeds_convertFrom_iff hblocks
        (fun t ht ↦ sound_lineToken (hchildren t ht)) (b := {}) rfl
      rw [leafNodes_line rfl, lineStaysInside_line rfl rfl, documentsIn_line rfl,
        Logged.exists_succeeds_bind (appends_convertFrom hblocks _ _)
          fun _ ↦ Logged.appends_pure _]
      exact ⟨fun ⟨b, hb, _⟩ ↦ hline.mp ⟨b, hb⟩,
        fun h ↦ (hline.mpr h).imp fun b hb ↦ ⟨hb, _, succeeds_pure _⟩⟩
  | code content => exact sound_simple (by simp) (by simp) rfl ⟨_, succeeds_pure _⟩
  | fence info content => exact sound_simple (by simp) (by simp) rfl ⟨_, succeeds_pure _⟩
  | markup content =>
      refine ⟨fun hopens ↦ by simp at hopens, fun hsingle ↦ ?_⟩
      have hnodes : simpleNodes blocks { type := "html_block", content } =
          ofMarkup blocks content true := rfl
      rw [leafNodes_of_ne (by simp), lineStaysInside_of_ne (by simp), documentsIn_markup rfl, hnodes]
      cases hdocument : document? content with
      | none =>
          obtain ⟨x, hx, hmarkup⟩ := ofMarkup_of_document?_eq_none hdocument
          rw [hmarkup]
          exact iff_of_true hx ⟨rfl, List.forall_mem_nil _⟩
      | some s =>
          obtain ⟨make, hmake⟩ := ofMarkup_of_document? hdocument
          rw [hmake, map_eq_pure_bind, Logged.exists_succeeds_bind (hblocks s)
            fun _ ↦ Logged.appends_pure _]
          simp only [Option.toList_some, List.mem_singleton, forall_eq, true_and]
          exact ⟨fun ⟨ns, hns, _⟩ ↦ ⟨ns, hns⟩, fun ⟨ns, hns⟩ ↦ ⟨ns, hns, _, succeeds_pure _⟩⟩
  | rule => exact sound_simple (by simp) (by simp) rfl ⟨_, succeeds_pure _⟩
  | backlink n k =>
      exact sound_simple (by simp) (by simp) rfl
        ⟨_, (Logged.succeeds_ofExcept rfl).bind (succeeds_pure _)⟩

end Tokens

end SafeMarkdown.Markdown
