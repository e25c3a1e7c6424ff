import Mathlib.Logic.Function.Iterate
import Mathlib.Logic.Relation
import SafeMarkdown.Proofs.Component.ElementPieces
import SafeMarkdown.Proofs.Markdown.Converting
import SafeMarkdown.Proofs.Markdown.Markers
import SafeMarkdown.Proofs.Markdown.MarkupTokens

/-!
# Documents inside of documents

Reading a document starts reading the documents in its raw markup, each of which has fewer angle
brackets. So documents nest no deeper than the angle brackets of the outermost one, the bound on the
depth is never met, and reading is the one solution of its recursive equation. A document is read as
a tree unless one of these documents cannot be cut into tokens or has tokens that close more than has
been opened: footnotes that are defined in the containers of other footnotes do that.
-/

namespace SafeMarkdown.Markdown

open Component Node

variable {dialect : Dialect} {body inner : String} {f g : String → Logged (List Node)}
  {t : Token} {ts : List Token} {ns : List Node}

section Tokens

variable {count : Nat}

theorem documentToken_of_nested (h : Nested False count ts) : ∀ t ∈ ts, DocumentToken count t := by
  induction h with
  | nil => exact List.forall_mem_nil _
  | leaf h hrest ih => exact List.forall_mem_cons.mpr ⟨.leaf h, ih⟩
  | container ho hc hcontent hrest ihcontent ih =>
      rw [List.cons_append, List.forall_mem_cons, List.forall_mem_append, List.forall_mem_cons]
      exact ⟨.opens ho, ihcontent, .closes hc, ih⟩
  | definition hdefines => exact hdefines.elim

/-- The tokens of a document: besides those of its blocks, the ones around its footnotes. -/
theorem mem_tokens_cases (h : tokens dialect body = .ok ts) : ∃ count, ∀ t ∈ ts,
    DocumentToken count t ∨ t.nesting = .closes ∨ t = Token.opening "footnote_block_open" "" ∨
      ∃ n : Nat, t = { Token.opening "footnote_open" "" with data := [("id", .int n)] } := by
  obtain ⟨count, text, items, rfl, hlaid⟩ := exists_laid_tokens h
  refine ⟨count, fun t ht ↦ ?_⟩
  rcases List.mem_append.mp ht with ht | ht
  · exact .inl (hlaid.text t ht)
  · unfold sectionTokens at ht
    split at ht
    · cases ht
    · simp only [List.mem_append, List.mem_cons, List.not_mem_nil, or_false] at ht
      rcases ht with (rfl | ht) | rfl
      · exact .inr (.inr (.inl rfl))
      · obtain ⟨⟨n, content⟩, hitem, ht⟩ := List.mem_flatMap.mp ht
        simp only [itemTokens, List.mem_append, List.mem_cons, List.not_mem_nil, or_false] at ht
        rcases ht with (rfl | ht) | rfl
        · exact .inr (.inr (.inr ⟨n, rfl⟩))
        · exact .inl (documentToken_of_nested (hlaid.items _ hitem) t ht)
        · exact .inr (.inl rfl)
      · exact .inr (.inl rfl)

theorem sound_openingToken (h : OpeningToken t) (hleveled : t.Leveled) : Sound f t := by
  refine sound_opening h.nesting (fun htype ↦ ?_) fun htype ↦ ?_
  · exact absurd (htype ▸ h.type) (by decide)
  · obtain ⟨level, hlevel, htag, -⟩ := hleveled.heading htype
    have hlevels : ∀ tag ∈ Heading.tags, tag.isEmpty = false ∧
        (levelOf tag).toOption.isSome = true := by decide
    obtain ⟨hempty, hsome⟩ := hlevels t.tag (htag ▸ Heading.tag_mem_tags hlevel)
    obtain ⟨n, hn⟩ := Option.isSome_iff_exists.mp hsome
    obtain ⟨level', hlevel', -⟩ := exists_ok_of_map (f := id) (by simpa using hn)
    exact ⟨hempty, level', hlevel'⟩

theorem sound_tokens (hf : ∀ s, (f s).Appends) (h : tokens dialect body = .ok ts) :
    ∀ t ∈ ts, Sound f t := by
  obtain ⟨count, hts⟩ := mem_tokens_cases h
  intro t ht
  rcases hts t ht with (hopens | hcloses | hleaf) | hcloses | rfl | ⟨n, rfl⟩
  · exact sound_openingToken hopens (tokens_leveled h t ht)
  · exact sound_closing hcloses.nesting
  · exact sound_leafToken hf hleaf
  · exact sound_closing hcloses
  · exact sound_opening rfl (by simp [Token.opening]) (by simp [Token.opening])
  · exact sound_opening rfl (fun _ ↦ ⟨_, rfl⟩) (by simp [Token.opening])

/-- The documents in the raw markup of a document have fewer angle brackets than it. -/
theorem count_lt_of_mem_documentsAmong (h : tokens dialect body = .ok ts)
    (hinner : inner ∈ documentsAmong ts) : inner.toList.count '<' < body.toList.count '<' := by
  obtain ⟨count, hts⟩ := mem_tokens_cases h
  obtain ⟨t, ht, hsingle, hinner⟩ := mem_documentsAmong hinner
  have hleaf : LeafToken count t := by
    rcases hts t ht with (hopens | hcloses | hleaf) | hcloses | rfl | ⟨n, rfl⟩
    · simp [hopens.nesting] at hsingle
    · simp [hcloses.nesting] at hsingle
    · exact hleaf
    · simp [hcloses] at hsingle
    · cases hsingle
    · cases hsingle
  cases hleaf with
  | text content hchildren =>
      rw [documentsIn_line rfl, documentsAmong_lineTokens hchildren] at hinner
      cases hinner
  | markup content =>
      rw [documentsIn_markup rfl, Option.mem_toList] at hinner
      exact Nat.lt_of_lt_of_le (count_lt_of_document? hinner) (count_le_of_mem_tokens h ht rfl)
  | _ => cases hinner

end Tokens

section Recursion

/-- The nodes of a document, given how a document inside of it is read. -/
def readDocument (dialect : Dialect) (inner : String → Logged (List Node)) (body : String) :
    Logged (List Node) := do
  let ts ← Logged.ofExcept (tokens dialect body)
  let nodes ← convert inner ts
  Logged.ofExcept (fold nodes)

/-- Whether reading a document starts reading another one: the content of a component in its raw
markup, or what follows the opening tag there. -/
def Starts (dialect : Dialect) (body inner : String) : Prop :=
  ∃ ts, tokens dialect body = .ok ts ∧ inner ∈ documentsAmong ts

theorem Starts.count_lt (h : Starts dialect body inner) :
    inner.toList.count '<' < body.toList.count '<' := by
  obtain ⟨ts, hts, hinner⟩ := h
  exact count_lt_of_mem_documentsAmong hts hinner

/-- A document is read alike by what reads the documents inside of it alike. -/
theorem readDocument_congr (h : ∀ inner, Starts dialect body inner → f inner = g inner) :
    readDocument dialect f body = readDocument dialect g body := by
  unfold readDocument
  cases hts : tokens dialect body with
  | error e => rfl
  | ok ts =>
      have hconvert : convert f ts = convert g ts :=
        convert_congr fun inner hinner ↦ h inner ⟨ts, hts, hinner⟩
      simp only [Logged.ofExcept, pure_bind, hconvert]

theorem documentNodes_eq_iterate (dialect : Dialect) (depth : Nat) :
    documentNodes dialect depth = (readDocument dialect)^[depth] fun _ ↦ pure [] := by
  induction depth with
  | zero => rfl
  | succ depth ih =>
      rw [Function.iterate_succ_apply', ← ih]
      rfl

/-- What reads the documents beyond a depth never matters if the angle brackets do not reach so
deep. By induction on the depth: a document inside has one fewer. -/
theorem iterate_readDocument_eq {m n : Nat} (hm : body.toList.count '<' < m)
    (hn : body.toList.count '<' < n) :
    (readDocument dialect)^[m] f body = (readDocument dialect)^[n] g body := by
  induction m generalizing n body with
  | zero => exact absurd hm (Nat.not_lt_zero _)
  | succ m ih =>
      cases n with
      | zero => exact absurd hn (Nat.not_lt_zero _)
      | succ n =>
          rw [Function.iterate_succ_apply', Function.iterate_succ_apply']
          refine readDocument_congr fun inner hinner ↦ ?_
          have hlt := hinner.count_lt
          exact ih (by omega) (by omega)

theorem iterate_readDocument_eq_blocks {depth : Nat} (h : body.toList.count '<' < depth) :
    (readDocument dialect)^[depth] f body = blocks dialect body := by
  rw [blocks, documentNodes_eq_iterate]
  exact iterate_readDocument_eq h (Nat.lt_succ_self _)

/-- Reading a document is reading it with the documents inside of it read the same way. -/
theorem blocks_eq_readDocument (dialect : Dialect) (body : String) :
    blocks dialect body = readDocument dialect (blocks dialect) body := by
  rw [blocks, nestingBound, documentNodes]
  refine readDocument_congr fun inner hinner ↦ ?_
  rw [documentNodes_eq_iterate]
  exact iterate_readDocument_eq_blocks hinner.count_lt

theorem length_le_of_isChain {chain : List String}
    (h : List.IsChain (Starts dialect) (body :: chain)) :
    chain.length ≤ body.toList.count '<' := by
  induction chain generalizing body with
  | nil => exact Nat.zero_le _
  | cons inner chain ih =>
      obtain ⟨hstarts, hchain⟩ := List.isChain_cons_cons.mp h
      have hlt := hstarts.count_lt
      have hlength := ih hchain
      rw [List.length_cons]
      omega

end Recursion

section Returning

/-- Whether a document is cut into tokens that stay inside of what they open. -/
def StaysInside (dialect : Dialect) (body : String) : Prop :=
  ∃ ts, tokens dialect body = .ok ts ∧ staysInsideFrom 0 ts = true

theorem appends_blocks (dialect : Dialect) (body : String) :
    (blocks dialect body).Appends :=
  appends_documentNodes dialect _ body

theorem canRead_readDocument_iff (hf : ∀ s, (f s).Appends)
    (hunmarked : ReadsUnmarked f) :
    CanRead (readDocument dialect f) body ↔
      StaysInside dialect body ∧ ∀ inner, Starts dialect body inner → CanRead f inner := by
  cases hts : tokens dialect body with
  | error e =>
      have hfails : ¬ CanRead (readDocument dialect f) body := by
        rintro ⟨ns, hns⟩
        obtain ⟨ts, h, -⟩ := Logged.returns_bind (Logged.returns_of_succeeds hns)
        rw [hts] at h
        cases Logged.returns_ofExcept h
      have hunreadable : ¬ StaysInside dialect body := by
        rintro ⟨ts, h, -⟩
        rw [hts] at h
        cases h
      exact iff_of_false hfails fun h ↦ hunreadable h.1
  | ok ts =>
      have hconvert := succeeds_convert_iff hf (sound_tokens hf hts)
      have hread : CanRead (readDocument dialect f) body ↔
          ∃ ns, Succeeds (convert f ts) ns := by
        have heq : readDocument dialect f body =
            convert f ts >>= fun nodes ↦ Logged.ofExcept (fold nodes) := by
          rw [readDocument, hts]
          rfl
        rw [CanRead, heq, Logged.exists_succeeds_bind (appends_convert hf ts)
          fun _ ↦ Logged.appends_ofExcept _]
        refine ⟨fun ⟨ns, hns, _⟩ ↦ ⟨ns, hns⟩, fun ⟨ns, hns⟩ ↦ ⟨ns, hns, ?_⟩⟩
        obtain ⟨nodes, hnodes⟩ := exists_fold_convert hunmarked (Logged.returns_of_succeeds hns)
        exact ⟨nodes, Logged.succeeds_ofExcept hnodes⟩
      rw [hread, hconvert]
      simp [StaysInside, Starts, hts]

/-- A document can be read if and only if it and all documents inside of it are readable. By
induction on its angle brackets. -/
theorem canRead_blocks_iff (dialect : Dialect) (body : String) :
    CanRead (blocks dialect) body ↔
      ∀ inner, Relation.ReflTransGen (Starts dialect) body inner → StaysInside dialect inner := by
  induction hn : body.toList.count '<' using Nat.strong_induction_on generalizing body with
  | _ n ih =>
      subst hn
      have hinner (inner : String) (h : Starts dialect body inner) :
          CanRead (blocks dialect) inner ↔
            ∀ deep, Relation.ReflTransGen (Starts dialect) inner deep → StaysInside dialect deep :=
        ih _ h.count_lt inner rfl
      rw [CanRead, blocks_eq_readDocument, ← CanRead,
        canRead_readDocument_iff (appends_blocks dialect) (blocks_unmarked dialect)]
      constructor
      · rintro ⟨hbody, hall⟩ deep hdeep
        rcases hdeep.cases_head with rfl | ⟨inner, hstarts, hdeep⟩
        · exact hbody
        · exact (hinner inner hstarts).mp (hall inner hstarts) deep hdeep
      · intro h
        refine ⟨h body .refl, fun inner hstarts ↦ (hinner inner hstarts).mpr fun deep hdeep ↦ ?_⟩
        exact h deep (.head hstarts hdeep)

theorem starts_iff {documents : List String}
    (h : (tokens dialect body).toOption.map documentsAmong = some documents) :
    Starts dialect body inner ↔ inner ∈ documents := by
  obtain ⟨ts, hts, rfl⟩ := exists_ok_of_map h
  simp [Starts, hts]

theorem staysInside_of_toOption
    (h : (tokens dialect body).toOption.map (staysInsideFrom 0) = some true) :
    StaysInside dialect body :=
  exists_ok_of_map h

/-- A component in a component. -/
def cards : String := "<A>\n<B>\nx\n</B>\n</A>"

def innerCard : String := "\n<B>\nx\n</B>\n"

theorem not_succeeds_of_isNone {α : Type} {x : Logged α}
    (h : x.outcome.1.toOption.isNone = true) : ¬ ∃ a, Succeeds x a := by
  rintro ⟨a, ha⟩
  have hok : x.outcome.1 = .ok a := ha []
  rw [hok] at h
  cases h

end Returning

end SafeMarkdown.Markdown
