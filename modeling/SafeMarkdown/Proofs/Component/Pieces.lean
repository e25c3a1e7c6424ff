import SafeMarkdown.Component.Markup
import SafeMarkdown.Proofs.Component.Shapes
import SafeMarkdown.Proofs.Component.Tags

/-!
# Pieces of raw markup

A piece that starts with an opening tag is a component if its closing tag ends the piece, and else
a marker and what follows it. What is read of a piece is well marked if the documents inside of it
are.

Where blocks stand, a piece has at most one document inside of it: what is between the tags of a
component, or what follows the tag that opens one. How the piece is read depends on nothing else that
is read, and the document has fewer angle brackets than the piece, since the tag before it has one.
-/

namespace SafeMarkdown.Component

open Node

variable {blocks : String → Logged (List Node)} {src name : String} {tag : OpenTag}
  {rest inner : List Char} {block : Bool}

section Reading

theorem ofMarkup_opening (h : readOpenTag? (Text.trim src.toList) = some (tag, rest)) :
    ofMarkup blocks src block = opened blocks tag rest block := by
  rw [ofMarkup]
  dsimp only
  rw [looksLikeTag_of_readOpenTag? h, h]
  rfl

theorem ofMarkup_closing (h : readCloseTag? (Text.trim src.toList) = some (name, [])) :
    ofMarkup blocks src block =
      pure [closeMarker name (String.ofList (Text.trim src.toList)) block] := by
  rw [ofMarkup]
  dsimp only
  rw [looksLikeTag_of_readCloseTag? h, readOpenTag?_of_readCloseTag? h, h]
  rfl

theorem opened_complete (htag : tag.selfClosing = false)
    (h : beforeCloseTag? tag.name rest = some inner) : opened blocks tag rest block =
      content blocks inner block >>= fun children ↦
        pure [Node.component tag.name tag.attrs children [("source", .str tag.source)]] := by
  rw [opened, htag, if_neg Bool.false_ne_true, h]

theorem opened_marker (htag : tag.selfClosing = false) (h : beforeCloseTag? tag.name rest = none) :
    opened blocks tag rest block = tail blocks rest block >>= fun more ↦
      pure (openMarker tag.name tag.attrs tag.source block :: more) := by
  rw [opened, htag, if_neg Bool.false_ne_true, h]

end Reading

section Markup

variable {ns : List Node}

theorem isUnmarked_singleton {n : Node} (h : isMarker n = false) (hn : n.children = []) :
    IsUnmarked [n] := by
  refine isUnmarked_cons.mpr ⟨⟨h, fun _ ↦ hn⟩, ?_, isUnmarked_nil⟩
  rw [hn]
  exact isUnmarked_nil

theorem isUnmarked_literal (s : Option String) (block : Bool) : IsUnmarked [literal s block] := by
  cases block with
  | false => exact isUnmarked_singleton rfl rfl
  | true => exact isUnmarked_cons.mpr ⟨⟨rfl, nofun⟩, isUnmarked_singleton rfl rfl, isUnmarked_nil⟩

theorem isUnmarked_component {name source : String} {attrs : Fields} (h : IsUnmarked ns) :
    IsUnmarked [Node.component name attrs ns [("source", .str source)]] :=
  isUnmarked_cons.mpr ⟨⟨rfl, nofun⟩, h, isUnmarked_nil⟩

/-- Whether no marker is left in the documents that are read. -/
def ReadsUnmarked (blocks : String → Logged (List Node)) : Prop :=
  ∀ src ns, (blocks src).Returns ns → IsUnmarked ns

theorem tail_unmarked (hblocks : ReadsUnmarked blocks)
    (h : (tail blocks rest block).Returns ns) : IsUnmarked ns := by
  unfold tail at h
  split at h
  · rw [Logged.returns_pure h]
    exact isUnmarked_nil
  · split at h
    · exact hblocks _ _ h
    · rw [Logged.returns_pure h]
      exact isUnmarked_singleton rfl rfl

theorem content_unmarked (hblocks : ReadsUnmarked blocks)
    (h : (content blocks inner block).Returns ns) : IsUnmarked ns := by
  unfold content at h
  split at h
  · exact hblocks _ _ h
  · rw [Logged.returns_pure h]
    have htext : ∀ n ∈ mergeText [ofText (String.ofList inner)],
        n.All fun m ↦ isMarker m = false ∧ m.IsLeafText := by
      refine all_mergeText (List.forall_mem_singleton.mpr ?_) fun s ↦ ⟨rfl, fun _ ↦ rfl⟩
      exact all_iff.mpr ⟨⟨rfl, fun _ ↦ rfl⟩, List.forall_mem_nil _⟩
    intro n hn
    obtain ⟨k, hk, hn⟩ := mem_walkAll.mp hn
    exact htext k hk n hn

/-- What is read of raw markup is well marked if the documents in it are. -/
theorem ofMarkup_wellMarked (hblocks : ReadsUnmarked blocks)
    (h : (ofMarkup blocks src block).Returns ns) : ∀ n ∈ walk.walkAll ns, WellMarked n := by
  have hcons {m : Node} {ms : List Node} (hm : WellMarked m) (hchildren : m.children = [])
      (hms : IsUnmarked ms) : ∀ n ∈ walk.walkAll (m :: ms), WellMarked n := by
    intro n hn
    rcases List.mem_append.mp hn with hn | hn
    · rcases mem_walk.mp hn with rfl | ⟨c, hc, -⟩
      · exact hm
      · rw [hchildren] at hc
        cases hc
    · exact hms.wellMarked n hn
  have hunread {message : String} {s : Option String}
      (h : Logged.Returns (do Logged.debug .markdown message; return [literal s block]) ns) :
      ∀ n ∈ walk.walkAll ns, WellMarked n := by
    obtain ⟨-, -, h⟩ := Logged.returns_bind h
    rw [Logged.returns_pure h]
    exact (isUnmarked_literal s block).wellMarked
  unfold ofMarkup at h
  dsimp only at h
  split at h
  · rw [Logged.returns_pure h]
    exact (isUnmarked_singleton rfl rfl).wellMarked
  · split at h
    · unfold opened at h
      dsimp only at h
      split at h
      · obtain ⟨after, hafter, h⟩ := Logged.returns_bind h
        rw [Logged.returns_pure h]
        refine hcons ?_ rfl (tail_unmarked hblocks hafter)
        exact wellMarked_of_not_isMarker rfl nofun
      · split at h
        · obtain ⟨children, hchildren, h⟩ := Logged.returns_bind h
          rw [Logged.returns_pure h]
          exact (isUnmarked_component (content_unmarked hblocks hchildren)).wellMarked
        · obtain ⟨after, hafter, h⟩ := Logged.returns_bind h
          rw [Logged.returns_pure h]
          exact hcons (wellMarked_openMarker _ _ _ _) rfl (tail_unmarked hblocks hafter)
    · split at h
      · split at h
        · rw [Logged.returns_pure h]
          exact hcons (wellMarked_closeMarker _ _ _) rfl isUnmarked_nil
        · exact hunread h
      · exact hunread h

end Markup

section Documents

open Text

/-- What follows a tag, unless it is white space. -/
def tailDocument? (rest : List Char) : Option (List Char) :=
  if (trim rest).isEmpty then none else some rest

/-- The document behind an opening tag: the content of its component if that closes, and else what
follows the tag. -/
def openedDocument? (tag : OpenTag) (rest : List Char) : Option (List Char) :=
  if tag.selfClosing then tailDocument? rest
  else (beforeCloseTag? tag.name rest).or (tailDocument? rest)

/-- The document inside of a piece of raw markup that stands where blocks do. -/
def document? (src : String) : Option String :=
  (readOpenTag? (trim src.toList)).bind fun (tag, rest) ↦
    (openedDocument? tag rest).map String.ofList

variable {src inner : String} {tag : OpenTag} {rest s : List Char}

section Counting

theorem sublist_of_beforeCloseTag? {name : String} (h : beforeCloseTag? name rest = some s) :
    s.Sublist rest := by
  unfold beforeCloseTag? at h
  split at h
  · rename_i before hends
    dsimp only at h
    obtain ⟨-, hs⟩ := Option.ite_none_right_eq_some.mp h
    cases hs
    have hwritten : (before.dropWhile isBlank).Sublist (trimEnd rest).reverse := by
      rw [hends]
      exact (List.dropWhile_sublist _).trans (List.sublist_cons_self _ _)
    have hkept : (trimEnd rest).Sublist rest := dropEndWhile_sublist
    refine (List.take_sublist _ _).trans (List.Sublist.trans ?_ hkept)
    simpa using hwritten.reverse
  · cases h

theorem sublist_of_tailDocument? (h : tailDocument? rest = some s) : s.Sublist rest := by
  obtain ⟨-, hs⟩ := Option.ite_none_left_eq_some.mp h
  cases hs
  exact List.Sublist.refl _

theorem sublist_of_openedDocument? (h : openedDocument? tag rest = some s) : s.Sublist rest := by
  unfold openedDocument? at h
  split at h
  · exact sublist_of_tailDocument? h
  · rcases Option.or_eq_some_iff.mp h with h | ⟨-, h⟩
    · exact sublist_of_beforeCloseTag? h
    · exact sublist_of_tailDocument? h

theorem count_lt_of_readOpenTag? (h : readOpenTag? s = some (tag, rest)) :
    rest.count '<' < s.count '<' := by
  obtain ⟨t, rfl, -⟩ := exists_of_readOpenTag? h
  simp only [List.cons_append, List.count_cons_self, List.count_append,
    List.count_cons_of_ne (show '>' ≠ '<' by decide)]
  omega

/-- The document inside of a piece has fewer angle brackets than the piece. -/
theorem count_lt_of_document? (h : document? src = some inner) :
    inner.toList.count '<' < src.toList.count '<' := by
  obtain ⟨⟨tag, rest⟩, htag, h⟩ := Option.bind_eq_some_iff.mp h
  obtain ⟨s, hs, rfl⟩ := Option.map_eq_some_iff.mp h
  rw [String.toList_ofList]
  have hinner := (sublist_of_openedDocument? hs).count_le '<'
  have htag := count_lt_of_readOpenTag? htag
  have htrim := (trimWhile_sublist (p := isBlank) (s := src.toList)).count_le '<'
  rw [trim] at htag
  omega

end Counting

section Reading

variable {blocks : String → Logged (List Node)}

theorem tail_block (rest : List Char) :
    tail blocks rest true = match tailDocument? rest with
      | some s => blocks (String.ofList s)
      | none => pure [] := by
  unfold tail tailDocument?
  split
  · rfl
  · rfl

/-- Behind an opening tag, the nodes of the document there are made into others, whatever they
are. -/
theorem opened_block (tag : OpenTag) (rest : List Char) : ∃ make : List Node → List Node,
    ∀ blocks, opened blocks tag rest true = match openedDocument? tag rest with
      | some s => make <$> blocks (String.ofList s)
      | none => pure (make []) := by
  have htail (make : List Node → List Node) (blocks : String → Logged (List Node)) :
      (tail blocks rest true >>= fun after ↦ pure (make after)) = match tailDocument? rest with
        | some s => make <$> blocks (String.ofList s)
        | none => pure (make []) := by
    rw [tail_block]
    cases tailDocument? rest with
    | some s => exact bind_pure_comp _ _
    | none => exact pure_bind _ _
  unfold opened openedDocument?
  cases tag.selfClosing with
  | true => exact ⟨_, htail _⟩
  | false =>
      cases beforeCloseTag? tag.name rest with
      | some s => exact ⟨_, fun blocks ↦ bind_pure_comp _ _⟩
      | none => exact ⟨_, htail _⟩

theorem opened_inline (tag : OpenTag) (rest : List Char) :
    ∃ ns, ∀ blocks, opened blocks tag rest false = pure ns := by
  have htail (blocks : String → Logged (List Node)) : tail blocks rest false =
      pure (if (trim rest).isEmpty then [] else [Node.ofText (String.ofList rest)]) := by
    unfold tail
    split
    · rfl
    · rfl
  unfold opened
  simp only [htail, pure_bind]
  cases tag.selfClosing with
  | true => exact ⟨_, fun blocks ↦ rfl⟩
  | false =>
      cases beforeCloseTag? tag.name rest with
      | some s => exact ⟨_, fun blocks ↦ rfl⟩
      | none => exact ⟨_, fun blocks ↦ rfl⟩

theorem ofMarkup_of_readOpenTag?_eq_none {block : Bool} (h : readOpenTag? (trim src.toList) = none) :
    ∃ x : Logged (List Node), (∃ ns, Succeeds x ns) ∧ ∀ blocks, ofMarkup blocks src block = x := by
  have hunread (message : String) (n : Node) :
      Succeeds (do Logged.debug .markdown message; return [n] : Logged (List Node)) [n] :=
    (succeeds_modify _).bind (succeeds_pure [n])
  unfold ofMarkup
  simp only [h]
  refine ⟨_, ?_, fun blocks ↦ rfl⟩
  split
  · exact ⟨_, succeeds_pure _⟩
  · split
    · split
      · exact ⟨_, succeeds_pure _⟩
      · exact ⟨_, hunread _ _⟩
    · exact ⟨_, hunread _ _⟩

/-- A piece that stands in a line is read by itself. -/
theorem ofMarkup_inline (src : String) :
    ∃ x : Logged (List Node), (∃ ns, Succeeds x ns) ∧ ∀ blocks, ofMarkup blocks src false = x := by
  cases hopen : readOpenTag? (trim src.toList) with
  | none => exact ofMarkup_of_readOpenTag?_eq_none hopen
  | some found =>
      obtain ⟨tag, rest⟩ := found
      obtain ⟨ns, hns⟩ := opened_inline tag rest
      refine ⟨pure ns, ⟨ns, succeeds_pure ns⟩, fun blocks ↦ ?_⟩
      rw [ofMarkup_opening hopen, hns]

/-- A piece without a document inside of it is read by itself. -/
theorem ofMarkup_of_document?_eq_none (h : document? src = none) :
    ∃ x : Logged (List Node), (∃ ns, Succeeds x ns) ∧ ∀ blocks, ofMarkup blocks src true = x := by
  cases hopen : readOpenTag? (trim src.toList) with
  | none => exact ofMarkup_of_readOpenTag?_eq_none hopen
  | some found =>
      obtain ⟨tag, rest⟩ := found
      have hnone : openedDocument? tag rest = none := by
        simpa [document?, hopen] using h
      obtain ⟨make, hmake⟩ := opened_block tag rest
      refine ⟨pure (make []), ⟨_, succeeds_pure _⟩, fun blocks ↦ ?_⟩
      rw [ofMarkup_opening hopen, hmake, hnone]

/-- A piece with a document inside of it is read by reading that document. -/
theorem ofMarkup_of_document? (h : document? src = some inner) : ∃ make : List Node → List Node,
    ∀ blocks, ofMarkup blocks src true = make <$> blocks inner := by
  obtain ⟨⟨tag, rest⟩, htag, h⟩ := Option.bind_eq_some_iff.mp h
  obtain ⟨s, hs, rfl⟩ := Option.map_eq_some_iff.mp h
  obtain ⟨make, hmake⟩ := opened_block tag rest
  refine ⟨make, fun blocks ↦ ?_⟩
  rw [ofMarkup_opening htag, hmake, hs]

end Reading

end Documents

end SafeMarkdown.Component
