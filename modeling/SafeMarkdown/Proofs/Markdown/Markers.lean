import SafeMarkdown.Proofs.Footnote.Convert
import SafeMarkdown.Proofs.Component.Pieces
import SafeMarkdown.Proofs.Markdown.Descent

/-!
# Markers among the nodes of tokens

Only raw markup becomes markers, and it makes each with its source. So whatever tokens are converted,
well nested or not, the markers among their nodes can be matched to the end.
-/

namespace SafeMarkdown.Markdown

open Component

variable {blocks : String → Logged (List Node)} {t : Token} {ts : List Token} {ns : List Node}

section Leaves

theorem all_wellMarked_text (s : String) : (Node.ofText s).All WellMarked :=
  Node.all_iff.mpr ⟨wellMarked_of_not_isMarker rfl fun _ ↦ rfl, List.forall_mem_nil _⟩

theorem all_wellMarked_element {tag : String} {attrs data : Fields} {children : List Node}
    (h : ∀ c ∈ children, c.All WellMarked) :
    (Node.element tag attrs children data).All WellMarked :=
  Node.all_iff.mpr ⟨wellMarked_of_not_isMarker rfl fun htext ↦ Bool.noConfusion htext, h⟩

theorem all_wellMarked_ofMarkup (hblocks : ReadsUnmarked blocks) {src : String} {block : Bool}
    (h : (ofMarkup blocks src block).Returns ns) : ∀ n ∈ ns, n.All WellMarked :=
  fun n hn m hm ↦ ofMarkup_wellMarked hblocks h m (Node.mem_walkAll.mpr ⟨n, hn, hm⟩)

theorem all_wellMarked_codeBlock (info content : String) :
    (codeBlock info content).All WellMarked := by
  unfold codeBlock
  refine all_wellMarked_element (List.forall_mem_singleton.mpr ?_)
  split
  · exact all_wellMarked_element (List.forall_mem_singleton.mpr (all_wellMarked_text _))
  · exact all_wellMarked_element (List.forall_mem_singleton.mpr (all_wellMarked_text _))

theorem all_wellMarked_simpleNodes (hblocks : ReadsUnmarked blocks)
    (h : (simpleNodes blocks t).Returns ns) : ∀ n ∈ ns, n.All WellMarked := by
  have hpure {ms : List Node} (hms : ∀ m ∈ ms, m.All WellMarked) (h : Logged.Returns (pure ms) ns) :
      ∀ n ∈ ns, n.All WellMarked := by
    rwa [Logged.returns_pure h]
  have hone {m : Node} (hm : m.All WellMarked) : ∀ n ∈ [m], n.All WellMarked :=
    List.forall_mem_singleton.mpr hm
  have hempty {tag : String} {attrs : Fields} : (Node.element tag attrs []).All WellMarked :=
    all_wellMarked_element (List.forall_mem_nil _)
  unfold simpleNodes at h
  split at h
  case h_1 => exact hpure (hone (all_wellMarked_text _)) h
  case h_2 => exact hpure (hone (all_wellMarked_text _)) h
  case h_3 => exact hpure (hone hempty) h
  case h_4 => exact hpure (hone (all_wellMarked_element (hone (all_wellMarked_text _)))) h
  case h_5 => exact hpure (hone (all_wellMarked_codeBlock _ _)) h
  case h_6 => exact hpure (hone (all_wellMarked_codeBlock _ _)) h
  case h_7 => exact all_wellMarked_ofMarkup hblocks h
  case h_8 => exact all_wellMarked_ofMarkup hblocks h
  case h_9 => exact hpure (hone hempty) h
  case h_10 => exact hpure (hone hempty) h
  case h_11 =>
    obtain ⟨label, -, h⟩ := Logged.returns_bind h
    refine hpure (hone (all_wellMarked_element (hone (all_wellMarked_element (hone ?_))))) h
    exact all_wellMarked_text _
  case h_12 =>
    obtain ⟨label, -, h⟩ := Logged.returns_bind h
    refine hpure (List.forall_mem_cons.mpr ⟨all_wellMarked_text _, hone ?_⟩) h
    exact all_wellMarked_element (hone (all_wellMarked_text _))
  case h_13 =>
    split at h
    · exact hpure (List.forall_mem_nil _) h
    · obtain ⟨-, -, h⟩ := Logged.returns_bind h
      exact hpure (hone (all_wellMarked_text _)) h

theorem elementOf_returns {n : Node} (h : (elementOf t).Returns n) :
    ∃ tag attrs data, n = Node.element tag attrs [] data := by
  have hlast {tag : String} (h : Logged.Returns (do
      let level ← if t.type == "heading_open" then
          (fun level ↦ [("level", Value.int level)]) <$> Logged.ofExcept (levelOf tag)
        else pure []
      return Node.element tag (elementAttributes tag t.attrs) [] level) n) :
      ∃ tag attrs data, n = Node.element tag attrs [] data := by
    dsimp only at h
    split at h
    · obtain ⟨level, -, h⟩ := Logged.returns_bind h
      exact ⟨_, _, _, Logged.returns_pure h⟩
    · obtain ⟨level, -, h⟩ := Logged.returns_bind h
      exact ⟨_, _, _, Logged.returns_pure h⟩
  unfold elementOf at h
  split at h
  · obtain ⟨label, -, h⟩ := Logged.returns_bind h
    exact ⟨_, _, _, Logged.returns_pure h⟩
  · dsimp only at h
    by_cases htag : t.tag.isEmpty = true
    · rw [if_pos htag] at h
      obtain ⟨-, -, h⟩ := Logged.returns_bind h
      exact hlast h
    · rw [if_neg htag] at h
      exact hlast h

end Leaves

section Conversion

theorem containerOf_wellMarked {c : Container} (h : (containerOf t).Returns c) :
    c.Keeps (Node.All WellMarked) := by
  intro ns hns
  rw [containerOf_eq_elementOf] at h
  split at h
  · rw [Logged.returns_pure h]
    exact hns
  · split at h
    · rw [Logged.returns_pure h]
      exact List.forall_mem_singleton.mpr
        (all_wellMarked_element (List.forall_mem_singleton.mpr (all_wellMarked_element hns)))
    · rw [map_eq_pure_bind] at h
      obtain ⟨n, hn, h⟩ := Logged.returns_bind h
      obtain ⟨tag, attrs, data, rfl⟩ := elementOf_returns hn
      rw [Logged.returns_pure h]
      exact List.forall_mem_singleton.mpr (all_wellMarked_element hns)

mutual

theorem all_wellMarked_leafNodes (hblocks : ReadsUnmarked blocks) : (t : Token) →
    {ns : List Node} → (leafNodes blocks t).Returns ns → ∀ n ∈ ns, n.All WellMarked
  | ⟨type, nesting, tag, attrs, content, info, hidden, children, data⟩, ns, h => by
      rw [leafNodes] at h
      split at h
      · obtain ⟨b, hb, h⟩ := Logged.returns_bind h
        rw [Logged.returns_pure h]
        refine Node.all_mergeText ?_ fun s ↦ wellMarked_of_not_isMarker rfl fun _ ↦ rfl
        exact (wellMarked_convertFrom hblocks children .empty hb).nodes
      · exact all_wellMarked_simpleNodes hblocks h

/-- Whatever tokens are converted, markers are made as the raw markup has them. -/
theorem wellMarked_convertFrom (hblocks : ReadsUnmarked blocks) : (ts : List Token) →
    {b b' : Building} → b.AllHold (Node.All WellMarked) → (convertFrom blocks b ts).Returns b' →
    b'.AllHold (Node.All WellMarked)
  | [], b, b', hb, h => by
      rw [convertFrom] at h
      rwa [Logged.returns_pure h]
  | t :: rest, b, b', hb, h => by
      obtain ⟨-, ⟨c, -, hc, h⟩ | ⟨-, h⟩ | ⟨ns, -, hns, h⟩⟩ := convertFrom_cons h
      · exact wellMarked_convertFrom hblocks rest (hb.opening (containerOf_wellMarked hc)) h
      · exact wellMarked_convertFrom hblocks rest hb.closing h
      · exact wellMarked_convertFrom hblocks rest
          (hb.add (all_wellMarked_leafNodes hblocks t hns)) h

end

theorem all_wellMarked_convert (hblocks : ReadsUnmarked blocks)
    (h : (convert blocks ts).Returns ns) : ∀ n ∈ ns, n.All WellMarked := by
  obtain ⟨b, hb, h⟩ := Logged.returns_bind h
  rw [Logged.returns_pure h]
  exact (wellMarked_convertFrom hblocks ts .empty hb).nodes

/-- The markers that tokens are converted to can always be matched. -/
theorem exists_fold_convert (hblocks : ReadsUnmarked blocks)
    (h : (convert blocks ts).Returns ns) : ∃ nodes, fold ns = .ok nodes := by
  refine fold_isOk fun n hn ↦ ?_
  obtain ⟨m, hm, hn⟩ := Node.mem_walkAll.mp hn
  exact all_wellMarked_convert hblocks h m hm n hn

end Conversion

end SafeMarkdown.Markdown
