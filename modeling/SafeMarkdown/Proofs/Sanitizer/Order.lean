import SafeMarkdown.Proofs.Returns
import SafeMarkdown.Proofs.Sanitizer.Splice

/-!
# The order of admitted siblings

Siblings that are neither text nor raw markup are structured: admission places them where their
slots stand. No one is placed twice, but markup can spell slots of its own, or swallow those that
follow it. The structured siblings that no script or style encloses keep their order exactly if the
first slots of their indices come in that order.
-/

namespace SafeMarkdown.Sanitizer

/-- The indices of structured siblings from an index on. -/
def structuredFrom (index : Nat) (siblings : List Node) : List String :=
  (slotsOf index siblings).map Prod.fst

/-- The indices of structured siblings, from an index on, that stand in no content of a script or a
style of a text. -/
def exposedFrom (text : List Char) (index : Nat) : List Node → List String
  | [] => []
  | n :: rest =>
    if n.isRaw || n.isText ||
        Html.isRawContent text (siblingsText index (n :: rest)).length then
      exposedFrom text (index + 1) rest
    else toString index :: exposedFrom text (index + 1) rest

/-- The indices of the structured siblings that no script or style encloses. -/
def exposed (siblings : List Node) : List String :=
  exposedFrom (siblingsText 0 siblings) 0 siblings

/-- Siblings without raw markup as they stand. -/
def standing (index : Nat) : List Node → List Layout
  | [] => []
  | n :: rest =>
    (if n.isRaw || n.isText then .leaf n else .place (toString index)) :: standing (index + 1) rest

/-- The layout that siblings are admitted in. -/
def layoutsOf (siblings : List Node) : Except Failure (List Layout) :=
  if siblings.any Node.isRaw then
    (Html.parseFragment (siblingsText 0 siblings)).map fun items ↦
      (layoutOfAll (structuredFrom 0 siblings) items).1
  else .ok (standing 0 siblings)

/-- The indices of the slots that reading the siblings finds, in document order. -/
def slotsRead (siblings : List Node) : Except Failure (List String) :=
  if siblings.any Node.isRaw then
    (Html.parseFragment (siblingsText 0 siblings)).map slotNamesAll
  else .ok (structuredFrom 0 siblings)

theorem toString_inj {m n : Nat} : toString m = toString n ↔ m = n := by
  refine ⟨fun h ↦ ?_, fun h ↦ h ▸ rfl⟩
  have hdigits : Nat.toDigits 10 m = Nat.toDigits 10 n := by
    have hlists : (Nat.repr m).toList = (Nat.repr n).toList := congrArg String.toList h
    simpa [Nat.repr] using hlists
  rw [← Nat.ofDigitChars_ten_toDigits (n := m), hdigits, Nat.ofDigitChars_ten_toDigits]

theorem structuredFrom_cons (index : Nat) (n : Node) (rest : List Node) :
    structuredFrom index (n :: rest) =
      if n.isRaw || n.isText then structuredFrom (index + 1) rest
      else toString index :: structuredFrom (index + 1) rest := by
  rw [structuredFrom, slotsOf]
  split <;> rfl

theorem exists_of_mem_structuredFrom {index : Nat} {siblings : List Node} {name : String}
    (h : name ∈ structuredFrom index siblings) : ∃ k, index ≤ k ∧ name = toString k := by
  induction siblings generalizing index with
  | nil => simp [structuredFrom, slotsOf] at h
  | cons n rest ih =>
      have hrest (h : name ∈ structuredFrom (index + 1) rest) :
          ∃ k, index ≤ k ∧ name = toString k := by
        obtain ⟨k, hk, hname⟩ := ih h
        exact ⟨k, by omega, hname⟩
      rw [structuredFrom_cons] at h
      split at h
      · exact hrest h
      · rcases List.mem_cons.mp h with rfl | h
        · exact ⟨index, Nat.le_refl index, rfl⟩
        · exact hrest h

theorem toString_not_mem_structuredFrom {index k : Nat} (h : k < index) (siblings : List Node) :
    toString k ∉ structuredFrom index siblings := by
  intro hmem
  obtain ⟨j, hj, hname⟩ := exists_of_mem_structuredFrom hmem
  have heq := toString_inj.mp hname
  omega

theorem nodup_structuredFrom (index : Nat) (siblings : List Node) :
    (structuredFrom index siblings).Nodup := by
  induction siblings generalizing index with
  | nil => exact List.nodup_nil
  | cons n rest ih =>
      rw [structuredFrom_cons]
      split
      · exact ih (index + 1)
      · exact List.nodup_cons.mpr
          ⟨toString_not_mem_structuredFrom (Nat.lt_succ_self index) rest, ih (index + 1)⟩

/-- The slot of an index waits for the sibling that has this index, if it is structured. -/
theorem lookup_slotsOf (index k : Nat) (siblings : List Node) :
    (slotsOf index siblings).lookup (toString (index + k)) =
      (siblings[k]?).filter fun n ↦ !(n.isRaw || n.isText) := by
  induction siblings generalizing index k with
  | nil => simp [slotsOf]
  | cons n rest ih =>
      have hself : (slotsOf (index + 1) rest).lookup (toString index) = none := by
        refine List.lookup_eq_none_iff.mpr fun s hs ↦ ?_
        have hne : toString index ≠ s.1 := fun heq ↦
          toString_not_mem_structuredFrom (Nat.lt_succ_self index) rest
            (heq ▸ List.mem_map_of_mem hs)
        simpa using hne
      rw [slotsOf]
      cases hkind : n.isRaw || n.isText with
      | true =>
          cases k with
          | zero =>
              rw [if_pos rfl, List.getElem?_cons_zero, Option.filter_some, hkind]
              exact hself
          | succ k =>
              rw [if_pos rfl, List.getElem?_cons_succ, ← ih (index + 1) k, Nat.add_assoc,
                Nat.add_comm 1 k]
      | false =>
          rw [if_neg Bool.false_ne_true, List.lookup_cons]
          cases k with
          | zero =>
              rw [List.getElem?_cons_zero, Option.filter_some, hkind, Nat.add_zero, beq_self_eq_true]
              rfl
          | succ k =>
              have hne : (toString (index + (k + 1)) == toString index) = false := by
                refine beq_eq_false_iff_ne.mpr fun heq ↦ ?_
                have hindex := toString_inj.mp heq
                omega
              rw [hne, List.getElem?_cons_succ, ← ih (index + 1) k, Nat.add_assoc, Nat.add_comm 1 k]

theorem exposedFrom_sublist (text : List Char) (index : Nat) (siblings : List Node) :
    (exposedFrom text index siblings).Sublist (structuredFrom index siblings) := by
  induction siblings generalizing index with
  | nil => exact List.Sublist.refl []
  | cons n rest ih =>
      rw [exposedFrom, structuredFrom_cons]
      cases hkind : n.isRaw || n.isText with
      | true => simpa using ih (index + 1)
      | false =>
          rw [Bool.false_or]
          split
          · exact (ih (index + 1)).cons _
          · exact (ih (index + 1)).cons_cons _

theorem among_structured (siblings : List Node) :
    (slotsOf 0 siblings).among (structuredFrom 0 siblings) = slotsOf 0 siblings := by
  refine List.filter_eq_self.mpr fun s hs ↦ List.contains_iff_mem.mpr ?_
  exact List.mem_map_of_mem hs

theorem fill_standing (index : Nat) (siblings : List Node) (slots : Slots)
    (h : ∀ k, slots.lookup (toString (index + k)) =
      (siblings[k]?).filter fun n ↦ !(n.isRaw || n.isText)) :
    Layout.fill.fillAll slots (standing index siblings) = siblings := by
  induction siblings generalizing index with
  | nil => rfl
  | cons n rest ih =>
      have hself := h 0
      have hrest : Layout.fill.fillAll slots (standing (index + 1) rest) = rest :=
        ih (index + 1) fun k ↦ by
          have hk := h (k + 1)
          rw [List.getElem?_cons_succ] at hk
          rw [← hk, Nat.add_assoc, Nat.add_comm 1 k]
      rw [standing, Layout.fill.fillAll, hrest]
      split
      · rfl
      · rename_i hkind
        rw [Nat.add_zero, List.getElem?_cons_zero, Option.filter_some,
          if_pos (by simpa using hkind)] at hself
        rw [Layout.fill, hself]
        rfl

theorem places_standing (index : Nat) (siblings : List Node) :
    Layout.places.placesAll (standing index siblings) = structuredFrom index siblings := by
  induction siblings generalizing index with
  | nil => rfl
  | cons n rest ih =>
      rw [standing, Layout.places.placesAll, structuredFrom_cons, ih]
      split <;> rfl

theorem resolve_eq_fill {siblings nodes : List Node} {removals : List Removal}
    (h : resolve siblings = .ok (nodes, removals)) :
    ∃ layouts read, layoutsOf siblings = .ok layouts ∧ slotsRead siblings = .ok read ∧
      nodes = Layout.fill.fillAll (slotsOf 0 siblings) layouts ∧
      Layout.places.placesAll layouts =
        (read.filter (structuredFrom 0 siblings).contains).eraseDups := by
  rw [resolve] at h
  cases hraw : siblings.any Node.isRaw with
  | true =>
      rw [hraw, if_pos rfl] at h
      obtain ⟨items, hitems, h⟩ := map_eq_ok.mp h
      obtain ⟨more, hrun⟩ := ofItems_run (slotsOf 0 siblings) (structuredFrom 0 siblings) [] items
      rw [among_structured] at hrun
      rw [hrun] at h
      cases h
      refine ⟨_, slotNamesAll items, ?_, ?_, rfl, (places_layoutOfAll _ items).1⟩
      · rw [layoutsOf, hraw, if_pos rfl, hitems]
        rfl
      · rw [slotsRead, hraw, if_pos rfl, hitems]
        rfl
  | false =>
      rw [hraw, if_neg Bool.false_ne_true] at h
      cases h
      refine ⟨standing 0 siblings, structuredFrom 0 siblings, ?_, ?_, ?_, ?_⟩
      · rw [layoutsOf, hraw, if_neg Bool.false_ne_true]
      · rw [slotsRead, hraw, if_neg Bool.false_ne_true]
      · exact (fill_standing 0 siblings _ fun k ↦ lookup_slotsOf 0 k siblings).symm
      · have hself : (structuredFrom 0 siblings).filter (structuredFrom 0 siblings).contains =
            structuredFrom 0 siblings :=
          List.filter_eq_self.mpr fun name hname ↦ List.contains_iff_mem.mpr hname
        rw [places_standing, hself, eraseDups_eq_self (nodup_structuredFrom 0 siblings)]

/-- A node without the nodes below it. -/
def bare (n : Node) : Node :=
  { n with children := [] }

theorem bare_admitBelow {n m : Node} {removals : List Removal}
    (h : admitBelow n = .ok (m, removals)) : bare m = bare n := by
  obtain ⟨kind, tag, attrs, children, value, data⟩ := n
  rw [admitBelow] at h
  split at h
  · cases h
    rfl
  · obtain ⟨⟨admitted, below⟩, -, h⟩ := bind_eq_ok.mp h
    obtain ⟨⟨nodes, here⟩, -, h⟩ := bind_eq_ok.mp h
    cases h
    rfl

theorem bare_admitEach {siblings admitted : List Node} {removals : List Removal}
    (h : admitEach siblings = .ok (admitted, removals)) : admitted.map bare = siblings.map bare := by
  induction siblings generalizing admitted removals with
  | nil =>
      cases h
      rfl
  | cons n rest ih =>
      obtain ⟨⟨m, first⟩, hfirst, h⟩ := bind_eq_ok.mp h
      obtain ⟨⟨ms, others⟩, hothers, h⟩ := bind_eq_ok.mp h
      cases h
      rw [List.map_cons, List.map_cons, bare_admitBelow hfirst, ih hothers]

theorem siblingsText_bare (index : Nat) (siblings : List Node) :
    siblingsText index (siblings.map bare) = siblingsText index siblings := by
  induction siblings generalizing index with
  | nil => rfl
  | cons n rest ih =>
      rw [List.map_cons, siblingsText, siblingsText, ih]
      rfl

theorem structuredFrom_bare (index : Nat) (siblings : List Node) :
    structuredFrom index (siblings.map bare) = structuredFrom index siblings := by
  induction siblings generalizing index with
  | nil => rfl
  | cons n rest ih =>
      rw [List.map_cons, structuredFrom_cons, structuredFrom_cons, ih]
      rfl

theorem any_isRaw_bare (siblings : List Node) :
    (siblings.map bare).any Node.isRaw = siblings.any Node.isRaw :=
  List.any_map

theorem slotsRead_bare (siblings : List Node) :
    slotsRead (siblings.map bare) = slotsRead siblings := by
  rw [slotsRead, slotsRead, any_isRaw_bare, siblingsText_bare, structuredFrom_bare]

/-- The structured siblings that a layout places, other than those that a script or a style
encloses, are all of them in their order. -/
def KeepsOrder (siblings : List Node) (layouts : List Layout) : Prop :=
  (Layout.places.placesAll layouts).filter (exposed siblings).contains = exposed siblings

theorem keepsOrder_iff {siblings : List Node} {layouts : List Layout} {read : List String}
    (h : Layout.places.placesAll layouts =
      (read.filter (structuredFrom 0 siblings).contains).eraseDups) :
    KeepsOrder siblings layouts ↔
      (read.filter (exposed siblings).contains).eraseDups = exposed siblings := by
  have hnarrow : (read.filter (structuredFrom 0 siblings).contains).filter
      (exposed siblings).contains = read.filter (exposed siblings).contains := by
    rw [List.filter_filter]
    refine List.filter_congr fun name _ ↦ ?_
    rw [Bool.eq_iff_iff, Bool.and_eq_true, List.contains_iff_mem, List.contains_iff_mem]
    exact ⟨And.left, fun hmem ↦ ⟨hmem, (exposedFrom_sublist _ 0 siblings).subset hmem⟩⟩
  rw [KeepsOrder, h, filter_eraseDups, hnarrow]

/-- With self-contained markup every structured sibling is placed, in order. -/
theorem places_of_selfContained {siblings : List Node} {layouts : List Layout} {read : List String}
    (hmarkup : ∀ n ∈ siblings, n.isRaw = true → SelfContained n.text.toList)
    (hread : slotsRead siblings = .ok read)
    (h : Layout.places.placesAll layouts =
      (read.filter (structuredFrom 0 siblings).contains).eraseDups) :
    Layout.places.placesAll layouts = structuredFrom 0 siblings := by
  have hall : read = structuredFrom 0 siblings := by
    rw [slotsRead] at hread
    split at hread
    · obtain ⟨items, hitems, hnames⟩ := parseFragment_siblings siblings hmarkup
      rw [hitems] at hread
      cases hread
      exact hnames
    · cases hread
      rfl
  have hself : (structuredFrom 0 siblings).filter (structuredFrom 0 siblings).contains =
      structuredFrom 0 siblings :=
    List.filter_eq_self.mpr fun name hname ↦ List.contains_iff_mem.mpr hname
  rw [h, hall, hself, eraseDups_eq_self (nodup_structuredFrom 0 siblings)]

/-- Markup that encloses the first of three paragraphs in an element and the second in a script. -/
def wrapped : List Node :=
  [.ofMarkup "<div>", .element "p" [] [.ofText "A"], .ofMarkup "</div><script>",
    .element "p" [] [.ofText "B"], .ofMarkup "</script>", .element "p" [] [.ofText "C"]]

/-- Markup that spells the slot of the second paragraph before both paragraphs. -/
def forged : List Node :=
  [.ofMarkup "<mdrender-slot data-index=\"2\"></mdrender-slot>", .element "p" [] [.ofText "A"],
    .element "p" [] [.ofText "B"]]

/-- Behind a numeric reference without digits all is text: the paragraph is lost. -/
example : (admission [.ofMarkup "<div>R&#D</div>", .element "p" [] [.ofText "A"]]).toOption.map
    (fun r ↦ r.1.map Node.textContent) =
      some ["R&#D</div><mdrender-slot data-index=\"1\"></mdrender-slot>"] := by
  decide +kernel

end SafeMarkdown.Sanitizer
