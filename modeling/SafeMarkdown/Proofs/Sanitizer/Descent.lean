import SafeMarkdown.Proofs.Heading.Ids
import SafeMarkdown.Proofs.Sanitizer.AllowList
import SafeMarkdown.Proofs.Sanitizer.Order

/-!
# Headings under sanitizing

Admission places each heading at most once and makes none: the elements of raw markup carry no
level. Filtering drops headings or keeps them where they are.
-/

namespace SafeMarkdown.Sanitizer

open Node

/-- Distinct indices look up different slots. -/
theorem filterMap_lookup_subperm {places : List String} (hplaces : places.Nodup) (slots : Slots) :
    (places.filterMap fun k ↦ slots.lookup k).Subperm (slots.map Prod.snd) := by
  induction places generalizing slots with
  | nil => exact List.nil_subperm
  | cons k places ih =>
      obtain ⟨hfresh, hrest⟩ := List.nodup_cons.mp hplaces
      cases hlookup : slots.lookup k with
      | none =>
          rw [List.filterMap_cons, hlookup]
          exact ih hrest slots
      | some n =>
          obtain ⟨before, after, rfl, -⟩ := List.lookup_eq_some_iff.mp hlookup
          have hsame : (places.filterMap fun j ↦ (before ++ (k, n) :: after).lookup j) =
              places.filterMap fun j ↦ (before ++ after).lookup j := by
            refine List.filterMap_congr fun j hj ↦ ?_
            have hne : (j == k) = false :=
              beq_eq_false_iff_ne.mpr fun heq ↦ hfresh (heq ▸ hj)
            rw [List.lookup_append, List.lookup_append, List.lookup_cons, hne]
          rw [List.filterMap_cons, hlookup, hsame]
          refine ((List.subperm_cons n).mpr (ih hrest (before ++ after))).trans ?_
          rw [List.map_append, List.map_append, List.map_cons]
          exact List.perm_middle.symm.subperm

mutual

/-- The marked nodes of a filled layout are those of the nodes in its places. -/
theorem markedAll_fill_layoutOf (slots : Slots) : (i : Html.Item) → (waiting : List String) →
    markedAll (Layout.fill.fillAll slots (layoutOf waiting i).1) =
      markedAll ((Layout.places.placesAll (layoutOf waiting i).1).filterMap
        fun k ↦ slots.lookup k)
  | .text s, waiting => by
      rw [layoutOf]
      exact (markedAll_singleton _).trans (marked_ofText s)
  | .markup, waiting => by
      rw [layoutOf]
      rfl
  | .element name attrs children, waiting => by
      rw [layoutOf]
      split
      · split
        · rfl
        · split
          · rename_i index _ _
            simp only [Layout.fill.fillAll, Layout.fill, Layout.places.placesAll, Layout.places,
              List.append_nil]
            cases hlookup : slots.lookup index with
            | none => simp [hlookup]
            | some n => simp [hlookup]
          · rfl
      · simp only [Layout.fill.fillAll, Layout.fill, Layout.places.placesAll, Layout.places,
          List.append_nil]
        rw [markedAll_singleton, marked_of_not_isMarked rfl]
        exact markedAll_fill_layoutOfAll slots children waiting

theorem markedAll_fill_layoutOfAll (slots : Slots) : (items : List Html.Item) →
    (waiting : List String) →
    markedAll (Layout.fill.fillAll slots (layoutOfAll waiting items).1) =
      markedAll ((Layout.places.placesAll (layoutOfAll waiting items).1).filterMap
        fun k ↦ slots.lookup k)
  | [], waiting => by
      rw [layoutOfAll]
      rfl
  | i :: rest, waiting => by
      rw [layoutOfAll]
      dsimp only
      rw [Layout.fillAll_append, Layout.placesAll_append, List.filterMap_append, markedAll_append,
        markedAll_append, markedAll_fill_layoutOf slots i, markedAll_fill_layoutOfAll slots rest]

end

/-- Siblings that are not raw markup. -/
def structured (siblings : List Node) : List Node :=
  siblings.filter fun n ↦ !n.isRaw

theorem slotsOf_sublist (index : Nat) (siblings : List Node) :
    ((slotsOf index siblings).map Prod.snd).Sublist (structured siblings) := by
  induction siblings generalizing index with
  | nil => exact List.Sublist.refl []
  | cons n rest ih =>
      rw [slotsOf, structured, List.filter_cons]
      cases hraw : n.isRaw with
      | true => exact ih (index + 1)
      | false =>
          cases htext : n.isText with
          | true => exact (ih (index + 1)).cons n
          | false => exact (ih (index + 1)).cons_cons n

theorem markedAll_resolve_subperm {siblings nodes : List Node} {removals : List Removal}
    (h : resolve siblings = .ok (nodes, removals)) :
    (markedAll nodes).Subperm (markedAll (structured siblings)) := by
  rw [resolve] at h
  split at h
  · obtain ⟨items, hitems, h⟩ := map_eq_ok.mp h
    obtain ⟨more, hrun⟩ := ofItems_run (slotsOf 0 siblings) (structuredFrom 0 siblings) [] items
    rw [among_structured] at hrun
    rw [hrun] at h
    cases h
    rw [markedAll_fill_layoutOfAll]
    refine markedAll_subperm (List.Subperm.trans (filterMap_lookup_subperm ?_ _)
      (slotsOf_sublist 0 siblings).subperm)
    rw [(places_layoutOfAll _ items).1]
    exact nodup_eraseDups _
  · rename_i hraw
    cases h
    have hself : structured siblings = siblings := by
      refine List.filter_eq_self.mpr fun n hn ↦ ?_
      rw [Bool.not_eq_true']
      exact Bool.eq_false_iff.mpr fun hn' ↦ hraw (List.any_eq_true.mpr ⟨n, hn, hn'⟩)
    rw [hself]

/-- What admission makes of a node. -/
def Admitted (g m : Node) : Prop :=
  ∃ removals, admitBelow g = .ok (m, removals)

mutual

theorem descends_admitBelow : (n : Node) → {m : Node} → {removals : List Removal} →
    n.isRaw = false → admitBelow n = .ok (m, removals) → Descends Admitted [n] [m]
  | ⟨kind, tag, attrs, children, value, data⟩, m, removals, hraw, h => by
      have hself : Admitted ⟨kind, tag, attrs, children, value, data⟩ m := ⟨removals, h⟩
      have hkind : (kind == .raw) = false := hraw
      rw [admitBelow, hkind, if_neg Bool.false_ne_true] at h
      obtain ⟨⟨mids, below⟩, hmids, h⟩ := bind_eq_ok.mp h
      obtain ⟨⟨nodes, here⟩, hnodes, h⟩ := bind_eq_ok.mp h
      cases h
      refine Descends.node (fun hmarked ↦ ⟨hmarked, hself⟩) ?_
      exact (descends_admitEach children hmids).select (markedAll_resolve_subperm hnodes)

theorem descends_admitEach : (ns : List Node) → {ms : List Node} → {removals : List Removal} →
    admitEach ns = .ok (ms, removals) → Descends Admitted ns (structured ms)
  | [], ms, removals, h => by
      cases h
      exact .of_markedAll_eq_nil rfl
  | n :: rest, ms, removals, h => by
      rw [admitEach] at h
      obtain ⟨⟨m, first⟩, hm, h⟩ := bind_eq_ok.mp h
      obtain ⟨⟨others, more⟩, hothers, h⟩ := bind_eq_ok.mp h
      cases h
      have hrest := descends_admitEach rest hothers
      have hbare := congrArg Node.isRaw (bare_admitBelow hm)
      have hkind : m.isRaw = n.isRaw := hbare
      rw [structured, List.filter_cons]
      cases hraw : n.isRaw with
      | true =>
          have hnone : Descends Admitted [n] [] := .of_markedAll_eq_nil rfl
          rw [hkind, hraw]
          exact hnone.append hrest
      | false =>
          rw [hkind, hraw]
          exact (descends_admitBelow n hraw hm).append hrest

end

theorem descends_admission {siblings nodes : List Node} {removals : List Removal}
    (h : admission siblings = .ok (nodes, removals)) : Descends Admitted siblings nodes := by
  obtain ⟨⟨mids, below⟩, hmids, h⟩ := bind_eq_ok.mp h
  obtain ⟨⟨resolved, here⟩, hresolved, h⟩ := bind_eq_ok.mp h
  cases h
  exact (descends_admitEach siblings hmids).select (markedAll_resolve_subperm hresolved)

/-- What filtering makes of a node; what stands below a text stays as it is. -/
def Filtered (s : Schema) (g m : Node) : Prop :=
  m ∈ (filterNode s g).1 ∨ m = g

variable {s : Schema}

mutual

theorem descends_filterNode : (n : Node) → Descends (Filtered s) [n] (filterNode s n).1
  | ⟨kind, tag, attrs, children, value, data⟩ => by
      have hbelow := (descends_filterAll children).mergeText
      have hself (m : Node) (hm : m ∈ (filterNode s ⟨kind, tag, attrs, children, value, data⟩).1) :
          Filtered s ⟨kind, tag, attrs, children, value, data⟩ m := .inl hm
      rcases filterNode_cases s ⟨kind, tag, attrs, children, value, data⟩ with
        ⟨-, h⟩ | h | h | ⟨_, _, h, -, -⟩
      · rw [h]
        exact Descends.refl (fun _ ↦ .inr rfl) _
      · rw [h]
        exact .of_markedAll_eq_nil rfl
      · rw [h]
        exact Descends.below (n := ⟨kind, tag, attrs, children, value, data⟩) hbelow
      · rw [h] at hself ⊢
        exact Descends.node (fun hmarked ↦ ⟨hmarked, hself _ List.mem_cons_self⟩) hbelow

theorem descends_filterAll : (ns : List Node) → Descends (Filtered s) ns (filterAll s ns).1
  | [] => .of_markedAll_eq_nil rfl
  | n :: rest => by
      rw [filterAll]
      exact (descends_filterNode n).append (descends_filterAll rest)

end

end SafeMarkdown.Sanitizer
