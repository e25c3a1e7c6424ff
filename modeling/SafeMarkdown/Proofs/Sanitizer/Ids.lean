import SafeMarkdown.Proofs.Heading.Ids
import SafeMarkdown.Proofs.Returns
import SafeMarkdown.Sanitizer.Run

/-!
# Ids after sanitizing

No two elements keep the same id. A heading keeps its id when the ids of all headings are reserved
and different: what stands before it can only take ids that are not reserved.

Of an id that several elements have, one element keeps it, unless it is reserved for something that
is no element.
-/

namespace SafeMarkdown

namespace Node

/-- The id of an element. -/
def elementId? (n : Node) : Option String :=
  if n.kind = .element then n.idText? else none

/-- The ids of elements, in document order. -/
def elementIds (ns : List Node) : List String :=
  (walk.walkAll ns).filterMap elementId?

theorem elementIds_cons (n : Node) (ns : List Node) :
    elementIds (n :: ns) = elementIds [n] ++ elementIds ns := by
  rw [elementIds, walk.walkAll, List.filterMap_append]
  simp [elementIds, walk.walkAll]

theorem elementIds_singleton (n : Node) :
    elementIds [n] = n.elementId?.toList ++ elementIds n.children := by
  obtain ⟨kind, tag, attrs, children, value, data⟩ := n
  rw [elementIds, walk.walkAll, walk_mk, walk.walkAll, List.append_nil, List.filterMap_cons]
  cases elementId? ⟨kind, tag, attrs, children, value, data⟩ with
  | none => rfl
  | some id => rfl

theorem idText?_of_elementId? {n : Node} {id : String} (h : n.elementId? = some id) :
    n.idText? = some id := by
  unfold elementId? at h
  split at h
  · exact h
  · cases h

theorem kind_of_elementId? {n : Node} {id : String} (h : n.elementId? = some id) : n.kind = .element := by
  unfold elementId? at h
  split at h
  · assumption
  · cases h

theorem get?_of_elementId? {n : Node} {id : String} (h : n.elementId? = some id) :
    n.attrs.get? "id" = some (.str id) := by
  obtain ⟨v, hv, hstr⟩ := Option.bind_eq_some_iff.mp (idText?_of_elementId? h)
  cases v with
  | str s =>
      cases hstr
      exact hv
  | _ => cases hstr

theorem isMarked_of_flagged {n : Node} (h : n.flagged "level" = true) : n.isMarked = true := by
  obtain ⟨v, hv⟩ := Option.isSome_iff_exists.mp (Option.isSome_of_any h)
  exact List.any_eq_true.mpr ⟨_, Fields.mem_of_get? hv, beq_self_eq_true _⟩

/-- A heading whose id the removal of ids knows to be reserved. -/
structure Reserves (n : Node) (id : String) : Prop where
  flagged : n.flagged "level" = true
  elementId? : n.elementId? = some id
  ne_empty : id ≠ ""

theorem reserves_node {level : Nat} {slug : String} (hlevel : IsLevel level) (hslug : slug ≠ "")
    (children : List Node) :
    (Heading.node level [("id", .str slug)] children).Reserves slug where
  flagged := by
    have hne : level ≠ 0 := Nat.ne_of_gt hlevel.1
    simp [flagged, Heading.node, element, Fields.get?, Value.isTruthy, hne]
  elementId? := rfl
  ne_empty := hslug

end Node

namespace Sanitizer

open Node

variable {reserved kept : List String} {n : Node}

theorem keepsId_iff {heading : Bool} {id : String} :
    keepsId reserved kept heading id = true ↔ id ∉ kept ∧ (heading = true ∨ id ∉ reserved) := by
  simp [keepsId]

/-- An element with an id keeps it or loses it, before its children are looked at. -/
theorem distinctIds_of_elementId? {id : String} (hid : n.elementId? = some id) :
    distinctIds reserved kept n =
      if keepsId reserved kept (n.flagged "level") id then
        ({ n with children := (distinctIdsAll reserved (id :: kept) n.children).1 },
          (distinctIdsAll reserved (id :: kept) n.children).2)
      else
        ({ n with
            attrs := n.attrs.erase "id"
            children := (distinctIdsAll reserved kept n.children).1 },
          (distinctIdsAll reserved kept n.children).2.1,
          .stripAttribute n.tag "id" :: (distinctIdsAll reserved kept n.children).2.2) := by
  have hget := get?_of_elementId? hid
  have hkind := kind_of_elementId? hid
  obtain ⟨kind, tag, attrs, children, value, data⟩ := n
  obtain rfl : kind = .element := hkind
  unfold distinctIds
  rw [show attrs.get? "id" = some (.str id) from hget]

theorem distinctIds_of_keeps {id : String} (hid : n.elementId? = some id)
    (h : keepsId reserved kept (n.flagged "level") id = true) :
    distinctIds reserved kept n =
      ({ n with children := (distinctIdsAll reserved (id :: kept) n.children).1 },
        (distinctIdsAll reserved (id :: kept) n.children).2) := by
  rw [distinctIds_of_elementId? hid, if_pos h]

theorem distinctIds_of_loses {id : String} (hid : n.elementId? = some id)
    (h : keepsId reserved kept (n.flagged "level") id = false) :
    distinctIds reserved kept n =
      ({ n with
          attrs := n.attrs.erase "id"
          children := (distinctIdsAll reserved kept n.children).1 },
        (distinctIdsAll reserved kept n.children).2.1,
        .stripAttribute n.tag "id" :: (distinctIdsAll reserved kept n.children).2.2) := by
  rw [distinctIds_of_elementId? hid, h, if_neg Bool.false_ne_true]

theorem distinctIds_of_elementId?_eq_none (hid : n.elementId? = none) :
    distinctIds reserved kept n =
      ({ n with children := (distinctIdsAll reserved kept n.children).1 },
        (distinctIdsAll reserved kept n.children).2) := by
  obtain ⟨kind, tag, attrs, children, value, data⟩ := n
  unfold distinctIds
  split
  · rename_i id hget
    simp [elementId?, idText?, hget, Value.str?] at hid
  · rfl

/-- What becomes of the attributes of a node and of the ids that are kept. -/
inductive IdStep (reserved kept : List String) (n : Node) : Fields → List String → Prop where
  | keeps {id : String} (hid : n.elementId? = some id)
      (h : keepsId reserved kept (n.flagged "level") id = true) :
      IdStep reserved kept n n.attrs (id :: kept)
  | loses {id : String} (hid : n.elementId? = some id)
      (h : keepsId reserved kept (n.flagged "level") id = false) :
      IdStep reserved kept n (n.attrs.erase "id") kept
  | none (hid : n.elementId? = none) : IdStep reserved kept n n.attrs kept

theorem exists_idStep (reserved kept : List String) (n : Node) :
    ∃ attrs kept', IdStep reserved kept n attrs kept' ∧
      (distinctIds reserved kept n).1 =
        { n with attrs, children := (distinctIdsAll reserved kept' n.children).1 } ∧
      (distinctIds reserved kept n).2.1 = (distinctIdsAll reserved kept' n.children).2.1 := by
  cases hid : n.elementId? with
  | none =>
      rw [distinctIds_of_elementId?_eq_none hid]
      exact ⟨n.attrs, kept, .none hid, rfl, rfl⟩
  | some id =>
      cases h : keepsId reserved kept (n.flagged "level") id with
      | true =>
          rw [distinctIds_of_keeps hid h]
          exact ⟨n.attrs, id :: kept, .keeps hid h, rfl, rfl⟩
      | false =>
          rw [distinctIds_of_loses hid h]
          exact ⟨n.attrs.erase "id", kept, .loses hid h, rfl, rfl⟩

theorem IdStep.attrs_subset {n : Node} {attrs : Fields} {kept' : List String}
    (h : IdStep reserved kept n attrs kept') : attrs ⊆ n.attrs := by
  cases h with
  | keeps hid h => exact List.Subset.refl _
  | loses hid h => exact List.filter_sublist.subset
  | none hid => exact List.Subset.refl _

mutual

/-- Each id that an element keeps is new. -/
theorem allots_distinctIds (reserved kept : List String) : (n : Node) →
    Allots kept (distinctIds reserved kept n).2.1 (elementIds [(distinctIds reserved kept n).1])
  | ⟨kind, tag, attrs, children, value, data⟩ => by
      obtain ⟨attrs', kept', hstep, heq, htaken⟩ :=
        exists_idStep reserved kept ⟨kind, tag, attrs, children, value, data⟩
      have hbelow := allots_distinctIdsAll reserved kept' children
      rw [heq, htaken, elementIds_singleton]
      cases hstep with
      | keeps hid h =>
          change Allots kept _
            ((elementId? ⟨kind, tag, attrs, children, value, data⟩).toList ++ _)
          rw [hid]
          exact hbelow.cons (keepsId_iff.mp h).1
      | loses hid h =>
          have hself : elementId? ⟨kind, tag, Fields.erase attrs "id",
              (distinctIdsAll reserved kept children).1, value, data⟩ = none := by
            simp [elementId?, idText?, Fields.get?_erase]
          rw [hself]
          exact hbelow
      | none hid =>
          change Allots kept _
            ((elementId? ⟨kind, tag, attrs, children, value, data⟩).toList ++ _)
          rw [hid]
          exact hbelow

theorem allots_distinctIdsAll (reserved kept : List String) : (ns : List Node) →
    Allots kept (distinctIdsAll reserved kept ns).2.1
      (elementIds (distinctIdsAll reserved kept ns).1)
  | [] => .nil
  | n :: rest => by
      rw [distinctIdsAll, elementIds_cons]
      exact (allots_distinctIds reserved kept n).append (allots_distinctIdsAll reserved _ rest)

end

mutual

/-- Of the reserved ids, a tree takes none but those of its headings. -/
theorem kept_distinctIds (reserved kept : List String) : (n : Node) →
    ∀ s ∈ (distinctIds reserved kept n).2.1, s ∈ kept ∨ s ∉ reserved ∨ s ∈ slugs [n]
  | ⟨kind, tag, attrs, children, value, data⟩ => by
      obtain ⟨attrs', kept', hstep, -, htaken⟩ :=
        exists_idStep reserved kept ⟨kind, tag, attrs, children, value, data⟩
      rw [htaken]
      intro s hs
      rcases kept_distinctIdsAll reserved kept' children s hs with hs | hs | hs
      · cases hstep with
        | keeps hid h =>
            rcases List.mem_cons.mp hs with rfl | hs
            · rcases (keepsId_iff.mp h).2 with hflagged | hfree
              · exact .inr (.inr (mem_slugs_of_isMarked (isMarked_of_flagged hflagged)
                  (idText?_of_elementId? hid)))
              · exact .inr (.inl hfree)
            · exact .inl hs
        | loses hid h => exact .inl hs
        | none hid => exact .inl hs
      · exact .inr (.inl hs)
      · exact .inr (.inr ((slugs_children_sublist _).subset hs))

theorem kept_distinctIdsAll (reserved kept : List String) : (ns : List Node) →
    ∀ s ∈ (distinctIdsAll reserved kept ns).2.1, s ∈ kept ∨ s ∉ reserved ∨ s ∈ slugs ns
  | [] => fun _ hs ↦ .inl hs
  | n :: rest => by
      intro s hs
      rw [slugs_cons, List.mem_append]
      rcases kept_distinctIdsAll reserved _ rest s hs with hs | hs | hs
      · rcases kept_distinctIds reserved kept n s hs with hs | hs | hs
        · exact .inl hs
        · exact .inr (.inl hs)
        · exact .inr (.inr (.inl hs))
      · exact .inr (.inl hs)
      · exact .inr (.inr (.inr hs))

end

/-- The headings of some trees have ids of their own that are reserved and still free. -/
structure Claims (reserved kept : List String) (ns : List Node) : Prop where
  reserves : ∀ m ∈ markedAll ns, ∃ id, m.Reserves id
  nodup : (slugs ns).Nodup
  free : ∀ s ∈ slugs ns, s ∈ reserved ∧ s ∉ kept

theorem Claims.head {n : Node} {rest : List Node} (h : Claims reserved kept (n :: rest)) :
    Claims reserved kept [n] where
  reserves := by
    intro m hm
    rw [markedAll_singleton] at hm
    exact h.reserves m (by rw [markedAll_cons]; exact List.mem_append_left _ hm)
  nodup := by
    have hnodup := h.nodup
    rw [slugs_cons] at hnodup
    exact (List.nodup_append.mp hnodup).1
  free := fun s hs ↦ h.free s (by rw [slugs_cons]; exact List.mem_append_left _ hs)

theorem Claims.tail {n : Node} {rest : List Node} (h : Claims reserved kept (n :: rest)) :
    Claims reserved (distinctIds reserved kept n).2.1 rest := by
  have hslugs (s : String) (hs : s ∈ slugs rest) : s ∈ slugs (n :: rest) := by
    rw [slugs_cons]
    exact List.mem_append_right _ hs
  have hnodup := h.nodup
  rw [slugs_cons, List.nodup_append] at hnodup
  refine ⟨fun m hm ↦ h.reserves m ?_, hnodup.2.1, fun s hs ↦ ⟨(h.free s (hslugs s hs)).1, ?_⟩⟩
  · rw [markedAll_cons]
    exact List.mem_append_right _ hm
  · intro hkept
    rcases kept_distinctIds reserved kept n s hkept with hs' | hs' | hs'
    · exact (h.free s (hslugs s hs)).2 hs'
    · exact hs' (h.free s (hslugs s hs)).1
    · exact hnodup.2.2 s hs' s hs rfl

theorem Claims.below {n : Node} {attrs : Fields} {kept' : List String}
    (h : Claims reserved kept [n]) (hstep : IdStep reserved kept n attrs kept') :
    Claims reserved kept' n.children := by
  have hsublist := slugs_children_sublist n
  refine ⟨fun m hm ↦ h.reserves m ?_, h.nodup.sublist hsublist, ?_⟩
  · rw [markedAll_singleton]
    exact (markedAll_children_sublist n).subset hm
  · intro s hs
    obtain ⟨hreserved, hfree⟩ := h.free s (hsublist.subset hs)
    refine ⟨hreserved, ?_⟩
    cases hstep with
    | keeps hid hkeeps =>
        intro hmem
        rcases List.mem_cons.mp hmem with rfl | hmem
        · rcases (keepsId_iff.mp hkeeps).2 with hflagged | hunreserved
          · have hnodup := h.nodup
            rw [slugs_of_isMarked (isMarked_of_flagged hflagged),
              idText?_of_elementId? hid] at hnodup
            exact (List.nodup_cons.mp hnodup).1 hs
          · exact hunreserved hreserved
        · exact hfree hmem
    | loses hid hkeeps => exact hfree
    | none hid => exact hfree

theorem Claims.attrs_eq {n : Node} {attrs : Fields} {kept' : List String}
    (h : Claims reserved kept [n]) (hmarked : n.isMarked = true)
    (hstep : IdStep reserved kept n attrs kept') : attrs = n.attrs := by
  obtain ⟨id, hid⟩ := h.reserves n (by
    rw [markedAll_singleton, marked_of_isMarked hmarked]
    exact List.mem_cons_self)
  have hfree := (h.free id (mem_slugs_of_isMarked hmarked (idText?_of_elementId? hid.elementId?))).2
  cases hstep with
  | keeps hid' hkeeps => rfl
  | loses hid' hkeeps =>
      rw [hid.elementId?] at hid'
      cases hid'
      rw [keepsId_iff.mpr ⟨hfree, .inl hid.flagged⟩] at hkeeps
      cases hkeeps
  | none hid' => rfl

/-- What the removal of ids makes of a heading: it keeps its attributes. -/
structure Deduped (reserved : List String) (g m : Node) : Prop where
  eq : ∃ kept, m = (distinctIds reserved kept g).1
  attrs : m.attrs = g.attrs

mutual

theorem descends_distinctIds (reserved kept : List String) : (n : Node) →
    Claims reserved kept [n] → Descends (Deduped reserved) [n] [(distinctIds reserved kept n).1]
  | ⟨kind, tag, attrs, children, value, data⟩, h => by
      obtain ⟨attrs', kept', hstep, heq, -⟩ :=
        exists_idStep reserved kept ⟨kind, tag, attrs, children, value, data⟩
      have hbelow := descends_distinctIdsAll reserved kept' children (h.below hstep)
      have hself :
          (distinctIds reserved kept ⟨kind, tag, attrs, children, value, data⟩).1.isMarked =
            isMarked ⟨kind, tag, attrs, children, value, data⟩ := by
        rw [heq]
        rfl
      refine Descends.node (fun hmarked ↦ ?_) ?_
      · rw [hself] at hmarked
        refine ⟨hmarked, ⟨kept, rfl⟩, ?_⟩
        rw [heq]
        exact h.attrs_eq hmarked hstep
      · rw [heq]
        exact hbelow

theorem descends_distinctIdsAll (reserved kept : List String) : (ns : List Node) →
    Claims reserved kept ns → Descends (Deduped reserved) ns (distinctIdsAll reserved kept ns).1
  | [], _ => .of_markedAll_eq_nil rfl
  | n :: rest, h => by
      rw [distinctIdsAll]
      exact (descends_distinctIds reserved kept n h.head).append
        (descends_distinctIdsAll reserved _ rest h.tail)

end

theorem mem_reservedIds {ns : List Node} {ids : List String} (h : reservedIds ns = .ok ids)
    {n : Node} (hn : n ∈ ns) {id : String} (hid : reservedId n = .ok (some id)) : id ∈ ids := by
  induction ns generalizing ids with
  | nil => cases hn
  | cons m rest ih =>
      rw [reservedIds] at h
      obtain ⟨first, hfirst, h⟩ := bind_eq_ok.mp h
      obtain ⟨others, hothers, h⟩ := bind_eq_ok.mp h
      cases h
      rcases List.mem_cons.mp hn with rfl | hn
      · rw [hid] at hfirst
        cases hfirst
        exact List.mem_cons_self
      · exact List.mem_append_right _ (ih hothers hn)

theorem reservedId_eq {n : Node} {id : String} (h : n.Reserves id) :
    reservedId n = .ok (some id) := by
  have hid := idText?_of_elementId? h.elementId?
  obtain ⟨v, hv, hstr⟩ := Option.bind_eq_some_iff.mp hid
  cases v with
  | str t =>
      cases hstr
      simp [reservedId, hv, h.flagged, h.ne_empty]
  | _ => cases hstr

/-- The ids of the headings of a tree are free to begin with. -/
theorem claims_of_reservedIds {tree : Node} {reserved : List String}
    (hreserves : ∀ m ∈ tree.marked, ∃ id, m.Reserves id) (hnodup : (slugs [tree]).Nodup)
    (h : reservedIds tree.walk = .ok reserved) : Claims reserved [] [tree] where
  reserves := by
    rw [markedAll_singleton]
    exact hreserves
  nodup := hnodup
  free := by
    intro s hs
    rw [slugs, markedAll_singleton] at hs
    obtain ⟨m, hm, hid⟩ := List.mem_filterMap.mp hs
    obtain ⟨id, hreserved⟩ := hreserves m hm
    rw [idText?_of_elementId? hreserved.elementId?] at hid
    cases hid
    exact ⟨mem_reservedIds h (List.mem_filter.mp hm).1 (reservedId_eq hreserved),
      List.not_mem_nil⟩

end Sanitizer

end SafeMarkdown

namespace SafeMarkdown.Sanitizer

open Node

variable {n m : Node} {ns : List Node} {reserved kept : List String}

/-- Making ids distinct leaves all but the id of a node. -/
theorem exists_distinctIds_eq (reserved kept : List String) (n : Node) :
    ∃ attrs kept', (distinctIds reserved kept n).1 =
        { n with attrs, children := (distinctIdsAll reserved kept' n.children).1 } ∧
      (∀ name, name ≠ "id" → attrs.get? name = n.attrs.get? name) ∧
      (attrs.get? "id" = none ∨ attrs = n.attrs) := by
  obtain ⟨attrs, kept', hstep, heq, -⟩ := exists_idStep reserved kept n
  refine ⟨attrs, kept', heq, fun name hname ↦ ?_, ?_⟩
  · cases hstep with
    | keeps hid h => rfl
    | loses hid h => exact Fields.get?_erase_ne _ hname
    | none hid => rfl
  · cases hstep with
    | keeps hid h => exact .inr rfl
    | loses hid h => exact .inl (Fields.get?_erase _ _)
    | none hid => exact .inr rfl

section Kept

variable {id : String}

mutual

/-- An id that is kept belongs to an element. -/
theorem mem_elementIds_of_kept (reserved kept : List String) : (n : Node) →
    ∀ s ∈ (distinctIds reserved kept n).2.1,
      s ∈ kept ∨ s ∈ elementIds [(distinctIds reserved kept n).1]
  | ⟨kind, tag, attrs, children, value, data⟩ => by
      obtain ⟨attrs', kept', hstep, heq, htaken⟩ :=
        exists_idStep reserved kept ⟨kind, tag, attrs, children, value, data⟩
      intro s hs
      rw [heq, elementIds_singleton, List.mem_append]
      rw [htaken] at hs
      rcases mem_elementIds_of_kept_all reserved kept' children s hs with hs | hs
      · cases hstep with
        | keeps hid h =>
            rcases List.mem_cons.mp hs with rfl | hs
            · refine .inr (.inl ?_)
              rw [Option.mem_toList]
              exact hid
            · exact .inl hs
        | loses hid h => exact .inl hs
        | none hid => exact .inl hs
      · exact .inr (.inr hs)

theorem mem_elementIds_of_kept_all (reserved kept : List String) : (ns : List Node) →
    ∀ s ∈ (distinctIdsAll reserved kept ns).2.1,
      s ∈ kept ∨ s ∈ elementIds (distinctIdsAll reserved kept ns).1
  | [] => fun _ hs ↦ .inl hs
  | n :: rest => by
      intro s hs
      rw [distinctIdsAll] at hs ⊢
      rw [elementIds_cons, List.mem_append]
      rcases mem_elementIds_of_kept_all reserved _ rest s hs with hs | hs
      · exact (mem_elementIds_of_kept reserved kept n s hs).imp_right .inl
      · exact .inr (.inr hs)

end

/-- Whether an element may keep its id if no other one has kept it before. -/
def MayKeep (reserved : List String) (id : String) (n : Node) : Prop :=
  n.elementId? = some id ∧ (n.flagged "level" = true ∨ id ∉ reserved)

mutual

theorem kept_of_mayKeep (reserved kept : List String) : (n : Node) →
    (∃ m ∈ n.walk, MayKeep reserved id m) → id ∈ (distinctIds reserved kept n).2.1
  | ⟨kind, tag, attrs, children, value, data⟩, h => by
      obtain ⟨attrs', kept', hstep, -, htaken⟩ :=
        exists_idStep reserved kept ⟨kind, tag, attrs, children, value, data⟩
      obtain ⟨m, hm, hkeep⟩ := h
      rw [htaken]
      rw [walk_mk] at hm
      rcases List.mem_cons.mp hm with rfl | hm
      · have hmem : id ∈ kept' := by
          cases hstep with
          | keeps hid h =>
              rw [hkeep.1] at hid
              cases hid
              exact List.mem_cons_self
          | loses hid h =>
              rw [hkeep.1] at hid
              cases hid
              by_contra hfree
              rw [keepsId_iff.mpr ⟨hfree, hkeep.2⟩] at h
              cases h
          | none hid =>
              rw [hkeep.1] at hid
              cases hid
        exact (allots_distinctIdsAll reserved kept' children).subset hmem
      · exact kept_of_mayKeep_all reserved kept' children ⟨m, hm, hkeep⟩

theorem kept_of_mayKeep_all (reserved kept : List String) : (ns : List Node) →
    (∃ m ∈ walk.walkAll ns, MayKeep reserved id m) → id ∈ (distinctIdsAll reserved kept ns).2.1
  | [], h => by simp [walk.walkAll] at h
  | n :: rest, h => by
      obtain ⟨m, hm, hkeep⟩ := h
      rw [distinctIdsAll]
      rw [walk.walkAll, List.mem_append] at hm
      rcases hm with hm | hm
      · exact (allots_distinctIdsAll reserved _ rest).subset
          (kept_of_mayKeep reserved kept n ⟨m, hm, hkeep⟩)
      · exact kept_of_mayKeep_all reserved _ rest ⟨m, hm, hkeep⟩

end

theorem flagged_of_reservedId (h : reservedId n = .ok (some id)) :
    n.flagged "level" = true ∧ n.attrs.get? "id" = some (.str id) := by
  unfold reservedId at h
  split at h
  · rename_i s hs
    by_cases hflag : (n.flagged "level" && !s.isEmpty) = true
    · rw [if_pos hflag] at h
      cases h
      exact ⟨(Bool.and_eq_true_iff.mp hflag).1, hs⟩
    · rw [if_neg hflag] at h
      cases h
  · split at h
    · cases h
    · cases h
  · split at h
    · cases h
    · cases h
  · cases h

theorem exists_of_mem_reservedIds {ids : List String} (h : reservedIds ns = .ok ids)
    (hid : id ∈ ids) : ∃ n ∈ ns, reservedId n = .ok (some id) := by
  induction ns generalizing ids with
  | nil =>
      cases h
      cases hid
  | cons n ns ih =>
      obtain ⟨first, hfirst, h⟩ := bind_eq_ok.mp h
      obtain ⟨others, hothers, h⟩ := bind_eq_ok.mp h
      cases h
      rcases List.mem_append.mp hid with hid | hid
      · rw [Option.mem_toList] at hid
        exact ⟨n, List.mem_cons_self, hid ▸ hfirst⟩
      · obtain ⟨m, hm, hmid⟩ := ih hothers hid
        exact ⟨m, List.mem_cons_of_mem n hm, hmid⟩

/-- Ids can be reserved among nodes if each node alone tells whether it reserves one. -/
theorem reservedIds_isOk_iff :
    (∃ ids, reservedIds ns = .ok ids) ↔ ∀ n ∈ ns, ∃ id, reservedId n = .ok id := by
  induction ns with
  | nil => exact ⟨fun _ ↦ List.forall_mem_nil _, fun _ ↦ ⟨[], rfl⟩⟩
  | cons n ns ih =>
      rw [List.forall_mem_cons, ← ih]
      constructor
      · rintro ⟨ids, h⟩
        obtain ⟨first, hfirst, h⟩ := bind_eq_ok.mp h
        obtain ⟨others, hothers, -⟩ := bind_eq_ok.mp h
        exact ⟨⟨first, hfirst⟩, others, hothers⟩
      · rintro ⟨⟨first, hfirst⟩, others, hothers⟩
        exact ⟨first.toList ++ others, by rw [reservedIds, hfirst, hothers]; rfl⟩

/-- Where only elements carry the level of a heading, no id gets lost. -/
theorem mem_elementIds_distinctIds (hreserved : reservedIds n.walk = .ok reserved)
    (hflagged : n.All fun m ↦ m.flagged "level" = true → m.kind = .element)
    (hid : id ∈ elementIds [n]) : id ∈ elementIds [(distinctIds reserved [] n).1] := by
  have hexists : ∃ m ∈ n.walk, MayKeep reserved id m := by
    by_cases hmem : id ∈ reserved
    · obtain ⟨m, hm, hmid⟩ := exists_of_mem_reservedIds hreserved hmem
      obtain ⟨hflag, hget⟩ := flagged_of_reservedId hmid
      refine ⟨m, hm, ?_, .inl hflag⟩
      rw [elementId?, if_pos (hflagged m hm hflag), idText?, hget]
      rfl
    · obtain ⟨m, hm, hmid⟩ := List.mem_filterMap.mp hid
      rw [walk.walkAll, walk.walkAll, List.append_nil] at hm
      exact ⟨m, hm, hmid, .inr hmem⟩
  have hkept := kept_of_mayKeep reserved [] n hexists
  exact (mem_elementIds_of_kept reserved [] n id hkept).resolve_left List.not_mem_nil

end Kept

end SafeMarkdown.Sanitizer
