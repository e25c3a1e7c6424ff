import SafeMarkdown.Proofs.Sanitizer.Ids
import SafeMarkdown.Proofs.Sanitizer.Resolved

/-!
# Sanitizing twice

A sanitized tree is sanitized already. Each step of sanitizing has a form that it brings a tree into
and that it leaves alone: no raw markup, settled nodes among joined texts, and ids of elements that
are all different. A step keeps the forms of the steps before it.

Joining texts is a normal form: it keeps the nodes that are no texts and the gaps around them, and
by value nothing else with these is joined. All siblings of a sanitized tree that are not below a
text are in this form.
-/

namespace SafeMarkdown.Sanitizer

open Node

variable {s : Schema} {reserved kept ids : List String} {m n tree out : Node} {ns : List Node}
  {removals : List Removal}

theorem forall_mem_distinctIdsAll {P : Node → Prop}
    (h : ∀ n ∈ ns, ∀ kept, P (distinctIds reserved kept n).1) (kept : List String) :
    ∀ m ∈ (distinctIdsAll reserved kept ns).1, P m := by
  induction ns generalizing kept with
  | nil =>
      rw [distinctIdsAll]
      exact List.forall_mem_nil _
  | cons n ns ih =>
      rw [List.forall_mem_cons] at h
      rw [distinctIdsAll]
      exact List.forall_mem_cons.mpr ⟨h.1 kept, ih h.2 _⟩

theorem joined_distinctIdsAll (h : Joined ns) (reserved kept : List String) :
    Joined (distinctIdsAll reserved kept ns).1 := by
  have hmap (ns : List Node) (kept : List String) :
      (distinctIdsAll reserved kept ns).1.map (fun m ↦ (m.kind, m.value)) =
        ns.map fun n ↦ (n.kind, n.value) := by
    induction ns generalizing kept with
    | nil => rw [distinctIdsAll]
    | cons n ns ih =>
        obtain ⟨attrs', kept', -, heq⟩ := distinctIds_eq reserved kept n
        rw [distinctIdsAll, List.map_cons, List.map_cons, ih, heq]
  exact h.of_map_eq (hmap ns kept)

theorem IdStep.attrs_sublist {attrs : Fields} {kept' : List String}
    (h : IdStep reserved kept n attrs kept') : attrs.Sublist n.attrs := by
  cases h with
  | keeps hid h => exact List.Sublist.refl _
  | loses hid h => exact List.filter_sublist
  | none hid => exact List.Sublist.refl _

/-- Making ids distinct leaves settled nodes settled. -/
theorem settled_distinctIds (h : Settled s n) (reserved kept : List String) :
    Settled s (distinctIds reserved kept n).1 := by
  induction h generalizing kept with
  | text =>
      obtain ⟨attrs', kept', hstep, heq, -⟩ := exists_idStep reserved kept _
      rw [heq]
      exact .text
  | component hsafe hattrs hjoined hbelow ih =>
      obtain ⟨attrs', kept', hstep, heq, -⟩ := exists_idStep reserved kept _
      rw [heq]
      exact .component hsafe (fun f hf ↦ hattrs f (hstep.attrs_sublist.subset hf))
        (joined_distinctIdsAll hjoined reserved kept') (forall_mem_distinctIdsAll ih kept')
  | root hjoined hbelow ih =>
      obtain ⟨attrs', kept', hstep, heq, -⟩ := exists_idStep reserved kept _
      rw [heq]
      exact .root (joined_distinctIdsAll hjoined reserved kept')
        (forall_mem_distinctIdsAll ih kept')
  | element hname hallowed hattrs hjoined hbelow ih =>
      obtain ⟨attrs', kept', hstep, heq, -⟩ := exists_idStep reserved kept _
      rw [heq]
      exact .element hname hallowed (hattrs.of_sublist hstep.attrs_sublist)
        (joined_distinctIdsAll hjoined reserved kept') (forall_mem_distinctIdsAll ih kept')

mutual

/-- Where a node comes from whose id, if it has one, was not removed. -/
theorem exists_of_mem_walk_distinctIds (reserved kept : List String) : (n : Node) →
    ∀ m ∈ (distinctIds reserved kept n).1.walk, ∃ g ∈ n.walk, m.data = g.data ∧
      (m.attrs.get? "id" = none ∨
        m.attrs = g.attrs ∧ ∀ id, m.elementId? = some id → MayKeep reserved id m)
  | ⟨kind, tag, attrs, children, value, data⟩ => by
      obtain ⟨attrs', kept', hstep, heq, -⟩ :=
        exists_idStep reserved kept ⟨kind, tag, attrs, children, value, data⟩
      intro m hm
      rw [heq, walk_mk] at hm
      rw [walk_mk]
      rcases List.mem_cons.mp hm with rfl | hm
      · refine ⟨_, List.mem_cons_self, rfl, ?_⟩
        cases hstep with
        | keeps hid h =>
            exact .inr ⟨rfl, fun id hid' ↦ ⟨hid', by
              obtain rfl : _ = id := Option.some.inj (hid.symm.trans hid')
              exact (keepsId_iff.mp h).2⟩⟩
        | loses hid h => exact .inl (Fields.get?_erase _ _)
        | none hid =>
            exact .inr ⟨rfl, fun id hid' ↦ absurd (hid.symm.trans hid') (by simp)⟩
      · obtain ⟨g, hg, hfacts⟩ := exists_of_mem_walkAll_distinctIdsAll reserved kept' children m hm
        exact ⟨g, List.mem_cons_of_mem _ hg, hfacts⟩

theorem exists_of_mem_walkAll_distinctIdsAll (reserved kept : List String) : (ns : List Node) →
    ∀ m ∈ walk.walkAll (distinctIdsAll reserved kept ns).1, ∃ g ∈ walk.walkAll ns,
      m.data = g.data ∧ (m.attrs.get? "id" = none ∨
        m.attrs = g.attrs ∧ ∀ id, m.elementId? = some id → MayKeep reserved id m)
  | [] => by
      rw [distinctIdsAll]
      exact List.forall_mem_nil _
  | n :: rest => by
      intro m hm
      rw [distinctIdsAll, walk.walkAll] at hm
      rw [walk.walkAll]
      rcases List.mem_append.mp hm with hm | hm
      · obtain ⟨g, hg, hfacts⟩ := exists_of_mem_walk_distinctIds reserved kept n m hm
        exact ⟨g, List.mem_append_left _ hg, hfacts⟩
      · obtain ⟨g, hg, hfacts⟩ := exists_of_mem_walkAll_distinctIdsAll reserved _ rest m hm
        exact ⟨g, List.mem_append_right _ hg, hfacts⟩

end

/-- The ids that are reserved in a tree whose ids were made distinct were reserved before. -/
theorem reservedIds_distinctIds (h : reservedIds n.walk = .ok reserved) (kept : List String) :
    ∃ ids, reservedIds (distinctIds reserved kept n).1.walk = .ok ids ∧ ids ⊆ reserved := by
  have hsame : ∀ m ∈ (distinctIds reserved kept n).1.walk,
      reservedId m = .ok none ∨ ∃ g ∈ n.walk, reservedId m = reservedId g := by
    intro m hm
    obtain ⟨g, hg, hdata, hnone | ⟨hattrs, -⟩⟩ :=
      exists_of_mem_walk_distinctIds reserved kept n m hm
    · exact .inl (by rw [reservedId, hnone])
    · exact .inr ⟨g, hg, by rw [reservedId, reservedId, flagged, flagged, hattrs, hdata]⟩
  obtain ⟨ids, hids⟩ : ∃ ids, reservedIds (distinctIds reserved kept n).1.walk = .ok ids := by
    refine reservedIds_isOk_iff.mpr fun m hm ↦ ?_
    rcases hsame m hm with hnone | ⟨g, hg, heq⟩
    · exact ⟨none, hnone⟩
    · rw [heq]
      exact reservedIds_isOk_iff.mp ⟨reserved, h⟩ g hg
  refine ⟨ids, hids, fun id hid ↦ ?_⟩
  obtain ⟨m, hm, hmid⟩ := exists_of_mem_reservedIds hids hid
  rcases hsame m hm with hnone | ⟨g, hg, heq⟩
  · rw [hnone] at hmid
    cases hmid
  · exact mem_reservedIds h hg (heq ▸ hmid)

/-- Ids of elements that all stay: each one may, and no other element has it before. -/
structure AllStay (reserved kept : List String) (ns : List Node) : Prop where
  mayKeep : ∀ n ∈ walk.walkAll ns, ∀ id, n.elementId? = some id → MayKeep reserved id n
  nodup : (elementIds ns).Nodup
  free : ∀ id ∈ elementIds ns, id ∉ kept

namespace AllStay

theorem head (h : AllStay reserved kept (n :: ns)) : AllStay reserved kept [n] where
  mayKeep := fun m hm ↦ h.mayKeep m (by
    rw [walk.walkAll, walk.walkAll, List.append_nil] at hm
    rw [walk.walkAll]
    exact List.mem_append_left _ hm)
  nodup := by
    have hnodup := h.nodup
    rw [elementIds_cons] at hnodup
    exact (List.nodup_append.mp hnodup).1
  free := fun id hid ↦ h.free id (by
    rw [elementIds_cons]
    exact List.mem_append_left _ hid)

/-- The siblings after a node whose ids have all stayed. -/
theorem tail (h : AllStay reserved kept (n :: ns)) (hself : (distinctIds reserved kept n).1 = n) :
    AllStay reserved (distinctIds reserved kept n).2.1 ns where
  mayKeep := fun m hm ↦ h.mayKeep m (by
    rw [walk.walkAll]
    exact List.mem_append_right _ hm)
  nodup := by
    have hnodup := h.nodup
    rw [elementIds_cons] at hnodup
    exact (List.nodup_append.mp hnodup).2.1
  free := by
    have hnodup := h.nodup
    rw [elementIds_cons] at hnodup
    intro id hid hkept
    rcases mem_elementIds_of_kept reserved kept n id hkept with hkept | hkept
    · exact h.free id (by rw [elementIds_cons]; exact List.mem_append_right _ hid) hkept
    · rw [hself] at hkept
      exact (List.nodup_append.mp hnodup).2.2 id hkept id hid rfl

/-- The nodes below one whose own id, if it has one, has stayed. -/
theorem below (h : AllStay reserved kept [n]) :
    AllStay reserved (n.elementId?.toList ++ kept) n.children where
  mayKeep := fun m hm ↦ h.mayKeep m (by
    obtain ⟨kind, tag, attrs, children, value, data⟩ := n
    rw [walk.walkAll, walk_mk]
    exact List.mem_append_left _ (List.mem_cons_of_mem _ hm))
  nodup := by
    have hnodup := h.nodup
    rw [elementIds_singleton] at hnodup
    exact (List.nodup_append.mp hnodup).2.1
  free := by
    have hnodup := h.nodup
    rw [elementIds_singleton] at hnodup
    intro id hid hkept
    rcases List.mem_append.mp hkept with hself | hkept
    · exact (List.nodup_append.mp hnodup).2.2 id hself id hid rfl
    · exact h.free id (by rw [elementIds_singleton]; exact List.mem_append_right _ hid) hkept

theorem keepsId {id : String} (h : AllStay reserved kept [n]) (hid : n.elementId? = some id) :
    keepsId reserved kept (n.flagged "level") id = true := by
  refine keepsId_iff.mpr ⟨h.free id ?_, (h.mayKeep n ?_ id hid).2⟩
  · rw [elementIds_singleton, hid]
    exact List.mem_append_left _ List.mem_cons_self
  · obtain ⟨kind, tag, attrs, children, value, data⟩ := n
    rw [walk.walkAll, walk_mk]
    exact List.mem_append_left _ List.mem_cons_self

end AllStay

mutual

/-- Where all ids stay, nothing is removed. -/
theorem distinctIds_of_allStay (reserved kept : List String) : (n : Node) →
    AllStay reserved kept [n] →
    (distinctIds reserved kept n).1 = n ∧ (distinctIds reserved kept n).2.2 = []
  | ⟨kind, tag, attrs, children, value, data⟩, h => by
      have hbelow := h.below
      cases hid : elementId? ⟨kind, tag, attrs, children, value, data⟩ with
      | none =>
          rw [hid] at hbelow
          obtain ⟨hnodes, hremovals⟩ := distinctIdsAll_of_allStay reserved kept children hbelow
          rw [distinctIds_of_elementId?_eq_none hid]
          exact ⟨by rw [hnodes], hremovals⟩
      | some id =>
          rw [hid] at hbelow
          obtain ⟨hnodes, hremovals⟩ := distinctIdsAll_of_allStay reserved _ children hbelow
          rw [distinctIds_of_keeps hid (h.keepsId hid)]
          exact ⟨congrArg (fun ns ↦ Node.mk kind tag attrs ns value data) hnodes, hremovals⟩

theorem distinctIdsAll_of_allStay (reserved kept : List String) : (ns : List Node) →
    AllStay reserved kept ns →
    (distinctIdsAll reserved kept ns).1 = ns ∧ (distinctIdsAll reserved kept ns).2.2 = []
  | [], _ => by
      rw [distinctIdsAll]
      exact ⟨rfl, rfl⟩
  | n :: rest, h => by
      obtain ⟨hself, hremovals⟩ := distinctIds_of_allStay reserved kept n h.head
      obtain ⟨hrest, hmore⟩ := distinctIdsAll_of_allStay reserved _ rest (h.tail hself)
      rw [distinctIdsAll]
      dsimp only
      rw [hself, hrest, hremovals, hmore]
      exact ⟨rfl, rfl⟩

end

/-- Making ids distinct leaves ids that all stay, also if less is reserved. -/
theorem allStay_distinctIds (reserved : List String) (n : Node) (hids : ids ⊆ reserved) :
    AllStay ids [] [(distinctIds reserved [] n).1] where
  mayKeep := by
    intro m hm id hid
    rw [walk.walkAll, walk.walkAll, List.append_nil] at hm
    obtain ⟨g, -, -, hnone | ⟨-, hmay⟩⟩ := exists_of_mem_walk_distinctIds reserved [] n m hm
    · rw [get?_of_elementId? hid] at hnone
      cases hnone
    · exact ⟨hid, (hmay id hid).2.imp_right fun hfree hmem ↦ hfree (hids hmem)⟩
  nodup := (allots_distinctIds reserved [] n).nodup
  free := fun _ _ ↦ List.not_mem_nil

theorem dedupeIds_distinctIds (h : reservedIds n.walk = .ok reserved) :
    dedupeIds (distinctIds reserved [] n).1 = .ok ((distinctIds reserved [] n).1, []) := by
  obtain ⟨ids, hids, hsub⟩ := reservedIds_distinctIds h []
  obtain ⟨hself, hnone⟩ := distinctIds_of_allStay ids [] _ (allStay_distinctIds reserved n hsub)
  rw [dedupeIds, hids]
  change Except.ok ((distinctIds ids [] _).1, (distinctIds ids [] _).2.2) = _
  rw [hself, hnone]

theorem mk_eta (n : Node) : Node.mk n.kind n.tag n.attrs n.children n.value n.data = n := by
  cases n
  rfl

theorem sanitize_of_steps {nodes filtered : List Node} {markup attributes ids : List Removal}
    (hadmission : admission tree.children = .ok (nodes, markup))
    (hfilter : filterChildren s nodes = (filtered, attributes))
    (hids : dedupeIds { tree with children := filtered } = .ok (out, ids)) :
    sanitize s tree = .ok (out, markup ++ attributes ++ ids) := by
  rw [sanitize, hadmission]
  change (dedupeIds { tree with children := (filterChildren s nodes).1 } >>= fun r ↦
    pure (r.1, markup ++ (filterChildren s nodes).2 ++ r.2)) = _
  rw [hfilter, hids]
  rfl

/-- Markup around a text, in front of a heading whose id it has taken. -/
def untidy : Node :=
  .root [.ofMarkup "<font>a</font><p ID=x Title=t>", .ofText "b", .ofMarkup "</p>",
    .element "h2" [("id", .str "x")] [] [("level", .int 2)]]

end SafeMarkdown.Sanitizer

namespace SafeMarkdown.Sanitizer

open Node

/-- The nodes below a tree that no text stands above. What is below a text is not shown. -/
inductive Shown (tree : Node) : Node → Prop where
  | child {n : Node} (h : n ∈ tree.children) : Shown tree n
  | deeper {n m : Node} (hn : Shown tree n) (htext : n.isText = false) (hm : m ∈ n.children) :
      Shown tree m

variable {s : Schema} {tree out n : Node} {removals : List Removal}

theorem Settled.children (h : Settled s n) (htext : n.isText = false) :
    Joined n.children ∧ ∀ m ∈ n.children, Settled s m := by
  cases h with
  | text => cases htext
  | component hsafe hattrs hjoined hbelow => exact ⟨hjoined, hbelow⟩
  | root hjoined hbelow => exact ⟨hjoined, hbelow⟩
  | element hname hallowed hattrs hjoined hbelow => exact ⟨hjoined, hbelow⟩

theorem settled_of_shown (h : ∀ m ∈ tree.children, Settled s m) (hn : Shown tree n) :
    Settled s n := by
  induction hn with
  | child hn => exact h _ hn
  | deeper _ htext hm ih => exact (ih.children htext).2 _ hm

/-- What sanitizing puts below a tree. -/
theorem settled_sanitize (h : sanitize s tree = .ok (out, removals)) :
    Joined out.children ∧ ∀ n ∈ out.children, Settled s n := by
  obtain ⟨nodes, markup, reserved, -, -, rfl⟩ := sanitize_eq_ok h
  obtain ⟨attrs, kept, -, heq⟩ := distinctIds_eq reserved []
    { tree with children := (filterChildren s nodes).1 }
  have hchildren : (distinctIds reserved [] { tree with children := (filterChildren s nodes).1
      }).1.children = (distinctIdsAll reserved kept (mergeText (filterAll s nodes).1)).1 :=
    congrArg Node.children heq
  rw [hchildren]
  exact ⟨joined_distinctIdsAll (joined_mergeText _) reserved kept,
    forall_mem_distinctIdsAll (fun n hn kept ↦ settled_distinctIds
      (settled_mergeText (settled_filterAll s nodes) n hn) reserved kept) kept⟩

/-- Texts around elements, some of which give way. -/
def interrupted : Node :=
  .root [.element "p" [] [.ofText "a", .element "font" [] [.ofText "b", .ofText ""], .ofText "c"],
    .ofText "", .element "font" [] []]

end SafeMarkdown.Sanitizer
