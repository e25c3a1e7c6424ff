import SafeMarkdown.Proofs.Footnote.Filter
import SafeMarkdown.Proofs.Sanitizer.Ids

/-!
# Footnotes and the removal of ids

The id of an item or of a reference is still there when the ids of a tree have been made distinct,
but a heading may have taken it.
-/

namespace SafeMarkdown

open Node Markdown

variable {grade : Grade} {n m : Node} {ns : List Node} {ps qs : List NotePart}

namespace Node

/-- Whether a node is an element with a tag and a class. -/
def isClassed (tag name : String) (n : Node) : Bool :=
  n.isElement [tag] && match n.classes with
    | .ok classes => hasClass classes name
    | .error _ => false

theorem isClassed_congr (tag name : String) (hkind : m.kind = n.kind) (htag : m.tag = n.tag)
    (hclass : m.attrs.get? "class" = n.attrs.get? "class") :
    m.isClassed tag name = n.isClassed tag name := by
  simp only [isClassed, isElement, classes, hkind, htag, hclass]

theorem headingLevel_congr (hkind : m.kind = n.kind) (htag : m.tag = n.tag) :
    m.headingLevel = n.headingLevel := by
  simp only [headingLevel, hkind, htag]

/-- Only references are superscripts of their class. -/
theorem Holds.of_sup (h : Holds grade n ps) (hn : n.isClassed "sup" "footnote-ref" = true) :
    ∃ k label, n = footnoteReference k label ∧ ps = [.reference k label] := by
  obtain ⟨htag, -⟩ := Bool.and_eq_true_iff.mp hn
  cases h with
  | reference k label => exact ⟨k, label, rfl, rfl⟩
  | element hhead hcode h =>
      refine (hhead.notSup ?_).elim
      simpa [isElement, Node.element] using htag
  | _ => cases htag

/-- Only links back to references have their class. -/
theorem Holds.of_backref (h : Holds grade n ps) (hn : n.isClassed "a" "footnote-backref" = true) :
    ∃ label, n = footnoteBacklink label ∧ ps = [.backlink label] := by
  obtain ⟨htag, hclass⟩ := Bool.and_eq_true_iff.mp hn
  cases h with
  | backlink label => exact ⟨label, rfl, rfl⟩
  | @element tag attrs data children _ hhead hcode h =>
      have ha : tag = "a" := by simpa [isElement, Node.element] using htag
      have hvalue (v : Value) (hv : Fields.get? attrs "class" = some v) : v = .arr [.str "anchor"] :=
        hhead.classes ha ("class", v) (Fields.mem_of_get? hv) Sanitizer.standard_footnote.2.2.2.2.1
      dsimp only [Node.classes, Node.element] at hclass
      cases hv : Fields.get? attrs "class" with
      | none =>
          rw [hv] at hclass
          cases hclass
      | some v =>
          rw [hv, hvalue v hv] at hclass
          exact absurd hclass (by decide)
  | _ => cases htag

theorem isClassed_noteItem (k : String) (classes : List Value) (children : List Node) :
    (noteItem k classes children).isClassed "li" "footnote-item" = true := by
  simp [isClassed, isElement, noteItem, Node.element, Node.classes, Fields.get?, List.lookup_cons,
    Value.isTruthy, hasClass, Value.str?]

/-- Besides links in references, only headings and items have ids. -/
theorem Holds.of_elementId? {id : String} (h : Holds grade n ps) (hid : n.elementId? = some id) :
    n.headingLevel.isSome = true ∨
      n.isClassed "li" "footnote-item" = true ∧ ∃ k, id = "fn-" ++ k := by
  cases h with
  | item k classes h =>
      cases hid
      exact .inr ⟨isClassed_noteItem k classes _, k, rfl⟩
  | @element tag attrs data children _ hhead hcode h =>
      have hget : Fields.get? attrs "id" = some (.str id) := get?_of_elementId? hid
      obtain ⟨-, htag, -⟩ := hhead.id ("id", .str id) (Fields.mem_of_get? hget) lowercase_id
      have hlevels : ∀ t ∈ Heading.tags,
          (headingLevel ⟨.element, some t, [], [], none, []⟩).isSome = true := by
        decide
      exact .inl (hlevels tag htag)
  | _ => cases hid

mutual

/-- The parts of footnotes that have ids are elements with these ids. -/
theorem Holds.mem_elementIds {id : String} : {n : Node} → {ps : List NotePart} →
    Holds grade n ps → (∃ p ∈ ps, p.id? = some id) → id ∈ elementIds [n]
  | _, _, .text value, h => by simp at h
  | _, _, .raw hraw value, h => by simp at h
  | _, _, .reference k label, h => by
      obtain ⟨p, hp, hid⟩ := h
      rw [List.mem_singleton.mp hp] at hid
      cases hid
      exact List.mem_cons_self
  | _, _, .backlink label, h => by
      obtain ⟨p, hp, hid⟩ := h
      rw [List.mem_singleton.mp hp] at hid
      cases hid
  | _, _, .item k classes hall, h => by
      rw [elementIds_singleton, List.mem_append]
      obtain ⟨p, hp, hid⟩ := h
      rcases List.mem_cons.mp hp with rfl | hp
      · cases hid
        exact .inl List.mem_cons_self
      · exact .inr (hall.mem_elementIds ⟨p, hp, hid⟩)
  | _, _, .element hhead hcode hall, h => by
      rw [elementIds_singleton, List.mem_append]
      exact .inr (hall.mem_elementIds h)
  | _, _, .component hdata hsafe hall, h => by
      rw [elementIds_singleton, List.mem_append]
      exact .inr (hall.mem_elementIds h)
  | _, _, .dropped hgrade hdata hdropped hall, h => by simp at h
  | _, _, .root hall, h => by
      rw [elementIds_singleton, List.mem_append]
      exact .inr (hall.mem_elementIds h)

theorem HoldsAll.mem_elementIds {id : String} : {ns : List Node} → {ps : List NotePart} →
    HoldsAll grade ns ps → (∃ p ∈ ps, p.id? = some id) → id ∈ elementIds ns
  | _, _, .nil, h => by simp at h
  | _, _, .cons hn hrest, h => by
      rw [elementIds_cons, List.mem_append]
      obtain ⟨p, hp, hid⟩ := h
      rcases List.mem_append.mp hp with hp | hp
      · exact .inl (hn.mem_elementIds ⟨p, hp, hid⟩)
      · exact .inr (hrest.mem_elementIds ⟨p, hp, hid⟩)

end

end Node

namespace Sanitizer

variable {reserved kept : List String}

section Traced

/-- What a node below the top of a tree has to do with the parts of footnotes in the tree. -/
structure Traced (ps : List NotePart) (top n : Node) : Prop where
  reference : n.isClassed "sup" "footnote-ref" = true → ∃ k label, .reference k label ∈ ps ∧
    ∀ link ∈ n.children, link.attrs.get? "href" = some (.str ("#fn-" ++ k))
  backlink : n.isClassed "a" "footnote-backref" = true → ∃ label, .backlink label ∈ ps ∧
    n.attrs.get? "href" = some (.str ("#fnref-" ++ label))
  id : ∀ id, n.elementId? = some id → n.headingLevel.isSome = true ∨
    (n.isClassed "li" "footnote-item" = true ∧ ∃ k, id = "fn-" ++ k) ∨
    (n.isElement ["a"] = true ∧ ∃ label, id = "fnref-" ++ label) ∧
      ∃ sup ∈ top.walk, sup.isClassed "sup" "footnote-ref" = true ∧ n ∈ sup.children

theorem Traced.of_kind_ne {top : Node} (h : n.kind ≠ .element) : Traced ps top n where
  reference := fun hn ↦ by simp [isClassed, isElement, h] at hn
  backlink := fun hn ↦ by simp [isClassed, isElement, h] at hn
  id := fun id hid ↦ (h (kind_of_elementId? hid)).elim

theorem Traced.mono {top : Node} (h : Traced qs m n) (hsub : qs ⊆ ps)
    (hwalk : ∀ x ∈ m.walk, x ∈ top.walk) : Traced ps top n where
  reference := by
    intro hn
    obtain ⟨k, label, hmem, hlinks⟩ := h.reference hn
    exact ⟨k, label, hsub hmem, hlinks⟩
  backlink := by
    intro hn
    obtain ⟨label, hmem, hhref⟩ := h.backlink hn
    exact ⟨label, hsub hmem, hhref⟩
  id := by
    intro id hid
    rcases h.id id hid with hlevel | hitem | ⟨hlabel, sup, hsup, hlink⟩
    · exact .inl hlevel
    · exact .inr (.inl hitem)
    · exact .inr (.inr ⟨hlabel, sup, hwalk sup hsup, hlink⟩)

theorem isClassed_distinctIds (reserved kept : List String) (tag name : String) (n : Node) :
    (distinctIds reserved kept n).1.isClassed tag name = n.isClassed tag name := by
  obtain ⟨attrs, kept', heq, hget, -⟩ := exists_distinctIds_eq reserved kept n
  rw [heq]
  exact isClassed_congr tag name rfl rfl (hget "class" (by decide))

theorem get?_distinctIds (reserved kept : List String) (n : Node) {name : String}
    (hname : name ≠ "id") :
    (distinctIds reserved kept n).1.attrs.get? name = n.attrs.get? name := by
  obtain ⟨attrs, kept', heq, hget, -⟩ := exists_distinctIds_eq reserved kept n
  rw [heq]
  exact hget name hname

theorem elementId?_of_distinctIds {id : String}
    (h : (distinctIds reserved kept n).1.elementId? = some id) : n.elementId? = some id := by
  obtain ⟨attrs, kept', heq, -, hid⟩ := exists_distinctIds_eq reserved kept n
  rw [heq] at h
  have hget : attrs.get? "id" = some (.str id) := get?_of_elementId? h
  rcases hid with hnone | rfl
  · rw [hnone] at hget
    cases hget
  · exact h

theorem headingLevel_distinctIds (reserved kept : List String) (n : Node) :
    (distinctIds reserved kept n).1.headingLevel = n.headingLevel := by
  obtain ⟨attrs, kept', heq, -⟩ := exists_distinctIds_eq reserved kept n
  rw [heq]
  exact headingLevel_congr rfl rfl

/-- The link in a reference. -/
def referenceLink (k label : String) : Node :=
  Node.element "a" [("href", .str ("#fn-" ++ k)), ("id", .str ("fnref-" ++ label))]
    [ofText ("[" ++ k ++ "]")]

theorem children_distinctIds_reference (reserved kept : List String) (k label : String) :
    ∃ kept', (distinctIds reserved kept (footnoteReference k label)).1.children =
      [(distinctIds reserved kept' (referenceLink k label)).1] := by
  obtain ⟨attrs, kept', heq, -⟩ := exists_distinctIds_eq reserved kept (footnoteReference k label)
  refine ⟨kept', ?_⟩
  rw [heq]
  rfl

theorem traced_self (reserved kept : List String) (h : Holds grade n ps) (top : Node) :
    Traced ps top (distinctIds reserved kept n).1 := by
  refine ⟨fun hn ↦ ?_, fun hn ↦ ?_, fun id hid ↦ ?_⟩
  · rw [isClassed_distinctIds] at hn
    obtain ⟨k, label, rfl, rfl⟩ := h.of_sup hn
    obtain ⟨kept', hchildren⟩ := children_distinctIds_reference reserved kept k label
    refine ⟨k, label, List.mem_singleton.mpr rfl, ?_⟩
    rw [hchildren, List.forall_mem_singleton]
    exact get?_distinctIds reserved kept' (referenceLink k label) (by decide)
  · rw [isClassed_distinctIds] at hn
    obtain ⟨label, rfl, rfl⟩ := h.of_backref hn
    refine ⟨label, List.mem_singleton.mpr rfl, ?_⟩
    exact get?_distinctIds reserved kept (footnoteBacklink label) (by decide)
  · rw [headingLevel_distinctIds, isClassed_distinctIds]
    exact (h.of_elementId? (elementId?_of_distinctIds hid)).imp_right .inl

theorem traced_mk {top : Node} (hself : Traced ps top top)
    (hbelow : ∀ c ∈ top.children, ∀ x ∈ c.walk, Traced ps c x) :
    ∀ x ∈ top.walk, Traced ps top x := by
  intro x hx
  rcases mem_walk.mp hx with rfl | ⟨c, hc, hx⟩
  · exact hself
  · exact (hbelow c hc x hx).mono (List.Subset.refl ps) fun y hy ↦ mem_walk.mpr (.inr ⟨c, hc, hy⟩)

theorem traced_of_children (reserved kept : List String) (h : Holds grade n ps)
    (hbelow : ∀ kept, ∀ c ∈ (distinctIdsAll reserved kept n.children).1, ∀ x ∈ c.walk,
      Traced ps c x) :
    ∀ x ∈ (distinctIds reserved kept n).1.walk, Traced ps (distinctIds reserved kept n).1 x := by
  refine traced_mk (traced_self reserved kept h _) ?_
  obtain ⟨attrs, kept', heq, -⟩ := exists_distinctIds_eq reserved kept n
  rw [heq]
  exact hbelow kept'

theorem traced_ofText {top : Node} {s : String} {x : Node} (hx : x ∈ (ofText s).walk) :
    Traced ps top x := by
  rw [ofText, walk_mk, walk.walkAll, List.mem_singleton] at hx
  rw [hx]
  exact .of_kind_ne NodeKind.noConfusion

theorem traced_reference (reserved kept : List String) (k label : String) :
    ∀ x ∈ (distinctIds reserved kept (footnoteReference k label)).1.walk,
      Traced [.reference k label] (distinctIds reserved kept (footnoteReference k label)).1 x := by
  have hself := traced_self reserved kept (.reference k label : Holds .clean _ _)
  obtain ⟨kept', hchildren⟩ := children_distinctIds_reference reserved kept k label
  have hsup : (distinctIds reserved kept (footnoteReference k label)).1.isClassed "sup"
      "footnote-ref" = true := by
    rw [isClassed_distinctIds]
    rfl
  have hlink (tag name : String) (hname : isClassed tag name (referenceLink k label) = false) :
      ¬ (distinctIds reserved kept' (referenceLink k label)).1.isClassed tag name = true := by
    rw [isClassed_distinctIds, hname]
    exact Bool.false_ne_true
  have ha : (distinctIds reserved kept' (referenceLink k label)).1.isElement ["a"] = true := by
    obtain ⟨attrs, kept'', heq, -⟩ := exists_distinctIds_eq reserved kept' (referenceLink k label)
    rw [heq]
    rfl
  intro x hx
  rcases mem_walk.mp hx with rfl | ⟨c, hc, hx⟩
  · exact hself _
  · rw [hchildren, List.mem_singleton] at hc
    subst hc
    rcases mem_walk.mp hx with rfl | ⟨c, hc, hx⟩
    · refine ⟨fun hn ↦ (hlink "sup" _ rfl hn).elim, fun hn ↦ (hlink "a" _ rfl hn).elim, ?_⟩
      intro id hid
      have hid := elementId?_of_distinctIds hid
      cases hid
      refine .inr (.inr ⟨⟨ha, label, rfl⟩, _, mem_walk.mpr (.inl rfl), hsup, ?_⟩)
      rw [hchildren]
      exact List.mem_cons_self
    · obtain ⟨attrs, kept'', heq, -⟩ :=
        exists_distinctIds_eq reserved kept' (referenceLink k label)
      rw [heq] at hc
      cases List.mem_singleton.mp hc
      exact traced_ofText hx

mutual

/-- What the nodes of a tree with distinct ids have to do with the footnotes in it. -/
theorem traced_distinctIds (reserved : List String) : {n : Node} → {ps : List NotePart} →
    Holds .clean n ps → (kept : List String) → ∀ x ∈ (distinctIds reserved kept n).1.walk,
      Traced ps (distinctIds reserved kept n).1 x
  | _, _, .text value, kept =>
      traced_of_children reserved kept (.text value : Holds .clean _ _) fun _ ↦ List.forall_mem_nil _
  | _, _, .raw h value, kept => by cases h
  | _, _, .reference k label, kept => traced_reference reserved kept k label
  | _, _, .backlink label, kept =>
      traced_of_children reserved kept (.backlink label : Holds .clean _ _) fun _ ↦
        List.forall_mem_singleton.mpr fun _ ↦ traced_ofText
  | _, _, .item k classes h, kept =>
      traced_of_children reserved kept (.item k classes h) fun kept c hc x hx ↦
        (traced_distinctIdsAll reserved h kept c hc x hx).mono (List.subset_cons_self _ _) fun _ ↦ id
  | _, _, .element hhead hcode h, kept =>
      traced_of_children reserved kept (.element hhead hcode h) (traced_distinctIdsAll reserved h)
  | _, _, .component hdata hsafe h, kept =>
      traced_of_children reserved kept (.component hdata hsafe h) (traced_distinctIdsAll reserved h)
  | _, _, .dropped hgrade hdata hdropped h, kept => (hgrade rfl).elim
  | _, _, .root h, kept =>
      traced_of_children reserved kept (.root h) (traced_distinctIdsAll reserved h)

theorem traced_distinctIdsAll (reserved : List String) : {ns : List Node} →
    {ps : List NotePart} → HoldsAll .clean ns ps → (kept : List String) →
    ∀ c ∈ (distinctIdsAll reserved kept ns).1, ∀ x ∈ c.walk, Traced ps c x
  | _, _, .nil, kept => List.forall_mem_nil _
  | _, _, .cons h hrest, kept => by
      rw [distinctIdsAll]
      refine List.forall_mem_cons.mpr ⟨fun x hx ↦ ?_, fun c hc x hx ↦ ?_⟩
      · exact (traced_distinctIds reserved h kept x hx).mono (List.subset_append_left _ _) fun _ ↦ id
      · exact (traced_distinctIdsAll reserved hrest _ c hc x hx).mono
          (List.subset_append_right _ _) fun _ ↦ id

end

end Traced

end Sanitizer

end SafeMarkdown
