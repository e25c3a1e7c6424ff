import SafeMarkdown.Proofs.Sanitizer.Ids
import SafeMarkdown.Proofs.Schema.Decisions
import SafeMarkdown.Sanitizer.Run

/-!
# What survives sanitizing

Every node that shows in a sanitized tree is admissible for the schema. Filtering makes the nodes
admissible, joining texts adds none but texts, and removing ids only takes attributes away.
-/

namespace SafeMarkdown

namespace Node

/-- A node that a schema lets show. -/
structure Admissible (s : Schema) (n : Node) : Prop where
  ne_raw : n.kind ≠ .raw
  element : n.kind = .element → ∃ tag, n.tag = some tag ∧ Text.lowercase tag = tag ∧ tag ∈ s.tags ∧
    ∀ f ∈ n.attrs, Text.lowercase f.1 = f.1 ∧ ¬ StartsWithOn f.1 ∧
      s.allowsAttribute tag f.1 = true ∧ s.allowsUrl f.1 f.2 = true
  component : n.kind = .component → Text.lowercase n.tagName ∉ unsafeTags ∧
    ∀ f ∈ n.attrs, ¬ StartsWithOn f.1 ∧
      ∀ url, f.2 = .str url → Schema.urlScheme url ≠ some "javascript" ∧
        Schema.urlScheme url ≠ some "vbscript"

/-- A node and the nodes below it that show when it is rendered: nothing below a text does. -/
def shown : Node → List Node
  | ⟨kind, tag, attrs, children, value, data⟩ =>
    ⟨kind, tag, attrs, children, value, data⟩ :: if kind == .text then [] else shownAll children
where
  shownAll : List Node → List Node
    | [] => []
    | n :: rest => shown n ++ shownAll rest

/-- The nodes below a node that show, if the node itself is no text. -/
def shownBelow (n : Node) : List Node :=
  shown.shownAll n.children

theorem mem_shownAll {m : Node} {ns : List Node} :
    m ∈ shown.shownAll ns ↔ ∃ n ∈ ns, m ∈ n.shown := by
  induction ns with
  | nil => simp [shown.shownAll]
  | cons n ns ih => simp [shown.shownAll, ih]

theorem admissible_of_text {s : Schema} {n : Node} (h : n.kind = .text) : n.Admissible s where
  ne_raw := by simp [h]
  element := by simp [h]
  component := by simp [h]

theorem admissible_of_root {s : Schema} {n : Node} (h : n.kind = .root) : n.Admissible s where
  ne_raw := by simp [h]
  element := by simp [h]
  component := by simp [h]

/-- Whether all that shows of a tree is admissible. -/
def AllAdmissible (s : Schema) (n : Node) : Prop :=
  ∀ m ∈ n.shown, m.Admissible s

theorem allAdmissible_of_text {s : Schema} {n : Node} (h : n.kind = .text) :
    n.AllAdmissible s := by
  obtain ⟨kind, tag, attrs, children, value, data⟩ := n
  have hkind : kind = .text := h
  intro m hm
  rw [shown, hkind] at hm
  rw [List.mem_singleton.mp hm]
  exact admissible_of_text rfl

theorem allAdmissible_mk {s : Schema} {kind : NodeKind} {tag : Option String} {attrs : Fields}
    {children : List Node} {value : Option String} {data : Fields}
    (hself : Admissible s ⟨kind, tag, attrs, children, value, data⟩)
    (hbelow : ∀ n ∈ children, n.AllAdmissible s) :
    AllAdmissible s ⟨kind, tag, attrs, children, value, data⟩ := by
  intro m hm
  rw [shown] at hm
  rcases List.mem_cons.mp hm with rfl | hm
  · exact hself
  · split at hm
    · simp at hm
    · obtain ⟨n, hn, hmn⟩ := mem_shownAll.mp hm
      exact hbelow n hn m hmn

theorem allAdmissible_mergeText {s : Schema} {ns : List Node} (h : ∀ n ∈ ns, n.AllAdmissible s) :
    ∀ n ∈ mergeText ns, n.AllAdmissible s := by
  intro n hn
  rcases mem_mergeText hn with hn | ⟨t, rfl⟩
  · exact h n hn
  · exact allAdmissible_of_text rfl

theorem Admissible.of_subset {s : Schema} {kind : NodeKind} {tag : Option String}
    {attrs attrs' : Fields} {children children' : List Node} {value : Option String} {data : Fields}
    (h : Admissible s ⟨kind, tag, attrs, children, value, data⟩) (hattrs : attrs' ⊆ attrs) :
    Admissible s ⟨kind, tag, attrs', children', value, data⟩ where
  ne_raw := h.ne_raw
  element := fun hkind ↦
    have ⟨name, htag, hlower, hmem, hall⟩ := h.element hkind
    ⟨name, htag, hlower, hmem, fun f hf ↦ hall f (hattrs hf)⟩
  component := fun hkind ↦
    have ⟨hname, hall⟩ := h.component hkind
    ⟨hname, fun f hf ↦ hall f (hattrs hf)⟩

end Node

namespace Sanitizer

variable {s : Schema}

/-- Whether a field is an attribute that a tag may have, under its lowercase name. -/
def IsKept (s : Schema) (tag : String) (f : String × Value) : Prop :=
  ∃ name, f.1 = Text.lowercase name ∧ s.allowsAttribute tag name = true ∧
    s.allowsUrl name f.2 = true

/-- An attribute that stays is one that was there and is allowed, under its lowercase name. -/
theorem exists_of_mem_filterAttributes {tag : String} {attrs : Fields} :
    ∀ f ∈ (filterAttributes s tag attrs).1, ∃ g ∈ attrs, f = (Text.lowercase g.1, g.2) ∧
      s.allowsAttribute tag g.1 = true ∧ s.allowsUrl g.1 g.2 = true := by
  rw [filterAttributes]
  refine List.foldlRecOn attrs _
    (motive := fun acc : Fields × List Removal ↦ ∀ f ∈ acc.1, ∃ g ∈ attrs,
      f = (Text.lowercase g.1, g.2) ∧ s.allowsAttribute tag g.1 = true ∧
        s.allowsUrl g.1 g.2 = true) (by simp) ?_
  rintro ⟨kept, removals⟩ hkept ⟨name, v⟩ hmem
  dsimp only
  split
  · rename_i hallowed
    rw [Bool.and_eq_true] at hallowed
    intro f hf
    rcases Fields.mem_set hf with hf | rfl
    · exact hkept f hf
    · exact ⟨(name, v), hmem, rfl, hallowed⟩
  · exact hkept

theorem isKept_of_mem_filterAttributes {tag : String} {attrs : Fields} :
    ∀ f ∈ (filterAttributes s tag attrs).1, IsKept s tag f := by
  intro f hf
  obtain ⟨g, -, rfl, hallowed⟩ := exists_of_mem_filterAttributes f hf
  exact ⟨g.1, rfl, hallowed⟩

theorem admissible_element {tag : String} {attrs : Fields} {children : List Node}
    {value : Option String} {data : Fields} (htag : s.allowsTag (Text.lowercase tag) = true) :
    Node.Admissible s ⟨.element, some (Text.lowercase tag),
      (filterAttributes s (Text.lowercase tag) attrs).1, children, value, data⟩ where
  ne_raw := by simp
  component := by simp
  element := fun _ ↦ by
    refine ⟨_, rfl, Text.lowercase_lowercase tag, ?_, fun f hf ↦ ?_⟩
    · simpa [Schema.allowsTag] using htag
    · obtain ⟨name, hname, hallowed, hurl⟩ := isKept_of_mem_filterAttributes f hf
      have hevent : Schema.isEventHandler (Text.lowercase name) = false := by
        simp only [Schema.allowsAttribute, Bool.and_eq_true, Bool.not_eq_true'] at hallowed
        exact hallowed.1
      rw [hname]
      refine ⟨Text.lowercase_lowercase name, Schema.not_startsWithOn hevent, ?_, ?_⟩
      · simpa [Schema.allowsAttribute] using hallowed
      · simpa [Schema.allowsUrl] using hurl

/-- A component keeps an attribute unless it handles events or is a text with the scheme of a
script. -/
theorem allowsComponentAttribute_iff {name : String} {v : Value} :
    allowsComponentAttribute name v = true ↔ ¬ StartsWithOn name ∧
      ∀ url, v = .str url → Schema.urlScheme url ≠ some "javascript" ∧
        Schema.urlScheme url ≠ some "vbscript" := by
  unfold allowsComponentAttribute
  rw [Bool.and_eq_true, Bool.not_eq_true', ← Bool.not_eq_true, Schema.isEventHandler_iff]
  refine and_congr_right fun _ ↦ ?_
  cases v with
  | str url =>
      simp only [Value.str.injEq, forall_eq']
      cases Schema.urlScheme url <;> simp [scriptSchemes]
  | null | bool _ | int _ | float _ | bytes _ | date _ | moment _ | arr _ | obj _ => simp

theorem admissible_component {tag : Option String} {attrs : Fields} {children : List Node}
    {value : Option String} {data : Fields}
    (htag : unsafeTags.contains (Text.lowercase (tag.getD "")) = false) :
    Node.Admissible s ⟨.component, tag, (filterComponentAttributes tag attrs).1, children, value,
      data⟩ where
  ne_raw := by simp
  element := by simp
  component := fun _ ↦ by
    refine ⟨by simpa [Node.tagName] using htag, fun f hf ↦ ?_⟩
    exact allowsComponentAttribute_iff.mp (List.mem_filter.mp hf).2

/-- A node stays as it is, is dropped, gives way to its children, or is made admissible. -/
theorem filterNode_cases (s : Schema) (n : Node) :
    n.kind = .text ∧ (filterNode s n).1 = [n] ∨
    (filterNode s n).1 = [] ∨
    (filterNode s n).1 = Node.mergeText (filterAll s n.children).1 ∨
    ∃ tag attrs, (filterNode s n).1 =
        [{ n with tag, attrs, children := Node.mergeText (filterAll s n.children).1 }] ∧
      Node.Admissible s
        { n with tag, attrs, children := Node.mergeText (filterAll s n.children).1 } ∧
      (n.kind = .element → attrs = (filterAttributes s (Text.lowercase n.tagName) n.attrs).1) := by
  obtain ⟨kind, tag, attrs, children, value, data⟩ := n
  cases kind with
  | text =>
      rw [filterNode]
      exact .inl ⟨rfl, rfl⟩
  | raw =>
      rw [filterNode]
      exact .inr (.inl rfl)
  | component =>
      rw [filterNode]
      split
      · exact .inr (.inl rfl)
      · rename_i hsafe
        refine .inr (.inr (.inr ⟨_, _, rfl, ?_, by simp⟩))
        exact admissible_component (Bool.eq_false_iff.mpr hsafe)
  | root =>
      rw [filterNode]
      exact .inr (.inr (.inr ⟨_, _, rfl, Node.admissible_of_root rfl, by simp⟩))
  | element =>
      rw [filterNode]
      dsimp only
      split
      · rename_i hallowed
        exact .inr (.inr (.inr ⟨_, _, rfl, admissible_element hallowed, fun _ ↦ rfl⟩))
      · split
        · exact .inr (.inl rfl)
        · exact .inr (.inr (.inl rfl))

mutual

/-- All that shows of what a node becomes is admissible. -/
theorem filterNode_admissible : (n : Node) → ∀ m ∈ (filterNode s n).1, m.AllAdmissible s
  | ⟨kind, tag, attrs, children, value, data⟩ => by
      have hbelow := Node.allAdmissible_mergeText (filterAll_admissible children)
      rcases filterNode_cases s ⟨kind, tag, attrs, children, value, data⟩ with
        ⟨htext, h⟩ | h | h | ⟨tag', attrs', h, hself, -⟩
      · rw [h]
        exact List.forall_mem_singleton.mpr (Node.allAdmissible_of_text htext)
      · rw [h]
        exact List.forall_mem_nil _
      · rw [h]
        exact hbelow
      · rw [h]
        exact List.forall_mem_singleton.mpr (Node.allAdmissible_mk hself hbelow)

theorem filterAll_admissible : (ns : List Node) → ∀ m ∈ (filterAll s ns).1, m.AllAdmissible s
  | [] => by
      intro m hm
      simp [filterAll] at hm
  | n :: rest => by
      intro m hm
      rw [filterAll] at hm
      rcases List.mem_append.mp hm with hm | hm
      · exact filterNode_admissible n m hm
      · exact filterAll_admissible rest m hm

end

theorem filterChildren_admissible (siblings : List Node) :
    ∀ m ∈ (filterChildren s siblings).1, m.AllAdmissible s :=
  Node.allAdmissible_mergeText (filterAll_admissible siblings)

/-- Removing ids only takes attributes away. -/
theorem distinctIds_eq (reserved kept : List String) (n : Node) :
    ∃ attrs kept', attrs ⊆ n.attrs ∧ (distinctIds reserved kept n).1 =
      { n with attrs, children := (distinctIdsAll reserved kept' n.children).1 } := by
  obtain ⟨attrs, kept', hstep, heq, -⟩ := exists_idStep reserved kept n
  exact ⟨attrs, kept', hstep.attrs_subset, heq⟩

mutual

theorem distinctIds_admissible (reserved kept : List String) : (n : Node) → n.AllAdmissible s →
    (distinctIds reserved kept n).1.AllAdmissible s
  | ⟨kind, tag, attrs, children, value, data⟩, h => by
      obtain ⟨attrs', kept', hattrs, heq⟩ :=
        distinctIds_eq reserved kept ⟨kind, tag, attrs, children, value, data⟩
      have hself : Node.Admissible s ⟨kind, tag, attrs, children, value, data⟩ := by
        refine h _ ?_
        rw [Node.shown]
        exact List.mem_cons_self
      rw [heq]
      by_cases hkind : kind = .text
      · exact Node.allAdmissible_of_text hkind
      · refine Node.allAdmissible_mk (hself.of_subset hattrs)
          (distinctIdsAll_admissible reserved kept' children fun n hn m hm ↦ h m ?_)
        have hshows : (kind == .text) = false := beq_eq_false_iff_ne.mpr hkind
        rw [Node.shown, hshows]
        exact List.mem_cons_of_mem _ (Node.mem_shownAll.mpr ⟨n, hn, hm⟩)

theorem distinctIdsAll_admissible (reserved kept : List String) : (ns : List Node) →
    (∀ n ∈ ns, n.AllAdmissible s) → ∀ m ∈ (distinctIdsAll reserved kept ns).1, m.AllAdmissible s
  | [], _ => by
      intro m hm
      simp [distinctIdsAll] at hm
  | n :: rest, h => by
      intro m hm
      rw [distinctIdsAll] at hm
      rcases List.mem_cons.mp hm with rfl | hm
      · exact distinctIds_admissible reserved kept n (h n List.mem_cons_self)
      · exact distinctIdsAll_admissible reserved _ rest
          (fun k hk ↦ h k (List.mem_cons_of_mem n hk)) m hm

end

/-- The steps of sanitizing: admission, filtering and the removal of ids. -/
theorem sanitize_eq_ok {tree out : Node} {removals : List Removal}
    (h : sanitize s tree = .ok (out, removals)) :
    ∃ nodes markup reserved, admission tree.children = .ok (nodes, markup) ∧
      reservedIds { tree with children := (filterChildren s nodes).1 }.walk = .ok reserved ∧
      (distinctIds reserved [] { tree with children := (filterChildren s nodes).1 }).1 = out := by
  obtain ⟨⟨nodes, markup⟩, hadmit, h⟩ := bind_eq_ok.mp h
  obtain ⟨⟨deduped, ids⟩, hids, h⟩ := bind_eq_ok.mp h
  obtain ⟨reserved, hreserved, hids⟩ := bind_eq_ok.mp hids
  cases h
  cases hids
  exact ⟨nodes, markup, reserved, hadmit, hreserved, rfl⟩

/-- All that shows below a sanitized tree is admissible. -/
theorem sanitize_admissible {tree out : Node} {removals : List Removal}
    (h : sanitize s tree = .ok (out, removals)) : ∀ n ∈ out.shownBelow, n.Admissible s := by
  obtain ⟨nodes, -, reserved, -, -, rfl⟩ := sanitize_eq_ok h
  obtain ⟨attrs, kept, -, heq⟩ := distinctIds_eq reserved []
    { tree with children := (filterChildren s nodes).1 }
  intro n hn
  rw [heq, Node.shownBelow] at hn
  obtain ⟨m, hm, hnm⟩ := Node.mem_shownAll.mp hn
  exact distinctIdsAll_admissible reserved kept _ (filterChildren_admissible nodes) m hm n hnm

end Sanitizer

end SafeMarkdown
