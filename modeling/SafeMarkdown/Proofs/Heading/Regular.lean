import SafeMarkdown.Proofs.Fields
import SafeMarkdown.Proofs.Tree.Walk
import SafeMarkdown.Text.LetterCase

/-!
# Headings before they have ids

The nodes that carry the level of a heading are the headings that Markdown makes: elements with the
tag of that level, which have no attributes until they get their ids.
-/

namespace SafeMarkdown

/-- Whether a number is the level of a heading. -/
def IsLevel (n : Nat) : Prop :=
  1 ≤ n ∧ n ≤ 6

theorem IsLevel.cases {level : Nat} (h : IsLevel level) :
    level = 1 ∨ level = 2 ∨ level = 3 ∨ level = 4 ∨ level = 5 ∨ level = 6 := by
  obtain ⟨hlow, hhigh⟩ := h
  omega

/-- A heading that carries its level. -/
def Heading.node (level : Nat) (attrs : Fields) (children : List Node) : Node :=
  Node.element ("h" ++ Nat.repr level) attrs children [("level", .int level)]

/-- The tags of headings. -/
def Heading.tags : List String :=
  ["h1", "h2", "h3", "h4", "h5", "h6"]

theorem Heading.tag_mem_tags {level : Nat} (h : IsLevel level) : "h" ++ Nat.repr level ∈ tags := by
  rcases h.cases with rfl | rfl | rfl | rfl | rfl | rfl <;> decide

namespace Node

/-- Whether the id that an element may have is a text, however its name is spelled. -/
def IdIsText (n : Node) : Prop :=
  n.kind = .element → ∀ f ∈ n.attrs, Text.lowercase f.1 = "id" → ∃ s, f.2 = .str s

theorem idIsText_of_attrs_nil {n : Node} (h : n.attrs = []) : n.IdIsText := by
  intro _ f hf
  rw [h] at hf
  cases hf

theorem idIsText_of_ne {n : Node} (h : n.kind ≠ .element) : n.IdIsText :=
  fun hkind ↦ (h hkind).elim

theorem idIsText_ofText (s : String) : (ofText s).IdIsText :=
  idIsText_of_attrs_nil rfl

theorem IdIsText.of_eq {n m : Node} (h : n.IdIsText) (hkind : m.kind = n.kind)
    (hattrs : m.attrs = n.attrs) : m.IdIsText := by
  intro hm f hf
  exact h (hkind ▸ hm) f (hattrs ▸ hf)

theorem lowercase_id : Text.lowercase "id" = "id" := by
  decide +kernel

theorem lowercase_class_ne : Text.lowercase "class" ≠ "id" := by
  decide +kernel

theorem IdIsText.exists_eq_str {n : Node} (h : n.IdIsText) (hkind : n.kind = .element) {v : Value}
    (hv : n.attrs.get? "id" = some v) : ∃ s, v = .str s :=
  h hkind ("id", v) (Fields.mem_of_get? hv) lowercase_id

/-- What holds of the nodes of a tree until the headings have their ids. -/
structure Regular (n : Node) : Prop where
  idIsText : n.IdIsText
  heading : n.isMarked = true → ∃ level, IsLevel level ∧ n = Heading.node level [] n.children

theorem Regular.of_not_isMarked {n : Node} (h : n.isMarked = false) (hid : n.IdIsText) :
    n.Regular where
  idIsText := hid
  heading := fun hmarked ↦ by simp [h] at hmarked

theorem regular_node {level : Nat} (h : IsLevel level) (children : List Node) :
    (Heading.node level [] children).Regular where
  idIsText := idIsText_of_attrs_nil rfl
  heading := fun _ ↦ ⟨level, h, rfl⟩

theorem Regular.exists_tag {n : Node} (h : n.Regular) (hmarked : n.isMarked = true) :
    ∃ tag ∈ Heading.tags, n.tag = some tag := by
  obtain ⟨level, hlevel, heq⟩ := h.heading hmarked
  refine ⟨_, Heading.tag_mem_tags hlevel, ?_⟩
  rw [heq]
  rfl

theorem Regular.withChildren {n : Node} (h : n.Regular) (children : List Node) :
    Regular { n with children } where
  idIsText := h.idIsText.of_eq rfl rfl
  heading := by
    intro hmarked
    obtain ⟨level, hlevel, heq⟩ := h.heading hmarked
    refine ⟨level, hlevel, ?_⟩
    rw [heq]
    rfl

theorem all_regular_mk {n : Node} (h : n.Regular) {children : List Node}
    (hchildren : ∀ c ∈ children, c.All Regular) : All Regular { n with children } :=
  all_iff.mpr ⟨h.withChildren children, hchildren⟩

theorem regular_ofText (s : String) : (ofText s).Regular :=
  .of_not_isMarked rfl (idIsText_ofText s)

theorem all_regular_ofText (s : String) : (ofText s).All Regular :=
  all_iff.mpr ⟨regular_ofText s, List.forall_mem_nil _⟩

theorem all_regular_mergeText {ns : List Node} (h : ∀ n ∈ ns, n.All Regular) :
    ∀ n ∈ mergeText ns, n.All Regular :=
  all_mergeText h regular_ofText

end Node

end SafeMarkdown
