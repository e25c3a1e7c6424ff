import SafeMarkdown.Proofs.Gfm.Autolink
import SafeMarkdown.Proofs.Gfm.Changes
import SafeMarkdown.Proofs.Heading.Regular

/-!
# Enriched trees

What holds of all nodes of a tree holds of all nodes after marking tasks and linking URLs, if the
few changes that are made to a node keep it: other children, more classes for lists and their items
only, and a text without its checkbox. So an enriched tree is regular, as what is put in carries no
level.
-/

namespace SafeMarkdown.Gfm

open Node

section All

variable {P : Node → Prop}

/-- What marking tasks does to a node keeps something. -/
structure KeptByTasks (P : Node → Prop) : Prop where
  withChildren {n : Node} (h : P n) (children : List Node) : P { n with children }
  checkbox (checked : Bool) : P (checkboxNode checked)
  unchecked {n : Node} {checked : Bool} {after : String} (h : P n) (htext : n.isText = true)
    (hcheckbox : checkbox? n.text = some (checked, after)) : P { n with value := some after }
  withClasses {n : Node} (h : P n) (hlist : n.tag = some "li" ∨ n.isElement ["ul", "ol"] = true)
    (classes : Value) : P { n with attrs := n.attrs.set "class" classes }

theorem all_withChildren (hP : KeptByTasks P) {n : Node} (h : P n) {children : List Node}
    (hchildren : ∀ c ∈ children, c.All P) : All P { n with children } :=
  all_iff.mpr ⟨hP.withChildren h children, hchildren⟩

theorem all_addClasses (hP : KeptByTasks P) {n m : Node} {names : List String} (hn : n.All P)
    (hlist : n.tag = some "li" ∨ n.isElement ["ul", "ol"] = true)
    (h : n.addClasses names = .ok m) : m.All P := by
  obtain ⟨classes, -, h⟩ := bind_eq_ok.mp h
  cases h
  obtain ⟨hself, hbelow⟩ := all_iff.mp hn
  exact all_iff.mpr ⟨hP.withClasses hself hlist _, hbelow⟩

theorem all_withCheckbox? (hP : KeptByTasks P) {ns ms : List Node} (hns : ∀ n ∈ ns, n.All P)
    (h : withCheckbox? ns = some ms) : ∀ m ∈ ms, m.All P := by
  obtain ⟨n, rest, checked, after, rfl, htext, hcheckbox, rfl⟩ := exists_of_withCheckbox? h
  rw [List.forall_mem_cons] at hns
  obtain ⟨hself, hbelow⟩ := all_iff.mp hns.1
  have hbox : (checkboxNode checked).All P :=
    all_iff.mpr ⟨hP.checkbox checked, List.forall_mem_nil _⟩
  have hafter : All P { n with value := some after } :=
    all_iff.mpr ⟨hP.unchecked hself htext hcheckbox, hbelow⟩
  exact List.forall_mem_cons.mpr ⟨hbox, List.forall_mem_cons.mpr ⟨hafter, hns.2⟩⟩

theorem all_taskChildren? (hP : KeptByTasks P) {ns ms : List Node} (hns : ∀ n ∈ ns, n.All P)
    (h : taskChildren? ns = some ms) : ∀ m ∈ ms, m.All P := by
  rcases taskChildren?_cases h with ⟨first, rest, inner, rfl, -, hinner, rfl⟩ | h
  · rw [List.forall_mem_cons] at hns
    obtain ⟨hself, hbelow⟩ := all_iff.mp hns.1
    exact List.forall_mem_cons.mpr
      ⟨all_withChildren hP hself (all_withCheckbox? hP hbelow hinner), hns.2⟩
  · exact all_withCheckbox? hP hns h

theorem all_task? (hP : KeptByTasks P) {item m : Node} (hitem : item.All P)
    (htag : item.tag = some "li") (h : task? item = .ok (some m)) : m.All P := by
  obtain ⟨children, hchildren, hclasses⟩ := task?_eq_some h
  obtain ⟨hself, hbelow⟩ := all_iff.mp hitem
  have hinner := all_withChildren hP hself (all_taskChildren? hP hbelow hchildren)
  exact all_addClasses hP hinner (.inl htag) hclasses

theorem forall_mem_of_forall₂ {Q : Node → Prop} {ns ms : List Node}
    (h : List.Forall₂ (fun n m ↦ Q n → Q m) ns ms) (hns : ∀ n ∈ ns, Q n) : ∀ m ∈ ms, Q m := by
  induction h with
  | nil => exact hns
  | cons hfirst _ ih =>
      rw [List.forall_mem_cons] at hns
      exact List.forall_mem_cons.mpr ⟨hfirst hns.1, ih hns.2⟩

theorem all_markItems (hP : KeptByTasks P) {ns ms : List Node} {found : Bool}
    (hns : ∀ n ∈ ns, n.All P) (h : markItems ns = .ok (ms, found)) : ∀ m ∈ ms, m.All P := by
  refine forall_mem_of_forall₂ ((forall₂_markItems h).imp fun n m hmark hn ↦ ?_) hns
  rcases hmark with ⟨htag, htask⟩ | ⟨rfl, -⟩
  · exact all_task? hP hn htag htask
  · exact hn

theorem all_markTasks (hP : KeptByTasks P) {n m : Node} (hn : n.All P) (h : markTasks n = .ok m) :
    m.All P := by
  rcases markTasks_cases h with ⟨hlist, children, found, hitems, hmarked⟩ | ⟨-, rfl⟩
  · obtain ⟨hself, hbelow⟩ := all_iff.mp hn
    have hall := all_withChildren hP hself (all_markItems hP hbelow hitems)
    rcases hmarked with hclasses | rfl
    · exact all_addClasses hP hall (.inr hlist) hclasses
    · exact hall
  · exact hn

theorem followsTasks_all (hP : KeptByTasks P) : FollowsTasks fun n m ↦ n.All P → m.All P where
  refl _ := id
  mark _ _ hbelow hmark hn := by
    obtain ⟨hself, hchildren⟩ := all_iff.mp hn
    exact all_markTasks hP
      (all_withChildren hP hself (forall_mem_of_forall₂ hbelow hchildren)) hmark

theorem all_taskLists (hP : KeptByTasks P) (n : Node) {m : Node} (hn : n.All P)
    (h : taskLists n = .ok m) : m.All P :=
  (followsTasks_all hP).taskLists n h hn

/-- What linking URLs does to a node keeps something. -/
structure KeptByLinks (P : Node → Prop) : Prop where
  withChildren {n : Node} (h : P n) (children : List Node) : P { n with children }
  text (s : String) : P (ofText s)
  link (url : List Char) : P (linkNode url)

theorem all_autolink (hP : KeptByLinks P) (text : String) : ∀ n ∈ autolink text, n.All P := by
  intro n hn
  have htext (s : String) : (ofText s).All P := all_iff.mpr ⟨hP.text s, List.forall_mem_nil _⟩
  cases isLinked_of_mem_autolink hn with
  | text => exact htext _
  | link url => exact all_iff.mpr ⟨hP.link url, List.forall_mem_singleton.mpr (htext _)⟩

theorem forall_mem_flatten_of_forall₂ {Q : Node → Prop} {ns : List Node} {parts : List (List Node)}
    (h : List.Forall₂ (fun n part ↦ Q n → ∀ m ∈ part, Q m) ns parts) (hns : ∀ n ∈ ns, Q n) :
    ∀ m ∈ parts.flatten, Q m := by
  induction h with
  | nil => exact List.forall_mem_nil _
  | cons hfirst _ ih =>
      rw [List.forall_mem_cons] at hns
      rw [List.flatten_cons]
      exact List.forall_mem_append.mpr ⟨hfirst hns.1, ih hns.2⟩

theorem followsLinks_all (hP : KeptByLinks P) :
    FollowsLinks fun n part ↦ n.All P → ∀ m ∈ part, m.All P where
  refl _ hn := List.forall_mem_singleton.mpr hn
  text _ _ := all_autolink hP _
  node {n parts} _ hbelow h hn := by
    obtain ⟨hself, hchildren⟩ := all_iff.mp hn
    have hparts := forall_mem_flatten_of_forall₂ hbelow hchildren
    rw [h]
    exact List.forall_mem_singleton.mpr (all_iff.mpr ⟨hP.withChildren hself _, hparts⟩)

theorem all_links (hP : KeptByLinks P) (n : Node) (hn : n.All P) : (links n).All P :=
  (followsLinks_all hP).links n hn _ List.mem_cons_self

end All

theorem not_isMarked_of_tag {n : Node} (hn : n.Regular) {tag : String} (htag : n.tag = some tag)
    (hother : tag ∉ Heading.tags) : n.isMarked = false := by
  cases hmarked : n.isMarked with
  | false => rfl
  | true =>
      obtain ⟨tag', hmem, htag'⟩ := hn.exists_tag hmarked
      rw [htag, Option.some.injEq] at htag'
      exact (hother (htag' ▸ hmem)).elim

theorem not_isMarked_of_isElement {n : Node} (hn : n.Regular) {tags : List String}
    (h : n.isElement tags = true) (hother : ∀ tag ∈ tags, tag ∉ Heading.tags) :
    n.isMarked = false := by
  obtain ⟨-, htag⟩ := Bool.and_eq_true_iff.mp h
  obtain ⟨tag, htag, hmem⟩ := (Option.any_eq_true _ _).mp htag
  exact not_isMarked_of_tag hn htag (hother tag (List.contains_iff_mem.mp hmem))

theorem keptByTasks_regular : KeptByTasks Regular where
  withChildren h children := h.withChildren children
  checkbox checked := by
    refine .of_not_isMarked (by rfl) fun _ f hf hname ↦ ?_
    cases checked with
    | true =>
        simp [checkboxNode, Node.element] at hf
        rcases hf with rfl | rfl | rfl
        · exact ⟨_, rfl⟩
        · exact absurd hname (by decide +kernel)
        · exact absurd hname (by decide +kernel)
    | false =>
        simp [checkboxNode, Node.element] at hf
        rcases hf with rfl | rfl
        · exact ⟨_, rfl⟩
        · exact absurd hname (by decide +kernel)
  unchecked := by
    intro n checked after h htext _
    have hkind : n.kind = .text := beq_iff_eq.mp htext
    refine ⟨idIsText_of_ne (by simp [hkind]), fun hmarked ↦ ?_⟩
    obtain ⟨level, -, heq⟩ := h.heading hmarked
    rw [heq] at hkind
    cases hkind
  withClasses := by
    intro n h hlist classes
    have hunmarked : n.isMarked = false := by
      rcases hlist with htag | hlist
      · exact not_isMarked_of_tag h htag (by decide)
      · exact not_isMarked_of_isElement h hlist (by decide)
    refine .of_not_isMarked hunmarked fun hkind f hf hname ↦ ?_
    rcases Fields.mem_set hf with hf | rfl
    · exact h.idIsText hkind f hf hname
    · exact absurd hname lowercase_class_ne

theorem keptByLinks_regular : KeptByLinks Regular where
  withChildren h children := h.withChildren children
  text s := regular_ofText s
  link url := by
    refine .of_not_isMarked rfl fun _ f hf _ ↦ ?_
    rw [List.mem_singleton.mp hf]
    exact ⟨_, rfl⟩

theorem isMarked_taskLists {n m : Node} (h : taskLists n = .ok m) : m.isMarked = n.isMarked := by
  have hR : FollowsTasks fun n m ↦ m.isMarked = n.isMarked := by
    refine ⟨fun _ ↦ rfl, fun _ _ _ hmark ↦ ?_⟩
    rcases exists_of_markTasks hmark with ⟨attrs, children, found, -, rfl⟩ | ⟨-, rfl⟩ <;> rfl
  exact hR.taskLists n h

theorem isMarked_links (n : Node) : (links n).isMarked = n.isMarked := by
  rw [links_eq]
  split <;> rfl

theorem isMarked_enrich {tree out : Node} (h : enrich tree = .ok out) :
    out.isMarked = tree.isMarked := by
  obtain ⟨marked, hmarked, rfl⟩ := map_eq_ok.mp h
  rw [isMarked_links, isMarked_taskLists hmarked]

theorem regular_enrich {tree out : Node} (htree : tree.All Regular) (h : enrich tree = .ok out) :
    out.All Regular := by
  obtain ⟨marked, hmarked, rfl⟩ := map_eq_ok.mp h
  exact all_links keptByLinks_regular marked
    (all_taskLists keptByTasks_regular tree htree hmarked)

end SafeMarkdown.Gfm
