import SafeMarkdown.Heading.Anchor
import SafeMarkdown.Proofs.Fields
import SafeMarkdown.Proofs.Heading.Regular
import SafeMarkdown.Proofs.Slug
import SafeMarkdown.Proofs.Tree.Walk

/-!
# Ids of headings

The headings of a regular tree get ids that are not empty and all different.

The headings of any tree get their ids one after the other, in document order. So their ids are what
searches for the slugs of their texts find in turn, from nothing taken on.
-/

namespace SafeMarkdown

theorem Heading.headingLevel_node {level : Nat} (h : IsLevel level) (attrs : Fields)
    (children : List Node) : (Heading.node level attrs children).headingLevel = some level := by
  rcases h.cases with rfl | rfl | rfl | rfl | rfl | rfl <;> rfl

namespace Node

/-- The text of a node's id. -/
def idText? (n : Node) : Option String :=
  (n.attrs.get? "id").bind Value.str?

/-- The ids of the nodes that carry the level of a heading, in document order. -/
def slugs (ns : List Node) : List String :=
  (markedAll ns).filterMap idText?

theorem slugs_append (ns ms : List Node) : slugs (ns ++ ms) = slugs ns ++ slugs ms := by
  rw [slugs, markedAll_append, List.filterMap_append]
  rfl

theorem slugs_cons (n : Node) (ns : List Node) : slugs (n :: ns) = slugs [n] ++ slugs ns :=
  slugs_append [n] ns

theorem slugs_of_not_isMarked {n : Node} (h : n.isMarked = false) :
    slugs [n] = slugs n.children := by
  rw [slugs, markedAll_singleton, marked_of_not_isMarked h]
  rfl

theorem slugs_of_isMarked {n : Node} (h : n.isMarked = true) :
    slugs [n] = n.idText?.toList ++ slugs n.children := by
  rw [slugs, markedAll_singleton, marked_of_isMarked h, List.filterMap_cons]
  cases n.idText? with
  | none => rfl
  | some slug => rfl

theorem slugs_children_sublist (n : Node) : (slugs n.children).Sublist (slugs [n]) := by
  rw [slugs, slugs, markedAll_singleton]
  exact (markedAll_children_sublist n).filterMap idText?

theorem mem_slugs_of_isMarked {n : Node} (h : n.isMarked = true) {slug : String}
    (hslug : n.idText? = some slug) : slug ∈ slugs [n] := by
  rw [slugs_of_isMarked h, hslug]
  exact List.mem_cons_self

theorem slugs_node (level : Nat) (slug : String) (children : List Node) :
    slugs [Heading.node level [("id", .str slug)] children] = slug :: slugs children := by
  rw [slugs_of_isMarked rfl]
  rfl

/-- What holds of the nodes of a tree whose headings have their ids. -/
structure Titled (n : Node) : Prop where
  idIsText : n.IdIsText
  heading : n.isMarked = true → ∃ level slug, IsLevel level ∧ slug ≠ "" ∧
    n = Heading.node level [("id", .str slug)] n.children

theorem Titled.of_not_isMarked {n : Node} (h : n.isMarked = false) (hid : n.IdIsText) :
    n.Titled where
  idIsText := hid
  heading := fun hmarked ↦ by simp [h] at hmarked

end Node

namespace Heading

open Node

/-- What giving ids to some trees makes of them and of the slugs that are taken. -/
structure Assigned (taken taken' : List String) (ns : List Node) : Prop where
  titled : ∀ n ∈ ns, n.All Titled
  allots : Allots taken taken' (slugs ns)

variable {taken taken' last : List String} {n : Node} {ns children : List Node}

theorem assigned_nil : Assigned taken taken [] where
  titled := List.forall_mem_nil _
  allots := .nil

theorem Assigned.cons (h : Assigned taken taken' [n]) (hrest : Assigned taken' last ns) :
    Assigned taken last (n :: ns) where
  titled := List.forall_mem_cons.mpr ⟨h.titled n List.mem_cons_self, hrest.titled⟩
  allots := by
    rw [slugs_cons]
    exact h.allots.append hrest.allots

theorem Assigned.of_cons {slug : String} (h : Assigned (slug :: taken) taken' ns) :
    Assigned taken taken' ns where
  titled := h.titled
  allots := h.allots.of_cons

theorem Assigned.unmarked (hself : n.IdIsText) (hn : n.isMarked = false)
    (h : Assigned taken taken' n.children) : Assigned taken taken' [n] where
  titled := List.forall_mem_singleton.mpr
    (all_iff.mpr ⟨.of_not_isMarked hn hself, h.titled⟩)
  allots := by
    rw [slugs_of_not_isMarked hn]
    exact h.allots

theorem Assigned.node {level : Nat} {slug : String} (hlevel : IsLevel level) (hslug : slug ≠ "")
    (hfresh : slug ∉ taken) (h : Assigned (slug :: taken) taken' children) :
    Assigned taken taken' [Heading.node level [("id", .str slug)] children] where
  titled := by
    refine List.forall_mem_singleton.mpr (all_iff.mpr ⟨⟨?_, ?_⟩, h.titled⟩)
    · intro _ f hf _
      rw [List.mem_singleton.mp hf]
      exact ⟨slug, rfl⟩
    · exact fun _ ↦ ⟨level, slug, hlevel, hslug, rfl⟩
  allots := by
    rw [slugs_node]
    exact h.allots.cons hfresh

theorem baseSlug_ne_empty (n : Node) : baseSlug n ≠ "" := by
  unfold baseSlug
  dsimp only
  split
  · decide
  · rename_i h
    simpa using h

mutual

theorem assigned_assignIds : (n : Node) → (taken : List String) → n.All Regular →
    Assigned taken (assignIds taken n).2 [(assignIds taken n).1]
  | ⟨kind, tag, attrs, children, value, data⟩, taken, hn => by
      obtain ⟨hself, hbelow⟩ := all_iff.mp hn
      rw [assignIds]
      dsimp only
      split
      · have hslug := Slug.unique_ne_empty
          (baseSlug_ne_empty ⟨kind, tag, attrs, children, value, data⟩) taken
        have hfresh := Slug.unique_not_mem
          (baseSlug ⟨kind, tag, attrs, children, value, data⟩) taken
        generalize
          Slug.unique (baseSlug ⟨kind, tag, attrs, children, value, data⟩) taken = slug at *
        have hchildren := assigned_assignIdsAll children (slug :: taken) hbelow
        cases hmarked : Node.isMarked ⟨kind, tag, attrs, children, value, data⟩ with
        | true =>
            obtain ⟨level, hlevel, heq⟩ := hself.heading hmarked
            cases heq
            exact Assigned.node hlevel hslug hfresh hchildren
        | false =>
            refine Assigned.unmarked ?_ hmarked hchildren.of_cons
            intro hkind f hf hname
            rcases Fields.mem_set hf with hf | rfl
            · exact hself.idIsText hkind f hf hname
            · exact ⟨slug, rfl⟩
      · rename_i hlevel
        have hchildren := assigned_assignIdsAll children taken hbelow
        have hmarked : Node.isMarked ⟨kind, tag, attrs, children, value, data⟩ = false := by
          rw [← Bool.not_eq_true]
          intro hmarked
          obtain ⟨level, hisLevel, heq⟩ := hself.heading hmarked
          rw [heq, headingLevel_node hisLevel] at hlevel
          exact hlevel rfl
        exact Assigned.unmarked (hself.idIsText.of_eq rfl rfl) hmarked hchildren

theorem assigned_assignIdsAll : (ns : List Node) → (taken : List String) →
    (∀ n ∈ ns, n.All Regular) →
    Assigned taken (assignIdsAll taken ns).2 (assignIdsAll taken ns).1
  | [], taken, _ => by
      rw [assignIdsAll]
      exact assigned_nil
  | n :: rest, taken, hns => by
      rw [List.forall_mem_cons] at hns
      rw [assignIdsAll]
      exact (assigned_assignIds n taken hns.1).cons (assigned_assignIdsAll rest _ hns.2)

end

section All

variable {P : Node → Prop}

mutual

theorem all_assignIds (hparts : ∀ {n}, P n → ∀ attrs children, P { n with attrs, children }) :
    (n : Node) → (taken : List String) → n.All P → (assignIds taken n).1.All P
  | ⟨kind, tag, attrs, children, value, data⟩, taken, hn => by
      obtain ⟨hself, hbelow⟩ := all_iff.mp hn
      rw [assignIds]
      dsimp only
      split
      · exact all_iff.mpr ⟨hparts hself _ _, all_assignIdsAll hparts children _ hbelow⟩
      · exact all_iff.mpr ⟨hparts hself _ _, all_assignIdsAll hparts children _ hbelow⟩

theorem all_assignIdsAll (hparts : ∀ {n}, P n → ∀ attrs children, P { n with attrs, children }) :
    (ns : List Node) → (taken : List String) → (∀ n ∈ ns, n.All P) →
    ∀ m ∈ (assignIdsAll taken ns).1, m.All P
  | [], taken, _ => by
      rw [assignIdsAll]
      exact List.forall_mem_nil _
  | n :: rest, taken, hns => by
      rw [List.forall_mem_cons] at hns
      rw [assignIdsAll]
      exact List.forall_mem_cons.mpr
        ⟨all_assignIds hparts n taken hns.1, all_assignIdsAll hparts rest _ hns.2⟩

end

end All

theorem isMarked_withIds (tree : Node) : (withIds tree).isMarked = tree.isMarked := by
  obtain ⟨kind, tag, attrs, children, value, data⟩ := tree
  rw [withIds, assignIds]
  dsimp only
  split
  · rfl
  · rfl

theorem withIds_titled {tree : Node} (h : tree.All Regular) : (withIds tree).All Titled :=
  (assigned_assignIds tree [] h).titled _ List.mem_cons_self

theorem nodup_slugs_withIds {tree : Node} (h : tree.All Regular) :
    (slugs [withIds tree]).Nodup :=
  (assigned_assignIds tree [] h).allots.nodup

end Heading

end SafeMarkdown

namespace SafeMarkdown

namespace Node

/-- The headings among the nodes of some trees, in document order. -/
def headings (ns : List Node) : List Node :=
  (walk.walkAll ns).filter fun n ↦ n.headingLevel.isSome

variable {kind : NodeKind} {tag value : Option String} {attrs data : Fields}
  {children : List Node}

theorem headings_cons (n : Node) (ns : List Node) :
    headings (n :: ns) = headings [n] ++ headings ns := by
  rw [headings, headings, walk.walkAll, List.filter_append, walk.walkAll, walk.walkAll,
    List.append_nil]
  rfl

/-- A heading comes before those in it, whatever attributes and children it is given. -/
theorem headings_of_level (h : (headingLevel ⟨kind, tag, attrs, children, value, data⟩).isSome)
    (attrs' : Fields) (children' : List Node) :
    headings [⟨kind, tag, attrs', children', value, data⟩] =
      ⟨kind, tag, attrs', children', value, data⟩ :: headings children' := by
  rw [headings, walk.walkAll, walk_mk, walk.walkAll, List.append_nil, List.filter_cons]
  exact if_pos h

theorem headings_of_no_level
    (h : ¬(headingLevel ⟨kind, tag, attrs, children, value, data⟩).isSome) (attrs' : Fields)
    (children' : List Node) :
    headings [⟨kind, tag, attrs', children', value, data⟩] = headings children' := by
  rw [headings, walk.walkAll, walk_mk, walk.walkAll, List.append_nil, List.filter_cons]
  exact if_neg h

end Node

namespace Heading

open Node

/-- The ids that headings have, in document order. -/
def idsOf (ns : List Node) : List (Option Value) :=
  (headings ns).map fun n ↦ n.attrs.get? "id"

/-- The slugs of the texts of headings, without suffixes. -/
def basesOf (ns : List Node) : List String :=
  (headings ns).map baseSlug

/-- The id that a heading gets with a slug. -/
def idOf (slug : String) : Option Value :=
  some (.str slug)

theorem idsOf_cons (n : Node) (ns : List Node) : idsOf (n :: ns) = idsOf [n] ++ idsOf ns := by
  rw [idsOf, headings_cons, List.map_append]
  rfl

theorem basesOf_cons (n : Node) (ns : List Node) :
    basesOf (n :: ns) = basesOf [n] ++ basesOf ns := by
  rw [basesOf, headings_cons, List.map_append]
  rfl

mutual

/-- Giving ids to a tree is a run of searches. -/
theorem idsOf_assignIds (taken : List String) : (n : Node) →
    idsOf [(assignIds taken n).1] = (Slug.uniqueAll taken (basesOf [n])).1.map idOf ∧
      (assignIds taken n).2 = (Slug.uniqueAll taken (basesOf [n])).2
  | ⟨kind, tag, attrs, children, value, data⟩ => by
      by_cases h : (headingLevel ⟨kind, tag, attrs, children, value, data⟩).isSome
      · let slug := Slug.unique (baseSlug ⟨kind, tag, attrs, children, value, data⟩) taken
        obtain ⟨hids, htaken⟩ := idsOf_assignIdsAll (slug :: taken) children
        rw [assignIds, if_pos h, basesOf, headings_of_level h]
        dsimp only
        rw [idsOf, headings_of_level h, List.map_cons, Fields.get?_set_self]
        exact ⟨congrArg _ hids, htaken⟩
      · obtain ⟨hids, htaken⟩ := idsOf_assignIdsAll taken children
        rw [assignIds, if_neg h, basesOf, headings_of_no_level h]
        dsimp only
        rw [idsOf, headings_of_no_level h]
        exact ⟨hids, htaken⟩

theorem idsOf_assignIdsAll (taken : List String) : (ns : List Node) →
    idsOf (assignIdsAll taken ns).1 = (Slug.uniqueAll taken (basesOf ns)).1.map idOf ∧
      (assignIdsAll taken ns).2 = (Slug.uniqueAll taken (basesOf ns)).2
  | [] => ⟨rfl, rfl⟩
  | n :: rest => by
      obtain ⟨hids, htaken⟩ := idsOf_assignIds taken n
      obtain ⟨hrest, hlast⟩ := idsOf_assignIdsAll (assignIds taken n).2 rest
      rw [assignIdsAll, basesOf_cons, Slug.uniqueAll_append]
      dsimp only
      rw [idsOf_cons, hids, hrest, htaken, List.map_append]
      exact ⟨rfl, htaken ▸ hlast⟩

end

/-- Each search of a run, from any slugs taken on, ends and finds the first spelling that is new,
which is all that it takes. So the slugs that are found are different, and none of them was taken
before the run. The ids of the headings of a tree are the slugs of such a run over their texts. -/
theorem slugs_firstFree (taken bases : List String) :
    let (slugs, taken') := Slug.uniqueAll taken bases
    Slug.Run taken bases slugs taken' ∧ slugs.Nodup ∧ (∀ slug ∈ slugs, slug ∉ taken) ∧
      (∀ slug, slug ∈ taken' ↔ slug ∈ taken ∨ slug ∈ slugs) ∧
      ∀ tree, idsOf [withIds tree] = (Slug.uniqueAll [] (basesOf [tree])).1.map idOf := by
  have hrun := Slug.run_uniqueAll taken bases
  refine ⟨hrun, hrun.allots.nodup, fun slug hslug ↦ (hrun.allots.fresh slug hslug).1,
    hrun.mem_iff, fun tree ↦ ?_⟩
  exact (idsOf_assignIds [] tree).1

end Heading

end SafeMarkdown
