import SafeMarkdown.Proofs.Tree.Walk
import SafeMarkdown.Text.LetterCase

/-!
# Links around each other

How many links stand around each other in a tree, counted by depth, and the same with the links
taken off that headings have around what they hold. No link is inside another one exactly when the
depth is at most one.
-/

namespace SafeMarkdown.Node

/-- Whether no link of a tree is below another one. -/
def NestsNoLinks (tree : Node) : Prop :=
  ∀ outer ∈ tree.walk, outer.isElement ["a"] = true →
    ∀ inner ∈ walk.walkAll outer.children, inner.isElement ["a"] = false

instance (tree : Node) : Decidable tree.NestsNoLinks :=
  inferInstanceAs (Decidable (∀ outer ∈ tree.walk, outer.isElement ["a"] = true →
    ∀ inner ∈ walk.walkAll outer.children, inner.isElement ["a"] = false))

/-- Whether a node is a link that a heading may have to itself: it leads to an id and is an
anchor. -/
def isOwnLink (n : Node) : Bool :=
  n.isElement ["a"] &&
    match n.attrs with
    | [("href", .str url), ("class", .arr [.str "anchor"])] => "#".toList.isPrefixOf url.toList
    | _ => false

mutual

/-- What is left of a node without the links that headings have to themselves; `heading` tells
whether the node is a child of a heading. -/
def unlinked (heading : Bool) : Node → List Node
  | ⟨kind, tag, attrs, children, value, data⟩ =>
    let nodes :=
      unlinkedAll (headingLevel ⟨kind, tag, attrs, [], value, data⟩).isSome children
    if heading && isOwnLink ⟨kind, tag, attrs, [], value, data⟩ then nodes
    else [⟨kind, tag, attrs, nodes, value, data⟩]

def unlinkedAll (heading : Bool) : List Node → List Node
  | [] => []
  | n :: rest => unlinked heading n ++ unlinkedAll heading rest

end

/-- A tree whose headings have no links to themselves around what they hold. -/
def withoutOwnLinks (n : Node) : Node :=
  { n with children := unlinkedAll n.headingLevel.isSome n.children }

/-- Whether a node is a link, however its tag is spelled. -/
def isAnyLink (n : Node) : Bool :=
  n.kind == .element && Text.lowercase n.tagName == "a"

/-- Whether a link is spelled in lowercase. -/
abbrev SpellsLink (n : Node) : Prop :=
  n.isAnyLink = true → n.isElement ["a"] = true

def linkWeight (n : Node) : Nat :=
  if n.isAnyLink then 1 else 0

mutual

/-- How many links stand around each other at most, however their tags are spelled. -/
def linkDepth : Node → Nat
  | ⟨kind, tag, attrs, children, value, data⟩ =>
    linkWeight ⟨kind, tag, attrs, [], value, data⟩ + linkDepthAll children

def linkDepthAll : List Node → Nat
  | [] => 0
  | n :: rest => max (linkDepth n) (linkDepthAll rest)

end

/-- The depth of links once the ones that headings have to themselves are taken off. -/
def foreignDepth (heading : Bool) (ns : List Node) : Nat :=
  linkDepthAll (unlinkedAll heading ns)

variable {n m : Node} {ns ms : List Node} {heading : Bool}

theorem isAnyLink_of_isElement (h : n.isElement ["a"] = true) : n.isAnyLink = true := by
  obtain ⟨hkind, htag⟩ := Bool.and_eq_true_iff.mp h
  have hlower : Text.lowercase "a" = "a" := by decide +kernel
  obtain ⟨tag, htag, hmem⟩ := (Option.any_eq_true _ _).mp htag
  rw [isAnyLink, hkind, tagName, htag, List.mem_singleton.mp (List.contains_iff_mem.mp hmem)]
  exact beq_iff_eq.mpr hlower

section LinkDepth

theorem walkAll_children_subset (ns : List Node) :
    m ∈ walk.walkAll ns → walk.walkAll m.children ⊆ walk.walkAll ns := by
  refine siblings_induction (P := fun ns ↦ m ∈ walk.walkAll ns →
    walk.walkAll m.children ⊆ walk.walkAll ns) (fun ns ih hm k hk ↦ ?_) ns
  obtain ⟨n, hn, hm⟩ := mem_walkAll.mp hm
  refine mem_walkAll.mpr ⟨n, hn, mem_walk.mpr (.inr (mem_walkAll.mp ?_))⟩
  rcases mem_walk.mp hm with rfl | hbelow
  · exact hk
  · exact ih n hn (mem_walkAll.mpr hbelow) hk

theorem linkDepth_eq (n : Node) : n.linkDepth = n.linkWeight + linkDepthAll n.children := by
  obtain ⟨kind, tag, attrs, children, value, data⟩ := n
  rw [linkDepth]
  rfl

theorem linkDepthAll_append (ns ms : List Node) :
    linkDepthAll (ns ++ ms) = max (linkDepthAll ns) (linkDepthAll ms) := by
  induction ns with
  | nil => simp [linkDepthAll]
  | cons n ns ih => rw [List.cons_append, linkDepthAll, ih, linkDepthAll, Nat.max_assoc]

theorem linkDepthAll_le {k : Nat} : linkDepthAll ns ≤ k ↔ ∀ n ∈ ns, n.linkDepth ≤ k := by
  induction ns with
  | nil => simp [linkDepthAll]
  | cons n ns ih => rw [linkDepthAll, Nat.max_le, ih, List.forall_mem_cons]

/-- Nodes without a link have no depth. -/
theorem linkDepthAll_eq_zero_iff (ns : List Node) :
    linkDepthAll ns = 0 ↔ ∀ n ∈ walk.walkAll ns, n.isAnyLink = false := by
  refine siblings_induction (P := fun ns ↦ linkDepthAll ns = 0 ↔
    ∀ n ∈ walk.walkAll ns, n.isAnyLink = false) (fun ns ih ↦ ?_) ns
  rw [← Nat.le_zero, linkDepthAll_le]
  constructor
  · intro h m hm
    obtain ⟨n, hn, hm⟩ := mem_walkAll.mp hm
    have hzero := h n hn
    rw [linkDepth_eq, Nat.le_zero, Nat.add_eq_zero_iff, ih n hn] at hzero
    rcases mem_walk.mp hm with rfl | hbelow
    · simpa [linkWeight] using hzero.1
    · exact hzero.2 m (mem_walkAll.mpr hbelow)
  · intro h n hn
    have hself : n.isAnyLink = false := h n (mem_walkAll.mpr ⟨n, hn, mem_walk.mpr (.inl rfl)⟩)
    have hbelow : linkDepthAll n.children = 0 := by
      refine (ih n hn).mpr fun m hm ↦ h m (mem_walkAll.mpr ⟨n, hn, mem_walk.mpr (.inr ?_)⟩)
      exact mem_walkAll.mp hm
    rw [linkDepth_eq, hbelow, linkWeight, hself]
    exact Nat.le_refl 0

theorem linkDepthAll_le_one_iff (ns : List Node) :
    linkDepthAll ns ≤ 1 ↔ ∀ outer ∈ walk.walkAll ns, outer.isAnyLink = true →
      ∀ inner ∈ walk.walkAll outer.children, inner.isAnyLink = false := by
  refine siblings_induction (P := fun ns ↦ linkDepthAll ns ≤ 1 ↔ ∀ outer ∈ walk.walkAll ns,
    outer.isAnyLink = true → ∀ inner ∈ walk.walkAll outer.children, inner.isAnyLink = false)
    (fun ns ih ↦ ?_) ns
  rw [linkDepthAll_le]
  constructor
  · intro h outer houter hlink
    obtain ⟨n, hn, houter⟩ := mem_walkAll.mp houter
    have hle := h n hn
    rw [linkDepth_eq] at hle
    rcases mem_walk.mp houter with rfl | hbelow
    · rw [linkWeight, if_pos hlink] at hle
      exact (linkDepthAll_eq_zero_iff _).mp (by omega)
    · exact (ih n hn).mp (by omega) outer (mem_walkAll.mpr hbelow) hlink
  · intro h n hn
    have hbelow : linkDepthAll n.children ≤ 1 := by
      refine (ih n hn).mpr fun m hm ↦ h m (mem_walkAll.mpr ⟨n, hn, mem_walk.mpr (.inr ?_)⟩)
      exact mem_walkAll.mp hm
    rw [linkDepth_eq, linkWeight]
    split
    · rename_i hlink
      have hnone := h n (mem_walkAll.mpr ⟨n, hn, mem_walk.mpr (.inl rfl)⟩) hlink
      have hzero := (linkDepthAll_eq_zero_iff _).mpr hnone
      omega
    · omega

theorem nestsNoLinks_of_linkDepth (h : n.linkDepth ≤ 1) : n.NestsNoLinks := by
  intro outer houter hlink inner hinner
  have hle : linkDepthAll [n] ≤ 1 := linkDepthAll_le.mpr (List.forall_mem_singleton.mpr h)
  have hnone := (linkDepthAll_le_one_iff [n]).mp hle outer (mem_walkAll.mpr ⟨n, by simp, houter⟩)
    (isAnyLink_of_isElement hlink) inner hinner
  rw [← Bool.not_eq_true] at hnone ⊢
  exact fun h ↦ hnone (isAnyLink_of_isElement h)

theorem linkDepth_of_nestsNoLinks (hspells : n.All SpellsLink) (h : n.NestsNoLinks) :
    n.linkDepth ≤ 1 := by
  have hle : linkDepthAll [n] ≤ 1 := by
    refine (linkDepthAll_le_one_iff [n]).mpr fun outer houter hlink inner hinner ↦ ?_
    obtain ⟨k, hk, houter⟩ := mem_walkAll.mp houter
    rw [List.mem_singleton.mp hk] at houter
    have hbelow : inner ∈ n.walk := by
      have hall := walkAll_children_subset [n] (mem_walkAll.mpr ⟨n, by simp, houter⟩) hinner
      simpa [mem_walkAll] using hall
    have hnone := h outer houter (hspells outer houter hlink) inner hinner
    rw [← Bool.not_eq_true] at hnone ⊢
    exact fun h ↦ hnone (hspells inner hbelow h)
  exact linkDepthAll_le.mp hle n (List.mem_singleton_self n)

end LinkDepth

section ForeignDepth

theorem unlinked_eq (heading : Bool) (n : Node) : unlinked heading n =
    if heading && n.isOwnLink then unlinkedAll n.headingLevel.isSome n.children
    else [n.withoutOwnLinks] := by
  obtain ⟨kind, tag, attrs, children, value, data⟩ := n
  rw [unlinked]
  rfl

theorem foreignDepth_append (heading : Bool) (ns ms : List Node) :
    foreignDepth heading (ns ++ ms) = max (foreignDepth heading ns) (foreignDepth heading ms) := by
  have happend : unlinkedAll heading (ns ++ ms) =
      unlinkedAll heading ns ++ unlinkedAll heading ms := by
    induction ns with
    | nil => rfl
    | cons n ns ih => rw [List.cons_append, unlinkedAll, ih, unlinkedAll, List.append_assoc]
  rw [foreignDepth, happend, linkDepthAll_append]
  rfl

theorem foreignDepth_cons (heading : Bool) (n : Node) (ns : List Node) :
    foreignDepth heading (n :: ns) = max (foreignDepth heading [n]) (foreignDepth heading ns) :=
  foreignDepth_append heading [n] ns

theorem foreignDepth_cons_mono (hfirst : foreignDepth heading [n] ≤ foreignDepth heading [m])
    (hrest : foreignDepth heading ns ≤ foreignDepth heading ms) :
    foreignDepth heading (n :: ns) ≤ foreignDepth heading (m :: ms) := by
  rw [foreignDepth_cons, foreignDepth_cons heading m]
  omega

/-- The link that a heading has to itself does not count. -/
theorem foreignDepth_own (h : n.isOwnLink = true) :
    foreignDepth true [n] = foreignDepth n.headingLevel.isSome n.children := by
  rw [foreignDepth, unlinkedAll, unlinkedAll, unlinked_eq, h, if_pos (by rfl), List.append_nil]
  rfl

theorem foreignDepth_counted (heading : Bool) (h : (heading && n.isOwnLink) = false) :
    foreignDepth heading [n] =
      n.linkWeight + foreignDepth n.headingLevel.isSome n.children := by
  rw [foreignDepth, unlinkedAll, unlinkedAll, unlinked_eq, h, if_neg Bool.false_ne_true,
    List.append_nil, linkDepthAll, linkDepthAll, Nat.max_zero, linkDepth_eq]
  rfl

theorem foreignDepth_singleton_le (heading : Bool) (n : Node) : foreignDepth heading [n] ≤
    n.linkWeight + foreignDepth n.headingLevel.isSome n.children := by
  cases hown : heading && n.isOwnLink with
  | true =>
      obtain ⟨rfl, hown⟩ := Bool.and_eq_true_iff.mp hown
      rw [foreignDepth_own hown]
      exact Nat.le_add_left _ _
  | false => exact Nat.le_of_eq (foreignDepth_counted heading hown)

theorem foreignDepth_singleton_mono (hweight : n.linkWeight ≤ m.linkWeight)
    (hown : m.isOwnLink = true → n.isOwnLink = true)
    (hbelow : foreignDepth n.headingLevel.isSome n.children ≤
      foreignDepth m.headingLevel.isSome m.children) (heading : Bool) :
    foreignDepth heading [n] ≤ foreignDepth heading [m] := by
  cases hm : heading && m.isOwnLink with
  | true =>
      obtain ⟨rfl, hm⟩ := Bool.and_eq_true_iff.mp hm
      rw [foreignDepth_own hm, foreignDepth_own (hown hm)]
      exact hbelow
  | false =>
      rw [foreignDepth_counted heading hm]
      exact Nat.le_trans (foreignDepth_singleton_le heading n) (Nat.add_le_add hweight hbelow)

/-- Below a heading there are links that do not count. -/
theorem foreignDepth_le_false (heading : Bool) (ns : List Node) :
    foreignDepth heading ns ≤ foreignDepth false ns := by
  induction ns with
  | nil => exact Nat.le_refl _
  | cons n ns ih =>
      have hfirst : foreignDepth heading [n] ≤ foreignDepth false [n] := by
        rw [foreignDepth_counted false rfl]
        exact foreignDepth_singleton_le heading n
      rw [foreignDepth_cons, foreignDepth_cons false]
      omega

theorem foreignDepth_anti {heading heading' : Bool} (h : heading = true → heading' = true)
    (ns : List Node) : foreignDepth heading' ns ≤ foreignDepth heading ns := by
  cases heading with
  | true => exact Nat.le_of_eq (by rw [h rfl])
  | false => exact foreignDepth_le_false heading' ns

theorem foreignDepth_le_linkDepthAll (ns : List Node) :
    ∀ heading, foreignDepth heading ns ≤ linkDepthAll ns := by
  refine siblings_induction (P := fun ns ↦ ∀ heading, foreignDepth heading ns ≤ linkDepthAll ns)
    (fun ns ih heading ↦ ?_) ns
  induction ns with
  | nil => exact Nat.le_refl _
  | cons n ns hrest =>
      have hfirst := foreignDepth_singleton_le heading n
      have hbelow := ih n List.mem_cons_self n.headingLevel.isSome
      have hrest := hrest fun k hk ↦ ih k (List.mem_cons_of_mem n hk)
      rw [foreignDepth_cons, linkDepthAll, linkDepth_eq]
      omega

theorem foreignDepth_mergeText_le (heading : Bool) (ns : List Node) :
    foreignDepth heading (mergeText ns) ≤ foreignDepth heading ns := by
  induction ns with
  | nil => exact Nat.le_refl _
  | cons n ns ih =>
      have htext (s : String) : foreignDepth heading [ofText s] = 0 :=
        foreignDepth_counted heading (by simp [isOwnLink, isElement, ofText])
      have hcons := foreignDepth_cons heading n ns
      rw [mergeText]
      split
      · split
        · omega
        · split
          · omega
          · rename_i m more hmore
            rw [hmore, foreignDepth_cons heading m more] at ih
            split
            · rw [foreignDepth_cons, htext]
              omega
            · rw [foreignDepth_cons, foreignDepth_cons heading m more]
              omega
      · rw [foreignDepth_cons]
        omega

theorem linkDepth_withoutOwnLinks (n : Node) :
    n.withoutOwnLinks.linkDepth = foreignDepth false [n] := by
  rw [foreignDepth_counted false rfl, linkDepth_eq]
  rfl

end ForeignDepth

end SafeMarkdown.Node
