import Mathlib.Data.List.Forall2
import SafeMarkdown.Gfm.Enrich
import SafeMarkdown.Proofs.Returns

/-!
# What enriching changes

Marking tasks leaves every node in its place and changes few of them: a text loses its checkbox,
which gets a place of its own, and lists and their items get classes. Linking URLs puts the pieces
of a text in its place. What either pass keeps is therefore a question about these changes; the walk
through the tree is gone through here, and a fact about a pass is an induction along it.
-/

namespace SafeMarkdown.Gfm

open Node

variable {n m : Node} {ns ms : List Node} {depth : Nat}

theorem exists_of_addClasses {names : List String} (h : n.addClasses names = .ok m) :
    ∃ attrs, m = { n with attrs } := by
  obtain ⟨classes, -, h⟩ := bind_eq_ok.mp h
  cases h
  exact ⟨_, rfl⟩

section Tasks

/-- Siblings that start with a checkbox start with a text, and the checkbox comes to stand in front
of what is left of it. -/
theorem exists_of_withCheckbox? (h : withCheckbox? ns = some ms) : ∃ n rest checked after,
    ns = n :: rest ∧ n.isText = true ∧ checkbox? n.text = some (checked, after) ∧
      ms = checkboxNode checked :: { n with value := some after } :: rest := by
  unfold withCheckbox? at h
  split at h
  · cases h
  · rename_i n rest
    split at h
    · rename_i htext
      obtain ⟨⟨checked, after⟩, hcheckbox, rfl⟩ := Option.map_eq_some_iff.mp h
      exact ⟨n, rest, checked, after, rfl, htext, hcheckbox, rfl⟩
    · cases h

/-- The checkbox of a task is set in its first paragraph or at its own start. -/
theorem taskChildren?_cases (h : taskChildren? ns = some ms) :
    (∃ first rest inner, ns = first :: rest ∧ first.isElement ["p"] = true ∧
      withCheckbox? first.children = some inner ∧ ms = { first with children := inner } :: rest) ∨
    withCheckbox? ns = some ms := by
  unfold taskChildren? at h
  split at h
  · cases h
  · rename_i first rest
    split at h
    · rename_i hparagraph
      obtain ⟨inner, hinner, rfl⟩ := Option.map_eq_some_iff.mp h
      exact .inl ⟨first, rest, inner, rfl, hparagraph, hinner, rfl⟩
    · exact .inr h

theorem task?_eq_some (h : task? n = .ok (some m)) : ∃ children,
    taskChildren? n.children = some children ∧
      { n with children }.addClasses ["task-list-item"] = .ok m := by
  unfold task? at h
  split at h
  · cases h
  · rename_i children hchildren
    obtain ⟨task, htask, heq⟩ := map_eq_ok.mp h
    cases heq
    exact ⟨children, hchildren, htask⟩

theorem taskChildren?_of_task? (h : task? n = .ok none) : taskChildren? n.children = none := by
  unfold task? at h
  split at h
  · assumption
  · obtain ⟨task, -, heq⟩ := map_eq_ok.mp h
    cases heq

/-- A marked item is the item with other children and classes. -/
theorem exists_of_task? (h : task? n = .ok (some m)) : ∃ attrs children,
    taskChildren? n.children = some children ∧ m = { n with attrs, children } := by
  obtain ⟨children, hchildren, hclasses⟩ := task?_eq_some h
  obtain ⟨attrs, rfl⟩ := exists_of_addClasses hclasses
  exact ⟨attrs, children, hchildren, rfl⟩

theorem markItems_cons (n : Node) (ns : List Node) : markItems (n :: ns) =
    (if n.tag == some "li" then task? n else .ok none) >>= fun task ↦ markItems ns >>= fun r ↦
      match task with
      | some m => .ok (m :: r.1, true)
      | none => .ok (n :: r.1, r.2) := by
  rw [markItems]
  dsimp only
  split <;> rfl

/-- What marking makes of each of some siblings: an item becomes a task, or the node is no item with
a task and stays. -/
theorem forall₂_markItems {found : Bool} (h : markItems ns = .ok (ms, found)) :
    List.Forall₂ (fun n m ↦ n.tag = some "li" ∧ task? n = .ok (some m) ∨
      m = n ∧ (n.tag = some "li" → taskChildren? n.children = none)) ns ms := by
  induction ns generalizing ms found with
  | nil =>
      cases h
      exact .nil
  | cons n ns ih =>
      rw [markItems_cons] at h
      obtain ⟨task, htask, h⟩ := bind_eq_ok.mp h
      obtain ⟨⟨others, any⟩, hothers, h⟩ := bind_eq_ok.mp h
      cases task with
      | some m =>
          cases h
          refine .cons (.inl ?_) (ih hothers)
          split at htask
          · rename_i hitem
            exact ⟨beq_iff_eq.mp hitem, htask⟩
          · cases htask
      | none =>
          cases h
          refine .cons (.inr ⟨rfl, fun htag ↦ ?_⟩) (ih hothers)
          rw [if_pos (beq_iff_eq.mpr htag)] at htask
          exact taskChildren?_of_task? htask

/-- A node with its tasks marked is a list with marked items, of the class of lists with tasks if
there are any, or it is no list and stays. -/
theorem markTasks_cases (h : markTasks n = .ok m) :
    (n.isElement ["ul", "ol"] = true ∧ ∃ children found,
      markItems n.children = .ok (children, found) ∧
      ({ n with children }.addClasses ["contains-task-list"] = .ok m ∨ m = { n with children })) ∨
    (n.isElement ["ul", "ol"] = false ∧ m = n) := by
  unfold markTasks at h
  split at h
  · rename_i hlist
    obtain ⟨⟨children, found⟩, hitems, h⟩ := bind_eq_ok.mp h
    refine .inl ⟨hlist, children, found, hitems, ?_⟩
    dsimp only at h
    split at h
    · exact .inl h
    · cases h
      exact .inr rfl
  · rename_i hlist
    cases h
    exact .inr ⟨Bool.eq_false_iff.mpr hlist, rfl⟩

theorem exists_of_markTasks (h : markTasks n = .ok m) :
    (∃ attrs children found, markItems n.children = .ok (children, found) ∧
      m = { n with attrs, children }) ∨ (n.isElement ["ul", "ol"] = false ∧ m = n) := by
  rcases markTasks_cases h with ⟨-, children, found, hitems, hclasses | rfl⟩ | hother
  · obtain ⟨attrs, rfl⟩ := exists_of_addClasses hclasses
    exact .inl ⟨attrs, children, found, hitems, rfl⟩
  · exact .inl ⟨n.attrs, children, found, hitems, rfl⟩
  · exact .inr hother

theorem taskLists_of_exempt (h : n.isElement exemptTags = true) : taskLists n = .ok n := by
  obtain ⟨kind, tag, attrs, children, value, data⟩ := n
  rw [taskLists]
  exact if_pos h

theorem taskLists_of_not_exempt (h : n.isElement exemptTags = false) : taskLists n =
    taskListsAmong 0 n.children >>= fun children ↦ markTasks { n with children } := by
  obtain ⟨kind, tag, attrs, children, value, data⟩ := n
  rw [taskLists]
  exact if_neg (Bool.eq_false_iff.mp h)

/-- A relation between a node and what marking tasks makes of it, as far as the single changes go: a
node may stay, and one of which the children are related gets its own tasks marked. -/
structure FollowsTasks (R : Node → Node → Prop) : Prop where
  refl (n : Node) : R n n
  mark {n m : Node} {children : List Node} (h : taskLists n = .ok m)
    (hexempt : n.isElement exemptTags = false) (hbelow : List.Forall₂ R n.children children)
    (hmark : markTasks { n with children } = .ok m) : R n m

mutual

theorem FollowsTasks.taskLists {R : Node → Node → Prop} (hR : FollowsTasks R) :
    (n : Node) → {m : Node} → taskLists n = .ok m → R n m
  | ⟨kind, tag, attrs, children, value, data⟩, m, h => by
      have hall := h
      rw [Gfm.taskLists] at h
      split at h
      · cases h
        exact hR.refl _
      · rename_i hexempt
        obtain ⟨nodes, hnodes, h⟩ := bind_eq_ok.mp h
        exact hR.mark hall (Bool.eq_false_iff.mpr hexempt) (hR.taskListsAmong children hnodes) h

theorem FollowsTasks.taskListsAmong {R : Node → Node → Prop} (hR : FollowsTasks R) :
    (ns : List Node) → {depth : Nat} → {ms : List Node} → taskListsAmong depth ns = .ok ms →
    List.Forall₂ R ns ms
  | [], depth, ms, h => by
      cases h
      exact .nil
  | n :: rest, depth, ms, h => by
      rw [Gfm.taskListsAmong] at h
      split at h
      · obtain ⟨others, hothers, rfl⟩ := map_eq_ok.mp h
        exact .cons (hR.refl n) (hR.taskListsAmong rest hothers)
      · split at h
        · obtain ⟨others, hothers, rfl⟩ := map_eq_ok.mp h
          exact .cons (hR.refl n) (hR.taskListsAmong rest hothers)
        · obtain ⟨m, hm, h⟩ := bind_eq_ok.mp h
          obtain ⟨others, hothers, h⟩ := bind_eq_ok.mp h
          cases h
          exact .cons (hR.taskLists n hm) (hR.taskListsAmong rest hothers)

end

theorem kind_taskLists (h : taskLists n = .ok m) : m.kind = n.kind := by
  have hR : FollowsTasks fun n m ↦ m.kind = n.kind := by
    refine ⟨fun _ ↦ rfl, fun _ _ _ hmark ↦ ?_⟩
    rcases exists_of_markTasks hmark with ⟨attrs, children, found, -, rfl⟩ | ⟨-, rfl⟩ <;> rfl
  exact hR.taskLists n h

end Tasks

section Links

/-- Linking changes at most the children of a node. -/
theorem links_eq (n : Node) : links n =
    if n.isElement exemptTags then n else { n with children := linksAmong 0 n.children } := by
  obtain ⟨kind, tag, attrs, children, value, data⟩ := n
  rw [links]
  rfl

theorem links_of_exempt (h : n.isElement exemptTags = true) : links n = n := by
  rw [links_eq, if_pos h]

theorem links_of_not_exempt (h : n.isElement exemptTags = false) :
    links n = { n with children := linksAmong 0 n.children } := by
  rw [links_eq, h, if_neg Bool.false_ne_true]

theorem isRaw_links (n : Node) : (links n).isRaw = n.isRaw := by
  rw [links_eq]
  split <;> rfl

theorem isText_links (n : Node) : (links n).isText = n.isText := by
  rw [links_eq]
  split <;> rfl

theorem tag_links (n : Node) : (links n).tag = n.tag := by
  rw [links_eq]
  split <;> rfl

theorem isElement_links (n : Node) (tags : List String) :
    (links n).isElement tags = n.isElement tags := by
  rw [links_eq]
  split <;> rfl

theorem isRaw_of_isText (h : n.isText = true) : n.isRaw = false := by
  rw [isRaw, beq_iff_eq.mp h]
  rfl

theorem linksAmong_raw (h : n.isRaw = true) (depth : Nat) (ns : List Node) :
    linksAmong depth (n :: ns) = n :: linksAmong (openAfter false depth n.text.toList) ns := by
  rw [linksAmong, if_pos h]

theorem linksAmong_enclosed (hraw : n.isRaw = false) (hdepth : depth ≠ 0) (ns : List Node) :
    linksAmong depth (n :: ns) = n :: linksAmong depth ns := by
  rw [linksAmong, hraw, if_neg Bool.false_ne_true, if_pos (bne_iff_ne.mpr hdepth)]

theorem linksAmong_text (h : n.isText = true) (ns : List Node) :
    linksAmong 0 (n :: ns) = autolink n.text ++ linksAmong 0 ns := by
  rw [linksAmong, isRaw_of_isText h, if_neg Bool.false_ne_true, if_neg (by decide), if_pos h]

theorem linksAmong_node (hraw : n.isRaw = false) (htext : n.isText = false) (ns : List Node) :
    linksAmong 0 (n :: ns) = links n :: linksAmong 0 ns := by
  rw [linksAmong, hraw, if_neg Bool.false_ne_true, if_neg (by decide), htext,
    if_neg Bool.false_ne_true]

/-- A relation between a node and what linking makes of it, as far as the single changes go: a node
may stay, a text becomes its pieces, and one of which the children are related has these below
it. -/
structure FollowsLinks (R : Node → List Node → Prop) : Prop where
  refl (n : Node) : R n [n]
  text {n : Node} (htext : n.isText = true) : R n (autolink n.text)
  node {n : Node} {parts : List (List Node)} (hexempt : n.isElement exemptTags = false)
    (hbelow : List.Forall₂ R n.children parts)
    (h : links n = { n with children := parts.flatten }) : R n [links n]

mutual

theorem FollowsLinks.links {R : Node → List Node → Prop} (hR : FollowsLinks R) :
    (n : Node) → R n [links n]
  | ⟨kind, tag, attrs, children, value, data⟩ => by
      obtain ⟨parts, hparts, hbelow⟩ := hR.linksAmong children 0
      cases hexempt : isElement ⟨kind, tag, attrs, children, value, data⟩ exemptTags with
      | true =>
          rw [links_of_exempt hexempt]
          exact hR.refl _
      | false =>
          refine hR.node hexempt hbelow ?_
          rw [links_of_not_exempt hexempt, hparts]

theorem FollowsLinks.linksAmong {R : Node → List Node → Prop} (hR : FollowsLinks R) :
    (ns : List Node) → (depth : Nat) →
    ∃ parts, linksAmong depth ns = parts.flatten ∧ List.Forall₂ R ns parts
  | [], depth => ⟨[], by rw [Gfm.linksAmong]; rfl, .nil⟩
  | n :: rest, depth => by
      have hcons {part : List Node} {depth' : Nat} (hpart : R n part)
          (h : Gfm.linksAmong depth (n :: rest) = part ++ Gfm.linksAmong depth' rest) :
          ∃ parts, Gfm.linksAmong depth (n :: rest) = parts.flatten ∧
            List.Forall₂ R (n :: rest) parts := by
        obtain ⟨parts, hparts, hall⟩ := hR.linksAmong rest depth'
        refine ⟨part :: parts, ?_, .cons hpart hall⟩
        rw [h, hparts, List.flatten_cons]
      cases hraw : n.isRaw with
      | true => exact hcons (hR.refl n) (linksAmong_raw hraw depth rest)
      | false =>
          by_cases hdepth : depth = 0
          · subst hdepth
            cases htext : n.isText with
            | true => exact hcons (hR.text htext) (linksAmong_text htext rest)
            | false => exact hcons (hR.links n) (linksAmong_node hraw htext rest)
          · exact hcons (hR.refl n) (linksAmong_enclosed hraw hdepth rest)

end

end Links

end SafeMarkdown.Gfm
