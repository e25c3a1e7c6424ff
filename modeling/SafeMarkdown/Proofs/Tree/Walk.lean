import Mathlib.Data.List.Perm.Basic
import Mathlib.Data.List.Perm.Subperm
import SafeMarkdown.Tree.Node

/-!
# Nodes of a tree

What holds of all nodes of a tree, and where the nodes that carry the level of a heading come from
when a tree is changed. A change may lose such nodes and reorder them, but it neither makes nor
repeats any: each comes from a node of its own in the tree before.
-/

namespace SafeMarkdown

namespace Node

theorem walk_mk (kind : NodeKind) (tag : Option String) (attrs : Fields) (children : List Node)
    (value : Option String) (data : Fields) :
    walk ⟨kind, tag, attrs, children, value, data⟩ =
      ⟨kind, tag, attrs, children, value, data⟩ :: walk.walkAll children := by
  rw [walk]

theorem mem_walkAll {m : Node} {ns : List Node} : m ∈ walk.walkAll ns ↔ ∃ n ∈ ns, m ∈ n.walk := by
  induction ns with
  | nil => simp [walk.walkAll]
  | cons n ns ih => simp [walk.walkAll, ih]

theorem mem_walk {m n : Node} : m ∈ n.walk ↔ m = n ∨ ∃ c ∈ n.children, m ∈ c.walk := by
  obtain ⟨kind, tag, attrs, children, value, data⟩ := n
  rw [walk_mk, List.mem_cons, mem_walkAll]

theorem walkAll_append (ns ms : List Node) :
    walk.walkAll (ns ++ ms) = walk.walkAll ns ++ walk.walkAll ms := by
  induction ns with
  | nil => rfl
  | cons n ns ih => simp [walk.walkAll, ih]

/-- Something holds of all lists of siblings if it holds of those below each of which it holds. -/
theorem siblings_induction {P : List Node → Prop} (step : ∀ ns, (∀ n ∈ ns, P n.children) → P ns)
    (ns : List Node) : P ns :=
  step ns fun n _ ↦ siblings_induction step n.children
termination_by sizeOf ns
decreasing_by
  rename_i hn
  obtain ⟨kind, tag, attrs, children, value, data⟩ := n
  have hlt := List.sizeOf_lt_of_mem hn
  simp only [Node.mk.sizeOf_spec] at hlt ⊢
  omega

/-- Joining texts adds no node but texts. -/
theorem mem_mergeText {m : Node} {ns : List Node} (h : m ∈ mergeText ns) :
    m ∈ ns ∨ ∃ s, m = ofText s := by
  induction ns with
  | nil => simp [mergeText] at h
  | cons n ns ih =>
      have hrest (h : m ∈ mergeText ns) : m ∈ n :: ns ∨ ∃ s, m = ofText s :=
        (ih h).imp_left (List.mem_cons_of_mem n)
      have hfirst (h : m ∈ n :: mergeText ns) : m ∈ n :: ns ∨ ∃ s, m = ofText s := by
        rcases List.mem_cons.mp h with rfl | h
        · exact .inl List.mem_cons_self
        · exact hrest h
      rw [mergeText] at h
      split at h
      · split at h
        · exact hrest h
        · split at h
          · rw [List.mem_singleton.mp h]
            exact .inl List.mem_cons_self
          · rename_i k more hmore
            rw [hmore] at hrest hfirst
            split at h
            · rcases List.mem_cons.mp h with rfl | h
              · exact .inr ⟨_, rfl⟩
              · exact hrest (List.mem_cons_of_mem k h)
            · exact hfirst h
      · exact hfirst h

section All

variable {P : Node → Prop}

/-- Whether something holds of all nodes of a tree. -/
def All (P : Node → Prop) (n : Node) : Prop :=
  ∀ m ∈ n.walk, P m

instance [DecidablePred P] (n : Node) : Decidable (n.All P) :=
  inferInstanceAs (Decidable (∀ m ∈ n.walk, P m))

theorem all_iff {n : Node} : n.All P ↔ P n ∧ ∀ c ∈ n.children, c.All P := by
  obtain ⟨kind, tag, attrs, children, value, data⟩ := n
  unfold All
  rw [walk_mk]
  simp only [List.mem_cons, forall_eq_or_imp, mem_walkAll]
  constructor
  · intro h
    exact ⟨h.1, fun c hc m hm ↦ h.2 m ⟨c, hc, hm⟩⟩
  · intro h
    refine ⟨h.1, ?_⟩
    rintro m ⟨c, hc, hm⟩
    exact h.2 c hc m hm

theorem all_mergeText {ns : List Node} (h : ∀ n ∈ ns, n.All P) (htext : ∀ s, P (ofText s)) :
    ∀ n ∈ mergeText ns, n.All P := by
  intro n hn
  rcases mem_mergeText hn with hn | ⟨s, rfl⟩
  · exact h n hn
  · exact all_iff.mpr ⟨htext s, List.forall_mem_nil _⟩

end All

/-- Whether a node carries the level of a heading. -/
def isMarked (n : Node) : Bool :=
  Fields.has n.data "level"

/-- The nodes of a tree that carry the level of a heading, in document order. -/
def marked (n : Node) : List Node :=
  n.walk.filter isMarked

def markedAll (ns : List Node) : List Node :=
  (walk.walkAll ns).filter isMarked

theorem markedAll_nil : markedAll [] = [] := rfl

theorem markedAll_cons (n : Node) (ns : List Node) :
    markedAll (n :: ns) = n.marked ++ markedAll ns := by
  rw [markedAll, walk.walkAll, List.filter_append]
  rfl

theorem markedAll_singleton (n : Node) : markedAll [n] = n.marked := by
  rw [markedAll_cons, markedAll_nil, List.append_nil]

theorem markedAll_append (ns ms : List Node) :
    markedAll (ns ++ ms) = markedAll ns ++ markedAll ms := by
  rw [markedAll, walkAll_append, List.filter_append]
  rfl

theorem marked_of_isMarked {n : Node} (h : n.isMarked = true) :
    n.marked = n :: markedAll n.children := by
  obtain ⟨kind, tag, attrs, children, value, data⟩ := n
  rw [marked, walk_mk, List.filter_cons, if_pos h]
  rfl

theorem marked_of_not_isMarked {n : Node} (h : n.isMarked = false) :
    n.marked = markedAll n.children := by
  obtain ⟨kind, tag, attrs, children, value, data⟩ := n
  rw [marked, walk_mk, List.filter_cons, h]
  rfl

theorem markedAll_children_sublist (n : Node) : (markedAll n.children).Sublist n.marked := by
  cases h : n.isMarked with
  | true =>
      rw [marked_of_isMarked h]
      exact List.sublist_cons_self _ _
  | false =>
      rw [marked_of_not_isMarked h]

theorem All.of_mem_marked {P : Node → Prop} {m n : Node} (h : n.All P) (hm : m ∈ n.marked) : P m :=
  h m (List.mem_filter.mp hm).1

theorem marked_ofText (s : String) : (ofText s).marked = [] := by
  rw [marked_of_not_isMarked rfl]
  rfl

/-- Joining texts loses the nodes below the texts that are joined. -/
theorem markedAll_mergeText_sublist (ns : List Node) :
    (markedAll (mergeText ns)).Sublist (markedAll ns) := by
  induction ns with
  | nil => exact List.Sublist.refl _
  | cons n ns ih =>
      have hkeep : (markedAll (n :: mergeText ns)).Sublist (markedAll (n :: ns)) := by
        rw [markedAll_cons, markedAll_cons]
        exact (List.Sublist.refl _).append ih
      have hdrop : (markedAll (mergeText ns)).Sublist (markedAll (n :: ns)) := by
        rw [markedAll_cons]
        exact ih.trans (List.sublist_append_right _ _)
      rw [mergeText]
      split
      · split
        · exact hdrop
        · split
          · rename_i hnil
            rwa [hnil] at hkeep
          · rename_i m more hmore
            rw [hmore] at hkeep hdrop
            split
            · refine List.Sublist.trans ?_ hdrop
              rw [markedAll_cons, markedAll_cons, marked_ofText, List.nil_append]
              exact List.sublist_append_right _ _
            · exact hkeep
      · exact hkeep

theorem markedAll_perm {ns ms : List Node} (h : ns.Perm ms) :
    (markedAll ns).Perm (markedAll ms) := by
  induction h with
  | nil => exact List.Perm.refl _
  | cons n _ ih =>
      rw [markedAll_cons, markedAll_cons]
      exact ih.append_left _
  | swap n m ns =>
      rw [markedAll_cons, markedAll_cons, markedAll_cons, markedAll_cons, ← List.append_assoc,
        ← List.append_assoc]
      exact List.perm_append_comm.append_right _
  | trans _ _ ih ih' => exact ih.trans ih'

theorem markedAll_sublist {ns ms : List Node} (h : ns.Sublist ms) :
    (markedAll ns).Sublist (markedAll ms) := by
  induction h with
  | slnil => exact List.Sublist.refl _
  | cons n _ ih =>
      rw [markedAll_cons]
      exact ih.trans (List.sublist_append_right _ _)
  | cons_cons n _ ih =>
      rw [markedAll_cons, markedAll_cons]
      exact (List.Sublist.refl _).append ih

theorem markedAll_subperm {ns ms : List Node} (h : ns.Subperm ms) :
    (markedAll ns).Subperm (markedAll ms) := by
  obtain ⟨kept, hperm, hsub⟩ := h
  exact ⟨markedAll kept, markedAll_perm hperm, markedAll_sublist hsub⟩

end Node

section Forall₂

variable {α β γ : Type} {R : α → β → Prop} {as : List α} {bs : List β}

theorem exists_forall₂_of_sublist {cs : List β} (h : List.Forall₂ R as bs) (hcs : cs.Sublist bs) :
    ∃ ds, ds.Sublist as ∧ List.Forall₂ R ds cs := by
  induction hcs generalizing as with
  | slnil =>
      cases h
      exact ⟨[], List.Sublist.refl _, .nil⟩
  | cons b _ ih =>
      cases h with
      | cons hb h =>
          obtain ⟨ds, hds, hforall⟩ := ih h
          exact ⟨ds, hds.cons _, hforall⟩
  | cons_cons b _ ih =>
      cases h with
      | cons hb h =>
          obtain ⟨ds, hds, hforall⟩ := ih h
          exact ⟨_ :: ds, hds.cons_cons _, .cons hb hforall⟩

theorem exists_forall₂_of_subperm {cs : List β} (h : List.Forall₂ R as bs) (hcs : cs.Subperm bs) :
    ∃ ds, ds.Subperm as ∧ List.Forall₂ R ds cs := by
  obtain ⟨kept, hperm, hkept⟩ := hcs
  obtain ⟨ds, hds, hforall⟩ := exists_forall₂_of_sublist h hkept
  obtain ⟨es, hes, hperm'⟩ := List.perm_comp_forall₂ hperm.symm hforall.flip
  exact ⟨es, hperm'.subperm.trans hds.subperm, hes.flip⟩

theorem forall₂_comp {S : β → γ → Prop} {cs : List γ} (h : List.Forall₂ R as bs)
    (h' : List.Forall₂ S bs cs) : List.Forall₂ (fun a c ↦ ∃ b, R a b ∧ S b c) as cs := by
  induction h generalizing cs with
  | nil =>
      cases h'
      exact .nil
  | cons hR _ ih =>
      cases h' with
      | cons hS h' => exact .cons ⟨_, hR, hS⟩ (ih h')

theorem filterMap_eq_of_forall₂ {f : α → Option γ} {g : β → Option γ} (h : List.Forall₂ R as bs)
    (hfg : ∀ a b, R a b → g b = f a) : bs.filterMap g = as.filterMap f := by
  induction h with
  | nil => rfl
  | cons hR _ ih => rw [List.filterMap_cons, List.filterMap_cons, hfg _ _ hR, ih]

end Forall₂

/-- The marked nodes of some trees come, one by one, from different marked nodes of others. -/
def Descends (R : Node → Node → Prop) (before after : List Node) : Prop :=
  ∃ sources, sources.Subperm (Node.markedAll before) ∧
    List.Forall₂ R sources (Node.markedAll after)

namespace Descends

variable {R S : Node → Node → Prop} {before before' after after' : List Node} {n m : Node}

theorem of_markedAll_eq_nil (h : Node.markedAll after = []) : Descends R before after :=
  ⟨[], List.nil_subperm, by rw [h]; exact .nil⟩

theorem refl (hR : ∀ n, R n n) (ns : List Node) : Descends R ns ns :=
  ⟨_, List.Subperm.refl _, List.forall₂_same.mpr fun n _ ↦ hR n⟩

theorem append (h : Descends R before after) (h' : Descends R before' after') :
    Descends R (before ++ before') (after ++ after') := by
  obtain ⟨sources, hsub, hall⟩ := h
  obtain ⟨sources', hsub', hall'⟩ := h'
  refine ⟨sources ++ sources', ?_, ?_⟩
  · rw [Node.markedAll_append]
    exact hsub.append hsub'
  · rw [Node.markedAll_append]
    exact List.rel_append hall hall'

theorem mono (h : Descends R before after) (hRS : ∀ n m, R n m → S n m) :
    Descends S before after := by
  obtain ⟨sources, hsub, hall⟩ := h
  exact ⟨sources, hsub, hall.imp hRS⟩

theorem select (h : Descends R before after)
    (hafter : (Node.markedAll after').Subperm (Node.markedAll after)) :
    Descends R before after' := by
  obtain ⟨sources, hsub, hall⟩ := h
  obtain ⟨sources', hsub', hall'⟩ := exists_forall₂_of_subperm hall hafter
  exact ⟨sources', hsub'.trans hsub, hall'⟩

theorem mergeText (h : Descends R before after) : Descends R before (Node.mergeText after) :=
  h.select (Node.markedAll_mergeText_sublist after).subperm

/-- A node that gives way to what becomes of its children. -/
theorem below (h : Descends R n.children after) : Descends R [n] after := by
  obtain ⟨sources, hsub, hall⟩ := h
  refine ⟨sources, hsub.trans ?_, hall⟩
  rw [Node.markedAll_singleton]
  exact (Node.markedAll_children_sublist n).subperm

/-- A node of its own that is put around what becomes of others. -/
theorem around (hm : m.isMarked = false) (h : Descends R before m.children) :
    Descends R before [m] := by
  refine h.select (List.Sublist.subperm ?_)
  rw [Node.markedAll_singleton, Node.marked_of_not_isMarked hm]

/-- A node that stays with what becomes of its children. -/
theorem node (hself : m.isMarked = true → n.isMarked = true ∧ R n m)
    (h : Descends R n.children m.children) : Descends R [n] [m] := by
  cases hm : m.isMarked with
  | true =>
      obtain ⟨hn, hR⟩ := hself hm
      obtain ⟨sources, hsub, hall⟩ := h
      refine ⟨n :: sources, ?_, ?_⟩
      · rw [Node.markedAll_singleton, Node.marked_of_isMarked hn]
        exact List.subperm_cons n |>.mpr hsub
      · rw [Node.markedAll_singleton, Node.marked_of_isMarked hm]
        exact .cons hR hall
  | false => exact (below h).around hm

theorem trans {mid : List Node} (h : Descends R before mid) (h' : Descends S mid after) :
    Descends (fun n k ↦ ∃ m, R n m ∧ S m k) before after := by
  obtain ⟨sources, hsub, hall⟩ := h
  obtain ⟨sources', hsub', hall'⟩ := h'
  obtain ⟨first, hfirst, hforall⟩ := exists_forall₂_of_subperm hall hsub'
  exact ⟨first, hfirst.trans hsub, forall₂_comp hforall hall'⟩

theorem of_mem {P : Node → Prop} (h : Descends R before after)
    (hbefore : ∀ n ∈ Node.markedAll before, P n) :
    Descends (fun n m ↦ P n ∧ R n m) before after := by
  obtain ⟨sources, hsub, hall⟩ := h
  refine ⟨sources, hsub, (List.forall₂_and_left _ _).mpr ⟨fun n hn ↦ ?_, hall⟩⟩
  exact hbefore n (hsub.subset hn)

theorem forall_mem {P : Node → Prop} (h : Descends R before after) (hP : ∀ n m, R n m → P m) :
    ∀ m ∈ Node.markedAll after, P m := by
  obtain ⟨sources, -, hall⟩ := h
  have hboth : List.Forall₂ (fun m n ↦ P m ∧ R n m) (Node.markedAll after) sources :=
    (hall.imp fun n m hR ↦ ⟨hP n m hR, hR⟩).flip
  exact ((List.forall₂_and_left _ _).mp hboth).1

/-- What is the same for each marked node and the node that it comes from repeats no more among the
marked nodes after than among those before. -/
theorem filterMap_subperm {α : Type} {f : Node → Option α} (h : Descends R before after)
    (hf : ∀ n m, R n m → f m = f n) :
    ((Node.markedAll after).filterMap f).Subperm ((Node.markedAll before).filterMap f) := by
  obtain ⟨sources, ⟨kept, hperm, hsublist⟩, hall⟩ := h
  rw [filterMap_eq_of_forall₂ hall hf]
  exact ⟨kept.filterMap f, hperm.filterMap f, hsublist.filterMap f⟩

end Descends

end SafeMarkdown
