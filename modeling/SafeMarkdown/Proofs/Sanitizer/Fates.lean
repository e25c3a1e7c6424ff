import SafeMarkdown.Proofs.Sanitizer.Resolved
import SafeMarkdown.Proofs.Tree.Joined

/-!
# The fates of nodes

A schema decides for each node of a tree without raw markup whether it stays, gives way to its
children, or is dropped with all that is below it. The log of a filter run tells which nodes were
dropped and which gave way, and what the others lost.
-/

namespace SafeMarkdown

namespace Node

/-- What the name of an attribute counts as: for an element, its letter case does not matter. -/
def attributeKey (n : Node) (name : String) : String :=
  if n.kind = .element then Text.lowercase name else name

/-- Whether no two attributes of a node have names that count as the same. As an object has each
name once, only the letter case of an element's attributes matters. -/
def HasDistinctNames (n : Node) : Prop :=
  (n.attrs.map fun f ↦ n.attributeKey f.1).Nodup

instance (n : Node) : Decidable n.HasDistinctNames :=
  List.nodupDecidable _

end Node

namespace Sanitizer

open Node

/-- What becomes of a node. -/
inductive Fate where
  | stays
  | givesWay
  | dropped
  deriving DecidableEq, Repr

/-- An element stays if its tag is allowed. Otherwise it is dropped if its tag is unsafe or one of
its attributes handles events, and else gives way. A component is dropped if its name is an unsafe
tag. -/
def fate (s : Schema) (n : Node) : Fate :=
  match n.kind with
  | .element =>
    if s.allowsTag (Text.lowercase n.tagName) then .stays
    else if unsafeTags.contains (Text.lowercase n.tagName) ||
        n.attrs.any fun f ↦ Schema.isEventHandler f.1 then .dropped
    else .givesWay
  | .component => if unsafeTags.contains (Text.lowercase n.tagName) then .dropped else .stays
  | _ => .stays

mutual

/-- A tree without the nodes below its top that are dropped and all that is below them. -/
def cut (s : Schema) : Node → Node
  | ⟨kind, tag, attrs, children, value, data⟩ =>
    ⟨kind, tag, attrs, cutAll s children, value, data⟩

def cutAll (s : Schema) : List Node → List Node
  | [] => []
  | n :: rest => if fate s n = .dropped then cutAll s rest else cut s n :: cutAll s rest

end

mutual

/-- The topmost nodes that are dropped from a tree. -/
def dropped (s : Schema) : Node → List Node
  | ⟨kind, tag, attrs, children, value, data⟩ =>
    if fate s ⟨kind, tag, attrs, children, value, data⟩ = .dropped then
      [⟨kind, tag, attrs, children, value, data⟩]
    else droppedAll s children

def droppedAll (s : Schema) : List Node → List Node
  | [] => []
  | n :: rest => dropped s n ++ droppedAll s rest

end

/-- The nodes outside of all that is dropped that give way to their children. -/
def unwrapped (s : Schema) (ns : List Node) : List Node :=
  (walk.walkAll (cutAll s ns)).filter fun n ↦ fate s n = .givesWay

/-- The fate of the node that a mark belongs to; a letter stays. -/
def markFate (s : Schema) : Mark → Fate
  | .letter _ => .stays
  | .opens n => fate s n
  | .closes n => fate s n

/-- The marks of what stays: those outside of all that is dropped, but for the two ends of the nodes
that give way. -/
def leftover (s : Schema) (ns : List Node) : List Mark :=
  (marksAll (cutAll s ns)).filter fun m ↦ markFate s m = .stays

def dropRecord (n : Node) : Removal :=
  .drop (if n.kind = .element then some (Text.lowercase n.tagName) else n.tag)

def unwrapRecord (n : Node) : Removal :=
  .unwrap (Text.lowercase n.tagName)

/-- What filtering leaves of a node that stays, but for its children. -/
def filtered (s : Schema) (n : Node) : Node :=
  match n.kind with
  | .element =>
    { n with
      tag := some (Text.lowercase n.tagName)
      attrs := (filterAttributes s (Text.lowercase n.tagName) n.attrs).1 }
  | .component => { n with attrs := (filterComponentAttributes n.tag n.attrs).1 }
  | _ => n

/-- What filtering takes from a node that stays. -/
def refused (s : Schema) (n : Node) : List Removal :=
  match n.kind with
  | .element => (filterAttributes s (Text.lowercase n.tagName) n.attrs).2
  | .component => (filterComponentAttributes n.tag n.attrs).2
  | _ => []

variable {s : Schema} {n : Node} {ns : List Node}

section Filter

theorem kind_filtered (n : Node) : (filtered s n).kind = n.kind := by
  unfold filtered
  split <;> rfl

theorem head_filtered (n : Node) : (filtered s n).head = filtered s n.head := by
  obtain ⟨kind, tag, attrs, children, value, data⟩ := n
  cases kind <;> rfl

theorem filterNode_of_isText (h : n.isText = true) : filterNode s n = ([n], []) := by
  obtain ⟨kind, tag, attrs, children, value, data⟩ := n
  obtain rfl : kind = .text := kind_of_isText h
  rw [filterNode]

theorem filterNode_of_dropped (h : fate s n = .dropped) :
    filterNode s n = ([], [dropRecord n]) := by
  obtain ⟨kind, tag, attrs, children, value, data⟩ := n
  unfold fate at h
  cases kind with
  | element =>
      dsimp only at h
      split at h
      · cases h
      · rename_i hallowed
        split at h
        · rename_i hunsafe
          rw [filterNode]
          exact (if_neg hallowed).trans (if_pos hunsafe)
        · cases h
  | component =>
      dsimp only at h
      split at h
      · rename_i hunsafe
        rw [filterNode]
        exact if_pos hunsafe
      · cases h
  | _ => cases h

theorem filterNode_of_givesWay (h : fate s n = .givesWay) : filterNode s n =
    (mergeText (filterAll s n.children).1, unwrapRecord n :: (filterAll s n.children).2) := by
  obtain ⟨kind, tag, attrs, children, value, data⟩ := n
  unfold fate at h
  cases kind with
  | element =>
      dsimp only at h
      split at h
      · cases h
      · rename_i hallowed
        split at h
        · cases h
        · rename_i hsafe
          rw [filterNode]
          exact (if_neg hallowed).trans (if_neg hsafe)
  | component =>
      dsimp only at h
      split at h <;> cases h
  | _ => cases h

theorem filterNode_of_stays (h : fate s n = .stays) (htext : n.isText = false)
    (hraw : n.kind ≠ .raw) : filterNode s n =
      ([{ filtered s n with children := mergeText (filterAll s n.children).1 }],
        refused s n ++ (filterAll s n.children).2) := by
  obtain ⟨kind, tag, attrs, children, value, data⟩ := n
  unfold fate at h
  cases kind with
  | element =>
      dsimp only at h
      split at h
      · rename_i hallowed
        rw [filterNode]
        exact if_pos hallowed
      · split at h <;> cases h
  | component =>
      dsimp only at h
      split at h
      · cases h
      · rename_i hsafe
        rw [filterNode]
        exact if_neg hsafe
  | root =>
      rw [filterNode]
      rfl
  | text => cases htext
  | raw => exact (hraw rfl).elim

end Filter

section Cut

@[simp] theorem fate_cut (n : Node) : fate s (cut s n) = fate s n := by
  obtain ⟨kind, tag, attrs, children, value, data⟩ := n
  rfl

theorem cut_eq (n : Node) : cut s n = { n with children := cutAll s n.children } := by
  obtain ⟨kind, tag, attrs, children, value, data⟩ := n
  rfl

theorem cutAll_singleton (h : fate s n ≠ .dropped) : cutAll s [n] = [cut s n] := by
  simp [cutAll, h]

theorem cutAll_cons (n : Node) (ns : List Node) :
    cutAll s (n :: ns) = cutAll s [n] ++ cutAll s ns := by
  by_cases h : fate s n = .dropped <;> simp [cutAll, h]

theorem unwrapped_cons (n : Node) (ns : List Node) :
    unwrapped s (n :: ns) = unwrapped s [n] ++ unwrapped s ns := by
  rw [unwrapped, cutAll_cons, walkAll_append, List.filter_append]
  rfl

theorem leftover_cons (n : Node) (ns : List Node) :
    leftover s (n :: ns) = leftover s [n] ++ leftover s ns := by
  rw [leftover, cutAll_cons, marksAll_append, List.filter_append]
  rfl

theorem dropped_eq (n : Node) :
    dropped s n = if fate s n = .dropped then [n] else droppedAll s n.children := by
  obtain ⟨kind, tag, attrs, children, value, data⟩ := n
  rw [dropped]

theorem unwrapped_singleton (h : fate s n ≠ .dropped) : unwrapped s [n] =
    (if fate s n = .givesWay then [cut s n] else []) ++ unwrapped s n.children := by
  have hnodes : walk.walkAll (cutAll s [n]) = cut s n :: walk.walkAll (cutAll s n.children) := by
    rw [cutAll_singleton h, cut_eq]
    simp [walk.walkAll, walk_mk]
  rw [unwrapped, hnodes, List.filter_cons]
  by_cases hgives : fate s n = .givesWay
  · simp [hgives, unwrapped]
  · simp [hgives, unwrapped]

theorem leftover_singleton_of_isText (h : n.isText = true) :
    leftover s [n] = n.text.toList.map .letter := by
  have hkind : n.kind = .text := kind_of_isText h
  have hfate : fate s n ≠ .dropped := by simp [fate, hkind]
  have hmarks : marksAll (cutAll s [n]) = n.text.toList.map .letter := by
    rw [cutAll_singleton hfate, cut_eq, marksAll_singleton]
    exact marks_of_isText h
  rw [leftover, hmarks, List.filter_eq_self]
  intro m hm
  obtain ⟨c, -, rfl⟩ := List.mem_map.mp hm
  rfl

theorem leftover_singleton (h : fate s n ≠ .dropped) (htext : n.isText = false) :
    leftover s [n] = if fate s n = .givesWay then leftover s n.children
      else .opens n.head :: (leftover s n.children ++ [.closes n.head]) := by
  have hmarks : marksAll (cutAll s [n]) =
      .opens n.head :: (marksAll (cutAll s n.children) ++ [.closes n.head]) := by
    rw [cutAll_singleton h, cut_eq, marksAll_singleton]
    exact marks_of_not_isText htext
  have hfate : fate s n.head = fate s n := rfl
  rw [leftover, hmarks, List.filter_cons, List.filter_append]
  by_cases hgives : fate s n = .givesWay
  · simp [markFate, hfate, hgives, leftover]
  · have hstays : fate s n = .stays := by
      cases hfate : fate s n with
      | stays => rfl
      | givesWay => exact (hgives hfate).elim
      | dropped => exact (h hfate).elim
    simp [markFate, hfate, hstays, leftover]

end Cut

section All

variable {P : Node → Prop}

mutual

/-- What holds of all texts, and of what is left of each node that stays, holds after filtering. -/
theorem all_filterNode (htext : ∀ t, P (ofText t))
    (hstays : ∀ n, P n → n.isText = false → ∀ children, P { filtered s n with children }) :
    (n : Node) → Rawless n → n.All P → ∀ m ∈ (filterNode s n).1, m.All P
  | ⟨kind, tag, attrs, children, value, data⟩, hraw, hn => by
      rw [Rawless, all_iff] at hraw
      have hbelow := all_mergeText
        (all_filterAll htext hstays children hraw.2 (all_iff.mp hn).2) htext
      cases h : isText ⟨kind, tag, attrs, children, value, data⟩ with
      | true =>
          rw [filterNode_of_isText h]
          exact List.forall_mem_singleton.mpr hn
      | false =>
          cases hfate : fate s ⟨kind, tag, attrs, children, value, data⟩ with
          | dropped =>
              rw [filterNode_of_dropped hfate]
              exact List.forall_mem_nil _
          | givesWay =>
              rw [filterNode_of_givesWay hfate]
              exact hbelow
          | stays =>
              rw [filterNode_of_stays hfate h hraw.1]
              exact List.forall_mem_singleton.mpr
                (all_iff.mpr ⟨hstays _ (all_iff.mp hn).1 h _, hbelow⟩)

theorem all_filterAll (htext : ∀ t, P (ofText t))
    (hstays : ∀ n, P n → n.isText = false → ∀ children, P { filtered s n with children }) :
    (ns : List Node) → (∀ n ∈ ns, Rawless n) → (∀ n ∈ ns, n.All P) →
    ∀ m ∈ (filterAll s ns).1, m.All P
  | [], _, _ => by
      rw [filterAll]
      exact List.forall_mem_nil _
  | n :: rest, hraw, hns => by
      rw [List.forall_mem_cons] at hraw hns
      rw [filterAll]
      exact List.forall_mem_append.mpr ⟨all_filterNode htext hstays n hraw.1 hns.1,
        all_filterAll htext hstays rest hraw.2 hns.2⟩

end

end All

section Log

/-- What filtering does to a node that stays, and what it notes about it. -/
structure FilterStep (s : Schema) (n m : Node) (noted : List Removal) : Prop where
  stays : fate s n = .stays
  distinct : n.HasDistinctNames
  eq : m = filtered s n
  noted : noted = refused s n

/-- Whether a log tells all that was taken away between some nodes and what they became. -/
def Accounts (s : Schema) (ns out : List Node) (log : List Removal) : Prop :=
  ∃ stripped, Revised (FilterStep s) (leftover s ns) (marksAll out) stripped ∧
    log.Perm ((droppedAll s ns).map dropRecord ++ (unwrapped s ns).map unwrapRecord ++ stripped)

namespace Accounts

variable {out out' : List Node} {log log' : List Removal}

theorem nil : Accounts s [] [] [] :=
  ⟨[], .nil, .refl _⟩

theorem cons (h : Accounts s [n] out log) (h' : Accounts s ns out' log') :
    Accounts s (n :: ns) (out ++ out') (log ++ log') := by
  obtain ⟨stripped, hrevised, hperm⟩ := h
  obtain ⟨stripped', hrevised', hperm'⟩ := h'
  refine ⟨stripped ++ stripped', ?_, ?_⟩
  · rw [leftover_cons, marksAll_append]
    exact hrevised.append hrevised'
  · rw [List.perm_iff_count] at hperm hperm' ⊢
    intro r
    have hn : droppedAll s [n] = dropped s n := by simp [droppedAll]
    specialize hperm r
    specialize hperm' r
    rw [hn] at hperm
    rw [droppedAll, unwrapped_cons]
    simp only [List.map_append, List.count_append] at hperm hperm' ⊢
    omega

theorem of_isText (h : n.isText = true) (hleaf : n.IsLeafText) : Accounts s [n] [n] [] := by
  have hkind : n.kind = .text := kind_of_isText h
  have hfate : fate s n = .stays := by simp [fate, hkind]
  refine ⟨[], ?_, ?_⟩
  · rw [leftover_singleton_of_isText h, marksAll_singleton, marks_of_isText h]
    exact .letters _
  · rw [unwrapped_singleton (by simp [hfate]), hleaf h]
    simp [droppedAll, dropped_eq, hleaf h, hfate, unwrapped, cutAll, walk.walkAll]

theorem of_dropped (h : fate s n = .dropped) : Accounts s [n] [] [dropRecord n] := by
  have hcut : cutAll s [n] = [] := by simp [cutAll, h]
  refine ⟨[], ?_, ?_⟩
  · rw [leftover, hcut]
    exact .nil
  · rw [unwrapped, hcut]
    simp [droppedAll, dropped_eq, h, walk.walkAll]

theorem of_givesWay (h : fate s n = .givesWay) (htext : n.isText = false)
    (hbelow : Accounts s n.children out log) :
    Accounts s [n] (mergeText out) (unwrapRecord n :: log) := by
  obtain ⟨stripped, hrevised, hperm⟩ := hbelow
  have hstays : fate s n ≠ .dropped := by simp [h]
  refine ⟨stripped, ?_, ?_⟩
  · rw [leftover_singleton hstays htext, if_pos h, marksAll_mergeText]
    exact hrevised
  · have hrecord : unwrapRecord (cut s n) = unwrapRecord n := by rw [cut_eq]; rfl
    rw [unwrapped_singleton hstays, if_pos h]
    refine (hperm.cons (unwrapRecord n)).trans ?_
    simp only [droppedAll, dropped_eq, h, List.map_append, List.append_assoc]
    simpa [hrecord] using List.perm_middle.symm

theorem of_stays (h : fate s n = .stays) (htext : n.isText = false) (hn : n.HasDistinctNames)
    (hbelow : Accounts s n.children out log) :
    Accounts s [n] [{ filtered s n with children := mergeText out }] (refused s n ++ log) := by
  obtain ⟨stripped, hrevised, hperm⟩ := hbelow
  have hstep : FilterStep s n.head (filtered s n).head (refused s n) :=
    ⟨h, hn, head_filtered n, rfl⟩
  refine ⟨refused s n ++ stripped, ?_, ?_⟩
  · rw [leftover_singleton (by simp [h]) htext, if_neg (by simp [h]), marksAll_singleton,
      marks_of_not_isText (by rw [isText, kind_filtered]; exact htext), marksAll_mergeText]
    exact .node hstep hrevised
  · rw [unwrapped_singleton (by simp [h]), if_neg (by simp [h])]
    refine (hperm.append_left (refused s n)).trans ?_
    simpa [droppedAll, dropped_eq, h] using List.perm_append_comm_assoc (refused s n)
      ((droppedAll s n.children).map dropRecord ++ (unwrapped s n.children).map unwrapRecord)
      stripped

end Accounts

mutual

/-- Filtering logs all that it takes away. -/
theorem accounts_filterNode : (n : Node) → Rawless n → n.All IsLeafText → n.All HasDistinctNames →
    Accounts s [n] (filterNode s n).1 (filterNode s n).2
  | ⟨kind, tag, attrs, children, value, data⟩, hraw, hleaf, hnames => by
      rw [Rawless, all_iff] at hraw
      rw [all_iff] at hleaf hnames
      have hbelow := accounts_filterAll children hraw.2 hleaf.2 hnames.2
      cases htext : isText ⟨kind, tag, attrs, children, value, data⟩ with
      | true =>
          rw [filterNode_of_isText htext]
          exact .of_isText htext hleaf.1
      | false =>
          cases hfate : fate s ⟨kind, tag, attrs, children, value, data⟩ with
          | dropped =>
              rw [filterNode_of_dropped hfate]
              exact .of_dropped hfate
          | givesWay =>
              rw [filterNode_of_givesWay hfate]
              exact hbelow.of_givesWay hfate htext
          | stays =>
              rw [filterNode_of_stays hfate htext hraw.1]
              exact hbelow.of_stays hfate htext hnames.1

theorem accounts_filterAll : (ns : List Node) → (∀ n ∈ ns, Rawless n) →
    (∀ n ∈ ns, n.All IsLeafText) → (∀ n ∈ ns, n.All HasDistinctNames) →
    Accounts s ns (filterAll s ns).1 (filterAll s ns).2
  | [], _, _, _ => by
      rw [filterAll]
      exact .nil
  | n :: rest, hraw, hleaf, hnames => by
      rw [List.forall_mem_cons] at hraw hleaf hnames
      rw [filterAll]
      exact (accounts_filterNode n hraw.1 hleaf.1 hnames.1).cons
        (accounts_filterAll rest hraw.2 hleaf.2 hnames.2)

end

end Log

end Sanitizer

end SafeMarkdown
