import SafeMarkdown.Proofs.Component.Matching
import SafeMarkdown.Proofs.Fields

/-!
# What matching markers conserves

No marker is left, and nothing is lost, repeated or moved: read in document order, a marker has
become the head of its component, nothing, or its literal text, and every other node is where it
was.
-/

namespace SafeMarkdown.Component

open Node

/-- What is seen of a node when markers are matched. -/
inductive Turns : Node → List Sign → Prop where
  | stays {n} : isMarker n = false → Turns n n.signs
  | opens {opener} : isOpenMarker opener = true → Turns opener [.node (complete opener [])]
  | closes {closer} : isCloseMarker closer = true → Turns closer []
  | unmatched {marker s} :
      isMarker marker = true →
      marker.data.get? "source" = some (.str s) →
      Turns marker (signsAll [literal (some s) (marker.flagged "block")])

/-- Each node of some trees is seen in others in its turn, and nothing else is. -/
def Conserves (before after : List Node) : Prop :=
  ∃ turns, List.Forall₂ Turns (walk.walkAll before) turns ∧ signsAll after = turns.flatten

variable {strays : Prop} {awaited : Option (Option String)} {n : Node} {ns ms out : List Node}

theorem kind_of_marker (h : isMarker n = true) : n.kind = .component := by
  rw [isMarker, isOpenMarker, isCloseMarker, ← Bool.and_or_distrib_left, Bool.and_eq_true,
    beq_iff_eq] at h
  exact h.1

/-- A component that is complete is no marker any more. -/
theorem not_isMarker_complete (hn : WellMarked n) (h : isOpenMarker n = true)
    (content : List Node) : isMarker (complete n content) = false := by
  have hclose := hn.oneWay h
  have hkind := kind_of_marker (isMarker_of_open h)
  have hflagged (name : String) : (complete n content).flagged name =
      (((n.data.erase "open").erase "block").get? name).any Value.isTruthy := rfl
  have hopened : (complete n content).flagged "open" = false := by
    rw [hflagged, Fields.get?_erase_ne _ (by decide), Fields.get?_erase]
    rfl
  have hclosed : (complete n content).flagged "close" = false := by
    rw [hflagged, Fields.get?_erase_ne _ (by decide), Fields.get?_erase_ne _ (by decide)]
    rwa [isCloseMarker, hkind, beq_self_eq_true, Bool.true_and] at hclose
  rw [isMarker, isOpenMarker, isCloseMarker, hopened, hclosed, Bool.and_false, Bool.or_false]

theorem all_not_isMarker_literal (s : Option String) (block : Bool) :
    (literal s block).All (isMarker · = false) := by
  have htext : All (isMarker · = false) { kind := .text, value := s } :=
    all_iff.mpr ⟨rfl, List.forall_mem_nil _⟩
  cases block with
  | false => exact htext
  | true => exact all_iff.mpr ⟨rfl, List.forall_mem_singleton.mpr htext⟩

theorem isLeafText_literal (s : Option String) (block : Bool) : (literal s block).IsLeafText := by
  cases block with
  | false => exact fun _ ↦ rfl
  | true => exact nofun

theorem isLeafText_of_component (h : n.kind = .component) : n.IsLeafText := by
  intro htext
  rw [isText, h] at htext
  cases htext

/-- Texts are leaves afterwards as well. -/
theorem Paired.isLeafText (h : Paired strays awaited ns ms) (hns : ∀ n ∈ ns, WellMarked n) :
    ∀ m ∈ ms, m.IsLeafText := by
  induction h with
  | nil => exact List.forall_mem_nil _
  | plain _ hbelow _ ih =>
      rw [List.forall_mem_cons] at hns
      refine List.forall_mem_cons.mpr ⟨fun htext ↦ ?_, ih hns.2⟩
      rw [hns.1.leafText htext] at hbelow
      cases hbelow
      rfl
  | stray =>
      rename_i ih
      rw [List.forall_mem_cons] at hns
      exact List.forall_mem_cons.mpr ⟨isLeafText_literal _ _, ih hns.2⟩
  | @pair _ opener _ _ content _ _ hopen _ _ _ _ _ _ ih =>
      rw [List.cons_append, List.forall_mem_cons, List.forall_mem_append, List.forall_mem_cons]
        at hns
      have hkind : opener.kind = .component := kind_of_marker (isMarker_of_open hopen)
      exact List.forall_mem_cons.mpr ⟨isLeafText_of_component hkind, ih hns.2.2.2⟩

theorem Matched.isLeafText (h : Matched awaited ns ms) (hns : ∀ n ∈ ns, WellMarked n) :
    ∀ m ∈ ms, m.IsLeafText := by
  induction h with
  | paired h => exact h.isLeafText hns
  | unclosed h _ _ _ ih =>
      rw [List.forall_mem_append, List.forall_mem_cons] at hns
      exact List.forall_mem_append.mpr
        ⟨h.isLeafText hns.1, List.forall_mem_cons.mpr ⟨isLeafText_literal _ _, ih hns.2.2⟩⟩

section Unmarked

/-- No marker is left where there is none below. -/
theorem Paired.unmarked (h : Paired strays awaited ns ms) (hns : ∀ n ∈ ns, WellMarked n)
    (hbelow : ∀ n ∈ ns, ∀ nodes, fold n.children = .ok nodes →
      ∀ m ∈ nodes, m.All (isMarker · = false)) :
    ∀ m ∈ ms, m.All (isMarker · = false) := by
  induction h with
  | nil => exact List.forall_mem_nil _
  | plain hn hfold _ ih =>
      rw [List.forall_mem_cons] at hns hbelow
      refine List.forall_mem_cons.mpr ⟨all_iff.mpr ⟨hn, ?_⟩, ih hns.2 hbelow.2⟩
      exact hbelow.1 _ hfold
  | stray =>
      rename_i ih
      rw [List.forall_mem_cons] at hns hbelow
      exact List.forall_mem_cons.mpr ⟨all_not_isMarker_literal _ _, ih hns.2 hbelow.2⟩
  | pair hopen _ _ _ _ _ ihinside ih =>
      rw [List.cons_append, List.forall_mem_cons, List.forall_mem_append, List.forall_mem_cons]
        at hns hbelow
      refine List.forall_mem_cons.mpr ⟨all_iff.mpr ⟨?_, ?_⟩, ih hns.2.2.2 hbelow.2.2.2⟩
      · exact not_isMarker_complete hns.1 hopen _
      · exact all_mergeText (ihinside hns.2.1 hbelow.2.1) fun _ ↦ rfl

theorem Matched.unmarked (h : Matched awaited ns ms) (hns : ∀ n ∈ ns, WellMarked n)
    (hbelow : ∀ n ∈ ns, ∀ nodes, fold n.children = .ok nodes →
      ∀ m ∈ nodes, m.All (isMarker · = false)) :
    ∀ m ∈ ms, m.All (isMarker · = false) := by
  induction h with
  | paired h => exact h.unmarked hns hbelow
  | unclosed h _ _ _ ih =>
      rw [List.forall_mem_append, List.forall_mem_cons] at hns hbelow
      exact List.forall_mem_append.mpr ⟨h.unmarked hns.1 hbelow.1,
        List.forall_mem_cons.mpr ⟨all_not_isMarker_literal _ _, ih hns.2.2 hbelow.2.2⟩⟩

theorem unmarked_fold (h : ∀ n ∈ walk.walkAll ns, WellMarked n) (hfold : fold ns = .ok out) :
    ∀ m ∈ out, m.All (isMarker · = false) := by
  refine fold_induction (Q := fun _ ms ↦ ∀ m ∈ ms, m.All (isMarker · = false))
    (fun hself hms hbelow ↦ ?_) h hfold
  exact all_mergeText (hms.unmarked hself hbelow) fun _ ↦ rfl

end Unmarked

namespace Conserves

variable {before before' after after' : List Node} {signs : List Sign}

theorem nil : Conserves [] [] :=
  ⟨[], .nil, rfl⟩

theorem append (h : Conserves before after) (h' : Conserves before' after') :
    Conserves (before ++ before') (after ++ after') := by
  obtain ⟨turns, hall, hsigns⟩ := h
  obtain ⟨turns', hall', hsigns'⟩ := h'
  refine ⟨turns ++ turns', ?_, ?_⟩
  · rw [walkAll_append]
    exact List.rel_append hall hall'
  · rw [signsAll_append, hsigns, hsigns', List.flatten_append]

/-- A node that shows something else, over what becomes of the nodes below it. -/
theorem node {m : Node} (hturn : Turns n m.signs) (h : Conserves n.children m.children) :
    Conserves [n] [m] := by
  obtain ⟨turns, hall, hsigns⟩ := h
  refine ⟨m.signs :: turns, ?_, ?_⟩
  · obtain ⟨kind, tag, attrs, children, value, data⟩ := n
    rw [walk.walkAll, walk.walkAll, List.append_nil, walk_mk]
    exact .cons hturn hall
  · rw [signsAll_cons, hsigns, signsAll_nil, List.append_nil]
    rfl

theorem leaf (hturn : Turns n signs) (hn : n.children = []) (hsigns : signsAll after = signs) :
    Conserves [n] after := by
  obtain ⟨kind, tag, attrs, children, value, data⟩ := n
  cases hn
  exact ⟨[signs], .cons hturn .nil, by rw [hsigns, List.flatten_singleton]⟩

theorem mergeText (h : Conserves before after) (hleaf : ∀ n ∈ after, n.IsLeafText) :
    Conserves before (Node.mergeText after) := by
  obtain ⟨turns, hall, hsigns⟩ := h
  exact ⟨turns, hall, (signsAll_mergeText hleaf).trans hsigns⟩

end Conserves

section Conserved

theorem signs_complete {opener : Node} (h : isOpenMarker opener = true) (content : List Node) :
    (complete opener content).signs = [.node (complete opener [])] := by
  have hkind : opener.kind = .component := kind_of_marker (isMarker_of_open h)
  have htext : (complete opener content).isText = false := by
    rw [complete, isText, hkind]
    rfl
  rw [signs_of_not_isText htext]
  rfl

theorem conserves_literal {marker : Node} {s : String} (hn : WellMarked marker)
    (h : isMarker marker = true) (hsource : marker.data.get? "source" = some (.str s)) :
    Conserves [marker] [literal (some s) (marker.flagged "block")] :=
  .leaf (.unmatched h hsource) (hn.childless h) rfl

theorem Paired.conserves (h : Paired strays awaited ns ms) (hns : ∀ n ∈ ns, WellMarked n)
    (hbelow : ∀ n ∈ ns, ∀ nodes, fold n.children = .ok nodes → Conserves n.children nodes) :
    Conserves ns ms := by
  induction h with
  | nil => exact .nil
  | @plain _ n children _ _ hn hfold _ ih =>
      rw [List.forall_mem_cons] at hns hbelow
      have hnode : Conserves [n] [{ n with children }] := .node (.stays hn) (hbelow.1 _ hfold)
      exact hnode.append (ih hns.2 hbelow.2)
  | stray _ hclose _ hsource _ ih =>
      rw [List.forall_mem_cons] at hns hbelow
      exact .append (conserves_literal hns.1 (isMarker_of_close hclose) hsource)
        (ih hns.2 hbelow.2)
  | @pair _ opener closer inside content ns ms hopen hclose _ hinside _ _ ihinside ih =>
      rw [List.cons_append, List.forall_mem_cons, List.forall_mem_append, List.forall_mem_cons]
        at hns hbelow
      obtain ⟨turns, hall, hsigns⟩ :=
        (ihinside hns.2.1 hbelow.2.1).mergeText (hinside.isLeafText hns.2.1)
      have hcloser : Conserves [closer] [] :=
        .leaf (.closes hclose) (hns.2.2.1.childless (isMarker_of_close hclose)) rfl
      have hhead : Conserves (opener :: inside) [complete opener content] := by
        refine ⟨[.node (complete opener [])] :: turns, ?_, ?_⟩
        · have hopener := hns.1.childless (isMarker_of_open hopen)
          have hturn : Turns opener [.node (complete opener [])] := .opens hopen
          obtain ⟨kind, tag, attrs, children, value, data⟩ := opener
          cases hopener
          rw [walk.walkAll, walk_mk]
          exact .cons hturn hall
        · rw [signsAll_cons, signs_complete hopen, signsAll_nil, List.append_nil]
          exact congrArg _ hsigns
      exact hhead.append (hcloser.append (ih hns.2.2.2 hbelow.2.2.2))

theorem Matched.conserves (h : Matched awaited ns ms) (hns : ∀ n ∈ ns, WellMarked n)
    (hbelow : ∀ n ∈ ns, ∀ nodes, fold n.children = .ok nodes → Conserves n.children nodes) :
    Conserves ns ms := by
  induction h with
  | paired h => exact h.conserves hns hbelow
  | unclosed h hopen hsource _ ih =>
      rw [List.forall_mem_append, List.forall_mem_cons] at hns hbelow
      exact (h.conserves hns.1 hbelow.1).append
        ((conserves_literal hns.2.1 (isMarker_of_open hopen) hsource).append
          (ih hns.2.2 hbelow.2.2))

theorem conserves_fold (h : ∀ n ∈ walk.walkAll ns, WellMarked n) (hfold : fold ns = .ok out) :
    Conserves ns out := by
  refine fold_induction (Q := Conserves) (fun hself hms hbelow ↦ ?_) h hfold
  exact (hms.conserves hself hbelow).mergeText (hms.isLeafText hself)

end Conserved

/-- Markers are matched by name as brackets are, and nothing is lost. -/
theorem fold_matches {siblings : List Node} (h : ∀ n ∈ walk.walkAll siblings, WellMarked n) :
    ∃ nodes, fold siblings = .ok (mergeText nodes) ∧ Matched none siblings nodes ∧
      (∀ m ∈ walk.walkAll (mergeText nodes), isOpenMarker m = false ∧ isCloseMarker m = false) ∧
      Conserves siblings (mergeText nodes) ∧
      (Nested siblings → Paired False none siblings nodes) := by
  have hself (n : Node) (hn : n ∈ siblings) : WellMarked n := (wellMarked_below h n hn).1
  have hbelow (n : Node) (hn : n ∈ siblings) : ∃ children, fold n.children = .ok children :=
    fold_isOk (wellMarked_below h n hn).2
  have hmatched : ∃ nodes, Matched none siblings nodes ∧
      (Nested siblings → Paired False none siblings nodes) := by
    by_cases hnested : Nested siblings
    · obtain ⟨nodes, hnodes⟩ := hnested.exists_paired hself hbelow none
      exact ⟨nodes, .paired (hnodes.mono False.elim), fun _ ↦ hnodes⟩
    · obtain ⟨nodes, hnodes⟩ := exists_matched hself hbelow
      exact ⟨nodes, hnodes, fun h ↦ absurd h hnested⟩
  obtain ⟨nodes, hnodes, hpaired⟩ := hmatched
  have hfold := hnodes.fold_eq hself
  refine ⟨nodes, hfold, hnodes, fun m hm ↦ ?_, conserves_fold h hfold, hpaired⟩
  obtain ⟨k, hk, hm⟩ := mem_walkAll.mp hm
  exact Bool.or_eq_false_iff.mp (unmarked_fold h hfold k hk m hm)

/-- A component around a text and a stray tag, and a tag that is left open. -/
def crossing : List Node :=
  [openMarker "A" [] "<A>" false, .ofText "x", closeMarker "B" "</B>" false,
    closeMarker "A" "</A>" false, openMarker "B" [] "<B>" true,
    .element "em" [] [closeMarker "A" "</A>" false, .ofText "y"]]

theorem fold_matches_crossing : (∀ n ∈ walk.walkAll crossing, WellMarked n) ∧
    (fold crossing = .ok [.component "A" [] [.ofText "x</B>"] [("source", .str "<A>")],
      .element "p" [] [.ofText "<B>"], .element "em" [] [.ofText "</A>y"]]) ∧
    ∃ nodes, fold crossing = .ok (mergeText nodes) ∧ Matched none crossing nodes := by
  have hmade : ∀ n ∈ walk.walkAll crossing, WellMarked n := by
    have hwalk : walk.walkAll crossing = crossing ++ [closeMarker "A" "</A>" false, .ofText "y"] :=
      rfl
    have hplain {n : Node} (h : isMarker n = false) (hleaf : n.IsLeafText) : WellMarked n :=
      wellMarked_of_not_isMarker h hleaf
    rw [hwalk]
    simp only [crossing, List.forall_mem_append, List.forall_mem_cons]
    exact ⟨⟨wellMarked_openMarker .., hplain rfl fun _ ↦ rfl, wellMarked_closeMarker ..,
      wellMarked_closeMarker .., wellMarked_openMarker .., hplain rfl nofun, List.forall_mem_nil _⟩,
      wellMarked_closeMarker .., hplain rfl fun _ ↦ rfl, List.forall_mem_nil _⟩
  obtain ⟨nodes, hfold, hmatched, -⟩ := fold_matches hmade
  exact ⟨hmade, rfl, nodes, hfold, hmatched⟩

end SafeMarkdown.Component
