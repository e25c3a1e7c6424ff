import Mathlib.Data.List.Forall2
import SafeMarkdown.Component.Markup
import SafeMarkdown.Proofs.Returns
import SafeMarkdown.Proofs.Tree.Joined
import SafeMarkdown.Proofs.Tree.Walk

/-!
# Matching of markers by name

Matching leaves a node that is no marker at its place among its siblings, and matches the markers
below it. Siblings are matched as brackets are: a closing marker closes the last opening one that is
still open, if the two have one name, and is literal text otherwise. What is left open at the end is
literal text too, and what stood behind it stays where it is. So siblings part at the markers that
are left open, and between these the rest is paired.
-/

namespace SafeMarkdown.Component

open Node

/-- Whether a node waits to be matched. -/
def isMarker (n : Node) : Bool :=
  isOpenMarker n || isCloseMarker n

/-- What becomes of each of some nodes when the markers below them are matched. -/
def FoldsEach (ns ms : List Node) : Prop :=
  List.Forall₂ (fun n m ↦ foldBelow n = .ok m) ns ms

theorem foldBelow_eq_ok {kind : NodeKind} {tag value : Option String} {attrs data : Fields}
    {children : List Node} {m : Node}
    (h : foldBelow ⟨kind, tag, attrs, children, value, data⟩ = .ok m) :
    ∃ nodes, fold children = .ok nodes ∧ m = ⟨kind, tag, attrs, nodes, value, data⟩ := by
  rw [foldBelow] at h
  obtain ⟨nodes, hnodes, h⟩ := bind_eq_ok.mp h
  cases h
  exact ⟨nodes, hnodes, rfl⟩

theorem isMarker_foldBelow {n m : Node} (h : foldBelow n = .ok m) : isMarker m = isMarker n := by
  obtain ⟨kind, tag, attrs, children, value, data⟩ := n
  obtain ⟨nodes, -, rfl⟩ := foldBelow_eq_ok h
  rfl

theorem push_of_not_marker (f : Folding) {n : Node} (h : isMarker n = false) :
    f.push n = .ok { f with out := n :: f.out } := by
  rw [isMarker, Bool.or_eq_false_iff] at h
  rw [Folding.push, h.1, h.2]
  rfl

/-- Nodes that are no markers go through the matching one by one. -/
theorem foldFrom_append {ns rest out : List Node} {f : Folding}
    (hns : ∀ n ∈ ns, isMarker n = false) (h : foldFrom f (ns ++ rest) = .ok out) :
    ∃ ms, FoldsEach ns ms ∧ foldFrom { f with out := ms.reverse ++ f.out } rest = .ok out := by
  induction ns generalizing f with
  | nil => exact ⟨[], .nil, h⟩
  | cons n ns ih =>
      rw [List.forall_mem_cons] at hns
      rw [List.cons_append, foldFrom] at h
      obtain ⟨m, hm, h⟩ := bind_eq_ok.mp h
      obtain ⟨g, hg, h⟩ := bind_eq_ok.mp h
      rw [push_of_not_marker f ((isMarker_foldBelow hm).trans hns.1)] at hg
      cases hg
      obtain ⟨ms, hms, h⟩ := ih hns.2 h
      refine ⟨m :: ms, .cons hm hms, ?_⟩
      rw [List.reverse_cons, List.append_assoc]
      exact h

/-- Without markers, nodes are only joined. -/
theorem fold_of_not_marker {ns out : List Node} (hns : ∀ n ∈ ns, isMarker n = false)
    (h : fold ns = .ok out) : ∃ ms, FoldsEach ns ms ∧ out = mergeText ms := by
  have h : foldFrom {} (ns ++ []) = .ok out := by
    rwa [List.append_nil]
  obtain ⟨ms, hms, h⟩ := foldFrom_append hns h
  rw [foldFrom, Folding.finish, Folding.flatten] at h
  cases h
  refine ⟨ms, hms, ?_⟩
  dsimp only
  rw [List.append_nil, List.reverse_reverse]

open Node

/-- A node as parsing makes it: a text is a leaf, and a marker is one too, keeps its source, and
either opens or closes. -/
structure WellMarked (n : Node) : Prop where
  leafText : n.IsLeafText
  childless : isMarker n = true → n.children = []
  source : isMarker n = true → ∃ s, n.data.get? "source" = some (.str s)
  oneWay : isOpenMarker n = true → isCloseMarker n = false

/-- Siblings without a marker that is left open, and what becomes of them behind an open marker of
the name `awaited`. A closing marker that closes none of them is a stray. -/
inductive Paired (strays : Prop) : Option (Option String) → List Node → List Node → Prop where
  | nil {awaited} : Paired strays awaited [] []
  | plain {awaited n children ns ms} :
      isMarker n = false →
      fold n.children = .ok children →
      Paired strays awaited ns ms →
      Paired strays awaited (n :: ns) ({ n with children } :: ms)
  | stray {awaited closer s ns ms} :
      strays →
      isCloseMarker closer = true →
      awaited ≠ some closer.tag →
      closer.data.get? "source" = some (.str s) →
      Paired strays awaited ns ms →
      Paired strays awaited (closer :: ns) (literal (some s) (closer.flagged "block") :: ms)
  | pair {awaited opener closer inside content ns ms} :
      isOpenMarker opener = true →
      isCloseMarker closer = true →
      closer.tag = opener.tag →
      Paired strays (some opener.tag) inside content →
      fold inside = .ok (mergeText content) →
      Paired strays awaited ns ms →
      Paired strays awaited (opener :: inside ++ closer :: ns) (complete opener content :: ms)

/-- Any siblings and what becomes of them: they part at the markers that are left open. -/
inductive Matched : Option (Option String) → List Node → List Node → Prop where
  | paired {awaited ns ms} : Paired True awaited ns ms → Matched awaited ns ms
  | unclosed {awaited opener s ns ms rest after} :
      Paired True awaited ns ms →
      isOpenMarker opener = true →
      opener.data.get? "source" = some (.str s) →
      Matched (some opener.tag) rest after →
      Matched awaited (ns ++ opener :: rest)
        (ms ++ literal (some s) (opener.flagged "block") :: after)

/-- Siblings whose markers are properly nested by name. -/
inductive Nested : List Node → Prop where
  | nil : Nested []
  | plain {n ns} : isMarker n = false → Nested ns → Nested (n :: ns)
  | pair {opener closer inside ns} :
      isOpenMarker opener = true →
      isCloseMarker closer = true →
      closer.tag = opener.tag →
      Nested inside →
      Nested ns →
      Nested (opener :: inside ++ closer :: ns)

section Markers

variable {n : Node}

theorem isMarker_of_open (h : isOpenMarker n = true) : isMarker n = true := by
  rw [isMarker, h, Bool.true_or]

theorem isMarker_of_close (h : isCloseMarker n = true) : isMarker n = true := by
  rw [isMarker, h, Bool.or_true]

theorem not_isMarker_of_kind (h : n.kind ≠ .component) : isMarker n = false := by
  have hkind : (n.kind == .component) = false := beq_eq_false_iff_ne.mpr h
  rw [isMarker, isOpenMarker, isCloseMarker, hkind]
  rfl

theorem wellMarked_of_not_isMarker (h : isMarker n = false) (hleaf : n.IsLeafText) :
    WellMarked n where
  leafText := hleaf
  childless := fun hmarker ↦ absurd hmarker (Bool.eq_false_iff.mp h)
  source := fun hmarker ↦ absurd hmarker (Bool.eq_false_iff.mp h)
  oneWay := fun hopen ↦ absurd (isMarker_of_open hopen) (Bool.eq_false_iff.mp h)

theorem wellMarked_openMarker (name : String) (attrs : Fields) (source : String) (block : Bool) :
    WellMarked (openMarker name attrs source block) where
  leafText := nofun
  childless := fun _ ↦ rfl
  source := fun _ ↦ ⟨source, rfl⟩
  oneWay := fun _ ↦ rfl

theorem wellMarked_closeMarker (name source : String) (block : Bool) :
    WellMarked (closeMarker name source block) where
  leafText := nofun
  childless := fun _ ↦ rfl
  source := fun _ ↦ ⟨source, rfl⟩
  oneWay := nofun

theorem WellMarked.not_open (hn : WellMarked n) (h : isCloseMarker n = true) :
    isOpenMarker n = false := by
  by_contra hopen
  rw [Bool.not_eq_false] at hopen
  rw [hn.oneWay hopen] at h
  cases h

theorem literalOf_of_source {s : String} (h : n.data.get? "source" = some (.str s)) :
    literalOf n = .ok (literal (some s) (n.flagged "block")) := by
  rw [literalOf, h]

theorem foldBelow_of_fold {children : List Node} (h : fold n.children = .ok children) :
    foldBelow n = .ok { n with children } := by
  obtain ⟨kind, tag, attrs, below, value, data⟩ := n
  rw [foldBelow, show foldFrom {} below = .ok children from h]
  rfl

theorem foldBelow_of_childless (h : n.children = []) : foldBelow n = .ok n := by
  obtain ⟨kind, tag, attrs, below, value, data⟩ := n
  cases h
  rfl

end Markers

namespace Folding

variable (f : Folding) {n : Node}

/-- The name of the marker that was opened last. -/
def awaited : Option (Option String) :=
  f.opened.head?.map fun o ↦ o.1.tag

theorem push_open (h : isOpenMarker n = true) : f.push n = .ok ⟨(n, f.out) :: f.opened, []⟩ := by
  rw [push, if_pos h]

theorem push_close {opener : Node} {before : List Node} {outer : List (Node × List Node)}
    (hopen : isOpenMarker n = false) (h : isCloseMarker n = true) (htag : n.tag = opener.tag) :
    push ⟨(opener, before) :: outer, f.out⟩ n =
      .ok ⟨outer, complete opener f.out.reverse :: before⟩ := by
  rw [push, hopen, h, if_neg Bool.false_ne_true, if_pos rfl]
  dsimp only
  rw [if_pos (beq_iff_eq.mpr htag.symm)]

theorem push_stray {s : String} (hopen : isOpenMarker n = false) (h : isCloseMarker n = true)
    (hawaited : f.awaited ≠ some n.tag) (hsource : n.data.get? "source" = some (.str s)) :
    f.push n = .ok { f with out := literal (some s) (n.flagged "block") :: f.out } := by
  rw [push, hopen, h, if_neg Bool.false_ne_true, if_pos rfl, literalOf_of_source hsource]
  split
  · rename_i opener before outer hopened
    have hne : ¬ (opener.tag == n.tag) = true := fun heq ↦ hawaited (by
      rw [awaited, hopened, ← beq_iff_eq.mp heq]
      rfl)
    rw [if_neg hne]
    rfl
  · rfl

end Folding

theorem foldFrom_cons {f g : Folding} {n m : Node} (hbelow : foldBelow n = .ok m)
    (hpush : f.push m = .ok g) (rest : List Node) : foldFrom f (n :: rest) = foldFrom g rest := by
  rw [foldFrom, hbelow]
  change (f.push m >>= fun g ↦ foldFrom g rest) = _
  rw [hpush]
  rfl

section Paired

variable {strays : Prop} {awaited : Option (Option String)} {ns ms : List Node}

theorem Paired.mono {strays' : Prop} (h : Paired strays awaited ns ms) (hmono : strays → strays') :
    Paired strays' awaited ns ms := by
  induction h with
  | nil => exact .nil
  | plain hn hbelow _ ih => exact .plain hn hbelow ih
  | stray hstray hclose hne hsource _ ih => exact .stray (hmono hstray) hclose hne hsource ih
  | pair hopen hclose htag _ hfold _ ihinside ih => exact .pair hopen hclose htag ihinside hfold ih

theorem Paired.append {ns' ms' : List Node} (h : Paired strays awaited ns ms)
    (h' : Paired strays awaited ns' ms') : Paired strays awaited (ns ++ ns') (ms ++ ms') := by
  induction h with
  | nil => exact h'
  | plain hn hbelow _ ih => exact .plain hn hbelow (ih h')
  | stray hstray hclose hne hsource _ ih => exact .stray hstray hclose hne hsource (ih h')
  | pair hopen hclose htag hinside hfold _ _ ih =>
      rw [List.append_assoc, List.cons_append]
      exact .pair hopen hclose htag hinside hfold (ih h')

/-- What is paired goes through the matching and leaves what was open as it was. -/
theorem Paired.foldFrom_append (h : Paired strays awaited ns ms)
    (hns : ∀ n ∈ ns, WellMarked n) (rest : List Node) (f : Folding)
    (hf : f.awaited = awaited) :
    foldFrom f (ns ++ rest) = foldFrom { f with out := ms.reverse ++ f.out } rest := by
  induction h generalizing f rest with
  | nil => rfl
  | @plain _ n children _ _ hn hbelow _ ih =>
      rw [List.forall_mem_cons] at hns
      have hmarker : isMarker { n with children } = false := hn
      rw [List.cons_append, foldFrom_cons (foldBelow_of_fold hbelow) (push_of_not_marker f hmarker),
        ih hns.2 rest ⟨f.opened, _ :: f.out⟩ hf, List.reverse_cons, List.append_assoc]
      rfl
  | @stray _ closer s _ _ _ hclose hne hsource _ ih =>
      rw [List.forall_mem_cons] at hns
      have hopen := hns.1.not_open hclose
      have hbelow := foldBelow_of_childless (hns.1.childless (isMarker_of_close hclose))
      rw [List.cons_append, foldFrom_cons hbelow (f.push_stray hopen hclose (hf ▸ hne) hsource),
        ih hns.2 rest ⟨f.opened, _ :: f.out⟩ hf, List.reverse_cons, List.append_assoc]
      rfl
  | @pair _ opener closer inside content _ _ hopen hclose htag _ _ _ ihinside ih =>
      rw [List.cons_append, List.forall_mem_cons, List.forall_mem_append, List.forall_mem_cons]
        at hns
      obtain ⟨hopener, hinside, hcloser, hns⟩ := hns
      have hbelow := foldBelow_of_childless (hopener.childless (isMarker_of_open hopen))
      have hbelow' := foldBelow_of_childless (hcloser.childless (isMarker_of_close hclose))
      have hpush : Folding.push ⟨(opener, f.out) :: f.opened, _⟩ closer = _ :=
        Folding.push_close ⟨[], content.reverse ++ []⟩ (hcloser.not_open hclose) hclose htag
      rw [List.cons_append, List.cons_append, foldFrom_cons hbelow (f.push_open hopen),
        List.append_assoc, ihinside hinside _ _ rfl, List.cons_append,
        foldFrom_cons hbelow' hpush, ih hns rest ⟨f.opened, _ :: f.out⟩ hf, List.reverse_cons,
        List.append_assoc, List.append_nil, List.reverse_reverse]
      rfl

/-- Behind no open marker, no closing one finds a partner that it does not find there. -/
theorem Paired.unawaited (h : Paired strays awaited ns ms) : Paired strays none ns ms := by
  induction h with
  | nil => exact .nil
  | plain hn hbelow _ ih => exact .plain hn hbelow ih
  | stray hstray hclose _ hsource _ ih => exact .stray hstray hclose nofun hsource ih
  | pair hopen hclose htag hinside hfold _ _ ih => exact .pair hopen hclose htag hinside hfold ih

theorem Paired.fold_eq (h : Paired strays awaited ns ms) (hns : ∀ n ∈ ns, WellMarked n) :
    fold ns = .ok (mergeText ms) := by
  have hfold := h.unawaited.foldFrom_append hns [] {} rfl
  rw [List.append_nil, foldFrom, Folding.finish, Folding.flatten, List.append_nil] at hfold
  rw [fold, hfold]
  change Except.ok (mergeText ms.reverse.reverse) = _
  rw [List.reverse_reverse]

end Paired

section Matched

variable {awaited : Option (Option String)} {ns ms : List Node}

theorem Matched.append {ns' ms' : List Node} (h : Paired True awaited ns ms)
    (h' : Matched awaited ns' ms') : Matched awaited (ns ++ ns') (ms ++ ms') := by
  cases h' with
  | paired h' => exact .paired (h.append h')
  | unclosed h' hopen hsource hrest =>
      rw [← List.append_assoc, ← List.append_assoc]
      exact .unclosed (h.append h') hopen hsource hrest

theorem Matched.foldFrom_eq (h : Matched awaited ns ms) (hns : ∀ n ∈ ns, WellMarked n)
    (f : Folding) (hf : f.awaited = awaited) :
    foldFrom f ns = Folding.finish { f with out := ms.reverse ++ f.out } := by
  induction h generalizing f with
  | paired h =>
      have hfold := h.foldFrom_append hns [] f hf
      rwa [List.append_nil, foldFrom] at hfold
  | @unclosed _ opener s ns ms rest after h hopen hsource _ ih =>
      rw [List.forall_mem_append, List.forall_mem_cons] at hns
      obtain ⟨hns, hopener, hrest⟩ := hns
      have hbelow := foldBelow_of_childless (hopener.childless (isMarker_of_open hopen))
      rw [h.foldFrom_append hns _ f hf, foldFrom_cons hbelow (Folding.push_open _ hopen),
        ih hrest _ rfl, Folding.finish, Folding.flatten, literalOf_of_source hsource]
      change (Folding.flatten _ f.opened).map _ = _
      rw [Folding.finish]
      simp only [List.reverse_append, List.reverse_cons, List.append_assoc, List.append_nil,
        List.cons_append, List.nil_append]

theorem Matched.fold_eq (h : Matched none ns ms) (hns : ∀ n ∈ ns, WellMarked n) :
    fold ns = .ok (mergeText ms) := by
  rw [fold, h.foldFrom_eq hns {} rfl, Folding.finish, Folding.flatten, List.append_nil]
  change Except.ok (mergeText ms.reverse.reverse) = _
  rw [List.reverse_reverse]

/-- Siblings are matched, or the first marker among them that closes what is open before them comes
after siblings that are paired. -/
def Parts (awaited : Option (Option String)) (ns : List Node) : Prop :=
  (∃ ms, Matched awaited ns ms) ∨
    ∃ inside content closer after, ns = inside ++ closer :: after ∧ isCloseMarker closer = true ∧
      awaited = some closer.tag ∧ Paired True awaited inside content

theorem Parts.append {ns' : List Node} (h : Paired True awaited ns ms) (h' : Parts awaited ns') :
    Parts awaited (ns ++ ns') := by
  rcases h' with ⟨ms', h'⟩ | ⟨inside, content, closer, after, rfl, hclose, htag, h'⟩
  · exact .inl ⟨_, .append h h'⟩
  · refine .inr ⟨_, _, closer, after, ?_, hclose, htag, h.append h'⟩
    rw [List.append_assoc]

/-- By induction on the number of siblings: what follows an opening marker comes first, and if its
partner is there, what follows the partner. -/
theorem parts (awaited : Option (Option String)) (ns : List Node) (hns : ∀ n ∈ ns, WellMarked n)
    (hbelow : ∀ n ∈ ns, ∃ children, fold n.children = .ok children) : Parts awaited ns := by
  induction hlength : ns.length using Nat.strongRecOn generalizing awaited ns with
  | ind length ih =>
      subst hlength
      cases ns with
      | nil => exact .inl ⟨[], .paired .nil⟩
      | cons n rest =>
          rw [List.forall_mem_cons] at hns hbelow
          have hrest (awaited : Option (Option String)) : Parts awaited rest :=
            ih _ (Nat.lt_succ_self _) awaited rest hns.2 hbelow.2 rfl
          cases hmarker : isMarker n with
          | false =>
              obtain ⟨children, hchildren⟩ := hbelow.1
              exact .append (.plain hmarker hchildren .nil) (hrest awaited)
          | true =>
              obtain ⟨s, hsource⟩ := hns.1.source hmarker
              cases hopen : isOpenMarker n with
              | true =>
                  rcases hrest (some n.tag) with
                    ⟨ms, h⟩ | ⟨inside, content, closer, after, rfl, hclose, htag, hinside⟩
                  · exact .inl ⟨_, .unclosed .nil hopen hsource h⟩
                  · rw [List.forall_mem_append, List.forall_mem_cons] at hns hbelow
                    have hshorter : after.length < (n :: (inside ++ closer :: after)).length := by
                      simp only [List.length_cons, List.length_append]
                      omega
                    have hafter := ih _ hshorter awaited after hns.2.2.2 hbelow.2.2.2 rfl
                    have hwhole := hafter.append (.pair hopen hclose (Option.some.inj htag).symm
                      hinside (hinside.fold_eq hns.2.1) .nil)
                    rwa [List.append_assoc, List.singleton_append, List.cons_append] at hwhole
              | false =>
                  have hclose : isCloseMarker n = true := by
                    rwa [isMarker, hopen, Bool.false_or] at hmarker
                  by_cases htag : awaited = some n.tag
                  · exact .inr ⟨[], [], n, rest, rfl, hclose, htag, .nil⟩
                  · exact .append (.stray True.intro hclose htag hsource .nil) (hrest awaited)

theorem exists_matched (hns : ∀ n ∈ ns, WellMarked n)
    (hbelow : ∀ n ∈ ns, ∃ children, fold n.children = .ok children) : ∃ ms, Matched none ns ms := by
  rcases parts none ns hns hbelow with h | ⟨_, _, _, _, _, _, htag, _⟩
  · exact h
  · cases htag

theorem wellMarked_below (h : ∀ n ∈ walk.walkAll ns, WellMarked n) :
    ∀ n ∈ ns, WellMarked n ∧ ∀ m ∈ walk.walkAll n.children, WellMarked m := by
  intro n hn
  have hall : n.All WellMarked := fun m hm ↦ h m (mem_walkAll.mpr ⟨n, hn, hm⟩)
  rw [all_iff] at hall
  refine ⟨hall.1, fun m hm ↦ ?_⟩
  obtain ⟨c, hc, hm⟩ := mem_walkAll.mp hm
  exact hall.2 c hc m hm

/-- Siblings with well-made nodes are matched to the end. -/
theorem fold_isOk (h : ∀ n ∈ walk.walkAll ns, WellMarked n) : ∃ nodes, fold ns = .ok nodes := by
  induction ns using siblings_induction with
  | step ns ih =>
      have hns := wellMarked_below h
      have hself (n : Node) (hn : n ∈ ns) : WellMarked n := (hns n hn).1
      obtain ⟨ms, hms⟩ := exists_matched hself fun n hn ↦ ih n hn (hns n hn).2
      exact ⟨_, hms.fold_eq hself⟩

/-- What holds of matched siblings and what they become, if it holds below each of them, holds of
what is made of siblings with well-made nodes. -/
theorem fold_induction {Q : List Node → List Node → Prop}
    (step : ∀ {ns ms : List Node}, (∀ n ∈ ns, WellMarked n) → Matched none ns ms →
      (∀ n ∈ ns, ∀ nodes, fold n.children = .ok nodes → Q n.children nodes) → Q ns (mergeText ms))
    {out : List Node} (h : ∀ n ∈ walk.walkAll ns, WellMarked n) (hfold : fold ns = .ok out) :
    Q ns out := by
  induction ns using siblings_induction generalizing out with
  | step ns ih =>
      have hns := wellMarked_below h
      have hself (n : Node) (hn : n ∈ ns) : WellMarked n := (hns n hn).1
      obtain ⟨ms, hms⟩ := exists_matched hself fun n hn ↦ fold_isOk (hns n hn).2
      rw [hms.fold_eq hself] at hfold
      cases hfold
      exact step hself hms fun n hn nodes hnodes ↦ ih n hn (hns n hn).2 hnodes

end Matched

/-- Where markers are properly nested, each has a partner. -/
theorem Nested.exists_paired {ns : List Node} (h : Nested ns) (hns : ∀ n ∈ ns, WellMarked n)
    (hbelow : ∀ n ∈ ns, ∃ children, fold n.children = .ok children)
    (awaited : Option (Option String)) : ∃ ms, Paired False awaited ns ms := by
  induction h generalizing awaited with
  | nil => exact ⟨[], .nil⟩
  | plain hn _ ih =>
      rw [List.forall_mem_cons] at hns hbelow
      obtain ⟨children, hchildren⟩ := hbelow.1
      obtain ⟨ms, hms⟩ := ih hns.2 hbelow.2 awaited
      exact ⟨_, .plain hn hchildren hms⟩
  | pair hopen hclose htag _ _ ihinside ih =>
      rw [List.cons_append, List.forall_mem_cons, List.forall_mem_append, List.forall_mem_cons]
        at hns hbelow
      obtain ⟨content, hcontent⟩ := ihinside hns.2.1 hbelow.2.1 _
      obtain ⟨ms, hms⟩ := ih hns.2.2.2 hbelow.2.2.2 awaited
      exact ⟨_, .pair hopen hclose htag hcontent (hcontent.fold_eq hns.2.1) hms⟩

end SafeMarkdown.Component
