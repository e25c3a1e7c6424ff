import SafeMarkdown.Proofs.Component.Conserving
import SafeMarkdown.Proofs.Tree.Joined

/-!
# The components of a tree

Which components stand in a tree, and inside of which others. Where all markers are matched,
matching again changes neither the components nor the letters. When no angle bracket is left in a
text, each opening marker has found its partner.
-/

namespace SafeMarkdown

/-- A component of a tree or of a source: its name and the components inside of it. -/
inductive Component.Shape where
  | component (name : Option String) (inside : List Component.Shape)

/-- The components of a tree, in document order. -/
def Node.components : Node → List Component.Shape
  | ⟨kind, tag, _, children, _, _⟩ =>
    if kind == .component then [.component tag (componentsAll children)] else componentsAll children
where
  componentsAll : List Node → List Component.Shape
    | [] => []
    | n :: rest => components n ++ componentsAll rest

namespace Component

open Node Node.components

variable {n : Node} {ns ms out : List Node}

section Components

theorem components_of_component (h : n.kind = .component) :
    n.components = [.component n.tag (componentsAll n.children)] := by
  obtain ⟨kind, tag, attrs, children, value, data⟩ := n
  rw [components, if_pos (beq_iff_eq.mpr h)]

theorem components_of_ne (h : n.kind ≠ .component) : n.components = componentsAll n.children := by
  obtain ⟨kind, tag, attrs, children, value, data⟩ := n
  rw [components, if_neg (mt beq_iff_eq.mp h)]

theorem components_of_isText (h : n.isText = true) (hleaf : n.IsLeafText) : n.components = [] := by
  rw [components_of_ne (by rw [kind_of_isText h]; exact nofun), hleaf h, componentsAll]

/-- Joining texts keeps the components. -/
theorem componentsAll_mergeText (h : ∀ n ∈ ns, n.IsLeafText) :
    componentsAll (mergeText ns) = componentsAll ns := by
  induction ns with
  | nil => rfl
  | cons n ns ih =>
      rw [List.forall_mem_cons] at h
      have hrest := ih h.2
      cases htext : n.isText with
      | false => rw [mergeText_cons_of_not_isText htext, componentsAll, componentsAll, hrest]
      | true =>
          have hskip (ms : List Node) : componentsAll (n :: ms) = componentsAll ms := by
            rw [componentsAll, components_of_isText htext h.1, List.nil_append]
          rw [hskip ns, ← hrest, mergeText, if_pos htext]
          split
          · rfl
          · split
            · rename_i hnil
              rw [hskip, hnil]
            · rename_i m more hmore
              split
              · rename_i hm
                have hleaf : m.IsLeafText := by
                  rcases mem_mergeText (hmore ▸ List.mem_cons_self : m ∈ mergeText ns) with
                    hmem | ⟨s, rfl⟩
                  · exact h.2 m hmem
                  · exact fun _ ↦ rfl
                rw [hmore, componentsAll, componentsAll, components_of_isText hm hleaf]
                rfl
              · rw [hskip, hmore]

end Components

section Unmarked

/-- Whether all markers among and below siblings are matched. -/
def IsUnmarked (ns : List Node) : Prop :=
  ∀ n ∈ walk.walkAll ns, isMarker n = false ∧ n.IsLeafText

theorem isUnmarked_cons : IsUnmarked (n :: ns) ↔
    (isMarker n = false ∧ n.IsLeafText) ∧ IsUnmarked n.children ∧ IsUnmarked ns := by
  obtain ⟨kind, tag, attrs, children, value, data⟩ := n
  rw [IsUnmarked, walk.walkAll, walk_mk, List.cons_append, List.forall_mem_cons,
    List.forall_mem_append]
  rfl

theorem isUnmarked_nil : IsUnmarked [] :=
  List.forall_mem_nil _

theorem IsUnmarked.wellMarked (h : IsUnmarked ns) : ∀ n ∈ walk.walkAll ns, WellMarked n :=
  fun n hn ↦ wellMarked_of_not_isMarker (h n hn).1 (h n hn).2

theorem IsUnmarked.not_isMarker (h : IsUnmarked ns) : ∀ n ∈ ns, isMarker n = false :=
  fun n hn ↦ (h n (mem_walkAll.mpr ⟨n, hn, mem_walk.mpr (.inl rfl)⟩)).1

theorem components_with_children {children : List Node}
    (h : componentsAll children = componentsAll n.children) :
    Node.components { n with children } = n.components := by
  obtain ⟨kind, tag, attrs, below, value, data⟩ := n
  rw [components, components, h]

/-- Where all markers are matched, matching again keeps the components and all that is seen. -/
theorem IsUnmarked.exists_fold (h : IsUnmarked ns) : ∃ out, fold ns = .ok out ∧
    componentsAll out = componentsAll ns ∧ signsAll out = signsAll ns := by
  induction ns using siblings_induction with
  | step ns ih =>
      obtain ⟨ms, hms, hcomponents, hsigns⟩ : ∃ ms, Paired False none ns ms ∧
          componentsAll ms = componentsAll ns ∧ signsAll ms = signsAll ns := by
        induction ns with
        | nil => exact ⟨[], .nil, rfl, rfl⟩
        | cons n ns ihrest =>
            rw [isUnmarked_cons] at h
            rw [List.forall_mem_cons] at ih
            obtain ⟨⟨hn, -⟩, hbelow, hrest⟩ := h
            obtain ⟨children, hfold, hinside, hseen⟩ := ih.1 hbelow
            obtain ⟨ms, hms, hcomponents, hsigns⟩ := ihrest ih.2 hrest
            refine ⟨_, .plain hn hfold hms, ?_, ?_⟩
            · rw [componentsAll, componentsAll, components_with_children hinside, hcomponents]
            · rw [signsAll_cons, signsAll_cons, signs_with_children, hseen, hsigns]
      have hwell (n : Node) (hn : n ∈ ns) : WellMarked n := (wellMarked_below h.wellMarked n hn).1
      have hleaf := hms.isLeafText hwell
      exact ⟨_, hms.fold_eq hwell, (componentsAll_mergeText hleaf).trans hcomponents,
        (signsAll_mergeText hleaf).trans hsigns⟩

/-- A node that is neither a marker nor a text is apart from the siblings behind it. -/
theorem fold_cons {children : List Node} (hn : isMarker n = false) (htext : n.isText = false)
    (hchildren : fold n.children = .ok children) (hns : ∀ m ∈ walk.walkAll ns, WellMarked m)
    (hfold : fold ns = .ok out) : fold (n :: ns) = .ok ({ n with children } :: out) := by
  have hbelow := wellMarked_below hns
  have hself (m : Node) (hm : m ∈ ns) : WellMarked m := (hbelow m hm).1
  obtain ⟨ms, hms⟩ := exists_matched hself fun m hm ↦ fold_isOk (hbelow m hm).2
  rw [hms.fold_eq hself] at hfold
  cases hfold
  have hwell : WellMarked n :=
    wellMarked_of_not_isMarker hn fun h ↦ absurd h (Bool.eq_false_iff.mp htext)
  have hmatched : Matched none ([n] ++ ns) ([{ n with children }] ++ ms) :=
    .append (.plain hn hchildren .nil) hms
  rw [List.singleton_append, List.singleton_append] at hmatched
  have htext : Node.isText { n with children } = false := htext
  rw [hmatched.fold_eq (List.forall_mem_cons.mpr ⟨hwell, hself⟩),
    mergeText_cons_of_not_isText htext]

end Unmarked

section Brackets

variable {strays : Prop} {awaited : Option (Option String)}

/-- Whether the markers among siblings come from tags, which have angle brackets. -/
def HasTags (ns : List Node) : Prop :=
  ∀ n ∈ ns, isMarker n = true → ∀ s, n.data.get? "source" = some (.str s) → '<' ∈ s.toList

theorem mem_signsAll_literal {s : String} {c : Char} (block : Bool) (hc : c ∈ s.toList)
    (ms : List Node) : Sign.letter c ∈ signsAll (literal (some s) block :: ms) := by
  rw [signsAll_cons]
  refine List.mem_append_left _ ?_
  cases block with
  | false => exact List.mem_append_left _ (List.mem_map_of_mem hc)
  | true =>
      refine List.mem_append_right _ ?_
      change _ ∈ signsAll [{ kind := .text, value := some s }]
      rw [signsAll_cons]
      exact List.mem_append_left _ (List.mem_append_left _ (List.mem_map_of_mem hc))

/-- When no angle bracket is left, there are as many opening markers as closing ones. -/
theorem Paired.countP_eq (h : Paired strays awaited ns ms) (hns : ∀ n ∈ ns, WellMarked n)
    (htags : HasTags ns) (hsigns : Sign.letter '<' ∉ signsAll ms) :
    ns.countP isOpenMarker = ns.countP isCloseMarker := by
  induction h with
  | nil => rfl
  | @plain _ n children _ _ hn _ _ ih =>
      rw [List.forall_mem_cons] at hns
      rw [isMarker, Bool.or_eq_false_iff] at hn
      have hrest := ih hns.2 (List.forall_mem_cons.mp htags).2 fun hmem ↦
        hsigns (signsAll_cons _ _ ▸ List.mem_append_right _ hmem)
      rw [List.countP_cons_of_neg (by simp [hn.1]), List.countP_cons_of_neg (by simp [hn.2]), hrest]
  | stray _ hclose _ hsource _ _ =>
      have hbracket := (List.forall_mem_cons.mp htags).1 (isMarker_of_close hclose) _ hsource
      exact (hsigns (mem_signsAll_literal _ hbracket _)).elim
  | @pair _ opener closer inside content _ _ hopen hclose _ hinside _ _ ihinside ih =>
      rw [List.cons_append, List.forall_mem_cons, List.forall_mem_append, List.forall_mem_cons]
        at hns
      rw [HasTags, List.cons_append, List.forall_mem_cons, List.forall_mem_append,
        List.forall_mem_cons] at htags
      rw [signsAll_cons, List.mem_append, List.mem_append, not_or, not_or] at hsigns
      have hcontent := ihinside hns.2.1 htags.2.1 fun hmem ↦
        hsigns.1.2 (signsAll_mergeText (hinside.isLeafText hns.2.1) ▸ hmem)
      have hrest := ih hns.2.2.2 htags.2.2.2 hsigns.2
      have hnotClose := hns.1.oneWay hopen
      have hnotOpen := hns.2.2.1.not_open hclose
      rw [List.cons_append, List.countP_cons_of_pos hopen,
        List.countP_cons_of_neg (by simp [hnotClose]), List.countP_append, List.countP_append,
        List.countP_cons_of_neg (by simp [hnotOpen]), List.countP_cons_of_pos hclose, hcontent, hrest]
      omega

theorem countP_eq_of_fold (h : fold ns = .ok out) (hns : ∀ n ∈ walk.walkAll ns, WellMarked n)
    (htags : HasTags ns) (hsigns : Sign.letter '<' ∉ signsAll out) :
    ns.countP isOpenMarker = ns.countP isCloseMarker := by
  have hbelow := wellMarked_below hns
  have hself (m : Node) (hm : m ∈ ns) : WellMarked m := (hbelow m hm).1
  obtain ⟨ms, hms⟩ := exists_matched hself fun m hm ↦ fold_isOk (hbelow m hm).2
  rw [hms.fold_eq hself] at h
  cases h
  rw [signsAll_mergeText (hms.isLeafText hself)] at hsigns
  cases hms with
  | paired h => exact h.countP_eq hself htags hsigns
  | unclosed h hopen hsource hrest =>
      rw [signsAll_append, List.mem_append, not_or] at hsigns
      have hbracket := htags _ (List.mem_append_right _ List.mem_cons_self)
        (isMarker_of_open hopen) _ hsource
      exact (hsigns.2 (mem_signsAll_literal _ hbracket _)).elim

end Brackets

section Spelled

/-- Texts without angle brackets and markers that are paired by name, with the components that these
are to become. -/
inductive Spells : List Node → List Shape → Prop where
  | nil : Spells [] []
  | text {s ns shapes} : '<' ∉ s.toList → Spells ns shapes → Spells (ofText s :: ns) shapes
  | pair {opener closer inside ns shapes more} :
      isOpenMarker opener = true →
      isCloseMarker closer = true →
      closer.tag = opener.tag →
      Spells inside shapes →
      Spells ns more →
      Spells (opener :: inside ++ closer :: ns) (.component opener.tag shapes :: more)

variable {shapes more : List Shape}

theorem Spells.append (h : Spells ns shapes) (h' : Spells ms more) :
    Spells (ns ++ ms) (shapes ++ more) := by
  induction h with
  | nil => exact h'
  | text hs _ ih => exact .text hs ih
  | pair hopen hclose htag hinside _ _ ih =>
      rw [List.append_assoc, List.cons_append]
      exact .pair hopen hclose htag hinside ih

theorem not_isText_of_marker (h : isMarker n = true) : n.isText = false := by
  rw [isText, kind_of_marker h]
  rfl

theorem Spells.of_cons_ofText {s : String} (h : Spells (ofText s :: ns) shapes) :
    Spells ns shapes := by
  cases h with
  | text _ h => exact h
  | pair hopen => cases hopen

theorem mergeText_append_cons (h : n.isText = false) (ns ms : List Node) :
    mergeText (ns ++ n :: ms) = mergeText ns ++ n :: mergeText ms := by
  induction ns with
  | nil => exact mergeText_cons_of_not_isText h ms
  | cons m ns ih =>
      rw [List.cons_append, mergeText, ih, mergeText]
      cases mergeText ns with
      | nil =>
          rw [List.nil_append]
          dsimp only
          rw [h, if_neg Bool.false_ne_true]
          split
          · split
            · rfl
            · rfl
          · rfl
      | cons k more =>
          rw [List.cons_append]
          dsimp only
          split
          · split
            · rfl
            · split
              · rfl
              · rfl
          · rfl

/-- Joining the texts changes nothing of this. -/
theorem Spells.mergeText (h : Spells ns shapes) : Spells (mergeText ns) shapes := by
  induction h with
  | nil => exact .nil
  | @text s ns shapes hs _ ih =>
      rw [Node.mergeText, if_pos (by rfl)]
      split
      · exact ih
      · cases hmerged : Node.mergeText ns with
        | nil =>
            rw [hmerged] at ih
            exact .text hs ih
        | cons m more =>
            rw [hmerged] at ih
            dsimp only
            split
            · rename_i hm
              cases ih with
              | text ht h =>
                  refine .text ?_ h
                  rw [String.toList_append, List.mem_append, not_or]
                  exact ⟨hs, ht⟩
              | pair hopen =>
                  rw [not_isText_of_marker (isMarker_of_open hopen)] at hm
                  cases hm
            · exact .text hs ih
  | pair hopen hclose htag _ _ ihinside ih =>
      rw [mergeText_append_cons (not_isText_of_marker (isMarker_of_close hclose)),
        mergeText_cons_of_not_isText (not_isText_of_marker (isMarker_of_open hopen))]
      exact .pair hopen hclose htag ihinside ih

theorem Spells.exists_paired (h : Spells ns shapes) (hns : ∀ n ∈ ns, WellMarked n)
    (awaited : Option (Option String)) : ∃ ms, Paired False awaited ns ms ∧
      componentsAll ms = shapes ∧ Sign.letter '<' ∉ signsAll ms := by
  induction h generalizing awaited with
  | nil => exact ⟨[], .nil, rfl, List.not_mem_nil⟩
  | @text s ns shapes hs _ ih =>
      rw [List.forall_mem_cons] at hns
      obtain ⟨ms, hms, hcomponents, hsigns⟩ := ih hns.2 awaited
      have hplain : Paired False awaited (ofText s :: ns) (ofText s :: ms) :=
        .plain rfl (by rfl) hms
      refine ⟨_, hplain, hcomponents, ?_⟩
      rw [signsAll_cons_of_isText (by rfl) (fun _ ↦ rfl), List.mem_append, not_or]
      refine ⟨fun hmem ↦ ?_, hsigns⟩
      obtain ⟨c, hc, heq⟩ := List.mem_map.mp hmem
      cases heq
      exact hs hc
  | @pair opener closer inside ns shapes more hopen hclose htag _ _ ihinside ih =>
      rw [List.cons_append, List.forall_mem_cons, List.forall_mem_append, List.forall_mem_cons]
        at hns
      obtain ⟨content, hcontent, hinner, hsignsInner⟩ := ihinside hns.2.1 (some opener.tag)
      obtain ⟨ms, hms, hcomponents, hsigns⟩ := ih hns.2.2.2 awaited
      have hleaf := hcontent.isLeafText hns.2.1
      have hopener : opener.kind = .component := kind_of_marker (isMarker_of_open hopen)
      have hkind : (complete opener content).kind = .component := hopener
      have htext : (complete opener content).isText = false := by
        rw [isText, hkind]
        rfl
      refine ⟨_, .pair hopen hclose htag hcontent (hcontent.fold_eq hns.2.1) hms, ?_, ?_⟩
      · rw [componentsAll, components_of_component hkind, hcomponents]
        change Shape.component opener.tag (componentsAll (Node.mergeText content)) :: more = _
        rw [componentsAll_mergeText hleaf, hinner]
      · rw [signsAll_cons, signs_of_not_isText htext, List.mem_append, List.mem_append, not_or,
          not_or]
        refine ⟨⟨by simp, fun hmem ↦ ?_⟩, hsigns⟩
        exact hsignsInner (signsAll_mergeText hleaf ▸ hmem)

/-- The markers make these components, and no angle bracket is left. -/
theorem Spells.exists_fold (h : Spells ns shapes) (hns : ∀ n ∈ ns, WellMarked n) :
    ∃ out, fold ns = .ok out ∧ componentsAll out = shapes ∧ Sign.letter '<' ∉ signsAll out := by
  obtain ⟨ms, hms, hcomponents, hsigns⟩ := h.exists_paired hns none
  have hleaf := hms.isLeafText hns
  refine ⟨_, hms.fold_eq hns, (componentsAll_mergeText hleaf).trans hcomponents, ?_⟩
  rwa [signsAll_mergeText hleaf]

end Spelled

end Component

end SafeMarkdown
