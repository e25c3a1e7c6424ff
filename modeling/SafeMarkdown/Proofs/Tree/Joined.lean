import SafeMarkdown.Proofs.Tree.Walk
import SafeMarkdown.Tree.Node

/-!
# Joined texts and reading order

After joining, no text among siblings is empty and no two of them are neighbours. Siblings of this
form are joined already.

Siblings are nodes that are no texts, and in front of, between and behind these nodes the gaps, each
with the letters of the texts that stand in it. Joining texts changes neither the nodes nor the
gaps, and joined siblings are told by them. It makes no difference whether texts are joined before
or after siblings are put together.

Read in document order, a text shows its letters and any other node shows itself, apart from the
nodes below it. Joining texts changes nothing of this, so what is seen tells whether nodes were
lost, repeated or moved.

Read from its start to its end, a tree shows the letters of its texts and, for every other node, the
places where it starts and where it ends. Joining texts changes nothing of this. A pass over a tree
that only changes nodes one by one is told by what it makes of the marks, and its log is collected
along the way.
-/

namespace SafeMarkdown.Node

/-- Siblings among which no text is empty and none stands next to another one. -/
def Joined : List Node → Prop
  | [] => True
  | n :: rest =>
    (n.isText = true → n.text ≠ "" ∧ ∀ m ∈ rest.head?, m.isText = false) ∧ Joined rest

variable {n : Node} {ns ms : List Node}

theorem joined_cons_of_not_isText (h : n.isText = false) (hns : Joined ns) : Joined (n :: ns) :=
  ⟨fun htext ↦ absurd htext (Bool.eq_false_iff.mp h), hns⟩

theorem mergeText_cons_of_not_isText (h : n.isText = false) (ns : List Node) :
    mergeText (n :: ns) = n :: mergeText ns := by
  rw [mergeText, if_neg (Bool.eq_false_iff.mp h)]

theorem mergeText_of_joined (h : Joined ns) : mergeText ns = ns := by
  induction ns with
  | nil => rfl
  | cons n ns ih =>
      obtain ⟨hfirst, hrest⟩ := h
      cases htext : n.isText with
      | false => rw [mergeText_cons_of_not_isText htext, ih hrest]
      | true =>
          obtain ⟨hne, hnext⟩ := hfirst htext
          rw [mergeText, if_pos htext, if_neg (by simpa using hne), ih hrest]
          cases ns with
          | nil => rfl
          | cons m ms =>
              dsimp only
              rw [hnext m rfl, if_neg Bool.false_ne_true]

theorem joined_mergeText (ns : List Node) : Joined (mergeText ns) := by
  induction ns with
  | nil => exact True.intro
  | cons n ns ih =>
      cases htext : n.isText with
      | false =>
          rw [mergeText_cons_of_not_isText htext]
          exact joined_cons_of_not_isText htext ih
      | true =>
          rw [mergeText, if_pos htext]
          by_cases hempty : n.text.isEmpty = true
          · rw [if_pos hempty]
            exact ih
          · have hne : n.text ≠ "" := by simpa using hempty
            rw [if_neg hempty]
            cases hmerged : mergeText ns with
            | nil => exact ⟨fun _ ↦ ⟨hne, by simp⟩, True.intro⟩
            | cons m ms =>
                rw [hmerged] at ih
                dsimp only
                cases hm : m.isText with
                | false =>
                    rw [if_neg Bool.false_ne_true]
                    refine ⟨fun _ ↦ ⟨hne, ?_⟩, ih⟩
                    rintro k ⟨⟩
                    exact hm
                | true =>
                    rw [if_pos rfl]
                    refine ⟨fun _ ↦ ⟨?_, (ih.1 hm).2⟩, ih.2⟩
                    simpa [text, ofText] using fun h ↦ absurd h hne

theorem mergeText_mergeText (ns : List Node) : mergeText (mergeText ns) = mergeText ns :=
  mergeText_of_joined (joined_mergeText ns)

/-- Whether siblings are joined is told by their kinds and their texts. -/
theorem Joined.of_map_eq (h : Joined ns)
    (heq : ms.map (fun m ↦ (m.kind, m.value)) = ns.map fun n ↦ (n.kind, n.value)) :
    Joined ms := by
  induction ms generalizing ns with
  | nil => exact True.intro
  | cons m ms ih =>
      cases ns with
      | nil => cases heq
      | cons n ns =>
          simp only [List.map_cons, List.cons.injEq, Prod.mk.injEq] at heq
          obtain ⟨⟨hkind, hvalue⟩, hrest⟩ := heq
          refine ⟨fun htext ↦ ?_, ih h.2 hrest⟩
          have hn : n.isText = true := by rw [isText, ← hkind]; exact htext
          refine ⟨by rw [text, hvalue]; exact (h.1 hn).1, fun k hk ↦ ?_⟩
          cases ms with
          | nil => cases hk
          | cons l ls =>
              cases ns with
              | nil => cases hrest
              | cons l' ls' =>
                  cases hk
                  simp only [List.map_cons, List.cons.injEq, Prod.mk.injEq] at hrest
                  rw [isText, hrest.1.1]
                  exact (h.1 hn).2 l' rfl

end SafeMarkdown.Node

namespace SafeMarkdown.Node

/-- The siblings that are no texts. -/
def nonTexts (ns : List Node) : List Node :=
  ns.filter fun n ↦ !n.isText

/-- What stands in front of the first sibling that is no text, between any two of them that follow
each other, and behind the last one. -/
def gaps (ns : List Node) : List String :=
  (ns.splitOnP fun n ↦ !n.isText).map fun run ↦ String.join (run.map text)

/-- A text that has its letters and nothing else; any other node as it is. -/
def byValue (n : Node) : Node :=
  if n.isText then ofText n.text else n

variable {n m : Node} {ns ms : List Node}

theorem nonTexts_cons_of_isText (h : n.isText = true) (ns : List Node) :
    nonTexts (n :: ns) = nonTexts ns :=
  List.filter_cons_of_neg (by simp [h])

theorem nonTexts_cons_of_not_isText (h : n.isText = false) (ns : List Node) :
    nonTexts (n :: ns) = n :: nonTexts ns :=
  List.filter_cons_of_pos (by simp [h])

theorem byValue_of_isText (h : n.isText = true) : n.byValue = ofText n.text :=
  if_pos h

theorem gaps_nil : gaps [] = [""] := rfl

theorem gaps_cons_of_not_isText (h : n.isText = false) (ns : List Node) :
    gaps (n :: ns) = "" :: gaps ns := by
  simp [gaps, List.splitOnP_cons_eq_if_modifyHead, h]

theorem gaps_cons_of_isText (h : n.isText = true) (ns : List Node) :
    gaps (n :: ns) = (gaps ns).modifyHead (n.text ++ ·) := by
  rw [gaps, gaps, List.splitOnP_cons_eq_if_modifyHead, h]
  cases ns.splitOnP fun n ↦ !n.isText with
  | nil => rfl
  | cons run runs => simp

/-- What does not tell an empty text from none, nor two texts from their concatenation, does not tell
siblings from the joined ones. -/
theorem apply_mergeText {α : Type} {f : List Node → α}
    (hcons : ∀ n {ns ms}, f ns = f ms → f (n :: ns) = f (n :: ms))
    (hempty : ∀ {n} ns, n.isText = true → n.text = "" → f (n :: ns) = f ns)
    (hjoin : ∀ {n m} ns, n.isText = true → m.isText = true → n.text ≠ "" → m.text ≠ "" →
      f (ofText (n.text ++ m.text) :: ns) = f (n :: m :: ns)) (ns : List Node) :
    f (mergeText ns) = f ns := by
  induction ns with
  | nil => rfl
  | cons n ns ih =>
      rw [← hcons n ih]
      cases htext : n.isText with
      | false => rw [mergeText_cons_of_not_isText htext]
      | true =>
          rw [mergeText, if_pos htext]
          split
          · rename_i hnone
            exact (hempty _ htext (String.isEmpty_iff.mp hnone)).symm
          · rename_i hsome
            have hjoined := joined_mergeText ns
            split
            · rename_i hnil
              rw [hnil]
            · rename_i m more hmore
              rw [hmore] at hjoined ⊢
              split
              · rename_i hm
                exact hjoin more htext hm (by simpa using hsome) (hjoined.1 hm).1
              · rfl

/-- Joining keeps the nodes that are no texts. -/
theorem nonTexts_mergeText (ns : List Node) : nonTexts (mergeText ns) = nonTexts ns := by
  refine apply_mergeText (fun n ns ms h ↦ ?_) (fun ns htext _ ↦ nonTexts_cons_of_isText htext ns)
    (fun ns hn hm _ _ ↦ ?_) ns
  · rw [nonTexts, nonTexts, List.filter_cons, List.filter_cons]
    rw [nonTexts, nonTexts] at h
    rw [h]
  · rw [nonTexts_cons_of_isText rfl, nonTexts_cons_of_isText hn, nonTexts_cons_of_isText hm]

/-- Joining keeps the gaps. -/
theorem gaps_mergeText (ns : List Node) : gaps (mergeText ns) = gaps ns := by
  refine apply_mergeText (fun n ns ms h ↦ ?_) (fun ns htext hempty ↦ ?_) (fun ns hn hm _ _ ↦ ?_) ns
  · cases htext : n.isText with
    | false => rw [gaps_cons_of_not_isText htext, gaps_cons_of_not_isText htext, h]
    | true => rw [gaps_cons_of_isText htext, gaps_cons_of_isText htext, h]
  · rw [gaps_cons_of_isText htext, hempty]
    cases gaps ns with
    | nil => rfl
    | cons g gs => rw [List.modifyHead_cons, String.empty_append]
  · rw [gaps_cons_of_isText rfl, gaps_cons_of_isText hn, gaps_cons_of_isText hm,
      List.modifyHead_modifyHead]
    simp [ofText, text, Function.comp_def, String.append_assoc]

/-- The first gap of siblings that do not start with a text is empty. -/
theorem exists_gaps_eq (h : ∀ m ∈ ns.head?, m.isText = false) : ∃ gs, gaps ns = "" :: gs := by
  cases ns with
  | nil => exact ⟨[], rfl⟩
  | cons m ns => exact ⟨gaps ns, gaps_cons_of_not_isText (h m rfl) ns⟩

/-- A text at the start of joined siblings is their first gap. -/
theorem Joined.exists_gaps_eq (h : Joined (n :: ns)) (htext : n.isText = true) :
    ∃ gs, gaps ns = "" :: gs ∧ gaps (n :: ns) = n.text :: gs := by
  obtain ⟨gs, hgs⟩ := Node.exists_gaps_eq (h.1 htext).2
  refine ⟨gs, hgs, ?_⟩
  rw [gaps_cons_of_isText htext, hgs, List.modifyHead_cons, String.append_empty]

/-- Joined siblings are told, by value, by their nodes that are no texts and by the gaps. -/
theorem Joined.map_byValue_eq (hns : Joined ns) (hms : Joined ms)
    (hnodes : nonTexts ns = nonTexts ms) (hgaps : gaps ns = gaps ms) :
    ns.map byValue = ms.map byValue := by
  induction ns generalizing ms with
  | nil =>
      cases ms with
      | nil => rfl
      | cons m ms =>
          cases hm : m.isText with
          | false =>
              rw [nonTexts_cons_of_not_isText hm] at hnodes
              cases hnodes
          | true =>
              obtain ⟨gs, -, hfirst⟩ := hms.exists_gaps_eq hm
              rw [gaps_nil, hfirst] at hgaps
              exact absurd (List.cons.inj hgaps).1.symm (hms.1 hm).1
  | cons n ns ih =>
      cases hn : n.isText with
      | false =>
          rw [nonTexts_cons_of_not_isText hn] at hnodes
          rw [gaps_cons_of_not_isText hn] at hgaps
          cases ms with
          | nil => cases hnodes
          | cons m ms =>
              cases hm : m.isText with
              | false =>
                  rw [nonTexts_cons_of_not_isText hm] at hnodes
                  rw [gaps_cons_of_not_isText hm] at hgaps
                  obtain ⟨rfl, hrest⟩ := List.cons.inj hnodes
                  rw [List.map_cons, List.map_cons,
                    ih hns.2 hms.2 hrest (List.cons.inj hgaps).2]
              | true =>
                  obtain ⟨gs, -, hfirst⟩ := hms.exists_gaps_eq hm
                  rw [hfirst] at hgaps
                  exact absurd (List.cons.inj hgaps).1.symm (hms.1 hm).1
      | true =>
          obtain ⟨gs, hrest, hfirst⟩ := hns.exists_gaps_eq hn
          rw [hfirst] at hgaps
          have hne := (hns.1 hn).1
          cases ms with
          | nil => exact absurd (List.cons.inj hgaps).1 hne
          | cons m ms =>
              cases hm : m.isText with
              | false =>
                  rw [gaps_cons_of_not_isText hm] at hgaps
                  exact absurd (List.cons.inj hgaps).1 hne
              | true =>
                  obtain ⟨gs', hrest', hfirst'⟩ := hms.exists_gaps_eq hm
                  rw [hfirst'] at hgaps
                  obtain ⟨htext, rfl⟩ := List.cons.inj hgaps
                  rw [nonTexts_cons_of_isText hn, nonTexts_cons_of_isText hm] at hnodes
                  rw [List.map_cons, List.map_cons,
                    ih hns.2 hms.2 hnodes (hrest.trans hrest'.symm), byValue_of_isText hn,
                    byValue_of_isText hm, htext]

section Append

theorem mergeText_cons_congr (h : mergeText ns = mergeText ms) (n : Node) :
    mergeText (n :: ns) = mergeText (n :: ms) := by
  rw [mergeText, h, mergeText]

theorem mergeText_append_congr (h : mergeText ns = mergeText ms) (before : List Node) :
    mergeText (before ++ ns) = mergeText (before ++ ms) := by
  induction before with
  | nil => exact h
  | cons n before ih => exact mergeText_cons_congr ih n

/-- Two texts that are joined first are joined with what follows as if they were not. -/
theorem mergeText_ofText_append (hn : n.isText = true) (hm : m.isText = true) (hne : n.text ≠ "")
    (hme : m.text ≠ "") (ns : List Node) :
    mergeText (ofText (n.text ++ m.text) :: ns) = mergeText (n :: m :: ns) := by
  have hfirst : (ofText (n.text ++ m.text)).isText = true := rfl
  have hempty : ¬(ofText (n.text ++ m.text)).text.isEmpty = true := by
    simpa [ofText, text] using fun h ↦ absurd h hne
  rw [mergeText, if_pos hfirst, if_neg hempty, mergeText, if_pos hn, if_neg (by simpa using hne),
    mergeText, if_pos hm, if_neg (by simpa using hme)]
  cases mergeText ns with
  | nil =>
      dsimp only
      rw [if_pos hm]
  | cons k more =>
      dsimp only
      cases hk : k.isText with
      | false =>
          rw [if_neg Bool.false_ne_true, if_neg Bool.false_ne_true]
          dsimp only
          rw [if_pos hm]
      | true =>
          rw [if_pos rfl, if_pos rfl]
          simp [isText, ofText, text, String.append_assoc]

theorem mergeText_mergeText_append (ns ms : List Node) :
    mergeText (mergeText ns ++ ms) = mergeText (ns ++ ms) := by
  refine apply_mergeText (f := fun ns ↦ mergeText (ns ++ ms))
    (fun n _ _ h ↦ mergeText_cons_congr h n) (fun ns htext hempty ↦ ?_)
    (fun ns hn hm hne hme ↦ mergeText_ofText_append hn hm hne hme (ns ++ ms)) ns
  rw [List.cons_append, mergeText, if_pos htext, if_pos (String.isEmpty_iff.mpr hempty)]

/-- Joining may be done before siblings are put together or after. -/
theorem mergeText_append (ns ms : List Node) :
    mergeText (ns ++ ms) = mergeText (mergeText ns ++ mergeText ms) := by
  rw [mergeText_mergeText_append]
  exact mergeText_append_congr (mergeText_mergeText ms).symm ns

end Append

end SafeMarkdown.Node

namespace SafeMarkdown.Node

/-- A letter of a text, or a node without its children. -/
inductive Sign where
  | letter (c : Char)
  | node (n : Node)

/-- What a node shows of itself. -/
def signs (n : Node) : List Sign :=
  if n.isText then n.text.toList.map .letter else [.node { n with children := [] }]

/-- What the nodes of some trees show, in document order. -/
def signsAll (ns : List Node) : List Sign :=
  (walk.walkAll ns).flatMap signs

variable {n : Node} {ns : List Node}

theorem kind_of_isText (h : n.isText = true) : n.kind = .text :=
  beq_iff_eq.mp h

theorem signs_of_isText (h : n.isText = true) : n.signs = n.text.toList.map .letter := by
  rw [signs, if_pos h]

theorem signs_of_not_isText (h : n.isText = false) :
    n.signs = [.node { n with children := [] }] := by
  rw [signs, h, if_neg Bool.false_ne_true]

theorem signs_with_children (n : Node) (children : List Node) :
    { n with children }.signs = n.signs := rfl

theorem signsAll_nil : signsAll [] = [] := rfl

theorem signsAll_cons (n : Node) (ns : List Node) :
    signsAll (n :: ns) = n.signs ++ signsAll n.children ++ signsAll ns := by
  obtain ⟨kind, tag, attrs, children, value, data⟩ := n
  rw [signsAll, walk.walkAll, walk_mk, List.cons_append, List.flatMap_cons, List.flatMap_append,
    ← List.append_assoc]
  rfl

theorem signsAll_append (ns ms : List Node) : signsAll (ns ++ ms) = signsAll ns ++ signsAll ms := by
  rw [signsAll, walkAll_append, List.flatMap_append]
  rfl

/-- Whether a node has nothing below it if it is a text. -/
def IsLeafText (n : Node) : Prop :=
  n.isText = true → n.children = []

theorem signsAll_cons_of_isText (h : n.isText = true) (hleaf : n.IsLeafText) (ns : List Node) :
    signsAll (n :: ns) = n.text.toList.map .letter ++ signsAll ns := by
  rw [signsAll_cons, signs_of_isText h, hleaf h, signsAll_nil, List.append_nil]

/-- Joining texts keeps all that is seen. -/
theorem signsAll_mergeText (h : ∀ n ∈ ns, n.IsLeafText) :
    signsAll (mergeText ns) = signsAll ns := by
  induction ns with
  | nil => rfl
  | cons n ns ih =>
      rw [List.forall_mem_cons] at h
      have hrest := ih h.2
      cases htext : n.isText with
      | false =>
          rw [mergeText, htext, if_neg Bool.false_ne_true, signsAll_cons, hrest, ← signsAll_cons]
      | true =>
          rw [signsAll_cons_of_isText htext h.1, ← hrest, mergeText, if_pos htext]
          split
          · rename_i hempty
            rw [String.isEmpty_iff.mp hempty]
            rfl
          · split
            · rename_i hnil
              rw [hnil, signsAll_cons_of_isText htext h.1]
            · rename_i m more hmore
              split
              · rename_i hm
                have hleaf : m.IsLeafText := by
                  have hmem : m ∈ mergeText ns := hmore ▸ List.mem_cons_self
                  rcases mem_mergeText hmem with hmem | ⟨s, rfl⟩
                  · exact h.2 m hmem
                  · exact fun _ ↦ rfl
                rw [hmore, signsAll_cons_of_isText rfl (fun _ ↦ rfl),
                  signsAll_cons_of_isText hm hleaf, ← List.append_assoc, ← List.map_append,
                  ← String.toList_append]
                rfl
              · rw [signsAll_cons_of_isText htext h.1, hmore]

end SafeMarkdown.Node

namespace SafeMarkdown

namespace Node

/-- A node without what is below it. -/
def head (n : Node) : Node :=
  { n with children := [] }

/-- A letter of a text, or one of the two ends of a node. -/
inductive Mark where
  | letter (c : Char)
  | opens (n : Node)
  | closes (n : Node)

def Mark.letter? : Mark → Option Char
  | letter c => some c
  | _ => none

mutual

/-- The marks of a tree; what lies below a text does not count. -/
def marks : Node → List Mark
  | ⟨kind, tag, attrs, children, value, data⟩ =>
    if kind == .text then (value.getD "").toList.map .letter
    else .opens ⟨kind, tag, attrs, [], value, data⟩ ::
      (marksAll children ++ [.closes ⟨kind, tag, attrs, [], value, data⟩])

def marksAll : List Node → List Mark
  | [] => []
  | n :: rest => marks n ++ marksAll rest

end

variable {n : Node} {ns ms : List Node}

theorem marks_of_isText (h : n.isText = true) : n.marks = n.text.toList.map .letter := by
  obtain ⟨kind, tag, attrs, children, value, data⟩ := n
  obtain rfl : kind = .text := kind_of_isText h
  simp [marks, text]

theorem marks_of_not_isText (h : n.isText = false) :
    n.marks = .opens n.head :: (marksAll n.children ++ [.closes n.head]) := by
  obtain ⟨kind, tag, attrs, children, value, data⟩ := n
  have hkind : (kind == .text) = false := h
  simp [marks, hkind, head]

theorem marksAll_append (ns ms : List Node) : marksAll (ns ++ ms) = marksAll ns ++ marksAll ms := by
  induction ns with
  | nil => simp [marksAll]
  | cons n ns ih => simp [marksAll, ih]

theorem marksAll_singleton (n : Node) : marksAll [n] = n.marks := by
  simp [marksAll]

/-- Joining texts keeps the marks. -/
theorem marksAll_mergeText (ns : List Node) : marksAll (mergeText ns) = marksAll ns := by
  refine apply_mergeText (fun n ns ms h ↦ ?_) (fun ns htext hempty ↦ ?_) (fun {n m} ns hn hm _ _ ↦ ?_) ns
  · rw [marksAll, marksAll, h]
  · rw [marksAll, marks_of_isText htext, hempty]
    rfl
  · have htext : (ofText (n.text ++ m.text)).text = n.text ++ m.text := rfl
    rw [marksAll, marksAll, marksAll, marks_of_isText rfl, marks_of_isText hn, marks_of_isText hm,
      htext, String.toList_append, List.map_append, List.append_assoc]

mutual

/-- The letters of a tree are those of its text. -/
theorem letters_marks : (n : Node) → n.marks.filterMap Mark.letter? = n.textContent.toList
  | ⟨kind, tag, attrs, children, value, data⟩ => by
      rw [marks, textContent]
      split
      · simp [List.filterMap_map, Function.comp_def, Mark.letter?]
      · simp [List.filterMap_cons, Mark.letter?, letters_marksAll children]

theorem letters_marksAll : (ns : List Node) →
    (marksAll ns).filterMap Mark.letter? = (textContent.textOfAll ns).toList
  | [] => by simp [marksAll, textContent.textOfAll]
  | n :: rest => by
      simp [marksAll, textContent.textOfAll, letters_marks n, letters_marksAll rest]

end

section Revised

variable {α : Type} {before mid after before' after' : List Mark} {log log' : List α}

/-- The marks of a tree before and after a pass that changes nodes one by one, and the log of the
pass. The relation tells what the pass does to a node and what it notes about it. -/
inductive Revised (R : Node → Node → List α → Prop) : List Mark → List Mark → List α → Prop where
  | nil : Revised R [] [] []
  | letter (c : Char) {before after : List Mark} {log : List α} (h : Revised R before after log) :
      Revised R (.letter c :: before) (.letter c :: after) log
  | opens {n m : Node} {noted : List α} (hnode : R n m noted) {before after : List Mark}
      {log : List α} (h : Revised R before after log) :
      Revised R (.opens n :: before) (.opens m :: after) (noted ++ log)
  | closes {n m : Node} {noted : List α} (hnode : R n m noted) {before after : List Mark}
      {log : List α} (h : Revised R before after log) :
      Revised R (.closes n :: before) (.closes m :: after) log

namespace Revised

variable {R S T : Node → Node → List α → Prop}

theorem append (h : Revised R before after log) (h' : Revised R before' after' log') :
    Revised R (before ++ before') (after ++ after') (log ++ log') := by
  induction h with
  | nil => exact h'
  | letter c _ ih => exact .letter c ih
  | opens hnode _ ih =>
      rw [List.append_assoc]
      exact .opens hnode ih
  | closes hnode _ ih => exact .closes hnode ih

theorem letters (cs : List Char) : Revised R (cs.map .letter) (cs.map .letter) [] := by
  induction cs with
  | nil => exact .nil
  | cons c cs ih => exact .letter c ih

/-- A node that is changed around what a pass makes of its children. -/
theorem node {n m : Node} {noted : List α} (hnode : R n m noted) (h : Revised R before after log) :
    Revised R (.opens n :: (before ++ [.closes n])) (.opens m :: (after ++ [.closes m]))
      (noted ++ log) := by
  have hend : Revised R [.closes n] [.closes m] [] := .closes hnode .nil
  have hall := h.append hend
  rw [List.append_nil] at hall
  exact .opens hnode hall

/-- No letter is lost, added or moved. -/
theorem letters_eq (h : Revised R before after log) :
    after.filterMap Mark.letter? = before.filterMap Mark.letter? := by
  induction h with
  | nil => rfl
  | letter c _ ih => simp [List.filterMap_cons, ih]
  | opens _ _ ih => simpa [List.filterMap_cons, Mark.letter?] using ih
  | closes _ _ ih => simpa [List.filterMap_cons, Mark.letter?] using ih

/-- Two passes, one after the other. -/
theorem trans (hnode : ∀ n m k noted noted', R n m noted → S m k noted' →
      ∃ both, T n k both ∧ both.Perm (noted ++ noted'))
    (h : Revised R before mid log) (h' : Revised S mid after log') :
    ∃ both, Revised T before after both ∧ both.Perm (log ++ log') := by
  induction h generalizing after log' with
  | nil =>
      cases h'
      exact ⟨[], .nil, .refl _⟩
  | letter c _ ih =>
      cases h' with
      | letter _ h' =>
          obtain ⟨both, hboth, hperm⟩ := ih h'
          exact ⟨both, .letter c hboth, hperm⟩
  | @opens n m noted hR _ _ log _ ih =>
      cases h' with
      | @opens _ k noted' hS _ _ log' h' =>
          obtain ⟨both, hboth, hperm⟩ := ih h'
          obtain ⟨here, hT, hhere⟩ := hnode n m k noted noted' hR hS
          refine ⟨here ++ both, .opens hT hboth, (hhere.append hperm).trans ?_⟩
          simp only [List.append_assoc]
          exact (List.perm_append_comm_assoc noted' log log').append_left noted
  | @closes n m noted hR _ _ _ _ ih =>
      cases h' with
      | @closes _ k noted' hS _ _ _ h' =>
          obtain ⟨both, hboth, hperm⟩ := ih h'
          obtain ⟨here, hT, -⟩ := hnode n m k noted noted' hR hS
          exact ⟨both, .closes hT hboth, hperm⟩

end Revised

end Revised

end Node

end SafeMarkdown
