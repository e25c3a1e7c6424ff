import Mathlib.Data.List.Chain
import SafeMarkdown.Code.Highlight

/-!
# Spans spell lexemes

Read letter by letter, each with the class that it is shown in, the spans of lexemes are the letters
of the lexemes, each with the class of its lexeme. No span is empty, and neighbours differ in their
classes, so there are no two texts and no two spans of one class beside each other. Of the lists of
texts and spans like that only this one reads as the lexemes do.
-/

namespace SafeMarkdown.Code

open Node

/-- The class that a letter is shown in, if its type has one. -/
def shownClass (c : String) : Option String :=
  if c.isEmpty then none else some c

theorem shownClass_injective : Function.Injective shownClass := by
  intro c d h
  unfold shownClass at h
  split at h
  · rename_i hc
    split at h
    · rename_i hd
      rw [String.isEmpty_iff.mp hc, String.isEmpty_iff.mp hd]
    · cases h
  · split at h
    · cases h
    · exact Option.some.inj h

/-- The letters of a lexeme, each with its class. -/
def Lexeme.letters (l : Lexeme) : List (Char × Option String) :=
  l.text.map (·, shownClass l.type.cssClass)

def Run.letters (r : Run) : List (Char × Option String) :=
  r.text.map (·, shownClass r.cssClass)

/-- The class of a span; a text has none. -/
def spanClass? (n : Node) : Option String :=
  match n.kind, n.attrs.get? "class" with
  | .text, _ => none
  | _, some (.arr [.str c]) => some c
  | _, _ => none

/-- The letters that a node shows, each with the class of the node. -/
def shownLetters (n : Node) : List (Char × Option String) :=
  n.textContent.toList.map (·, spanClass? n)

section Runs

variable {ls : List Lexeme} {r : Run}

/-- A lexeme in front of others is nothing, or it joins their first run, or it is a run of its
own in front of runs that begin with another class. -/
theorem runs_cons (l : Lexeme) (ls : List Lexeme) :
    (l.text = [] ∧ runs (l :: ls) = runs ls) ∨
    (∃ r more, runs ls = r :: more ∧ r.cssClass = l.type.cssClass ∧
      runs (l :: ls) = ⟨r.cssClass, l.text ++ r.text⟩ :: more) ∨
    (l.text ≠ [] ∧ (∀ r ∈ (runs ls).head?, l.type.cssClass ≠ r.cssClass) ∧
      runs (l :: ls) = ⟨l.type.cssClass, l.text⟩ :: runs ls) := by
  rw [runs]
  split
  · rename_i hempty
    exact .inl ⟨List.isEmpty_iff.mp hempty, rfl⟩
  · rename_i hempty
    have hne : l.text ≠ [] := fun hnil ↦ hempty (List.isEmpty_iff.mpr hnil)
    split
    · rename_i hnil
      refine .inr (.inr ⟨hne, ?_, by rw [hnil]⟩)
      rw [hnil]
      intro r hr
      cases hr
    · rename_i r more hmore
      split
      · rename_i hclass
        exact .inr (.inl ⟨r, more, hmore, eq_of_beq hclass, rfl⟩)
      · rename_i hclass
        refine .inr (.inr ⟨hne, ?_, by rw [hmore]⟩)
        rw [hmore]
        intro r' hr' heq
        cases hr'
        exact hclass (beq_iff_eq.mpr heq.symm)

theorem letters_runs (ls : List Lexeme) :
    (runs ls).flatMap Run.letters = ls.flatMap Lexeme.letters := by
  induction ls with
  | nil => rfl
  | cons l ls ih =>
      rw [List.flatMap_cons, ← ih]
      rcases runs_cons l ls with ⟨hnil, hruns⟩ | ⟨r, more, hmore, hclass, hruns⟩ | ⟨-, -, hruns⟩
      · rw [hruns, Lexeme.letters, hnil]
        rfl
      · rw [hruns, hmore, List.flatMap_cons, List.flatMap_cons, ← List.append_assoc, Lexeme.letters,
          Run.letters, Run.letters, List.map_append, hclass]
      · rw [hruns]
        rfl

theorem runs_text_ne_nil (ls : List Lexeme) : ∀ r ∈ runs ls, r.text ≠ [] := by
  induction ls with
  | nil => exact List.forall_mem_nil _
  | cons l ls ih =>
      rcases runs_cons l ls with ⟨-, hruns⟩ | ⟨r, more, hmore, -, hruns⟩ | ⟨hne, -, hruns⟩
      · rwa [hruns]
      · rw [hmore, List.forall_mem_cons] at ih
        rw [hruns]
        exact List.forall_mem_cons.mpr ⟨fun h ↦ ih.1 (List.append_eq_nil_iff.mp h).2, ih.2⟩
      · rw [hruns]
        exact List.forall_mem_cons.mpr ⟨hne, ih⟩

theorem isChain_runs (ls : List Lexeme) :
    (runs ls).IsChain fun r s ↦ r.cssClass ≠ s.cssClass := by
  induction ls with
  | nil => exact .nil
  | cons l ls ih =>
      rcases runs_cons l ls with ⟨-, hruns⟩ | ⟨r, more, hmore, -, hruns⟩ | ⟨-, hhead, hruns⟩
      · rwa [hruns]
      · rw [hmore, List.isChain_cons] at ih
        rw [hruns, List.isChain_cons]
        exact ih
      · rw [hruns, List.isChain_cons]
        exact ⟨hhead, ih⟩

end Runs

section Nodes

theorem spanClass_node (r : Run) : spanClass? r.node = shownClass r.cssClass := by
  unfold Run.node shownClass
  dsimp only
  split
  · rfl
  · rfl

theorem toList_textContent_node (r : Run) : r.node.textContent.toList = r.text := by
  unfold Run.node
  dsimp only
  split
  · rw [ofText, textContent]
    exact String.toList_ofList
  · rw [element, textContent, if_neg (by decide), textContent.textOfAll, textContent.textOfAll,
      String.append_empty, ofText, textContent]
    exact String.toList_ofList

theorem shownLetters_node (r : Run) : shownLetters r.node = r.letters := by
  rw [shownLetters, toList_textContent_node, spanClass_node, Run.letters]

theorem flatMap_shownLetters (rs : List Run) :
    (rs.map Run.node).flatMap shownLetters = rs.flatMap Run.letters := by
  rw [List.flatMap_map]
  exact List.flatMap_congr fun r _ ↦ shownLetters_node r

/-- Whether nodes are texts and spans none of which is empty, and no two of one kind are beside each
other. -/
structure IsNormal (ns : List Node) : Prop where
  shape : ∀ n ∈ ns, ∃ s, s ≠ "" ∧ (n = ofText s ∨
    ∃ c, c ≠ "" ∧ n = element "span" [("class", .arr [.str c])] [ofText s])
  apart : ns.IsChain fun m n ↦ spanClass? m ≠ spanClass? n

theorem isNormal_map_node {rs : List Run} (htext : ∀ r ∈ rs, r.text ≠ [])
    (hapart : rs.IsChain fun r s ↦ r.cssClass ≠ s.cssClass) : IsNormal (rs.map Run.node) where
  shape := by
    intro n hn
    obtain ⟨r, hr, rfl⟩ := List.mem_map.mp hn
    refine ⟨String.ofList r.text, fun hempty ↦ htext r hr ?_, ?_⟩
    · rw [← String.toList_ofList (l := r.text), hempty]
      rfl
    · unfold Run.node
      dsimp only
      split
      · exact .inl rfl
      · rename_i hclass
        exact .inr ⟨r.cssClass, fun hnone ↦ hclass (String.isEmpty_iff.mpr hnone), rfl⟩
  apart := by
    rw [List.isChain_map]
    refine hapart.imp fun r s hne hclass ↦ hne (shownClass_injective ?_)
    rwa [spanClass_node, spanClass_node] at hclass

end Nodes

section Unique

variable {rs ss : List Run} {r s : Run}

theorem exists_run {n : Node} (h : ∃ s, s ≠ "" ∧ (n = ofText s ∨
    ∃ c, c ≠ "" ∧ n = element "span" [("class", .arr [.str c])] [ofText s])) :
    ∃ r : Run, r.node = n ∧ r.text ≠ [] := by
  obtain ⟨s, hs, rfl | ⟨c, hc, rfl⟩⟩ := h
  · refine ⟨⟨"", s.toList⟩, ?_, fun hnil ↦ hs (String.toList_eq_nil_iff.mp hnil)⟩
    rw [Run.node, String.ofList_toList]
    rfl
  · refine ⟨⟨c, s.toList⟩, ?_, fun hnil ↦ hs (String.toList_eq_nil_iff.mp hnil)⟩
    rw [Run.node, String.ofList_toList]
    exact if_neg fun hempty ↦ hc (String.isEmpty_iff.mp hempty)

/-- Nodes in normal form are those of runs. -/
theorem IsNormal.exists_runs {ns : List Node} (h : IsNormal ns) :
    ∃ rs : List Run, rs.map Run.node = ns ∧ (∀ r ∈ rs, r.text ≠ []) ∧
      rs.IsChain fun r s ↦ r.cssClass ≠ s.cssClass := by
  have hruns : ∃ rs : List Run, rs.map Run.node = ns ∧ ∀ r ∈ rs, r.text ≠ [] := by
    have hshape := h.shape
    clear h
    induction ns with
    | nil => exact ⟨[], rfl, List.forall_mem_nil _⟩
    | cons n rest ih =>
        rw [List.forall_mem_cons] at hshape
        obtain ⟨r, hr, hne⟩ := exists_run hshape.1
        obtain ⟨rs, hrs, hall⟩ := ih hshape.2
        exact ⟨r :: rs, by rw [List.map_cons, hr, hrs], List.forall_mem_cons.mpr ⟨hne, hall⟩⟩
  obtain ⟨rs, rfl, htext⟩ := hruns
  have hapart := h.apart
  rw [List.isChain_map] at hapart
  refine ⟨rs, rfl, htext, hapart.imp fun r s hne hclass ↦ hne ?_⟩
  rw [spanClass_node, spanClass_node, hclass]

/-- The letters of the first run are those in front that have its class. -/
theorem takeWhile_letters (htext : ∀ s ∈ rs, s.text ≠ [])
    (hapart : (r :: rs).IsChain fun r s ↦ r.cssClass ≠ s.cssClass) :
    ((r :: rs).flatMap Run.letters).takeWhile (fun p ↦ p.2 = shownClass r.cssClass) =
      r.letters := by
  have hall : ∀ p ∈ r.letters, decide (p.2 = shownClass r.cssClass) = true := by
    intro p hp
    obtain ⟨c, -, rfl⟩ := List.mem_map.mp hp
    exact decide_eq_true rfl
  rw [List.flatMap_cons, List.takeWhile_append_of_pos hall]
  refine (congrArg _ ?_).trans (List.append_nil _)
  cases rs with
  | nil => rfl
  | cons s more =>
      obtain ⟨c, cs, hs⟩ := List.exists_cons_of_ne_nil (htext s List.mem_cons_self)
      have hne : shownClass s.cssClass ≠ shownClass r.cssClass := fun heq ↦
        (List.isChain_cons_cons.mp hapart).1 (shownClass_injective heq.symm)
      rw [List.flatMap_cons, Run.letters, hs, List.map_cons, List.cons_append]
      exact List.takeWhile_cons_of_neg fun heq ↦ hne (of_decide_eq_true heq)

/-- Runs are known from their letters. -/
theorem eq_of_letters (hrs : ∀ r ∈ rs, r.text ≠ [])
    (hrsApart : rs.IsChain fun r s ↦ r.cssClass ≠ s.cssClass) (hss : ∀ s ∈ ss, s.text ≠ [])
    (hssApart : ss.IsChain fun r s ↦ r.cssClass ≠ s.cssClass)
    (h : rs.flatMap Run.letters = ss.flatMap Run.letters) : rs = ss := by
  induction rs generalizing ss with
  | nil =>
      cases ss with
      | nil => rfl
      | cons s more =>
          have hnil : s.letters = [] := (List.append_eq_nil_iff.mp h.symm).1
          exact (hss s List.mem_cons_self (List.map_eq_nil_iff.mp hnil)).elim
  | cons r rs ih =>
      cases ss with
      | nil =>
          have hnil : r.letters = [] := (List.append_eq_nil_iff.mp h).1
          exact (hrs r List.mem_cons_self (List.map_eq_nil_iff.mp hnil)).elim
      | cons s more =>
          rw [List.forall_mem_cons] at hrs hss
          -- The first letter tells the class of both first runs.
          have hclass : r.cssClass = s.cssClass := by
            obtain ⟨c, cs, hr⟩ := List.exists_cons_of_ne_nil hrs.1
            obtain ⟨d, ds, hs⟩ := List.exists_cons_of_ne_nil hss.1
            rw [List.flatMap_cons, List.flatMap_cons, Run.letters, Run.letters, hr, hs] at h
            exact shownClass_injective (Prod.ext_iff.mp (List.cons.inj h).1).2
          have hletters : r.letters = s.letters := by
            rw [← takeWhile_letters hrs.2 hrsApart, ← takeWhile_letters hss.2 hssApart, h, hclass]
          have htext : r.text = s.text := by
            have hmap := congrArg (List.map Prod.fst) hletters
            simpa [Run.letters, Function.comp_def] using hmap
          have hrest : rs = more := by
            rw [List.flatMap_cons, List.flatMap_cons, hletters] at h
            exact ih hrs.2 hrsApart.of_cons hss.2 hssApart.of_cons (List.append_cancel_left h)
          have hfirst : r = s := by
            cases r
            cases s
            cases hclass
            cases htext
            rfl
          rw [hfirst, hrest]

end Unique

/-- The spans of lexemes show every letter of them in the class of its lexeme, and they are in
normal form. Nothing else in normal form shows the same. -/
theorem spans_normal (ls : List Lexeme) :
    (spans ls).flatMap shownLetters = ls.flatMap Lexeme.letters ∧ IsNormal (spans ls) ∧
      ∀ ns, IsNormal ns → ns.flatMap shownLetters = ls.flatMap Lexeme.letters → ns = spans ls := by
  have htext := runs_text_ne_nil ls
  have hapart := isChain_runs ls
  refine ⟨?_, isNormal_map_node htext hapart, fun ns hnormal hletters ↦ ?_⟩
  · rw [spans, flatMap_shownLetters, letters_runs]
  · obtain ⟨rs, rfl, hrs, hrsApart⟩ := hnormal.exists_runs
    rw [flatMap_shownLetters, ← letters_runs] at hletters
    rw [spans, eq_of_letters hrs hrsApart htext hapart hletters]

end SafeMarkdown.Code
