import SafeMarkdown.Proofs.Text.LetterCase
import SafeMarkdown.Proofs.Text.Scanning
import SafeMarkdown.Slug

/-!
# The normal form of slugs

A slug is made of the maximal runs of alphanumeric characters of a lowercase text, with one hyphen
between any two of them that follow each other. All characters of a slug are lowercase already, and
splitting it gives the runs again, so a slug is its own slug.
-/

namespace SafeMarkdown.Text

section Runs

variable {p : Char → Bool} {c : Char} {word run s : List Char} {runs : List (List Char)}

/-- Characters that belong to a run are added to the one being read. -/
theorem splitRuns_append (h : ∀ c ∈ run, p c = false) (word s : List Char) :
    splitRuns p word (run ++ s) = splitRuns p (run.reverse ++ word) s := by
  induction run generalizing word with
  | nil => rfl
  | cons c run ih =>
      rw [List.forall_mem_cons] at h
      rw [List.cons_append, splitRuns, h.1, if_neg Bool.false_ne_true, ih h.2, List.reverse_cons,
        List.append_assoc, List.singleton_append]

theorem splitRuns_cons (hc : p c = true) (hword : word ≠ []) (s : List Char) :
    splitRuns p word (c :: s) = word.reverse :: splitRuns p [] s := by
  rw [splitRuns, if_pos hc, if_neg (by simpa using hword)]

/-- A run is not empty and consists of characters of the text that do not end one. -/
theorem of_mem_splitRuns (hword : ∀ c ∈ word, p c = false) (h : run ∈ splitRuns p word s) :
    run ≠ [] ∧ ∀ c ∈ run, p c = false ∧ c ∈ word ++ s := by
  induction s generalizing word with
  | nil =>
      rw [splitRuns] at h
      split at h
      · cases h
      · rename_i hne
        rw [List.mem_singleton] at h
        refine ⟨by simpa [h] using hne, fun c hc ↦ ?_⟩
        rw [h, List.mem_reverse] at hc
        exact ⟨hword c hc, List.mem_append_left _ hc⟩
  | cons d s ih =>
      have hrest (hrun : run ∈ splitRuns p [] s) :
          run ≠ [] ∧ ∀ c ∈ run, p c = false ∧ c ∈ word ++ d :: s := by
        obtain ⟨hne, hall⟩ := ih (List.forall_mem_nil _) hrun
        exact ⟨hne, fun c hc ↦ ⟨(hall c hc).1, List.mem_append_right _ (.tail _ (hall c hc).2)⟩⟩
      rw [splitRuns] at h
      split at h
      · split at h
        · exact hrest h
        · rename_i hne
          rcases List.mem_cons.mp h with rfl | h
          · refine ⟨by simpa using hne, fun c hc ↦ ?_⟩
            rw [List.mem_reverse] at hc
            exact ⟨hword c hc, List.mem_append_left _ hc⟩
          · exact hrest h
      · rename_i hd
        obtain ⟨hne, hall⟩ :=
          ih (List.forall_mem_cons.mpr ⟨Bool.eq_false_iff.mpr hd, hword⟩) h
        refine ⟨hne, fun c hc ↦ ⟨(hall c hc).1, ?_⟩⟩
        have hmem := (hall c hc).2
        simp only [List.cons_append, List.mem_cons, List.mem_append] at hmem ⊢
        rcases hmem with hmem | hmem | hmem
        · exact .inr (.inl hmem)
        · exact .inl hmem
        · exact .inr (.inr hmem)

/-- Runs with one character between them that ends a run are read back. -/
theorem splitRuns_intercalate (hc : p c = true)
    (h : ∀ run ∈ runs, run ≠ [] ∧ ∀ d ∈ run, p d = false) :
    splitRuns p [] ([c].intercalate runs) = runs := by
  induction runs with
  | nil => rfl
  | cons run runs ih =>
      rw [List.forall_mem_cons] at h
      obtain ⟨⟨hne, hrun⟩, hruns⟩ := h
      have hback : run.reverse ++ [] ≠ [] := by simpa using hne
      cases runs with
      | nil =>
          have hlast := splitRuns_append hrun [] []
          rw [List.append_nil] at hlast
          rw [List.intercalate_singleton, hlast, splitRuns, if_neg (by simpa using hne),
            List.append_nil, List.reverse_reverse]
      | cons next rest =>
          rw [List.intercalate_cons_cons, List.append_assoc, splitRuns_append hrun,
            List.singleton_append, splitRuns_cons hc hback, ih hruns, List.append_nil,
            List.reverse_reverse]

theorem of_mem_intercalate {separator : List Char} (h : c ∈ separator.intercalate runs) :
    c ∈ separator ∨ ∃ run ∈ runs, c ∈ run := by
  induction runs with
  | nil => cases h
  | cons run runs ih =>
      cases runs with
      | nil =>
          rw [List.intercalate_singleton] at h
          exact .inr ⟨run, List.mem_cons_self, h⟩
      | cons next rest =>
          rw [List.intercalate_cons_cons, List.mem_append, List.mem_append] at h
          rcases h with (h | h) | h
          · exact .inr ⟨run, List.mem_cons_self, h⟩
          · exact .inl h
          · exact (ih h).imp_right fun ⟨found, hfound, hc⟩ ↦ ⟨found, .tail _ hfound, hc⟩

/-- A character at the end that ends a run makes no difference. -/
theorem splitRuns_concat (hc : p c = true) (word s : List Char) :
    splitRuns p word (s ++ [c]) = splitRuns p word s := by
  induction s generalizing word with
  | nil =>
      cases word with
      | nil => simp [splitRuns, hc]
      | cons d word => simp [splitRuns, hc]
  | cons d s ih => rw [List.cons_append, splitRuns, splitRuns, ih, ih]

end Runs

end SafeMarkdown.Text

namespace SafeMarkdown.Slug

/-- Whether a character ends a run. -/
def isGap (c : Char) : Bool :=
  !Text.isAlphanumeric c

/-- The maximal runs of alphanumeric characters of the lowercase text. -/
def runs (s : String) : List String :=
  (Text.splitRuns isGap [] (Text.lower s.toList)).map String.ofList

/-- Runs of alphanumeric characters, with single hyphens between them. -/
def IsNormal (s : String) : Prop :=
  ∃ runs : List String,
    (∀ run ∈ runs, run ≠ "" ∧ ∀ c ∈ run.toList, Text.isAlphanumeric c = true) ∧
      s = "-".intercalate runs

theorem isGap_hyphen : isGap '-' = true := by decide

theorem isAlphanumeric_of_mem_runs {run s : String} (h : run ∈ runs s) :
    run ≠ "" ∧ ∀ c ∈ run.toList, Text.isAlphanumeric c = true := by
  obtain ⟨cs, hcs, rfl⟩ := List.mem_map.mp h
  obtain ⟨hne, hall⟩ := Text.of_mem_splitRuns (List.forall_mem_nil _) hcs
  rw [String.toList_ofList]
  refine ⟨fun heq ↦ hne ?_, fun c hc ↦ by simpa [isGap] using (hall c hc).1⟩
  rw [← String.toList_ofList (l := cs), heq]
  rfl

/-- What is hyphenated are the runs with a hyphen between any two; where the text ends in a gap, one
more hyphen follows. A run that has been started goes on, and a gap that is being passed gives no
hyphen again. -/
theorem exists_hyphenate_eq (s : List Char) :
    (∀ word, word ≠ [] → ∃ after, (∀ c ∈ after, (c == '-') = true) ∧
      word.reverse ++ hyphenate false s =
        ['-'].intercalate (Text.splitRuns isGap word s) ++ after) ∧
    ∃ after, (∀ c ∈ after, (c == '-') = true) ∧
      hyphenate true s = ['-'].intercalate (Text.splitRuns isGap [] s) ++ after := by
  induction s with
  | nil =>
      refine ⟨fun word hword ↦ ⟨[], List.forall_mem_nil _, ?_⟩, [], List.forall_mem_nil _, rfl⟩
      rw [Text.splitRuns, if_neg (by simpa using hword), List.intercalate_singleton]
      rfl
  | cons c s ih =>
      obtain ⟨ihrun, after, hafter, hgap⟩ := ih
      cases hc : Text.isAlphanumeric c with
      | true =>
          have hrun : ∀ d ∈ [c], isGap d = false := by simp [isGap, hc]
          have hread (word : List Char) : Text.splitRuns isGap word (c :: s) =
              Text.splitRuns isGap (c :: word) s := Text.splitRuns_append hrun word s
          have hkept (inRun : Bool) : hyphenate inRun (c :: s) = c :: hyphenate false s := by
            rw [hyphenate, if_pos hc]
          refine ⟨fun word _ ↦ ?_, ?_⟩
          · rw [hread, hkept]
            simpa using ihrun (c :: word) (List.cons_ne_nil c word)
          · rw [hread, hkept]
            exact ihrun [c] (List.cons_ne_nil c [])
      | false =>
          have hends : isGap c = true := by simp [isGap, hc]
          refine ⟨fun word hword ↦ ?_, after, hafter, ?_⟩
          · rw [Text.splitRuns_cons hends hword, hyphenate, hc, if_neg Bool.false_ne_true,
              if_neg Bool.false_ne_true, hgap]
            cases Text.splitRuns isGap [] s with
            | nil =>
                refine ⟨'-' :: after, List.forall_mem_cons.mpr ⟨rfl, hafter⟩, ?_⟩
                rw [List.intercalate_singleton]
                rfl
            | cons run runs =>
                refine ⟨after, hafter, ?_⟩
                rw [List.intercalate_cons_cons]
                simp
          · rw [hyphenate, hc, if_neg Bool.false_ne_true, if_pos rfl, hgap, Text.splitRuns, hends]
            rfl

theorem exists_hyphenate_false_eq (s : List Char) : ∃ before after,
    (∀ c ∈ before, (c == '-') = true) ∧ (∀ c ∈ after, (c == '-') = true) ∧
    hyphenate false s = before ++ ['-'].intercalate (Text.splitRuns isGap [] s) ++ after := by
  cases s with
  | nil => exact ⟨[], [], List.forall_mem_nil _, List.forall_mem_nil _, rfl⟩
  | cons c s =>
      obtain ⟨hrun, after, hafter, hgap⟩ := exists_hyphenate_eq s
      rw [hyphenate, Text.splitRuns, isGap]
      cases Text.isAlphanumeric c with
      | true =>
          obtain ⟨after, hafter, heq⟩ := hrun [c] (List.cons_ne_nil c [])
          exact ⟨[], after, List.forall_mem_nil _, hafter, heq⟩
      | false =>
          refine ⟨['-'], after, List.forall_mem_singleton.mpr rfl, hafter, ?_⟩
          rw [if_neg Bool.false_ne_true, if_neg Bool.false_ne_true, hgap]
          rfl

namespace IsNormal

variable {s : String} {c : Char}

/-- A text in normal form starts with a character of a run. -/
theorem isAlphanumeric_of_head (h : IsNormal s) (hc : s.toList.head? = some c) :
    Text.isAlphanumeric c = true := by
  obtain ⟨runs, hruns, rfl⟩ := h
  cases runs with
  | nil => cases hc
  | cons run rest =>
      obtain ⟨hne, hall⟩ := hruns run List.mem_cons_self
      have hchars : run.toList ≠ [] := fun hnil ↦ hne (String.toList_inj.mp hnil)
      have hhead : ("-".intercalate (run :: rest)).toList.head? = run.toList.head? := by
        cases rest with
        | nil => rw [String.intercalate_singleton]
        | cons next rest =>
            rw [String.intercalate_cons_cons, String.append_assoc, String.toList_append,
              List.head?_append, List.head?_eq_some_head hchars, Option.some_or]
      rw [hhead] at hc
      exact hall c (List.mem_of_head? hc)

/-- It ends with one as well. -/
theorem isAlphanumeric_of_getLast (h : IsNormal s) (hc : s.toList.getLast? = some c) :
    Text.isAlphanumeric c = true := by
  obtain ⟨runs, hruns, rfl⟩ := h
  rcases List.eq_nil_or_concat runs with rfl | ⟨init, run, rfl⟩
  · cases hc
  · obtain ⟨hne, hall⟩ := hruns run (by simp)
    have hchars : run.toList ≠ [] := fun hnil ↦ hne (String.toList_inj.mp hnil)
    have hlast : ("-".intercalate (init ++ [run])).toList.getLast? = run.toList.getLast? := by
      cases init with
      | nil => rw [List.nil_append, String.intercalate_singleton]
      | cons first init =>
          rw [String.intercalate_append_of_ne_nil (List.cons_ne_nil _ _) (List.cons_ne_nil _ _),
            String.intercalate_singleton, String.toList_append, List.getLast?_append,
            List.getLast?_eq_some_getLast hchars, Option.some_or]
    rw [List.concat_eq_append, hlast] at hc
    exact hall c (List.mem_of_getLast? hc)

/-- No hyphen stands at either end. -/
theorem not_hyphen (h : IsNormal s) :
    s.toList.head? ≠ some '-' ∧ s.toList.getLast? ≠ some '-' := by
  constructor
  · intro hc
    exact absurd (h.isAlphanumeric_of_head hc) (by decide)
  · intro hc
    exact absurd (h.isAlphanumeric_of_getLast hc) (by decide)

end IsNormal

theorem isNormal_intercalate_runs (s : String) : IsNormal ("-".intercalate (runs s)) :=
  ⟨runs s, fun _ hrun ↦ isAlphanumeric_of_mem_runs hrun, rfl⟩

theorem toList_intercalate_runs (s : String) :
    ("-".intercalate (runs s)).toList =
      ['-'].intercalate (Text.splitRuns isGap [] (Text.lower s.toList)) := by
  rw [String.toList_intercalate, runs, List.map_map]
  simp [Function.comp_def]

/-- A slug is the runs of a text with hyphens between them. -/
theorem ofText_eq_intercalate_runs (s : String) : ofText s = "-".intercalate (runs s) := by
  obtain ⟨before, after, hbefore, hafter, heq⟩ := exists_hyphenate_false_eq (Text.lower s.toList)
  obtain ⟨hhead, hlast⟩ := (isNormal_intercalate_runs s).not_hyphen
  rw [← String.toList_inj, ofText, String.toList_ofList, heq, ← toList_intercalate_runs]
  refine Text.trimWhile_append_append hbefore hafter (fun c hc ↦ ?_) (fun c hc ↦ ?_)
  · exact beq_eq_false_iff_ne.mpr fun heq ↦ hhead (heq ▸ hc)
  · exact beq_eq_false_iff_ne.mpr fun heq ↦ hlast (heq ▸ hc)

theorem isNormal_ofText (s : String) : IsNormal (ofText s) := by
  rw [ofText_eq_intercalate_runs]
  exact isNormal_intercalate_runs s

/-- The characters of a slug are lowercase. -/
theorem isLower_of_mem_ofText {s : String} {c : Char} (hc : c ∈ (ofText s).toList) :
    Text.IsLower c := by
  rw [ofText_eq_intercalate_runs, toList_intercalate_runs] at hc
  rcases Text.of_mem_intercalate hc with hc | ⟨run, hrun, hc⟩
  · rw [List.mem_singleton.mp hc]
    exact Text.isLower_toLower (c := '-') (by decide)
  · have hmem := ((Text.of_mem_splitRuns (List.forall_mem_nil _) hrun).2 c hc).2
    exact Text.isLower_of_mem_lowerAfter hmem

/-- The runs of a slug are those of the text. -/
theorem runs_ofText (s : String) : runs (ofText s) = runs s := by
  have hlower : Text.lower (ofText s).toList = (ofText s).toList :=
    Text.lowerAfter_eq_self fun _ ↦ isLower_of_mem_ofText
  rw [runs, hlower, ofText_eq_intercalate_runs, toList_intercalate_runs,
    Text.splitRuns_intercalate isGap_hyphen, runs]
  intro run hrun
  obtain ⟨hne, hall⟩ := Text.of_mem_splitRuns (List.forall_mem_nil _) hrun
  exact ⟨hne, fun c hc ↦ (hall c hc).1⟩

/-- A slug is its own slug. -/
theorem ofText_ofText (s : String) : ofText (ofText s) = ofText s := by
  rw [ofText_eq_intercalate_runs (ofText s), runs_ofText, ← ofText_eq_intercalate_runs]

end SafeMarkdown.Slug
