import Mathlib.Data.List.Flatten
import SafeMarkdown.Markdown.Block.Read
import SafeMarkdown.Proofs.Text.Scanning

/-!
# Angle brackets in lines

On the way to a block a line loses the marks of its containers, and its tabs may become spaces, so it
may get longer; but it gets no angle brackets. So the lines that a container has read have no more of
them than its own, and the text that lines are joined to has none but theirs.
-/

namespace SafeMarkdown.Markdown

/-- The angle brackets of a line. -/
def Line.brackets (l : Line) : Nat :=
  (l.lead ++ l.body).count '<'

/-- The angle brackets of lines. -/
def bracketsIn (lines : List Line) : Nat :=
  (lines.flatMap fun l ↦ l.lead ++ l.body).count '<'

variable {l : Line} {lines more : List Line} {s : List Char}

@[simp]
theorem bracketsIn_nil : bracketsIn [] = 0 :=
  rfl

@[simp]
theorem bracketsIn_cons (l : Line) (lines : List Line) :
    bracketsIn (l :: lines) = l.brackets + bracketsIn lines := by
  rw [bracketsIn, List.flatMap_cons, List.count_append]
  rfl

theorem bracketsIn_cons_le {k : Line} (h : k.brackets ≤ l.brackets) (lines : List Line) :
    bracketsIn (k :: lines) ≤ bracketsIn (l :: lines) := by
  rw [bracketsIn_cons, bracketsIn_cons]
  exact Nat.add_le_add_right h _

@[simp]
theorem bracketsIn_append (lines more : List Line) :
    bracketsIn (lines ++ more) = bracketsIn lines + bracketsIn more := by
  rw [bracketsIn, List.flatMap_append, List.count_append]
  rfl

theorem bracketsIn_le_of_sublist (h : more.Sublist lines) : bracketsIn more ≤ bracketsIn lines :=
  (h.flatMap _).count_le '<'

theorem bracketsIn_take_le (n : Nat) (lines : List Line) :
    bracketsIn (lines.take n) ≤ bracketsIn lines :=
  bracketsIn_le_of_sublist (List.take_sublist n lines)

theorem bracketsIn_drop_le (n : Nat) (lines : List Line) :
    bracketsIn (lines.drop n) ≤ bracketsIn lines :=
  bracketsIn_le_of_sublist (List.drop_sublist n lines)

theorem leadingBlanks_append_dropBlanks (s : List Char) : leadingBlanks s ++ dropBlanks s = s :=
  List.takeWhile_append_dropWhile

/-- Cutting a line leaves nothing new but spaces. -/
theorem count_cutFrom_le (base columns column lead : Nat) (s : List Char) :
    (Line.cutFrom base columns column lead s).count '<' ≤ s.count '<' := by
  have hspaces (n : Nat) : (List.replicate n ' ').count '<' = 0 := by
    simp [List.count_replicate]
  induction s generalizing column lead with
  | nil => simp [Line.cutFrom, hspaces]
  | cons c s ih =>
      have hdrop := (List.sublist_cons_self c s).count_le '<'
      unfold Line.cutFrom
      split
      · simp [hspaces]
      · split
        · exact Nat.le_trans (ih _ _) hdrop
        · split
          · exact Nat.le_trans (ih _ _) hdrop
          · exact Nat.le_refl _

theorem count_cut_le (columns : Nat) (l : Line) : (l.cut columns).count '<' ≤ l.brackets :=
  count_cutFrom_le _ _ _ _ _

theorem count_join_le (columns : Nat) (keepLast : Bool) (lines : List Line) :
    (Line.join columns keepLast lines).count '<' ≤ bracketsIn lines := by
  induction lines with
  | nil => exact Nat.le_refl 0
  | cons l lines ih =>
      have hcut := count_cut_le columns l
      cases lines with
      | nil =>
          rw [Line.join]
          split
          · simpa [List.count_append] using hcut
          · simpa using hcut
      | cons k lines =>
          rw [Line.join]
          · simp only [List.count_append, List.count_cons_of_ne (show '\n' ≠ '<' by decide),
              bracketsIn_cons]
            simp only [bracketsIn_cons] at ih
            omega
          · simp

theorem brackets_unquote_le (l : Line) : (unquote l).brackets ≤ l.brackets := by
  have hinner (inner : List Char) (h : inner.Sublist l.body) :
      (leadingBlanks inner ++ dropBlanks inner).count '<' ≤ l.brackets := by
    rw [leadingBlanks_append_dropBlanks]
    exact (h.trans (List.sublist_append_right _ _)).count_le '<'
  unfold unquote
  apply hinner
  split
  · exact (List.drop_sublist _ _).trans (List.drop_sublist _ _)
  · exact List.drop_sublist _ _

/-- The lines of a quotation have no more angle brackets than those it takes. -/
theorem brackets_quotedLines_le (scope : Scope) (lastEmpty : Bool) (lines : List Line) :
    bracketsIn (quotedLines scope lastEmpty lines).1 ≤
      bracketsIn (lines.take (quotedLines scope lastEmpty lines).1.length) := by
  induction lines generalizing lastEmpty with
  | nil => exact Nat.le_refl 0
  | cons l lines ih =>
      rw [quotedLines]
      split
      · exact Nat.zero_le _
      · split
        · have hmore := ih (unquote l).isEmpty
          have hline := brackets_unquote_le l
          dsimp only
          simp only [List.length_cons, List.take_succ_cons, bracketsIn_cons]
          omega
        · split
          · exact Nat.zero_le _
          · split
            · exact Nat.zero_le _
            · have hmore := ih false
              dsimp only
              simp only [List.length_cons, List.take_succ_cons, bracketsIn_cons]
              exact Nat.add_le_add_left hmore _

theorem brackets_itemStart (l : Line) (m : ListMark) :
    (itemStart l m).1.brackets = l.brackets := by
  unfold itemStart Line.brackets
  dsimp only
  rw [List.append_assoc, leadingBlanks_append_dropBlanks, List.append_assoc,
    List.take_append_drop]

theorem sublist_of_footnoteLine? {scope : Scope} {label after : List Char}
    (h : footnoteLine? scope l = some (label, after)) : after.Sublist l.body := by
  unfold footnoteLine? at h
  split at h
  · rename_i rest hbody
    dsimp only at h
    split at h
    · cases h
    · split at h
      · rename_i hafter
        cases h
        rw [hbody]
        have hdrop := List.drop_sublist (rest.takeWhile fun c ↦ c != ' ' && c != ']').length rest
        rw [hafter] at hdrop
        have hsuffix : after.Sublist rest :=
          ((List.sublist_cons_self _ _).trans (List.sublist_cons_self _ _)).trans hdrop
        exact (hsuffix.trans (List.sublist_cons_self _ _)).trans (List.sublist_cons_self _ _)
      · cases h
  · cases h

/-- The lines of a text have no more angle brackets than the text. -/
theorem bracketsIn_linesOf_le (s : List Char) : bracketsIn (linesOf s) ≤ s.count '<' := by
  have hline (piece : List Char) (ended : Bool) :
      (Line.ofChars piece ended).lead ++ (Line.ofChars piece ended).body = piece :=
    leadingBlanks_append_dropBlanks piece
  have hended (pieces : List (List Char)) :
      bracketsIn (pieces.map (Line.ofChars · true)) = pieces.flatten.count '<' := by
    rw [bracketsIn, List.flatMap_map]
    simp only [hline, List.flatMap_id']
  have hpieces := (Text.flatten_splitAtEach_sublist (p := (· == '\n')) (s := s)).count_le '<'
  rw [← List.dropLast_concat_getLast (Text.splitAtEach_ne_nil (· == '\n') s), List.flatten_append,
    List.count_append] at hpieces
  rw [linesOf, List.getLast?_eq_some_getLast (Text.splitAtEach_ne_nil _ s)]
  dsimp only [Option.getD_some]
  split
  · rw [hended]
    omega
  · rw [bracketsIn_append, hended]
    simpa [bracketsIn, hline] using hpieces

theorem count_normalize (s : String) : (normalize s).count '<' = s.toList.count '<' := by
  have hunify (s : List Char) : (Text.unifyLineEnds s).count '<' = s.count '<' := by
    fun_induction Text.unifyLineEnds s <;> simp_all [List.count_cons]
  have hnul (s : List Char) :
      (s.map fun c ↦ if c.toNat = 0 then Char.ofNat 0xfffd else c).count '<' = s.count '<' := by
    induction s with
    | nil => rfl
    | cons c s ih =>
        rw [List.map_cons, List.count_cons, List.count_cons, ih]
        split
        · rename_i hzero
          have hne : c ≠ '<' := by
            rintro rfl
            exact absurd hzero (by decide)
          rw [if_neg (by decide), if_neg (by simpa using hne)]
        · rfl
  exact (hnul _).trans (hunify _)

end SafeMarkdown.Markdown
