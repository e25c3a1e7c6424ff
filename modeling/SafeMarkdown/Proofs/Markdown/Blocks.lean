import SafeMarkdown.Proofs.Heading.Regular
import SafeMarkdown.Proofs.Markdown.Brackets

/-!
# Blocks of a document

A block is made by a rule of its own from lines of the document, however deep its containers. So what
holds of the blocks that the rules make, and of a container if it holds of its content, holds of all
blocks of a document. A heading has one of six levels: a line that starts with number signs has one
to six of them, and an underline makes the first or the second level. A piece of raw markup is the
text of some lines, so it has no more angle brackets than the document.
-/

namespace SafeMarkdown.Markdown

theorem isLevel_of_headingLine? {scope : Scope} {l : Line} {level : Nat} {text : List Char}
    (h : headingLine? scope l = some (level, text)) : IsLevel level := by
  unfold headingLine? at h
  obtain ⟨hcond, heq⟩ := Option.ite_none_right_eq_some.mp h
  cases heq
  simp only [Bool.and_eq_true, decide_eq_true_eq] at hcond
  exact ⟨hcond.1.1.2, hcond.1.2⟩

theorem isLevel_of_underline? {scope : Scope} {l : Line} {level : Nat}
    (h : underline? scope l = some level) : IsLevel level := by
  unfold underline? at h
  split at h
  · cases h
  · split at h
    · cases h
      split
      · exact ⟨Nat.le_refl 1, by decide⟩
      · exact ⟨by decide, by decide⟩
    · cases h

theorem isLevel_of_underlinedExtent {scope : Scope} {lines : List Line} {n level : Nat}
    (h : underlinedExtent scope lines = some (n, level)) : IsLevel level := by
  induction lines generalizing n with
  | nil => cases h
  | cons l rest ih =>
      have hmore (h : afterOneLine (underlinedExtent scope rest) = some (n, level)) :
          IsLevel level := by
        obtain ⟨⟨m, k⟩, hextent, heq⟩ := Option.map_eq_some_iff.mp h
        cases heq
        exact ih hextent
      rw [underlinedExtent] at h
      split at h
      · cases h
      · split at h
        · exact hmore h
        · split at h
          · rename_i hunderline
            cases h
            exact isLevel_of_underline? hunderline
          · split at h
            · cases h
            · exact hmore h

section Reading

/-- Whether a block is neither a heading nor raw markup and holds no other blocks. -/
def Block.isPlain : Block → Bool
  | .paragraph _ | .code _ | .fence _ _ | .rule | .table _ _ _ | .definition _ => true
  | _ => false

/-- What rules keep of the blocks that they read from lines with at most so many angle brackets. -/
structure KeptByReading (P : Nat → Block → Prop) : Prop where
  mono {m n : Nat} {b : Block} (h : P m b) (hle : m ≤ n) : P n b
  plain {b : Block} (h : b.isPlain = true) (n : Nat) : P n b
  heading {level : Nat} (h : IsLevel level) (text : List Char) (n : Nat) : P n (.heading level text)
  markup {n : Nat} {s : List Char} (h : s.count '<' ≤ n) : P n (.markup s)
  quote {n : Nat} {content : List Block} (h : ∀ b ∈ content, P n b) : P n (.quote content)
  footnote {n : Nat} {content : List Block} (h : ∀ b ∈ content, P n b) (label : List Char) :
    P n (.footnote label content)
  item {n : Nat} {content : List Block} (h : ∀ b ∈ content, P n b) : P n (.item content)
  list {n : Nat} {items : List Block} (h : ∀ b ∈ items, P n b) (start : Option Nat)
    (tight : Bool) : P n (.list start tight items)

variable {P : Nat → Block → Prop}

/-- Whether something holds of the blocks that a container reads. -/
def Reader.Keeps (P : Nat → Block → Prop) (read : Reader) : Prop :=
  ∀ scope lines limit, ∀ b ∈ (read scope lines limit).content, P (bracketsIn lines) b

/-- Whether something holds of the block that a rule makes. -/
def Rule.Keeps (P : Nat → Block → Prop) (rule : Rule) : Prop :=
  ∀ lines limit b n, rule lines limit = some (b, n) → P (bracketsIn lines) b

/-- Whether a rule makes plain blocks. -/
def Rule.IsPlain (rule : Rule) : Prop :=
  ∀ lines limit b n, rule lines limit = some (b, n) → b.isPlain = true

theorem Rule.IsPlain.keeps {rule : Rule} (h : rule.IsPlain) (hP : KeptByReading P) :
    rule.Keeps P :=
  fun lines limit b n hrule ↦ hP.plain (h lines limit b n hrule) _

section Rules

variable {scope : Scope}

theorem table?_isPlain (startsOther : Line → Bool) : Rule.IsPlain (table? scope startsOther) := by
  intro lines limit b n h
  obtain ⟨⟨columns, header⟩, -, heq⟩ := Option.map_eq_some_iff.mp h
  cases heq
  rfl

theorem code?_isPlain : Rule.IsPlain (code? scope) := by
  intro lines limit b n h
  cases lines with
  | nil => cases h
  | cons l rest =>
      obtain ⟨-, heq⟩ := Option.ite_none_right_eq_some.mp h
      cases heq
      rfl

theorem fenced?_isPlain : Rule.IsPlain (fenced? scope) := by
  intro lines limit b n h
  cases lines with
  | nil => cases h
  | cons l rest =>
      obtain ⟨f, -, heq⟩ := Option.map_eq_some_iff.mp h
      cases heq
      rfl

theorem rule?_isPlain : Rule.IsPlain (rule? scope) := by
  intro lines limit b n h
  cases lines with
  | nil => cases h
  | cons l rest =>
      obtain ⟨-, heq⟩ := Option.ite_none_right_eq_some.mp h
      cases heq
      rfl

theorem definition?_isPlain : Rule.IsPlain (definition? scope) := by
  intro lines limit b n h
  cases lines with
  | nil => cases h
  | cons l rest =>
      obtain ⟨-, h⟩ := Option.ite_none_left_eq_some.mp h
      obtain ⟨⟨d, after⟩, -, heq⟩ := Option.map_eq_some_iff.mp h
      cases heq
      rfl

theorem paragraph?_isPlain : Rule.IsPlain (paragraph? scope) := by
  intro lines limit b n h
  cases lines with
  | nil => cases h
  | cons l rest =>
      cases h
      rfl

theorem heading?_keeps (hP : KeptByReading P) : Rule.Keeps P (heading? scope) := by
  intro lines limit b n h
  cases lines with
  | nil => cases h
  | cons l rest =>
      obtain ⟨⟨level, text⟩, hline, heq⟩ := Option.map_eq_some_iff.mp h
      cases heq
      exact hP.heading (isLevel_of_headingLine? hline) _ _

theorem underlined?_keeps (hP : KeptByReading P) : Rule.Keeps P (underlined? scope) := by
  intro lines limit b n h
  cases lines with
  | nil => cases h
  | cons l rest =>
      obtain ⟨-, h⟩ := Option.ite_none_left_eq_some.mp h
      obtain ⟨⟨m, level⟩, hextent, heq⟩ := Option.map_eq_some_iff.mp h
      cases heq
      exact hP.heading (isLevel_of_underlinedExtent hextent) _ _

theorem markup?_keeps (hP : KeptByReading P) : Rule.Keeps P (markup? scope) := by
  intro lines limit b n h
  cases lines with
  | nil => cases h
  | cons l rest =>
      obtain ⟨k, -, heq⟩ := Option.map_eq_some_iff.mp h
      cases heq
      exact hP.markup (Nat.le_trans (count_join_le _ _ _) (bracketsIn_take_le _ _))

variable {read : Reader}

theorem quote?_keeps (hP : KeptByReading P) (hread : read.Keeps P) :
    Rule.Keeps P (quote? read scope) := by
  intro lines limit b n h
  cases lines with
  | nil => cases h
  | cons l rest =>
      obtain ⟨-, heq⟩ := Option.ite_none_left_eq_some.mp h
      cases heq
      have hfirst := brackets_unquote_le l
      have hquoted := brackets_quotedLines_le scope (unquote l).isEmpty (rest.take (limit - 1))
      refine hP.quote fun c hc ↦ hP.mono (hread _ _ _ c hc) ?_
      revert hquoted
      generalize quotedLines scope (unquote l).isEmpty (rest.take (limit - 1)) = quoted
      intro hquoted
      -- the lines that are taken come before those that are seen besides
      have htaken : bracketsIn ((rest.take (limit - 1)).take quoted.1.length) ≤
          bracketsIn (rest.take quoted.1.length) := by
        rw [List.take_take]
        exact bracketsIn_le_of_sublist (List.take_sublist_take_left (Nat.min_le_left _ _))
      have hrest := congrArg bracketsIn (List.take_append_drop quoted.1.length rest)
      rw [bracketsIn_append] at hrest
      split
      · simp only [bracketsIn_cons]
        omega
      · simp only [List.cons_append, bracketsIn_cons, bracketsIn_append]
        omega

theorem footnote?_keeps (hP : KeptByReading P) (hread : read.Keeps P) :
    Rule.Keeps P (footnote? read scope) := by
  intro lines limit b n h
  cases lines with
  | nil => cases h
  | cons l rest =>
      obtain ⟨⟨label, after⟩, hline, heq⟩ := Option.map_eq_some_iff.mp h
      cases heq
      refine hP.footnote (fun c hc ↦ hP.mono (hread _ _ _ c hc) (bracketsIn_cons_le ?_ rest)) label
      rw [Line.brackets, leadingBlanks_append_dropBlanks]
      exact ((sublist_of_footnoteLine? hline).trans (List.sublist_append_right _ _)).count_le '<'

theorem readItem_keeps (hP : KeptByReading P) (hread : read.Keeps P) (m : ListMark)
    (lines : List Line) (limit : Nat) :
    P (bracketsIn lines) (.item (readItem read scope m lines limit).content) := by
  refine hP.item ?_
  cases lines with
  | nil => exact List.forall_mem_nil _
  | cons l rest =>
      rw [readItem]
      dsimp only
      split
      · exact List.forall_mem_nil _
      · intro b hb
        have hstart := bracketsIn_cons_le (Nat.le_of_eq (brackets_itemStart l m)) rest
        exact hP.mono (hread _ _ _ b hb) hstart

theorem readItems_keeps (hP : KeptByReading P) (hread : read.Keeps P) (fuel : Nat) (m : ListMark)
    (gap : Bool) (lines : List Line) (limit : Nat) :
    ∀ b ∈ (readItems read scope fuel m gap lines limit).1, P (bracketsIn lines) b := by
  induction fuel generalizing m gap lines limit with
  | zero => exact List.forall_mem_nil _
  | succ fuel ih =>
      have hitem : P (bracketsIn lines) (.item (readItem read scope m lines limit).content) :=
        readItem_keeps hP hread m lines limit
      rw [readItems]
      dsimp only
      split
      · exact List.forall_mem_singleton.mpr hitem
      · refine List.forall_mem_cons.mpr ⟨hitem, fun b hb ↦ ?_⟩
        exact hP.mono (ih _ _ _ _ b hb) (bracketsIn_drop_le _ _)

theorem list?_keeps (hP : KeptByReading P) (hread : read.Keeps P) :
    Rule.Keeps P (list? read scope) := by
  intro lines limit b n h
  cases lines with
  | nil => cases h
  | cons l rest =>
      obtain ⟨m, -, heq⟩ := Option.map_eq_some_iff.mp h
      cases heq
      exact hP.list (readItems_keeps hP hread _ _ _ _ _) _ _

end Rules

theorem firstRule_keeps {rules : List Rule} (h : ∀ rule ∈ rules, rule.Keeps P) :
    (firstRule rules).Keeps P := by
  intro lines limit b n hfirst
  obtain ⟨rule, hmem, hrule⟩ := List.exists_of_findSome?_eq_some hfirst
  exact h rule hmem lines limit b n hrule

theorem rulesOf_keeps (hP : KeptByReading P) {read readItem : Reader} (hread : read.Keeps P)
    (hitem : readItem.Keeps P) (scope : Scope) : (rulesOf read readItem scope).Keeps P := by
  apply firstRule_keeps
  split
  · simp only [List.forall_mem_cons]
    exact ⟨(table?_isPlain _).keeps hP, code?_isPlain.keeps hP, fenced?_isPlain.keeps hP,
      quote?_keeps hP hread, rule?_isPlain.keeps hP, list?_keeps hP hitem,
      footnote?_keeps hP hread, definition?_isPlain.keeps hP, markup?_keeps hP,
      heading?_keeps hP, underlined?_keeps hP, paragraph?_isPlain.keeps hP, List.forall_mem_nil _⟩
  · simp only [List.forall_mem_cons]
    exact ⟨footnote?_keeps hP hread, paragraph?_isPlain.keeps hP, List.forall_mem_nil _⟩

theorem readSteps_keeps (hP : KeptByReading P) {rule : Rule} (hrule : rule.Keeps P)
    (scope : Scope) (fuel : Nat) (gap : Bool) (lines : List Line) (limit : Nat) :
    ∀ b ∈ (readSteps rule scope fuel gap lines limit).content, P (bracketsIn lines) b := by
  induction fuel generalizing gap lines limit with
  | zero => exact List.forall_mem_nil _
  | succ fuel ih =>
      rw [readSteps]
      dsimp only
      split
      · exact List.forall_mem_nil _
      · rename_i b n hhere
        have hdrop := bracketsIn_drop_le (blankLines lines) lines
        obtain ⟨l, -, hstep⟩ := Option.bind_eq_some_iff.mp hhere
        obtain ⟨-, hstep⟩ := Option.ite_none_right_eq_some.mp hstep
        refine List.forall_mem_cons.mpr ⟨hP.mono (hrule _ _ _ _ hstep) hdrop, fun c hc ↦ ?_⟩
        exact hP.mono (ih _ _ _ c hc) (Nat.le_trans (bracketsIn_drop_le _ _) hdrop)

/-- Containers keep what rules keep, by induction on how deeply they may still nest. -/
theorem readBlocks_keeps (hP : KeptByReading P) : (room : Nat) → (readBlocks room).Keeps P
  | 0 => fun _ _ _ ↦ List.forall_mem_nil _
  | 1 => fun scope lines limit ↦
      readSteps_keeps hP
        (rulesOf_keeps hP (readBlocks_keeps hP 0) (readBlocks_keeps hP 0) scope)
        scope _ _ lines limit
  | room + 2 => fun scope lines limit ↦
      readSteps_keeps hP
        (rulesOf_keeps hP (readBlocks_keeps hP (room + 1)) (readBlocks_keeps hP room) scope)
        scope _ _ lines limit

theorem blocksOf_keeps (hP : KeptByReading P) (dialect : Dialect) (s : List Char) :
    ∀ b ∈ blocksOf dialect s, P (s.count '<') b :=
  fun b hb ↦ hP.mono (readBlocks_keeps hP dialect.nesting _ _ _ b hb) (bracketsIn_linesOf_le s)

end Reading

section Levels

mutual

/-- Whether the headings in a block have levels. -/
def Block.Leveled : Block → Prop
  | .heading level _ => IsLevel level
  | .quote content | .item content | .footnote _ content => Block.AllLeveled content
  | .list _ _ items => Block.AllLeveled items
  | _ => True

/-- Whether the headings in blocks have levels. -/
def Block.AllLeveled : List Block → Prop
  | [] => True
  | b :: rest => b.Leveled ∧ Block.AllLeveled rest

end

theorem allLeveled_iff {bs : List Block} : Block.AllLeveled bs ↔ ∀ b ∈ bs, b.Leveled := by
  induction bs with
  | nil => simp [Block.AllLeveled]
  | cons b bs ih => rw [Block.AllLeveled, ih, List.forall_mem_cons]

theorem keptByReading_leveled : KeptByReading fun _ b ↦ b.Leveled where
  mono h _ := h
  plain {b} h _ := by
    unfold Block.Leveled
    cases b <;> trivial
  heading h _ _ := by rwa [Block.Leveled]
  markup _ := by simp [Block.Leveled]
  quote h := by rw [Block.Leveled]; exact allLeveled_iff.mpr h
  footnote h _ := by rw [Block.Leveled]; exact allLeveled_iff.mpr h
  item h := by rw [Block.Leveled]; exact allLeveled_iff.mpr h
  list h _ _ := by rw [Block.Leveled]; exact allLeveled_iff.mpr h

theorem blocksOf_leveled (dialect : Dialect) (s : List Char) :
    Block.AllLeveled (blocksOf dialect s) :=
  allLeveled_iff.mpr (blocksOf_keeps keptByReading_leveled dialect s)

end Levels

section Markup

mutual

/-- The raw markup in a block, as it stands. -/
def markupIn : Block → List (List Char)
  | .markup s => [s]
  | .quote content | .item content | .footnote _ content => markupAmong content
  | .list _ _ items => markupAmong items
  | _ => []

def markupAmong : List Block → List (List Char)
  | [] => []
  | b :: rest => markupIn b ++ markupAmong rest

end

/-- Whether pieces of raw markup have at most so many angle brackets each. -/
def Within (n : Nat) (markup : List (List Char)) : Prop :=
  ∀ s ∈ markup, s.count '<' ≤ n

theorem within_markupAmong_iff {n : Nat} {bs : List Block} :
    Within n (markupAmong bs) ↔ ∀ b ∈ bs, Within n (markupIn b) := by
  induction bs with
  | nil => simp [Within, markupAmong]
  | cons b bs ih =>
      rw [List.forall_mem_cons, ← ih, markupAmong]
      exact List.forall_mem_append

theorem keptByReading_within : KeptByReading fun n b ↦ Within n (markupIn b) where
  mono h hle s hs := Nat.le_trans (h s hs) hle
  plain {b} h _ := by
    have hnil : markupIn b = [] := by cases b <;> first | rfl | cases h
    rw [hnil]
    exact List.forall_mem_nil _
  heading _ _ _ := List.forall_mem_nil _
  markup h := List.forall_mem_singleton.mpr h
  quote h := by rw [markupIn]; exact within_markupAmong_iff.mpr h
  footnote h _ := by rw [markupIn]; exact within_markupAmong_iff.mpr h
  item h := by rw [markupIn]; exact within_markupAmong_iff.mpr h
  list h _ _ := by rw [markupIn]; exact within_markupAmong_iff.mpr h

/-- The raw markup of a document has no more angle brackets than the document. -/
theorem blocksOf_within (dialect : Dialect) (body : String) :
    Within (body.toList.count '<') (markupAmong (blocksOf dialect (normalize body))) := by
  rw [← count_normalize]
  exact within_markupAmong_iff.mpr (blocksOf_keeps keptByReading_within dialect _)

end Markup

end SafeMarkdown.Markdown
