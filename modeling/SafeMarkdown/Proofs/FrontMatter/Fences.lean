import SafeMarkdown.Proofs.FrontMatter.Lenient
import SafeMarkdown.Proofs.Text.Scanning

/-!
# Where a front matter block lies

A block lies between two lines of three hyphens, of which the first one starts the text and the
other one is the first that follows. Its YAML is what lies between the two lines and the body is
what lies behind the second one, so the parts make up the text. The block is searched line by line;
to start a line is here to stand at the start of the text or behind a line feed.
-/

namespace SafeMarkdown.FrontMatter

section FenceLines

/-- Three hyphens, and behind them spaces and tabs only. -/
def IsDashes (line : List Char) : Prop :=
  ∃ blanks, line = '-' :: '-' :: '-' :: blanks ∧ ∀ c ∈ blanks, c = ' ' ∨ c = '\t'

/-- A line of three hyphens with its line end. -/
def IsFenceLine (line : List Char) : Prop :=
  ∃ dashes, IsDashes dashes ∧ (line = dashes ++ ['\n'] ∨ line = dashes ++ ['\r', '\n'])

theorem IsDashes.mem {line : List Char} (h : IsDashes line) {c : Char} (hc : c ∈ line) :
    c = '-' ∨ c = ' ' ∨ c = '\t' := by
  obtain ⟨blanks, rfl, hblanks⟩ := h
  simp only [List.mem_cons] at hc
  rcases hc with rfl | rfl | rfl | hc
  · exact .inl rfl
  · exact .inl rfl
  · exact .inl rfl
  · exact .inr (hblanks c hc)

theorem IsDashes.not_mem {line : List Char} (h : IsDashes line) {c : Char} (hdash : c ≠ '-')
    (hspace : c ≠ ' ') (htab : c ≠ '\t') : c ∉ line := by
  intro hc
  rcases h.mem hc with hc | hc | hc
  · exact hdash hc
  · exact hspace hc
  · exact htab hc

theorem isFence_iff {line : List Char} : isFence line = true ↔ IsDashes line := by
  rw [isFence, Bool.and_eq_true, List.isPrefixOf_iff_prefix, List.all_eq_true]
  have hblank (c : Char) : Text.isSpaceOrTab c = true ↔ c = ' ' ∨ c = '\t' := by
    simp [Text.isSpaceOrTab]
  refine ⟨?_, ?_⟩
  · rintro ⟨⟨blanks, rfl⟩, hblanks⟩
    exact ⟨blanks, rfl, fun c hc ↦ (hblank c).mp (hblanks c hc)⟩
  · rintro ⟨blanks, rfl, hblanks⟩
    exact ⟨⟨blanks, rfl⟩, fun c hc ↦ (hblank c).mpr (hblanks c hc)⟩

theorem dropReturn_concat (line : List Char) : dropReturn (line ++ ['\r']) = line := by
  simp [dropReturn]

theorem dropReturn_of_isDashes {line : List Char} (h : IsDashes line) : dropReturn line = line := by
  rw [dropReturn, if_neg]
  intro hlast
  rw [beq_iff_eq] at hlast
  exact h.not_mem (by decide) (by decide) (by decide) (List.mem_of_getLast? hlast)

theorem eq_of_dropReturn {line dashes : List Char} (h : dropReturn line = dashes) :
    line = dashes ∨ line = dashes ++ ['\r'] := by
  rw [dropReturn] at h
  split at h
  · rename_i hlast
    rw [beq_iff_eq] at hlast
    obtain ⟨before, rfl⟩ := List.getLast?_eq_some_iff.mp hlast
    rw [List.dropLast_concat] at h
    exact .inr (by rw [h])
  · exact .inl h

/-- A line feed ends a line of hyphens when the line is one but for a carriage return at its end. -/
theorem isFenceLine_concat_iff {line : List Char} :
    IsFenceLine (line ++ ['\n']) ↔ isFence (dropReturn line) = true := by
  rw [isFence_iff]
  refine ⟨?_, fun h ↦ ⟨dropReturn line, h, ?_⟩⟩
  · rintro ⟨dashes, hdashes, heq | heq⟩
    · rw [List.append_cancel_right heq, dropReturn_of_isDashes hdashes]
      exact hdashes
    · have hline : line = dashes ++ ['\r'] := by
        rw [List.append_cons dashes '\r' ['\n']] at heq
        exact List.append_cancel_right heq
      rw [hline, dropReturn_concat]
      exact hdashes
  · rcases eq_of_dropReturn rfl with hline | hline
    · exact .inl (by rw [← hline])
    · refine .inr ?_
      rw [List.append_cons (dropReturn line) '\r' ['\n'], ← hline]

/-- A line of hyphens with its line end has no other line feed. -/
theorem IsFenceLine.exists_line {line : List Char} (h : IsFenceLine line) :
    ∃ front, line = front ++ ['\n'] ∧ '\n' ∉ front := by
  obtain ⟨dashes, hdashes, rfl | rfl⟩ := h
  · exact ⟨dashes, rfl, hdashes.not_mem (by decide) (by decide) (by decide)⟩
  · refine ⟨dashes ++ ['\r'], by rw [List.append_assoc]; rfl, ?_⟩
    rw [List.mem_append, not_or]
    exact ⟨hdashes.not_mem (by decide) (by decide) (by decide), by decide⟩

end FenceLines

section Closings

/-- A place where a block may end: a line of hyphens, which the text may end in. -/
structure Closing (text before closer behind : List Char) : Prop where
  parts : text = before ++ closer ++ behind
  starts : before = [] ∨ before.getLast? = some '\n'
  fence : IsFenceLine closer ∨ IsDashes closer ∧ behind = []

/-- The first place where a block may end. -/
structure FirstClosing (text before closer behind : List Char) : Prop
    extends Closing text before closer behind where
  first : ∀ before' closer' behind', Closing text before' closer' behind' →
    before.length ≤ before'.length

variable {line rest before closer behind : List Char}

theorem closing_of_line (hline : '\n' ∉ line) :
    Closing line before closer behind ↔
      before = [] ∧ closer = line ∧ behind = [] ∧ IsDashes line := by
  refine ⟨?_, ?_⟩
  · rintro ⟨rfl, hstarts, hfence⟩
    have hbefore : before = [] := by
      refine hstarts.resolve_right fun hlast ↦ hline ?_
      rw [List.append_assoc]
      exact List.mem_append_left _ (List.mem_of_getLast? hlast)
    rcases hfence with hfence | ⟨hdashes, rfl⟩
    · obtain ⟨front, rfl, -⟩ := hfence.exists_line
      exact (hline (by simp)).elim
    · subst hbefore
      simpa using hdashes
  · rintro ⟨rfl, rfl, rfl, hdashes⟩
    exact ⟨by simp, .inl rfl, .inr ⟨hdashes, rfl⟩⟩

theorem not_mem_of_isDashes_append {dashes : List Char} (hdashes : IsDashes dashes)
    (h : line ++ '\n' :: rest = dashes ++ []) : False := by
  rw [List.append_nil] at h
  have hmem : '\n' ∈ dashes := by
    rw [← h]
    exact List.mem_append_right _ List.mem_cons_self
  exact hdashes.not_mem (by decide) (by decide) (by decide) hmem

/-- What ends with a line end and starts a text, of which the first line is known, is this line or
goes on behind it. -/
theorem eq_append_of_ended {front tail : List Char} (hline : '\n' ∉ line)
    (h : line ++ '\n' :: rest = front ++ '\n' :: tail) :
    (front = line ∧ rest = tail) ∨
      ∃ more, front = line ++ '\n' :: more ∧ rest = more ++ '\n' :: tail := by
  by_cases hfront : '\n' ∈ front
  · obtain ⟨piece, more, rfl, hpiece⟩ := List.eq_append_cons_of_mem hfront
    rw [List.append_assoc, List.cons_append] at h
    obtain ⟨rfl, rfl⟩ := Text.eq_and_eq_of_append_cons hline hpiece h
    exact .inr ⟨more, rfl, rfl⟩
  · obtain ⟨rfl, rfl⟩ := Text.eq_and_eq_of_append_cons hline hfront h
    exact .inl ⟨rfl, rfl⟩

/-- A text that starts with a line ends a block with this line or behind it. -/
theorem closing_of_ended (hline : '\n' ∉ line) :
    Closing (line ++ '\n' :: rest) before closer behind ↔
      (before = [] ∧ closer = line ++ ['\n'] ∧ behind = rest ∧ IsFenceLine closer) ∨
      ∃ more, before = line ++ '\n' :: more ∧ Closing rest more closer behind := by
  refine ⟨?_, ?_⟩
  · rintro ⟨hparts, hstarts, hfence⟩
    rcases hstarts with rfl | hlast
    · rw [List.nil_append] at hparts
      rcases hfence with hfence | ⟨hdashes, rfl⟩
      · obtain ⟨front, rfl, hfront⟩ := hfence.exists_line
        rw [List.append_assoc, List.singleton_append] at hparts
        obtain ⟨rfl, rfl⟩ := Text.eq_and_eq_of_append_cons hline hfront hparts
        exact .inl ⟨rfl, rfl, rfl, hfence⟩
      · exact (not_mem_of_isDashes_append hdashes hparts).elim
    · obtain ⟨front, rfl⟩ := List.getLast?_eq_some_iff.mp hlast
      rw [List.append_assoc, List.append_assoc, List.singleton_append] at hparts
      rcases eq_append_of_ended hline hparts with ⟨rfl, rfl⟩ | ⟨more, rfl, rfl⟩
      · exact .inr ⟨[], rfl, rfl, .inl rfl, hfence⟩
      · refine .inr ⟨more ++ ['\n'], by rw [List.append_assoc]; rfl, ?_, .inr ?_, hfence⟩
        · rw [List.append_assoc, List.append_assoc, List.singleton_append]
        · exact List.getLast?_concat
  · rintro (⟨rfl, rfl, rfl, hfence⟩ | ⟨more, rfl, rfl, hstarts, hfence⟩)
    · exact ⟨by rw [List.nil_append, List.append_assoc, List.singleton_append], .inl rfl,
        .inl hfence⟩
    · refine ⟨by simp only [List.append_assoc, List.cons_append], .inr ?_, hfence⟩
      rcases hstarts with rfl | hlast
      · exact List.getLast?_concat
      · rw [List.getLast?_append, List.getLast?_cons, hlast]
        rfl

/-- The first line of a text ends a block at its very start, if it is one of hyphens. -/
theorem firstClosing_of_fence (hline : '\n' ∉ line) (hfence : IsFenceLine (line ++ ['\n'])) :
    FirstClosing (line ++ '\n' :: rest) before closer behind ↔
      before = [] ∧ closer = line ++ ['\n'] ∧ behind = rest := by
  have hstart : Closing (line ++ '\n' :: rest) [] (line ++ ['\n']) rest :=
    (closing_of_ended hline).mpr (.inl ⟨rfl, rfl, rfl, hfence⟩)
  refine ⟨?_, ?_⟩
  · intro h
    have hbefore : before = [] :=
      List.eq_nil_of_length_eq_zero (Nat.le_zero.mp (h.first _ _ _ hstart))
    rcases (closing_of_ended hline).mp h.toClosing with ⟨-, hcloser, hbehind, -⟩ | ⟨more, rfl, -⟩
    · exact ⟨hbefore, hcloser, hbehind⟩
    · simp at hbefore
  · rintro ⟨rfl, rfl, rfl⟩
    exact ⟨hstart, fun _ _ _ _ ↦ Nat.zero_le _⟩

/-- Behind a first line that is not of hyphens the block ends where it ends in the rest. -/
theorem firstClosing_of_not_fence (hline : '\n' ∉ line)
    (hfence : ¬ IsFenceLine (line ++ ['\n'])) :
    FirstClosing (line ++ '\n' :: rest) before closer behind ↔
      ∃ more, before = line ++ '\n' :: more ∧ FirstClosing rest more closer behind := by
  have hclosing {before closer behind : List Char} :
      Closing (line ++ '\n' :: rest) before closer behind ↔
        ∃ more, before = line ++ '\n' :: more ∧ Closing rest more closer behind := by
    rw [closing_of_ended hline, or_iff_right]
    rintro ⟨-, rfl, -, hcloser⟩
    exact hfence hcloser
  refine ⟨?_, ?_⟩
  · rintro ⟨h, hfirst⟩
    obtain ⟨more, rfl, hmore⟩ := hclosing.mp h
    refine ⟨more, rfl, hmore, fun before' closer' behind' h' ↦ ?_⟩
    have hlength := hfirst _ _ _ (hclosing.mpr ⟨before', rfl, h'⟩)
    simpa using hlength
  · rintro ⟨more, rfl, hmore, hfirst⟩
    refine ⟨hclosing.mpr ⟨more, rfl, hmore⟩, fun before' closer' behind' h' ↦ ?_⟩
    obtain ⟨more', rfl, hmore'⟩ := hclosing.mp h'
    have hlength := hfirst _ _ _ hmore'
    simpa using hlength

theorem firstClosing_of_line (hline : '\n' ∉ line) :
    FirstClosing line before closer behind ↔
      before = [] ∧ closer = line ∧ behind = [] ∧ IsDashes line := by
  rw [← closing_of_line hline]
  refine ⟨FirstClosing.toClosing, fun h ↦ ⟨h, fun _ _ _ _ ↦ ?_⟩⟩
  rw [((closing_of_line hline).mp h).1]
  exact Nat.zero_le _

/-- If a block ends somewhere, it ends somewhere first. -/
theorem Closing.exists_first {text : List Char} (h : Closing text before closer behind) :
    ∃ before closer behind, FirstClosing text before closer behind := by
  induction text using Text.piece_induction '\n' generalizing before with
  | last line hline =>
      exact ⟨_, _, _, (firstClosing_of_line hline).mpr ((closing_of_line hline).mp h)⟩
  | ended line rest hline ih =>
      by_cases hfence : IsFenceLine (line ++ ['\n'])
      · exact ⟨_, _, _, (firstClosing_of_fence hline hfence).mpr ⟨rfl, rfl, rfl⟩⟩
      · rcases (closing_of_ended hline).mp h with ⟨-, rfl, -, hcloser⟩ | ⟨more, -, hmore⟩
        · exact (hfence hcloser).elim
        · obtain ⟨before, closer, behind, hfirst⟩ := ih hmore
          exact ⟨_, _, _, (firstClosing_of_not_fence hline hfence).mpr ⟨before, rfl, hfirst⟩⟩

end Closings

section Search

theorem untilFence_cons {line : List Char} {lines : List (List Char)} (h : lines ≠ []) :
    untilFence (line :: lines) =
      if isFence (dropReturn line) then some ([], ['\n'].intercalate lines)
      else (untilFence lines).map fun (block, body) ↦ (line ++ '\n' :: block, body) := by
  cases lines with
  | nil => exact (h rfl).elim
  | cons next more => rw [untilFence]; exact nofun

/-- The search for the end of a block finds the first one. -/
theorem untilFence_eq_some_iff {text yaml body : List Char} :
    untilFence (Text.splitAtEach (· == '\n') text) = some (yaml, body) ↔
      ∃ closer, FirstClosing text yaml closer body := by
  induction text using Text.piece_induction '\n' generalizing yaml with
  | last line hline =>
      rw [Text.splitAtEach_of_not_mem hline, untilFence]
      simp only [firstClosing_of_line hline]
      split
      · rename_i hfence
        simp [isFence_iff.mp hfence, eq_comm]
      · rename_i hfence
        simp [mt isFence_iff.mpr hfence]
  | ended line rest hline ih =>
      rw [Text.splitAtEach_append_cons hline, untilFence_cons (Text.splitAtEach_ne_nil _ rest),
        Text.intercalate_splitAtEach]
      by_cases hfence : IsFenceLine (line ++ ['\n'])
      · rw [if_pos (isFenceLine_concat_iff.mp hfence)]
        simp [firstClosing_of_fence hline hfence, eq_comm]
      · rw [if_neg fun h ↦ hfence (isFenceLine_concat_iff.mpr h), Option.map_eq_some_iff]
        simp only [firstClosing_of_not_fence hline hfence]
        refine ⟨?_, ?_⟩
        · rintro ⟨⟨more, body'⟩, hmore, heq⟩
          obtain ⟨rfl, rfl⟩ := Prod.mk.inj heq
          obtain ⟨closer, hfirst⟩ := ih.mp hmore
          exact ⟨closer, more, rfl, hfirst⟩
        · rintro ⟨closer, more, rfl, hfirst⟩
          exact ⟨(more, body), ih.mpr ⟨closer, hfirst⟩, rfl⟩

end Search

section Splitting

theorem split_of_line {line : List Char} (hline : '\n' ∉ line) : split line = .none := by
  rw [split, Text.splitAtEach_of_not_mem hline]

theorem split_of_not_fence {line : List Char} (hline : '\n' ∉ line) (rest : List Char)
    (hfence : ¬ IsFenceLine (line ++ ['\n'])) : split (line ++ '\n' :: rest) = .none := by
  rw [split, Text.splitAtEach_append_cons hline]
  split
  · rename_i first next more hpieces
    obtain ⟨rfl, -⟩ := List.cons.inj hpieces
    rw [if_neg fun h ↦ hfence (isFenceLine_concat_iff.mpr h)]
  · rfl

/-- Behind a line of hyphens a text splits where the search ends. -/
theorem split_of_fence {opener : List Char} (hopener : IsFenceLine opener) (rest : List Char) :
    split (opener ++ rest) = (untilFence (Text.splitAtEach (· == '\n') rest)).elim .unterminated
      fun found ↦ .block found.1 found.2 := by
  obtain ⟨line, rfl, hline⟩ := hopener.exists_line
  obtain ⟨next, more, hpieces⟩ :=
    List.exists_cons_of_ne_nil (Text.splitAtEach_ne_nil (· == '\n') rest)
  rw [List.append_assoc, List.singleton_append, split, Text.splitAtEach_append_cons hline, hpieces]
  dsimp only
  rw [if_pos (isFenceLine_concat_iff.mp hopener)]
  cases untilFence (next :: more) with
  | none => rfl
  | some found => rfl

theorem split_of_no_fence {s : List Char}
    (h : ∀ opener rest, s = opener ++ rest → ¬ IsFenceLine opener) : split s = .none := by
  by_cases hmem : '\n' ∈ s
  · obtain ⟨line, rest, rfl, hline⟩ := List.eq_append_cons_of_mem hmem
    exact split_of_not_fence hline rest (h _ rest (by rw [List.append_assoc]; rfl))
  · exact split_of_line hmem

theorem split_of_no_closing {opener rest : List Char} (hopener : IsFenceLine opener)
    (h : ∀ yaml closer body, ¬ Closing rest yaml closer body) :
    split (opener ++ rest) = .unterminated := by
  rw [split_of_fence hopener]
  cases hsearch : untilFence (Text.splitAtEach (· == '\n') rest) with
  | none => rfl
  | some found =>
      obtain ⟨closer, hfirst⟩ := untilFence_eq_some_iff.mp hsearch
      exact (h _ _ _ hfirst.toClosing).elim

theorem split_of_firstClosing {opener rest yaml closer body : List Char}
    (hopener : IsFenceLine opener) (h : FirstClosing rest yaml closer body) :
    split (opener ++ rest) = .block yaml body := by
  rw [split_of_fence hopener, untilFence_eq_some_iff.mpr ⟨closer, h⟩, Option.elim_some]

end Splitting

section Extraction

/-- A text and what it is without one mark of the byte order at its start. -/
def IsUnmarked (text s : List Char) : Prop :=
  text = '\ufeff' :: s ∨ text = s ∧ s.head? ≠ some '\ufeff'

theorem isUnmarked_dropMark (text : List Char) : IsUnmarked text (dropMark text) := by
  cases text with
  | nil => exact .inr ⟨rfl, nofun⟩
  | cons c rest =>
      rw [dropMark]
      split
      · rename_i hmark
        have hc : c = '\ufeff' := Char.toNat_inj.mp hmark
        exact .inl (by rw [hc])
      · rename_i hmark
        refine .inr ⟨rfl, fun hhead ↦ hmark ?_⟩
        rw [Option.some.inj hhead]
        rfl

theorem body_of_readBlock {yaml : List Char} {body message carried : String}
    (h : readBlock yaml body = .error (.metadata message carried)) : carried = body := by
  unfold readBlock at h
  split at h
  · cases h
    rfl
  · rename_i cause _
    exact (not_isMetadata_failure cause ⟨message, carried, Except.error.inj h⟩).elim
  · split at h
    · cases h
    · split at h
      · cases h
      · cases h
        rfl

/-- Front matter is split off exactly at its lines of hyphens. A text that starts with none has no
fields and stays as it is. One that does, but has no other that ends the block, fails with the whole
text. Otherwise the block ends first somewhere, its fields are read of what lies between the two
lines, and the body, which a failure of the block carries too, is what lies behind them. -/
theorem extract_splits (text : String) : ∃ s, IsUnmarked text.toList s ∧
    ((∀ opener rest, s = opener ++ rest → ¬ IsFenceLine opener) →
      extract text = .ok ([], String.ofList s)) ∧
    ∀ opener rest, s = opener ++ rest → IsFenceLine opener →
      ((∀ yaml closer body, ¬ Closing rest yaml closer body) →
        extract text = .error (.metadata "Unterminated front matter block" (String.ofList s))) ∧
      ((∃ yaml closer body, Closing rest yaml closer body) →
        ∃ yaml closer body, FirstClosing rest yaml closer body) ∧
      ∀ yaml closer body, FirstClosing rest yaml closer body →
        s = opener ++ yaml ++ closer ++ body ∧
        extract text = (readBlock yaml (String.ofList body)).map (·, String.ofList body) ∧
        ∀ message carried, extract text = .error (.metadata message carried) →
          carried = String.ofList body := by
  refine ⟨dropMark text.toList, isUnmarked_dropMark _, fun hnone ↦ ?_, fun opener rest hs hopener ↦
    ⟨fun hnone ↦ ?_, ?_, fun yaml closer body hfirst ↦ ?_⟩⟩
  · simp only [extract, split_of_no_fence hnone]
  · have hsplit := split_of_no_closing hopener hnone
    rw [← hs] at hsplit
    simp only [extract, hsplit]
  · rintro ⟨yaml, closer, body, hclosing⟩
    exact hclosing.exists_first
  · have hsplit := split_of_firstClosing hopener hfirst
    rw [← hs] at hsplit
    have hextract : extract text =
        (readBlock yaml (String.ofList body)).map (·, String.ofList body) := by
      rw [extract_of_block hsplit]
      cases readBlock yaml (String.ofList body) <;> rfl
    refine ⟨?_, hextract, fun message carried herror ↦ ?_⟩
    · rw [hs, hfirst.parts, List.append_assoc, List.append_assoc, List.append_assoc]
    · rw [hextract] at herror
      cases hblock : readBlock yaml (String.ofList body) with
      | ok fields =>
          rw [hblock] at herror
          cases herror
      | error e =>
          rw [hblock] at herror
          cases herror
          exact body_of_readBlock hblock

/-- Lines that only start with three hyphens do not end a block, nor does a second one behind it. -/
theorem extract_splits_hyphens :
    extract "\ufeff---\r\na: 1\n--- b\n---\t\nbody\n---\n" =
      (readBlock "a: 1\n--- b\n".toList "body\n---\n").map (·, "body\n---\n") := by
  obtain ⟨s, hs, -, hopened⟩ := extract_splits "\ufeff---\r\na: 1\n--- b\n---\t\nbody\n---\n"
  have hmarked : s = "---\r\n".toList ++ "a: 1\n--- b\n---\t\nbody\n---\n".toList := by
    rcases hs with hs | ⟨rfl, hhead⟩
    · exact (List.cons.inj hs).2.symm
    · exact (hhead rfl).elim
  have hopener : IsFenceLine "---\r\n".toList :=
    ⟨"---".toList, isFence_iff.mp (by decide), .inr rfl⟩
  have hsearch : untilFence (Text.splitAtEach (· == '\n')
      "a: 1\n--- b\n---\t\nbody\n---\n".toList) =
        some ("a: 1\n--- b\n".toList, "body\n---\n".toList) := by
    decide
  obtain ⟨closer, hfirst⟩ := untilFence_eq_some_iff.mp hsearch
  obtain ⟨-, hextract, -⟩ := (hopened _ _ hmarked hopener).2.2 _ _ _ hfirst
  rwa [String.ofList_toList] at hextract

end Extraction

end SafeMarkdown.FrontMatter
