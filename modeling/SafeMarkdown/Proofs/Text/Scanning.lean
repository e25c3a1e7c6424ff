import SafeMarkdown.Text.Blank

/-!
# Scanning a text

A scan that stops inside of a text stops at the same place when more text follows. A text is split
at each of some characters, and trimmed at its ends.
-/

namespace SafeMarkdown.Text

variable {p : Char → Bool} {s : List Char}

theorem dropWhile_append_of_ne_nil (h : s.dropWhile p ≠ []) (r : List Char) :
    (s ++ r).dropWhile p = s.dropWhile p ++ r := by
  rw [List.dropWhile_append, if_neg]
  rwa [List.isEmpty_iff]

theorem takeWhile_append_of_ne_nil (h : s.dropWhile p ≠ []) (r : List Char) :
    (s ++ r).takeWhile p = s.takeWhile p := by
  rw [List.takeWhile_append, if_neg]
  intro hlength
  have hsum := congrArg List.length (List.takeWhile_append_dropWhile (p := p) (l := s))
  rw [List.length_append] at hsum
  exact h (List.eq_nil_of_length_eq_zero (by omega))

theorem dropWhile_of_head {c : Char} (h : s.head? = some c) (hc : p c = false) :
    s.dropWhile p = s := by
  cases s with
  | nil => cases h
  | cons d s =>
      cases h
      exact List.dropWhile_cons_of_neg (by rw [hc]; exact Bool.false_ne_true)

theorem splitAtEach_of_forall (h : ∀ c ∈ s, p c = false) : splitAtEach p s = [s] := by
  induction s with
  | nil => rfl
  | cons c rest ih =>
      rw [List.forall_mem_cons] at h
      rw [splitAtEach, h.1, if_neg Bool.false_ne_true, ih h.2]

theorem splitAtEach_append {c : Char} (h : ∀ c ∈ s, p c = false) (hc : p c = true)
    (rest : List Char) : splitAtEach p (s ++ c :: rest) = s :: splitAtEach p rest := by
  induction s with
  | nil => rw [List.nil_append, splitAtEach, if_pos hc]
  | cons d more ih =>
      rw [List.forall_mem_cons] at h
      rw [List.cons_append, splitAtEach, h.1, if_neg Bool.false_ne_true, ih h.2]

section Lines

variable {c : Char}

theorem splitAtEach_ne_nil (p : Char → Bool) (s : List Char) : splitAtEach p s ≠ [] := by
  cases s with
  | nil => exact List.cons_ne_nil _ _
  | cons d rest =>
      rw [splitAtEach]
      split
      · exact List.cons_ne_nil _ _
      · split <;> exact List.cons_ne_nil _ _

theorem flatten_splitAtEach_sublist : (splitAtEach p s).flatten.Sublist s := by
  induction s with
  | nil => exact .slnil
  | cons d rest ih =>
      unfold splitAtEach
      split
      · exact ih.cons d
      · split
        · exact List.singleton_sublist.mpr List.mem_cons_self
        · rename_i piece pieces hpieces
          rw [hpieces] at ih
          exact ih.cons_cons d

/-- What holds of a text without a character, and of a text behind one occurrence of it when it
holds of the text that follows, holds of every text. -/
theorem piece_induction {motive : List Char → Prop} (c : Char)
    (last : ∀ piece, c ∉ piece → motive piece)
    (ended : ∀ piece rest, c ∉ piece → motive rest → motive (piece ++ c :: rest))
    (s : List Char) : motive s := by
  by_cases hc : c ∈ s
  · obtain ⟨piece, rest, hs, hpiece⟩ := List.eq_append_cons_of_mem hc
    rw [hs]
    exact ended piece rest hpiece (piece_induction c last ended rest)
  · exact last s hc
termination_by s.length
decreasing_by
  rw [hs, List.length_append, List.length_cons]
  omega

theorem splitAtEach_of_not_mem (h : c ∉ s) : splitAtEach (· == c) s = [s] :=
  splitAtEach_of_forall fun _ hd ↦ beq_eq_false_iff_ne.mpr (ne_of_mem_of_not_mem hd h)

theorem splitAtEach_append_cons (h : c ∉ s) (rest : List Char) :
    splitAtEach (· == c) (s ++ c :: rest) = s :: splitAtEach (· == c) rest :=
  splitAtEach_append (fun _ hd ↦ beq_eq_false_iff_ne.mpr (ne_of_mem_of_not_mem hd h))
    (beq_self_eq_true c) rest

/-- The first occurrence of a character in a text tells what lies on its two sides. -/
theorem eq_and_eq_of_append_cons {t rest more : List Char} (hs : c ∉ s) (ht : c ∉ t)
    (h : s ++ c :: rest = t ++ c :: more) : s = t ∧ rest = more := by
  have hpieces := congrArg (splitAtEach (· == c)) h
  rw [splitAtEach_append_cons hs, splitAtEach_append_cons ht] at hpieces
  obtain rfl := (List.cons.inj hpieces).1
  exact ⟨rfl, (List.cons.inj (List.append_cancel_left h)).2⟩

/-- The pieces of a text make it up again. -/
theorem intercalate_splitAtEach (c : Char) (s : List Char) :
    [c].intercalate (splitAtEach (· == c) s) = s := by
  induction s using piece_induction c with
  | last piece hpiece => rw [splitAtEach_of_not_mem hpiece, List.intercalate_singleton]
  | ended piece rest hpiece ih =>
      rw [splitAtEach_append_cons hpiece,
        List.intercalate_cons_of_ne_nil (splitAtEach_ne_nil _ rest), ih, List.append_assoc,
        List.singleton_append]

end Lines

theorem dropEndWhile_sublist : (dropEndWhile p s).Sublist s := by
  simpa [dropEndWhile] using (List.dropWhile_sublist (l := s.reverse) p).reverse

theorem trimWhile_sublist : (trimWhile p s).Sublist s :=
  dropEndWhile_sublist.trans (List.dropWhile_sublist p)

theorem mem_of_mem_trimWhile {c : Char} (h : c ∈ trimWhile p s) : c ∈ s :=
  trimWhile_sublist.subset h

/-- What is around a text is cut off if the text neither starts nor ends with such characters. -/
theorem trimWhile_append_append {before after : List Char} (hbefore : ∀ c ∈ before, p c = true)
    (hafter : ∀ c ∈ after, p c = true) (hhead : ∀ c ∈ s.head?, p c = false)
    (hlast : ∀ c ∈ s.getLast?, p c = false) : trimWhile p (before ++ s ++ after) = s := by
  have hback : ∀ c ∈ after.reverse, p c = true := fun c hc ↦ hafter c (List.mem_reverse.mp hc)
  rw [trimWhile, List.append_assoc, List.dropWhile_append_of_pos hbefore]
  cases s with
  | nil =>
      have hnone : (after ++ []).dropWhile p = [].dropWhile p :=
        List.dropWhile_append_of_pos hafter
      rw [List.append_nil] at hnone
      rw [List.nil_append, hnone]
      rfl
  | cons c s =>
      have hd := List.getLast?_eq_some_getLast (List.cons_ne_nil c s)
      have hfirst : (c :: s ++ after).head? = some c := rfl
      have hend := List.head?_reverse.trans hd
      rw [dropWhile_of_head hfirst (hhead c rfl), dropEndWhile, List.reverse_append,
        List.dropWhile_append_of_pos hback, dropWhile_of_head hend (hlast _ hd),
        List.reverse_reverse]

/-- White space around a text that has none at its ends is trimmed. -/
theorem trim_append_append {before after : List Char} {c d : Char}
    (hbefore : ∀ e ∈ before, isBlank e = true) (hafter : ∀ e ∈ after, isBlank e = true)
    (hc : s.head? = some c) (hd : s.getLast? = some d) (hcBlank : isBlank c = false)
    (hdBlank : isBlank d = false) : trim (before ++ s ++ after) = s := by
  refine trimWhile_append_append hbefore hafter (fun e he ↦ ?_) (fun e he ↦ ?_)
  · rwa [Option.some.inj (hc.symm.trans he)] at hcBlank
  · rwa [Option.some.inj (hd.symm.trans he)] at hdBlank

section Characters

variable {c : Char}

theorem isBlank_eq_false (hlow : 0x20 < c.toNat) (hhigh : c.toNat < 0x85) : isBlank c = false := by
  simp only [isBlank, blankRanges, inRanges, Bool.or_eq_false_iff, Bool.and_eq_false_iff,
    decide_eq_false_iff_not, and_true]
  omega

theorem isUpper_iff (c : Char) : c.isUpper = true ↔ 0x41 ≤ c.toNat ∧ c.toNat ≤ 0x5a :=
  decide_eq_true_iff

theorem isLower_iff (c : Char) : c.isLower = true ↔ 0x61 ≤ c.toNat ∧ c.toNat ≤ 0x7a :=
  Bool.and_eq_true_iff.trans (and_congr decide_eq_true_iff decide_eq_true_iff)

theorem isDigit_iff (c : Char) : c.isDigit = true ↔ 0x30 ≤ c.toNat ∧ c.toNat ≤ 0x39 :=
  Bool.and_eq_true_iff.trans (and_congr decide_eq_true_iff decide_eq_true_iff)

theorem isAlpha_iff (c : Char) : c.isAlpha = true ↔ c.isUpper = true ∨ c.isLower = true :=
  Bool.or_eq_true_iff

theorem isAlphanum_iff (c : Char) : c.isAlphanum = true ↔ c.isAlpha = true ∨ c.isDigit = true :=
  Bool.or_eq_true_iff

theorem toNat_of_isAlphanum (h : c.isAlphanum = true) : 0x30 ≤ c.toNat ∧ c.toNat ≤ 0x7a := by
  rw [isAlphanum_iff, isAlpha_iff, isUpper_iff, isLower_iff, isDigit_iff] at h
  omega

theorem isBlank_of_isAlphanum (h : c.isAlphanum = true) : isBlank c = false := by
  obtain ⟨hlow, hhigh⟩ := toNat_of_isAlphanum h
  exact isBlank_eq_false (by omega) (by omega)

end Characters

end SafeMarkdown.Text
