import Mathlib.Data.List.DropRight
import Mathlib.Data.List.TakeWhile
import SafeMarkdown.Gfm.Autolink

/-!
# Texts without bare URLs

Linking the bare URLs of a text leaves none in the texts between them. A URL takes all characters
that can be part of it, so none starts right behind it; and a text that is cut short holds no URL
that it did not hold before, as a URL never depends on what must not follow it.
-/

namespace SafeMarkdown.Gfm

open Node

variable {before : Option Char} {s t after : List Char} {n : Nat}

theorem dropEndWhile_eq (p : Char → Bool) (s : List Char) :
    Text.dropEndWhile p s = s.rdropWhile p := rfl

theorem urlStartLength_append {start : String} (h : start ∈ urlStarts) (r : List Char) :
    urlStartLength (start.toList ++ r) = some start.length := by
  simp only [urlStarts, List.mem_cons, List.not_mem_nil, or_false] at h
  rcases h with rfl | rfl | rfl
  · rfl
  · rfl
  · rfl

theorem exists_of_urlStartLength (h : urlStartLength s = some n) :
    ∃ start ∈ urlStarts, n = start.toList.length ∧ ∃ r, s = start.toList ++ r := by
  obtain ⟨start, hstart, rfl⟩ := Option.map_eq_some_iff.mp h
  have hprefix := List.find?_some (p := fun u : String ↦ u.toList.isPrefixOf s) hstart
  obtain ⟨r, hr⟩ := List.isPrefixOf_iff_prefix.mp hprefix
  exact ⟨start, List.mem_of_find?_eq_some hstart, String.length_toList.symm, r, hr.symm⟩

/-- No URL starts exactly where a word or an address ends, or where no start of a URL stands, or one
that only punctuation follows. -/
theorem urlLength_eq_zero_iff : urlLength before s = 0 ↔ (startsAfter before = true →
    ∀ k, urlStartLength s = some k →
      ∀ c ∈ (s.drop k).takeWhile isUrlChar, isUrlPunctuation c = true) := by
  unfold urlLength
  cases startsAfter before with
  | false => simp
  | true =>
      cases hstart : urlStartLength s with
      | none => simp
      | some k =>
          simp only [if_true, forall_const, Option.some.injEq, forall_eq', List.isEmpty_iff]
          rw [← List.rdropWhile_eq_nil_iff, dropEndWhile_eq]
          split
          · rename_i hempty
            simp [hempty]
          · rename_i hbody
            have hpos := List.length_pos_iff.mpr hbody
            exact ⟨fun h ↦ by omega, fun h ↦ absurd h hbody⟩

theorem urlLength_of_append (h : urlLength before (s ++ t) = 0) : urlLength before s = 0 := by
  rw [urlLength_eq_zero_iff] at h ⊢
  intro hbefore k hstart c hc
  obtain ⟨start, hmem, rfl, r, rfl⟩ := exists_of_urlStartLength hstart
  rw [List.append_assoc, urlStartLength_append hmem, ← String.length_toList] at h
  refine h hbefore _ rfl c ?_
  rw [List.drop_left] at hc ⊢
  rw [List.takeWhile_append]
  split
  · exact List.mem_append_left _ ((List.takeWhile_sublist _).subset hc)
  · exact hc

/-- The characters that a URL can start with. -/
theorem head_of_urlStartLength {c : Char} (h : urlStartLength (c :: s) = some n) :
    isUrlChar c = true ∧ isUrlPunctuation c = false := by
  obtain ⟨start, hmem, -, r, hr⟩ := exists_of_urlStartLength h
  simp only [urlStarts, List.mem_cons, List.not_mem_nil, or_false] at hmem
  rcases hmem with rfl | rfl | rfl
  · cases hr
    decide
  · cases hr
    decide
  · cases hr
    decide

/-- Right behind a URL starts none, whatever is taken to stand before. -/
theorem urlLength_drop (hn : urlLength before s = n) (hne : n ≠ 0) (last : Option Char) :
    urlLength last (s.drop n) = 0 := by
  unfold urlLength at hn
  split at hn
  · split at hn
    · exact (hne hn.symm).elim
    · rename_i k hstart
      dsimp only at hn
      split at hn
      · exact (hne hn.symm).elim
      · -- what follows the start is the body, then punctuation, then what is no part of a URL
        let run := (s.drop k).takeWhile isUrlChar
        have hrest : s.drop n =
            run.rtakeWhile isUrlPunctuation ++ (s.drop k).dropWhile isUrlChar := by
          calc s.drop n
            _ = (s.drop k).drop (run.rdropWhile isUrlPunctuation).length := by
                rw [List.drop_drop, ← hn]
                rfl
            _ = (run.rdropWhile isUrlPunctuation ++ (run.rtakeWhile isUrlPunctuation ++
                  (s.drop k).dropWhile isUrlChar)).drop
                    (run.rdropWhile isUrlPunctuation).length := by
                rw [← List.append_assoc, List.rdropWhile_append_rtakeWhile,
                  List.takeWhile_append_dropWhile]
            _ = _ := List.drop_left
        rw [hrest, urlLength_eq_zero_iff]
        intro _ m hm
        exfalso
        cases htail : run.rtakeWhile isUrlPunctuation with
        | nil =>
            rw [htail, List.nil_append] at hm
            cases hdrop : (s.drop k).dropWhile isUrlChar with
            | nil =>
                rw [hdrop] at hm
                cases hm
            | cons c more =>
                rw [hdrop] at hm
                have hstops := List.head_dropWhile_not isUrlChar (l := s.drop k) (by simp [hdrop])
                simp only [hdrop, List.head_cons] at hstops
                rw [(head_of_urlStartLength hm).1] at hstops
                cases hstops
        | cons c more =>
            rw [htail] at hm
            have hstops := List.mem_rtakeWhile_imp (htail ▸ List.mem_cons_self (a := c))
            rw [(head_of_urlStartLength hm).2] at hstops
            cases hstops
  · exact (hne hn.symm).elim

/-- Whether no URL starts in a text between a character and the text that follows. -/
def Quiet (before : Option Char) (after : List Char) : List Char → Prop
  | [] => True
  | c :: rest => urlLength before (c :: (rest ++ after)) = 0 ∧ Quiet (some c) after rest

theorem Quiet.cut (h : Quiet before after s) : Quiet before [] s := by
  induction s generalizing before with
  | nil => trivial
  | cons c rest ih =>
      obtain ⟨hself, hrest⟩ := h
      rw [← List.cons_append] at hself
      refine ⟨?_, ih hrest⟩
      rw [List.append_nil]
      exact urlLength_of_append hself

theorem Quiet.concat {c : Char} (h : Quiet before (c :: after) s)
    (hlast : urlLength (s.getLast?.or before) (c :: after) = 0) :
    Quiet before after (s ++ [c]) := by
  induction s generalizing before with
  | nil => exact ⟨hlast, trivial⟩
  | cons d rest ih =>
      obtain ⟨hself, hrest⟩ := h
      have hself : urlLength before (d :: (rest ++ [c] ++ after)) = 0 := by
        rwa [List.append_assoc]
      refine ⟨hself, ih hrest ?_⟩
      cases rest with
      | nil => exact hlast
      | cons e more =>
          rw [List.getLast?_cons_cons] at hlast
          rwa [List.getLast?_cons, Option.some_or] at hlast ⊢

theorem pieces_of_quiet (h : Quiet before [] s) : pieces before s = s.map .char := by
  induction s generalizing before with
  | nil => rw [pieces, List.map_nil]
  | cons c rest ih =>
      obtain ⟨hself, hrest⟩ := h
      rw [List.append_nil] at hself
      rw [pieces, if_pos hself, ih hrest, List.map_cons]

theorem nodesOf_chars (pending s : List Char) :
    nodesOf pending (s.map .char) = textNodes (s.reverse ++ pending) := by
  induction s generalizing pending with
  | nil => rfl
  | cons c rest ih => rw [List.map_cons, nodesOf, ih, List.reverse_cons, List.append_assoc]; rfl

theorem autolink_of_quiet {text : String} (h : Quiet none [] text.toList) (hne : text ≠ "") :
    autolink text = [ofText text] := by
  have hlist : text.toList ≠ [] := by simpa using hne
  rw [autolink, pieces_of_quiet h, nodesOf_chars, List.append_nil, textNodes,
    if_neg (by simpa using hlist), List.reverse_reverse, String.ofList_toList]

/-- A text that is not empty and holds no URL, or a link. -/
inductive IsLinked : Node → Prop where
  | text {text : String} (hne : text ≠ "") (hquiet : Quiet none [] text.toList) :
      IsLinked (ofText text)
  | link (url : List Char) : IsLinked (linkNode url)

/-- The pieces of a text, behind characters without a URL that wait to become a text. -/
theorem isLinked_nodesOf (before : Option Char) (s : List Char) : ∀ pending : List Char,
    Quiet none s pending.reverse →
    (urlLength before s = 0 → urlLength pending.head? s = 0) →
    ∀ n ∈ nodesOf pending (pieces before s), IsLinked n := by
  have htexts {pending after : List Char} (h : Quiet none after pending.reverse) :
      ∀ n ∈ textNodes pending, IsLinked n := by
    intro n hn
    unfold textNodes at hn
    split at hn
    · cases hn
    · rename_i hne
      rw [List.mem_singleton.mp hn]
      refine .text ?_ ?_
      · simpa [← String.toList_inj] using hne
      · rw [String.toList_ofList]
        exact h.cut
  induction before, s using pieces.induct with
  | case1 before =>
      intro pending hquiet _ n hn
      rw [pieces] at hn
      exact htexts hquiet n hn
  | case2 before c rest n hn ih =>
      intro pending hquiet hhead m hm
      simp only [n] at hn
      rw [pieces, if_pos hn, nodesOf] at hm
      refine ih (c :: pending) ?_ (fun h ↦ h) m hm
      rw [List.reverse_cons]
      refine hquiet.concat ?_
      rw [List.getLast?_reverse, Option.or_none]
      exact hhead hn
  | case3 before c rest n hn url ih =>
      intro pending hquiet hhead m hm
      simp only [n] at hn
      rw [pieces, if_neg hn, nodesOf] at hm
      rcases List.mem_append.mp hm with hm | hm
      · exact htexts hquiet m hm
      · rcases List.mem_cons.mp hm with rfl | hm
        · exact .link _
        · refine ih [] trivial (fun _ ↦ ?_) m hm
          have hdrop := urlLength_drop (s := c :: rest) rfl hn none
          obtain ⟨k, hk⟩ := Nat.exists_eq_succ_of_ne_zero hn
          rw [hk, List.drop_succ_cons] at hdrop
          simp only [n, hk]
          exact hdrop

/-- What a text consists of once its URLs are links. -/
theorem isLinked_of_mem_autolink {text : String} {n : Node} (h : n ∈ autolink text) : IsLinked n :=
  isLinked_nodesOf none text.toList [] trivial (fun h ↦ h) n h

end SafeMarkdown.Gfm
