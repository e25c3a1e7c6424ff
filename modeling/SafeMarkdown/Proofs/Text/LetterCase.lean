import Mathlib.Data.List.Forall2
import SafeMarkdown.Proofs.Text.Scanning
import SafeMarkdown.Text.LetterCase

/-!
# Lowercase texts

A lowercase text is its own lowercase form. No run of the table of lowercase forms sends a code
point into a run of that table, which is checked for each pair of runs and not for each code point.

Two characters from beyond ASCII have an ASCII letter in their lowercase form: the capital dotted I
and the sign for kelvin. So every other letter of a lowercase text was that letter in either case.
Two texts that differ in the case of letters of ASCII have one lowercase form.
-/

namespace SafeMarkdown.Text

namespace CaseRun

/-- Whether a run moves a code point. -/
def holds (r : CaseRun) (n : Nat) : Bool :=
  r.first ≤ n && n ≤ r.last && (n - r.first) % r.step == 0

/-- Where a run sends a code point. -/
def move (r : CaseRun) (n : Nat) : Nat :=
  (Int.ofNat n + r.shift).toNat

/-- A test that tells two sets of code points apart, those that the run sends out and those that
another one moves: by their bounds, or by their parity when both have one. -/
def misses (r s : CaseRun) : Bool :=
  (r.move r.last).blt s.first || s.last.blt (r.move r.first) ||
    (s.step.beq 2 && (r.step.beq 2 || r.first.beq r.last) &&
      !(r.move r.first % 2).beq (s.first % 2))

/-- A test that a run sends code points to characters only. -/
def reachesCharacters (r : CaseRun) : Bool :=
  (0 : Int) ≤ Int.ofNat r.first + r.shift &&
    ((r.move r.last).blt 0xd800 ||
      ((0xe000 : Nat).ble (r.move r.first) && (r.move r.last).blt 0x110000))

theorem apply_cons (r : CaseRun) (rs : List CaseRun) (n : Nat) :
    apply (r :: rs) n = if r.holds n then r.move n else apply rs n := rfl

theorem apply_eq_self {rs : List CaseRun} {n : Nat} (h : ∀ r ∈ rs, r.holds n = false) :
    apply rs n = n := by
  induction rs with
  | nil => rfl
  | cons r rs ih =>
      rw [apply_cons, h r List.mem_cons_self]
      exact ih fun s hs ↦ h s (List.mem_cons_of_mem r hs)

theorem exists_apply_eq_move {rs : List CaseRun} {n : Nat} (h : ∃ r ∈ rs, r.holds n = true) :
    ∃ r ∈ rs, r.holds n = true ∧ apply rs n = r.move n := by
  induction rs with
  | nil => simp at h
  | cons r rs ih =>
      cases hr : r.holds n with
      | true => exact ⟨r, List.mem_cons_self, hr, by rw [apply_cons, hr]; rfl⟩
      | false =>
          have hskip : apply (r :: rs) n = apply rs n := by rw [apply_cons, hr]; rfl
          rw [hskip]
          obtain ⟨s, hs, hold, hmove⟩ := ih (by simpa [hr] using h)
          exact ⟨s, List.mem_cons_of_mem r hs, hold, hmove⟩

/-- What a run sends out lies between the images of its ends. -/
theorem move_mem_Icc {r : CaseRun} {n : Nat} (h : r.holds n = true) :
    r.move r.first ≤ r.move n ∧ r.move n ≤ r.move r.last := by
  simp only [holds, Bool.and_eq_true, decide_eq_true_eq] at h
  simp only [move, Int.ofNat_eq_natCast]
  omega

theorem holds_move_eq_false {r s : CaseRun} (hmiss : r.misses s = true)
    (hpos : 0 ≤ Int.ofNat r.first + r.shift) {n : Nat} (h : r.holds n = true) :
    s.holds (r.move n) = false := by
  obtain ⟨hlow, hhigh⟩ := move_mem_Icc h
  rw [← Bool.not_eq_true]
  intro hs
  simp only [holds, Bool.and_eq_true, decide_eq_true_eq, beq_iff_eq] at h hs
  obtain ⟨⟨hfirst, hlast⟩, hstep⟩ := h
  obtain ⟨⟨sfirst, slast⟩, sstep⟩ := hs
  simp only [misses, Bool.or_eq_true, Bool.and_eq_true, Nat.blt_eq, Nat.beq_eq,
    Bool.not_eq_true'] at hmiss
  rcases hmiss with (hbelow | habove) | ⟨⟨htwo, hsame⟩, hparity⟩
  · omega
  · omega
  · have hne : r.move r.first % 2 ≠ s.first % 2 := Nat.ne_of_beq_eq_false hparity
    rw [htwo] at sstep
    have hshift : r.move n = r.move r.first + (n - r.first) := by
      simp only [move, Int.ofNat_eq_natCast] at hpos ⊢
      omega
    rcases hsame with hr | hr
    · rw [hr] at hstep
      omega
    · omega

end CaseRun

/-- The table of lowercase forms, and the two capitals that it does not tell about: the dotted one
with two lowercase characters, and the one with a final form. -/
def movedRuns : List CaseRun :=
  ⟨0x130, 0x130, 1, 0⟩ :: ⟨0x3a3, 0x3a3, 1, 0⟩ :: lowerRuns

theorem lowerRuns_misses :
    (lowerRuns.all fun r ↦ r.reachesCharacters && movedRuns.all r.misses) = true := by
  decide +kernel

/-- A code point that no run moves. -/
def IsSettled (n : Nat) : Prop :=
  ∀ r ∈ movedRuns, r.holds n = false

theorem isSettled_move {r : CaseRun} (hr : r ∈ lowerRuns) {n : Nat} (h : r.holds n = true) :
    IsSettled (r.move n) := by
  intro s hs
  have hcheck := List.all_eq_true.mp lowerRuns_misses r hr
  simp only [Bool.and_eq_true] at hcheck
  refine CaseRun.holds_move_eq_false (List.all_eq_true.mp hcheck.2 s hs) ?_ h
  have hreach := hcheck.1
  simp only [CaseRun.reachesCharacters, Bool.and_eq_true, decide_eq_true_eq] at hreach
  exact hreach.1

theorem isValidChar_move {r : CaseRun} (hr : r ∈ lowerRuns) {n : Nat} (h : r.holds n = true) :
    (r.move n).isValidChar := by
  have hcheck := List.all_eq_true.mp lowerRuns_misses r hr
  obtain ⟨hlow, hhigh⟩ := CaseRun.move_mem_Icc h
  simp only [CaseRun.reachesCharacters, Bool.and_eq_true, Bool.or_eq_true, Nat.blt_eq,
    Nat.ble_eq] at hcheck
  rcases hcheck.1.2 with hbelow | ⟨habove, htop⟩
  · exact .inl (by omega)
  · exact .inr ⟨by omega, by omega⟩

/-- A character that stays as it is in a text that is made lowercase, wherever it stands. -/
def IsLower (c : Char) : Prop :=
  lowerChar c = [c] ∧ c.toNat ≠ 0x3a3

theorem isLower_of_isSettled {c : Char} (h : IsSettled c.toNat) : IsLower c := by
  have hdotted := h ⟨0x130, 0x130, 1, 0⟩ List.mem_cons_self
  have hsigma := h ⟨0x3a3, 0x3a3, 1, 0⟩ (.tail _ (.head _))
  have hruns : ∀ r ∈ lowerRuns, r.holds c.toNat = false := fun r hr ↦ h r (.tail _ (.tail _ hr))
  have hcapital := hruns ⟨65, 90, 1, 32⟩ List.mem_cons_self
  simp only [CaseRun.holds, Nat.mod_one, BEq.rfl, Bool.and_true, Bool.and_eq_false_iff,
    decide_eq_false_iff_not] at hdotted hsigma hcapital
  refine ⟨?_, by omega⟩
  unfold lowerChar
  split
  · have hself : c.toLower = c := by
      unfold Char.toLower
      rw [dif_neg]
      rintro ⟨hfirst, hlast⟩
      have hfirst : 65 ≤ c.toNat := hfirst
      have hlast : c.toNat ≤ 90 := hlast
      omega
    rw [hself]
  · have hne : (c.toNat == 0x130) = false := by simp only [beq_eq_false_iff_ne]; omega
    rw [hne, CaseRun.apply_eq_self hruns, Char.ofNat_toNat]
    rfl

theorem isLower_toLower {c : Char} (h : c.toNat < 128) : IsLower c.toLower := by
  have hall : ∀ n < 128, lowerChar (Char.ofNat n).toLower = [(Char.ofNat n).toLower] ∧
      (Char.ofNat n).toLower.toNat ≠ 0x3a3 := by
    decide +kernel
  simpa [IsLower] using hall c.toNat h

theorem toNat_ofNat {n : Nat} (h : n.isValidChar) : (Char.ofNat n).toNat = n := by
  rw [Char.ofNat, dif_pos h]
  rfl

/-- Every character of a lowercase form stays as it is. -/
theorem isLower_of_mem_lowerChar {c d : Char} (hc : c.toNat ≠ 0x3a3) (hd : d ∈ lowerChar c) :
    IsLower d := by
  unfold lowerChar at hd
  split at hd
  · rw [List.mem_singleton.mp hd]
    exact isLower_toLower ‹_›
  · split at hd
    · have hboth : IsLower 'i' ∧ IsLower (Char.ofNat 0x307) := by
        unfold IsLower
        decide +kernel
      simp only [List.mem_cons, List.not_mem_nil, or_false] at hd
      rcases hd with rfl | rfl
      · exact hboth.1
      · exact hboth.2
    · rename_i hdotted
      rw [List.mem_singleton.mp hd]
      by_cases hmoved : ∃ r ∈ lowerRuns, r.holds c.toNat = true
      · obtain ⟨r, hr, hold, hmove⟩ := CaseRun.exists_apply_eq_move hmoved
        rw [hmove]
        apply isLower_of_isSettled
        rw [toNat_ofNat (isValidChar_move hr hold)]
        exact isSettled_move hr hold
      · have hruns : ∀ r ∈ lowerRuns, r.holds c.toNat = false := by simpa using hmoved
        rw [CaseRun.apply_eq_self hruns, Char.ofNat_toNat]
        apply isLower_of_isSettled
        intro r hr
        simp only [beq_iff_eq] at hdotted
        rcases List.mem_cons.mp hr with rfl | hr
        · simp only [CaseRun.holds, Bool.and_eq_false_iff, decide_eq_false_iff_not]
          omega
        rcases List.mem_cons.mp hr with rfl | hr
        · simp only [CaseRun.holds, Bool.and_eq_false_iff, decide_eq_false_iff_not]
          omega
        · exact hruns r hr

theorem isLower_of_mem_lowerAfter {after : Bool} {s : List Char} {d : Char}
    (hd : d ∈ lowerAfter after s) : IsLower d := by
  induction s generalizing after with
  | nil => simp [lowerAfter] at hd
  | cons c s ih =>
      simp only [lowerAfter, List.mem_append] at hd
      rcases hd with hd | hd
      · split at hd
        · have hforms : IsLower (Char.ofNat 0x3c2) ∧ IsLower (Char.ofNat 0x3c3) := by
            unfold IsLower
            decide +kernel
          rw [List.mem_singleton.mp hd]
          split
          · exact hforms.1
          · exact hforms.2
        · rename_i hsigma
          exact isLower_of_mem_lowerChar (by simpa using hsigma) hd
      · exact ih hd

theorem lowerAfter_eq_self {after : Bool} {s : List Char} (h : ∀ c ∈ s, IsLower c) :
    lowerAfter after s = s := by
  induction s generalizing after with
  | nil => rfl
  | cons c s ih =>
      obtain ⟨hself, hsigma⟩ := h c List.mem_cons_self
      have hne : (c.toNat == 0x3a3) = false := by simpa using hsigma
      simp only [lowerAfter, hne, Bool.false_eq_true, if_false, hself,
        ih fun d hd ↦ h d (List.mem_cons_of_mem c hd), List.singleton_append]

theorem lower_lower (s : List Char) : lower (lower s) = lower s :=
  lowerAfter_eq_self fun _ ↦ isLower_of_mem_lowerAfter

/-- A lowercase text is its own lowercase form. -/
@[simp] theorem lowercase_lowercase (s : String) : lowercase (lowercase s) = lowercase s := by
  simp [lowercase, lower_lower]

end SafeMarkdown.Text

namespace SafeMarkdown.Text

/-- A run of the table sends no code point from beyond ASCII into ASCII, the sign for kelvin apart. -/
theorem lowerRuns_leave_ascii :
    (lowerRuns.all fun r ↦ (r.last).blt 128 || (128 : Nat).ble (r.move r.first) ||
      ((r.move r.first).beq 107 && (r.move r.last).beq 107)) = true := by
  decide +kernel

theorem ascii_of_mem_lowerChar {c d : Char} (hd : d ∈ lowerChar c) (hascii : d.toNat < 128)
    (hi : d ≠ 'i') (hk : d ≠ 'k') : c.toNat < 128 ∧ c.toLower = d := by
  unfold lowerChar at hd
  split at hd
  · rename_i hsmall
    exact ⟨hsmall, (List.mem_singleton.mp hd).symm⟩
  · rename_i hlarge
    exfalso
    split at hd
    · simp only [List.mem_cons, List.not_mem_nil, or_false] at hd
      rcases hd with rfl | rfl
      · exact hi rfl
      · exact absurd hascii (by decide)
    · have hd := List.mem_singleton.mp hd
      by_cases hmoved : ∃ r ∈ lowerRuns, r.holds c.toNat = true
      · obtain ⟨r, hr, hold, hmove⟩ := CaseRun.exists_apply_eq_move hmoved
        have hcheck := List.all_eq_true.mp lowerRuns_leave_ascii r hr
        obtain ⟨hlow, hhigh⟩ := CaseRun.move_mem_Icc hold
        have hdNat : d.toNat = r.move c.toNat := by
          rw [hd, hmove, toNat_ofNat (isValidChar_move hr hold)]
        simp only [CaseRun.holds, Bool.and_eq_true, decide_eq_true_eq] at hold
        simp only [Bool.or_eq_true, Bool.and_eq_true, Nat.blt_eq, Nat.ble_eq, Nat.beq_eq] at hcheck
        rcases hcheck with (hbelow | habove) | ⟨hfirst, hlast⟩
        · omega
        · omega
        · apply hk
          rw [← Char.ofNat_toNat d, show d.toNat = 107 by omega]
      · have hruns : ∀ r ∈ lowerRuns, r.holds c.toNat = false := by simpa using hmoved
        rw [hd, CaseRun.apply_eq_self hruns, Char.ofNat_toNat] at hascii
        exact hlarge hascii

/-- A lowercase text starts with a letter of ASCII if the text starts with that letter in either
case. -/
theorem lowerAfter_eq_cons {after : Bool} {s : List Char} {d : Char} (hascii : d.toNat < 128)
    (hi : d ≠ 'i') (hk : d ≠ 'k') {t : List Char} :
    lowerAfter after s = d :: t ↔ ∃ c rest, s = c :: rest ∧ c.toNat < 128 ∧ c.toLower = d ∧
      lowerAfter (if isCaseIgnorable c then after else isCased c) rest = t := by
  constructor
  · intro h
    cases s with
    | nil => cases h
    | cons c rest =>
        rw [lowerAfter] at h
        by_cases hsigma : (c.toNat == 0x3a3) = true
        · rw [if_pos hsigma] at h
          have hd := (List.cons.inj h).1
          rw [← hd] at hascii
          split at hascii <;> exact absurd hascii (by decide)
        · rw [if_neg hsigma] at h
          have hmem : ∃ u, lowerChar c = d :: u := by
            unfold lowerChar at h ⊢
            split at h
            · exact ⟨[], by rw [if_pos ‹_›, (List.cons.inj h).1]⟩
            · split at h
              · exact absurd (List.cons.inj h).1.symm hi
              · exact ⟨[], by rw [if_neg ‹_›, if_neg ‹_›, (List.cons.inj h).1]⟩
          obtain ⟨u, hu⟩ := hmem
          obtain ⟨hsmall, hlower⟩ :=
            ascii_of_mem_lowerChar (hu ▸ List.mem_cons_self) hascii hi hk
          refine ⟨c, rest, rfl, hsmall, hlower, ?_⟩
          rw [lowerChar, if_pos hsmall] at h
          exact (List.cons.inj h).2
  · rintro ⟨c, rest, rfl, hsmall, rfl, rfl⟩
    have hsigma : ¬ (c.toNat == 0x3a3) = true := by
      simp only [beq_iff_eq]
      omega
    rw [lowerAfter, if_neg hsigma, lowerChar, if_pos hsmall, List.singleton_append]

theorem lowerChar_ne_nil (c : Char) : lowerChar c ≠ [] := by
  unfold lowerChar
  split
  · exact List.cons_ne_nil _ _
  · split
    · exact List.cons_ne_nil _ _
    · exact List.cons_ne_nil _ _

theorem lowercase_ne_empty {s : String} (h : s ≠ "") : lowercase s ≠ "" := by
  intro hlower
  have hnil : lower s.toList = [] := by
    rw [← String.toList_ofList (l := lower s.toList)]
    exact congrArg String.toList hlower
  cases hs : s.toList with
  | nil => exact h (String.toList_inj.mp hs)
  | cons c rest =>
      rw [hs, lower, lowerAfter, List.append_eq_nil_iff] at hnil
      have hfirst := hnil.1
      split at hfirst
      · cases hfirst
      · exact lowerChar_ne_nil c hfirst

end SafeMarkdown.Text

namespace SafeMarkdown.Text

/-- Whether two characters are one, but for the case of a letter of ASCII. -/
def SameLetter (c d : Char) : Prop :=
  d = c ∨ c.isAlpha = true ∧ d.isAlpha = true ∧ d.toLower = c.toLower

section SameLetter

variable {c d : Char} {s t : List Char}

theorem ascii_of_isAlpha (h : c.isAlpha = true) :
    c.toNat < 128 ∧ 0x20 < c.toNat ∧ isCased c = true ∧ isCaseIgnorable c = false := by
  have hall : ∀ n < 128, (Char.ofNat n).isAlpha = true → 0x20 < (Char.ofNat n).toNat ∧
      isCased (Char.ofNat n) = true ∧ isCaseIgnorable (Char.ofNat n) = false := by
    decide +kernel
  have hascii : c.toNat < 128 := by
    rw [isAlpha_iff, isUpper_iff, isLower_iff] at h
    omega
  have hself := hall c.toNat hascii
  rw [Char.ofNat_toNat] at hself
  exact ⟨hascii, hself h⟩

namespace SameLetter

theorem isCased_eq (h : SameLetter c d) : isCased d = isCased c := by
  rcases h with rfl | ⟨hc, hd, -⟩
  · rfl
  · rw [(ascii_of_isAlpha hc).2.2.1, (ascii_of_isAlpha hd).2.2.1]

theorem isCaseIgnorable_eq (h : SameLetter c d) : isCaseIgnorable d = isCaseIgnorable c := by
  rcases h with rfl | ⟨hc, hd, -⟩
  · rfl
  · rw [(ascii_of_isAlpha hc).2.2.2, (ascii_of_isAlpha hd).2.2.2]

theorem shows_eq (h : SameLetter c d) : decide (0x20 < d.toNat) = decide (0x20 < c.toNat) := by
  rcases h with rfl | ⟨hc, hd, -⟩
  · rfl
  · simp [(ascii_of_isAlpha hc).2.1, (ascii_of_isAlpha hd).2.1]

end SameLetter

theorem startsCased_eq_of_sameLetter (h : List.Forall₂ SameLetter s t) :
    startsCased t = startsCased s := by
  induction h with
  | nil => rfl
  | @cons c d s t hcd _ ih =>
      rw [startsCased, startsCased, List.dropWhile_cons, List.dropWhile_cons,
        hcd.isCaseIgnorable_eq]
      cases isCaseIgnorable c with
      | true => exact ih
      | false => exact hcd.isCased_eq

/-- A text and one that differs from it in the case of letters of ASCII have one lowercase form. -/
theorem lowerAfter_eq_of_sameLetter (h : List.Forall₂ SameLetter s t) (after : Bool) :
    lowerAfter after t = lowerAfter after s := by
  induction h generalizing after with
  | nil => rfl
  | @cons c d s t hcd hrest ih =>
      rw [lowerAfter, lowerAfter, hcd.isCaseIgnorable_eq, hcd.isCased_eq, ih,
        startsCased_eq_of_sameLetter hrest]
      rcases hcd with rfl | ⟨hc, hd, hsame⟩
      · rfl
      · have hcAscii := (ascii_of_isAlpha hc).1
        have hdAscii := (ascii_of_isAlpha hd).1
        have hcSigma : (c.toNat == 0x3a3) = false := by rw [beq_eq_false_iff_ne]; omega
        have hdSigma : (d.toNat == 0x3a3) = false := by rw [beq_eq_false_iff_ne]; omega
        rw [hcSigma, hdSigma, lowerChar, lowerChar, if_pos hcAscii, if_pos hdAscii, hsame]

end SameLetter

end SafeMarkdown.Text
