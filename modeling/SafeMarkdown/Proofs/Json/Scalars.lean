import Mathlib.Data.Nat.Digits.Defs
import SafeMarkdown.Json.Parser
import SafeMarkdown.Json.Printer
import SafeMarkdown.Proofs.Number.Rounding

/-!
# Strings and numbers of JSON texts

A string that is written escaped is read back, and so is a number: an integer digit by digit, a
double through the decimal that it is spelled as. What follows a value in a text never goes on with
a number.
-/

namespace SafeMarkdown.Json

section Strings

theorem hexFour_append {s : List Char} (h : s.length = 4) (more : List Char) :
    hexFour (s ++ more) = (hexFour s).map fun r ↦ (r.1, more) := by
  match s, h with
  | [a, b, c, d], _ =>
      simp only [List.cons_append, List.nil_append, hexFour]
      cases hexValue? a <;> cases hexValue? b <;> cases hexValue? c <;> cases hexValue? d <;> rfl

theorem hexFour_hexDigits {n : Nat} (h : n < 32) (more : List Char) :
    hexFour (Text.hexDigits 4 n ++ more) = some (n, more) := by
  have hall : ∀ n < 32, (Text.hexDigits 4 n).length = 4 ∧
      hexFour (Text.hexDigits 4 n) = some (n, []) := by
    decide +kernel
  obtain ⟨hlength, hread⟩ := hall n h
  rw [hexFour_append hlength, hread]
  rfl

/-- A character of a string takes one round to read back. -/
theorem stringRest_escapeChar (c : Char) (fuel : Nat) (more : List Char) :
    stringRest (fuel + 1) (escapeChar c ++ more) =
      (stringRest fuel more).map fun r ↦ (c :: r.1, r.2) := by
  have hsimple {e d : Char} (he : e ≠ 'u') (hd : simpleEscape? e = some d) :
      stringRest (fuel + 1) ('\\' :: e :: more) =
        (stringRest fuel more).map fun r ↦ (d :: r.1, r.2) := by
    rw [stringRest, if_neg (by decide), if_pos (by decide)]
    cases stringRest fuel more <;> simp [he, hd]
  unfold escapeChar
  split_ifs with h₁ h₂ h₃ h₄ h₅ h₆ h₇ h₈
  · rw [beq_iff_eq.mp h₁]
    exact hsimple (by decide) rfl
  · rw [beq_iff_eq.mp h₂]
    exact hsimple (by decide) rfl
  · rw [beq_iff_eq.mp h₃]
    exact hsimple (by decide) rfl
  · rw [beq_iff_eq.mp h₄]
    exact hsimple (by decide) rfl
  · rw [beq_iff_eq.mp h₅]
    exact hsimple (by decide) rfl
  · have hc : c = Char.ofNat 8 := by rw [← h₆, Char.ofNat_toNat]
    rw [hc]
    exact hsimple (by decide) rfl
  · have hc : c = Char.ofNat 12 := by rw [← h₇, Char.ofNat_toNat]
    rw [hc]
    exact hsimple (by decide) rfl
  · have hescape : unicodeEscape (Text.hexDigits 4 c.toNat ++ more) = some (c, more) := by
      have hread := hexFour_hexDigits h₈ more
      unfold unicodeEscape
      rw [hread]
      have hhigh : ¬ 0xd800 ≤ c.toNat := by omega
      have hlow : ¬ 0xdc00 ≤ c.toNat := by omega
      simp [hhigh, hlow, Char.ofNat_toNat]
    rw [List.cons_append, List.cons_append, stringRest, if_neg (by decide), if_pos (by decide)]
    cases hrest : stringRest fuel more <;> simp [hescape, hrest]
  · rw [List.singleton_append, stringRest.eq_def]
    dsimp only
    rw [if_neg h₁, if_neg h₂, if_neg h₈]
    cases stringRest fuel more <;> simp

theorem stringRest_escaped (cs : List Char) {fuel : Nat} (hfuel : cs.length < fuel)
    (after : List Char) :
    stringRest fuel (cs.flatMap escapeChar ++ '"' :: after) = some (cs, after) := by
  induction cs generalizing fuel with
  | nil =>
      obtain ⟨fuel, rfl⟩ : ∃ k, fuel = k + 1 := ⟨fuel - 1, by simp at hfuel; omega⟩
      rw [List.flatMap_nil, List.nil_append]
      unfold stringRest
      rfl
  | cons c cs ih =>
      rw [List.length_cons] at hfuel
      obtain ⟨fuel, rfl⟩ : ∃ k, fuel = k + 1 := ⟨fuel - 1, by omega⟩
      rw [List.flatMap_cons, List.append_assoc, stringRest_escapeChar, ih (by omega)]
      rfl

theorem length_le_escaped (cs : List Char) : cs.length ≤ (cs.flatMap escapeChar).length := by
  induction cs with
  | nil => simp
  | cons c cs ih =>
      have hpos : 1 ≤ (escapeChar c).length := by
        unfold escapeChar
        split_ifs <;> simp
      rw [List.flatMap_cons, List.length_append, List.length_cons]
      omega

/-- The text of a string behind its opening quote is read back. -/
theorem stringRest_stringText (s : String) (after : List Char) :
    ∃ body, stringText s ++ after = '"' :: body ∧
      stringRest (body.length + 1) body = some (s.toList, after) := by
  refine ⟨s.toList.flatMap escapeChar ++ '"' :: after, ?_, ?_⟩
  · simp [stringText]
  · apply stringRest_escaped
    have := length_le_escaped s.toList
    rw [List.length_append]
    omega

end Strings

section Digits

theorem isDigit_of_isDigit {c : Char} (h : c.isDigit = true) : isDigit c = true := by
  simp only [Char.isDigit, Bool.and_eq_true, decide_eq_true_eq] at h
  simp only [isDigit, Bool.and_eq_true, decide_eq_true_eq]
  exact h

theorem isDigit_of_mem_toDigits {n : Nat} : ∀ c ∈ Nat.toDigits 10 n, isDigit c = true := by
  intro c hc
  exact isDigit_of_isDigit (Nat.isDigit_of_mem_toDigits (by decide) (by decide) hc)

theorem natOf_toDigits (n : Nat) : natOf (Nat.toDigits 10 n) = n := by
  have hsame (ds : List Char) (k : Nat) :
      ds.foldl (fun n c ↦ n * 10 + (c.toNat - 48)) k = Nat.ofDigitChars 10 ds k := by
    unfold Nat.ofDigitChars
    simp only [Nat.mul_comm 10]
    rfl
  rw [natOf, hsame, Nat.ofDigitChars_toDigits (by decide) (by decide)]

theorem natOf_zeros_append (k : Nat) (ds : List Char) :
    natOf (List.replicate k '0' ++ ds) = natOf ds := by
  induction k with
  | zero => simp
  | succ k ih => simpa [List.replicate_succ, natOf] using ih

theorem natOf_append_zeros (k : Nat) (ds : List Char) :
    natOf (ds ++ List.replicate k '0') = natOf ds * 10 ^ k := by
  induction k with
  | zero => simp
  | succ k ih =>
      have hlast : natOf (ds ++ List.replicate k '0' ++ ['0']) =
          natOf (ds ++ List.replicate k '0') * 10 := by
        simp [natOf, List.foldl_append]
      rw [List.replicate_succ', ← List.append_assoc, hlast, ih, pow_succ, Nat.mul_assoc]

/-- A number that is not zero is not spelled with a zero in front. -/
theorem head_toDigits {n : Nat} (hn : n ≠ 0) :
    ∃ c ds, Nat.toDigits 10 n = c :: ds ∧ c ≠ '0' := by
  induction n using Nat.strong_induction_on with
  | _ n ih =>
      rw [Nat.toDigits_eq_if (by decide)]
      split_ifs with hsmall
      · have hall : ∀ n < 10, n ≠ 0 → n.digitChar ≠ '0' := by decide
        exact ⟨_, [], rfl, hall n hsmall hn⟩
      · obtain ⟨c, ds, hds, hc⟩ := ih (n / 10) (by omega) (by omega)
        exact ⟨c, ds ++ [(n % 10).digitChar], by rw [hds, List.cons_append], hc⟩

/-- What follows a value in a text: nothing, or a sign that ends it. -/
def Stops (rest : List Char) : Prop :=
  ∀ c ∈ rest.head?, c = ',' ∨ c = ']' ∨ c = '\x7d'

theorem stops_nil : Stops [] := by
  simp [Stops]

theorem stops_cons {c : Char} (h : c = ',' ∨ c = ']' ∨ c = '\x7d') (rest : List Char) :
    Stops (c :: rest) := by
  simpa [Stops] using h

/-- A text in which digits do not go on. -/
def NoDigit (rest : List Char) : Prop :=
  ∀ c ∈ rest.head?, isDigit c = false

theorem Stops.noDigit {rest : List Char} (h : Stops rest) : NoDigit rest := by
  intro c hc
  rcases h c hc with rfl | rfl | rfl
  · decide
  · decide
  · decide

theorem span_digits {ds rest : List Char} (hds : ∀ c ∈ ds, isDigit c = true)
    (hrest : NoDigit rest) :
    (ds ++ rest).takeWhile isDigit = ds ∧ (ds ++ rest).dropWhile isDigit = rest := by
  induction ds with
  | nil =>
      cases rest with
      | nil => simp
      | cons c rest =>
          have hc : isDigit c = false := hrest c (by simp)
          simp [hc]
  | cons d ds ih =>
      rw [List.forall_mem_cons] at hds
      obtain ⟨htake, hdrop⟩ := ih hds.2
      rw [List.cons_append, List.takeWhile_cons_of_pos hds.1, List.dropWhile_cons_of_pos hds.1,
        htake, hdrop]
      exact ⟨rfl, rfl⟩

theorem fractionPart_of_ne {rest : List Char} (h : ∀ c ∈ rest.head?, c ≠ '.') :
    fractionPart rest = ([], rest) := by
  cases rest with
  | nil => rfl
  | cons c rest =>
      have hc : c ≠ '.' := h c (by simp)
      unfold fractionPart
      split
      · rename_i heq
        cases heq
        exact (hc rfl).elim
      · rfl

theorem fractionPart_point {ds rest : List Char} (hne : ds ≠ []) (hds : ∀ c ∈ ds, isDigit c = true)
    (hrest : NoDigit rest) : fractionPart ('.' :: (ds ++ rest)) = (ds, rest) := by
  obtain ⟨htake, hdrop⟩ := span_digits hds hrest
  rw [fractionPart, htake, hdrop]
  simp [hne]

theorem exponentPart_of_ne {rest : List Char} (h : ∀ c ∈ rest.head?, c ≠ 'e' ∧ c ≠ 'E') :
    exponentPart rest = (none, rest) := by
  cases rest with
  | nil => rfl
  | cons c rest =>
      obtain ⟨he, hE⟩ := h c (by simp)
      unfold exponentPart
      dsimp only
      rw [if_neg (by simp [he, hE])]

theorem Stops.ne {rest : List Char} (h : Stops rest) :
    (∀ c ∈ rest.head?, c ≠ '.') ∧ ∀ c ∈ rest.head?, c ≠ 'e' ∧ c ≠ 'E' := by
  constructor
  · intro c hc
    rcases h c hc with rfl | rfl | rfl <;> decide
  · intro c hc
    rcases h c hc with rfl | rfl | rfl <;> decide

/-- The digits in front of the point: a zero alone, or digits that start with none. -/
def Whole (ds : List Char) : Prop :=
  ds = ['0'] ∨ ((∃ c cs, ds = c :: cs ∧ c ≠ '0') ∧ ∀ c ∈ ds, isDigit c = true)

/-- How a number goes on behind the digits in front of the point. -/
def afterWhole (negative : Bool) (whole rest : List Char) : Option (Value × List Char) :=
  let (fraction, rest) := fractionPart rest
  let (exponent, rest) := exponentPart rest
  match exponent with
  | none =>
    if fraction.isEmpty then
      if 4300 < whole.length then none
      else
        let n : Int := natOf whole
        some (.int (if negative then -n else n), rest)
    else some (.float (.ofDecimal negative (natOf (whole ++ fraction)) (-fraction.length)), rest)
  | some e =>
    some (.float (.ofDecimal negative (natOf (whole ++ fraction)) (e - fraction.length)), rest)

theorem unsignedNumber_whole (negative : Bool) {ds rest : List Char} (hds : Whole ds)
    (hrest : NoDigit rest) : unsignedNumber negative (ds ++ rest) = afterWhole negative ds rest := by
  rcases hds with rfl | ⟨⟨c, cs, rfl, hc⟩, hdigits⟩
  · rfl
  · obtain ⟨htake, hdrop⟩ := span_digits hdigits hrest
    unfold unsignedNumber
    split
    rename_i whole after heq
    split at heq
    · rename_i hzero
      cases hzero
      exact (hc rfl).elim
    · rw [htake, hdrop] at heq
      cases heq
      rfl

end Digits

section Integers

theorem whole_toDigits (n : Nat) : Whole (Nat.toDigits 10 n) := by
  by_cases hn : n = 0
  · rw [hn]
    exact .inl rfl
  · exact .inr ⟨head_toDigits hn, isDigit_of_mem_toDigits⟩

theorem unsignedNumber_toDigits (negative : Bool) {n : Nat}
    (hlength : (Nat.toDigits 10 n).length ≤ 4300) {rest : List Char} (hrest : Stops rest) :
    unsignedNumber negative (Nat.toDigits 10 n ++ rest) =
      some (.int (if negative then -(n : Int) else n), rest) := by
  obtain ⟨hpoint, hexponent⟩ := hrest.ne
  rw [unsignedNumber_whole negative (whole_toDigits n) hrest.noDigit, afterWhole,
    fractionPart_of_ne hpoint]
  dsimp only
  rw [exponentPart_of_ne hexponent, natOf_toDigits]
  simp only [List.isEmpty_nil, if_true]
  rw [if_neg (by omega)]

end Integers

section Doubles

variable {d : Decimal} {rest : List Char}

/-- The exponent of a decimal is read back. -/
theorem exponentPart_exponentText (e : Int) (hrest : NoDigit rest) :
    exponentPart (DoubleFormat.json.exponentText e ++ rest) = (some e, rest) := by
  obtain ⟨digits, hdigits⟩ : ∃ ds, ds = DoubleFormat.padded 2 e.natAbs := ⟨_, rfl⟩
  have hall : ∀ c ∈ digits, isDigit c = true := by
    intro c hc
    rw [hdigits, DoubleFormat.padded, List.mem_append] at hc
    rcases hc with hc | hc
    · rw [(List.mem_replicate.mp hc).2]
      decide
    · exact isDigit_of_mem_toDigits c hc
  have hnat : natOf digits = e.natAbs := by
    rw [hdigits, DoubleFormat.padded, natOf_zeros_append, natOf_toDigits]
  have hne : digits ≠ [] := by
    rw [hdigits, DoubleFormat.padded]
    simp [Nat.toDigits_ne_nil]
  obtain ⟨htake, hdrop⟩ := span_digits hall hrest
  have htext : DoubleFormat.json.exponentText e ++ rest =
      'e' :: (if e < 0 then '-' else '+') :: (digits ++ rest) := by
    rw [hdigits]
    unfold DoubleFormat.exponentText
    split_ifs with h₁ h₂
    · rfl
    · rfl
    · exact (h₂ rfl).elim
  rw [htext]
  by_cases he : e < 0
  · have hsign : -(e.natAbs : Int) = e := by omega
    rw [if_pos he, exponentPart, if_pos (by decide)]
    simp only [htake, hdrop, hnat, hsign, List.isEmpty_iff, hne, if_false, if_true]
  · have hsign : (e.natAbs : Int) = e := by omega
    rw [if_neg he, exponentPart, if_pos (by decide)]
    simp only [htake, hdrop, hnat, hsign, List.isEmpty_iff, hne, if_false, Bool.false_eq_true]

theorem noDigit_exponentText (e : Int) (rest : List Char) :
    NoDigit (DoubleFormat.json.exponentText e ++ rest) := by
  simp [NoDigit, DoubleFormat.exponentText]
  decide

/-- A number with a point is a double. -/
theorem unsignedNumber_point (negative : Bool) {whole fraction : List Char} (hwhole : Whole whole)
    (hne : fraction ≠ []) (hfraction : ∀ c ∈ fraction, isDigit c = true) (hrest : Stops rest) :
    unsignedNumber negative (whole ++ '.' :: (fraction ++ rest)) =
      some (.float (.ofDecimal negative (natOf (whole ++ fraction)) (-fraction.length)), rest) := by
  have hpoint : NoDigit ('.' :: (fraction ++ rest)) := by
    simp [NoDigit]
    decide
  rw [unsignedNumber_whole negative hwhole hpoint, afterWhole,
    fractionPart_point hne hfraction hrest.noDigit]
  dsimp only
  rw [exponentPart_of_ne hrest.ne.2]
  simp [hne]

/-- A number with an exponent is a double, with and without a point. -/
theorem unsignedNumber_exponent (negative : Bool) {whole fraction : List Char} (e : Int)
    (hwhole : Whole whole) (hfraction : ∀ c ∈ fraction, isDigit c = true) (hrest : Stops rest) :
    unsignedNumber negative (whole ++ ((if fraction = [] then [] else '.' :: fraction) ++
        (DoubleFormat.json.exponentText e ++ rest))) =
      some (.float (.ofDecimal negative (natOf (whole ++ fraction)) (e - fraction.length)), rest) := by
  have hexponent := exponentPart_exponentText e hrest.noDigit
  have hnoDigit := noDigit_exponentText e rest
  by_cases hne : fraction = []
  · have hnoPoint : ∀ c ∈ (DoubleFormat.json.exponentText e ++ rest).head?, c ≠ '.' := by
      simp [DoubleFormat.exponentText]
    rw [if_pos hne, List.nil_append, unsignedNumber_whole negative hwhole hnoDigit, afterWhole,
      fractionPart_of_ne hnoPoint]
    dsimp only
    rw [hexponent, hne]
  · have hpoint : NoDigit ('.' :: (fraction ++ (DoubleFormat.json.exponentText e ++ rest))) := by
      simp [NoDigit]
      decide
    rw [if_neg hne, List.cons_append, unsignedNumber_whole negative hwhole hpoint, afterWhole,
      fractionPart_point hne hfraction hnoDigit]
    dsimp only
    rw [hexponent]

/-- The text of a decimal is read as that decimal. -/
theorem unsignedNumber_decimalText (negative : Bool) (hd : d.digits ≠ 0) (hrest : Stops rest) :
    unsignedNumber negative (DoubleFormat.json.decimalText d ++ rest) =
      some (.float (.ofDecimal negative d.digits d.exponent), rest) := by
  obtain ⟨ds, hds⟩ : ∃ ds, ds = Nat.toDigits 10 d.digits := ⟨_, rfl⟩
  obtain ⟨c, cs, hcs, hc⟩ := head_toDigits hd
  rw [← hds] at hcs
  have hdigits : ∀ c ∈ ds, isDigit c = true := fun c h ↦ isDigit_of_mem_toDigits c (hds ▸ h)
  have hvalue : natOf ds = d.digits := by rw [hds, natOf_toDigits]
  have hzeros (k : Nat) : ∀ c ∈ List.replicate k '0', isDigit c = true := by
    intro c h
    rw [(List.mem_replicate.mp h).2]
    decide
  have hlength : ds.length = cs.length + 1 := by rw [hcs, List.length_cons]
  unfold DoubleFormat.decimalText
  rw [← hds]
  dsimp only
  obtain ⟨point, hpoint⟩ : ∃ point : Int, point = d.exponent + ds.length := ⟨_, rfl⟩
  rw [← hpoint]
  split_ifs with hpositional hsmall hlarge
  · -- zeros in front of the digits
    have hexponent : -((List.replicate (-point).toNat '0' ++ ds).length : Int) = d.exponent := by
      rw [List.length_append, List.length_replicate]
      omega
    have hread := unsignedNumber_point negative (.inl rfl) (by simp [hcs])
      (List.forall_mem_append.mpr ⟨hzeros (-point).toNat, hdigits⟩) hrest
    have hall : natOf (['0'] ++ (List.replicate (-point).toNat '0' ++ ds)) = d.digits := by
      have h := natOf_zeros_append ((-point).toNat + 1) ds
      rwa [List.replicate_succ, hvalue] at h
    rw [hexponent, hall] at hread
    exact hread
  · -- zeros behind the digits
    obtain ⟨k, hk⟩ : ∃ k, k = (point - ds.length).toNat := ⟨_, rfl⟩
    have hwhole : Whole (ds ++ List.replicate k '0') :=
      .inr ⟨⟨c, cs ++ List.replicate k '0', by rw [hcs, List.cons_append], hc⟩,
        List.forall_mem_append.mpr ⟨hdigits, hzeros k⟩⟩
    have hread : unsignedNumber negative (ds ++ List.replicate k '0' ++ '.' :: (['0'] ++ rest)) = _ :=
      unsignedNumber_point negative hwhole (by simp) (by simp; decide) hrest
    have hall : natOf (ds ++ List.replicate k '0' ++ ['0']) = d.digits * 10 ^ (k + 1) := by
      have h := natOf_append_zeros (k + 1) ds
      rwa [List.replicate_succ', ← List.append_assoc, hvalue] at h
    have hexponent : -(([('0')].length : Nat) : Int) + ((k + 1 : Nat) : Int) = d.exponent := by
      simp only [List.length_singleton]
      omega
    rw [hall, Double.ofDecimal_mul_ten_pow, hexponent] at hread
    rw [← hk, ← hread]
    simp
  · -- the point between the digits
    have hfits : 0 < point.toNat ∧ point.toNat < ds.length := by omega
    have hfraction : ds.drop point.toNat ≠ [] := by
      rw [ne_eq, List.drop_eq_nil_iff]
      omega
    have hwhole : Whole (ds.take point.toNat) := by
      refine .inr ⟨?_, fun c h ↦ hdigits c (List.mem_of_mem_take h)⟩
      obtain ⟨k, hk⟩ : ∃ k, point.toNat = k + 1 := ⟨point.toNat - 1, by omega⟩
      exact ⟨c, cs.take k, by rw [hcs, hk, List.take_succ_cons], hc⟩
    have hread := unsignedNumber_point negative hwhole hfraction
      (fun c h ↦ hdigits c (List.mem_of_mem_drop h)) hrest
    have hexponent : -((ds.drop point.toNat).length : Int) = d.exponent := by
      rw [List.length_drop]
      omega
    rw [List.take_append_drop, hvalue, hexponent] at hread
    rw [← hread]
    simp
  · -- an exponent
    obtain ⟨hcdigit, hcsdigits⟩ := List.forall_mem_cons.mp (hcs ▸ hdigits)
    have hwhole : Whole [c] := .inr ⟨⟨c, [], rfl, hc⟩, List.forall_mem_singleton.mpr hcdigit⟩
    have hread := unsignedNumber_exponent negative (point - 1) hwhole hcsdigits hrest
    have hexponent : point - 1 - (cs.length : Int) = d.exponent := by omega
    have hall : natOf ([c] ++ cs) = d.digits := by rw [List.singleton_append, ← hcs, hvalue]
    rw [hall, hexponent] at hread
    rw [← hread, hcs]
    cases cs with
    | nil => simp
    | cons second more => simp

/-- The text of a finite double is read as that double. -/
theorem unsignedNumber_text (negative : Bool) (rank : Fin Double.rankCount) (hrest : Stops rest) :
    unsignedNumber negative ((if rank.val = 0 then ['0', '.', '0']
        else DoubleFormat.json.decimalText (Decimal.shortest rank)) ++ rest) =
      some (.float (.finite negative rank), rest) := by
  split_ifs with hrank
  · have hread : unsignedNumber negative (['0'] ++ '.' :: (['0'] ++ rest)) = _ :=
      unsignedNumber_point negative (.inl rfl) (by simp) (by simp; decide) hrest
    have hzero : Double.ofDecimal negative (natOf (['0'] ++ ['0'])) (-(['0'].length : Int)) =
        .finite negative rank := by
      have hrank : rank = ⟨0, by decide⟩ := Fin.ext hrank
      rw [hrank]
      rfl
    rw [hzero] at hread
    exact hread
  · have hshortest := Decimal.readsAs_shortest rank
    rw [unsignedNumber_decimalText negative (Decimal.digits_ne_zero hrank hshortest) hrest,
      Double.ofDecimal_signed negative (Decimal.readsAs_iff.mp hshortest)]
end Doubles

section Words

variable {negative : Bool} {s : List Char} {c : Char} {r : Value × List Char}

theorem afterWord_eq_none {w : String} {a : Char} {more : List Char} (hw : w.toList = a :: more)
    (h : a ≠ c) (s : List Char) : afterWord w (c :: s) = none := by
  simp [afterWord, hw, h]

/-- A number that is read starts with a digit. -/
theorem exists_digit_of_unsignedNumber (h : unsignedNumber negative s = some r) :
    ∃ c more, s = c :: more ∧ isDigit c = true := by
  cases s with
  | nil => simp [unsignedNumber] at h
  | cons c more =>
      refine ⟨c, more, rfl, ?_⟩
      by_contra hc
      have hne : c ≠ '0' := by
        rintro rfl
        exact hc (by decide)
      unfold unsignedNumber at h
      split at h
      rename_i whole after heq
      split at heq
      · rename_i hzero
        cases hzero
        exact hne rfl
      · rw [List.takeWhile_cons_of_neg hc] at heq
        cases heq
        cases h

/-- What starts with a digit, behind a sign or not, is read as a number. -/
theorem value_signed (negative : Bool) (hc : isDigit c = true) (more : List Char) (fuel : Nat) :
    value (fuel + 1) ((if negative then ['-'] else []) ++ c :: more) =
      unsignedNumber negative (c :: more) := by
  have hne {a : Char} (ha : isDigit a = false) : a ≠ c := by
    rintro rfl
    rw [hc] at ha
    cases ha
  -- no word starts with a digit or a sign
  have hword {a : Char} (hn : 'n' ≠ a) (ht : 't' ≠ a) (hf : 'f' ≠ a) (hN : 'N' ≠ a) (hI : 'I' ≠ a)
      (s : List Char) : word (a :: s) = number (a :: s) := by
    rw [word, afterWord_eq_none rfl hn, afterWord_eq_none rfl ht, afterWord_eq_none rfl hf,
      afterWord_eq_none rfl hN, afterWord_eq_none rfl hI]
    rfl
  have hvalue {a : Char} (hquote : '"' ≠ a) (hbracket : '[' ≠ a) (hbrace : '\x7b' ≠ a)
      (s : List Char) : value (fuel + 1) (a :: s) = word (a :: s) := by
    rw [value.eq_def]
    dsimp only
    split
    · rename_i heq
      cases heq
      exact (hquote rfl).elim
    · rename_i heq
      cases heq
      exact (hbracket rfl).elim
    · rename_i heq
      cases heq
      exact (hbrace rfl).elim
    · rfl
  cases negative with
  | true =>
      rw [if_pos rfl, List.singleton_append, hvalue (by decide) (by decide) (by decide),
        hword (by decide) (by decide) (by decide) (by decide) (by decide)]
      have hinfinity : afterWord "Infinity" (c :: more) = none :=
        afterWord_eq_none rfl (hne (by decide)) more
      simp only [number, hinfinity]
  | false =>
      rw [if_neg (by decide), List.nil_append, hvalue (hne (by decide)) (hne (by decide))
        (hne (by decide)), hword (hne (by decide)) (hne (by decide)) (hne (by decide))
        (hne (by decide)) (hne (by decide))]
      unfold number
      split
      · rename_i heq
        cases heq
        exact (hne (by decide : isDigit '-' = false) rfl).elim
      · rfl

/-- A number behind its sign is the value at the start of a text. -/
theorem value_number (h : unsignedNumber negative s = some r) (fuel : Nat) :
    value (fuel + 1) ((if negative then ['-'] else []) ++ s) = some r := by
  obtain ⟨c, more, rfl, hc⟩ := exists_digit_of_unsignedNumber h
  rw [value_signed negative hc, h]

end Words

end SafeMarkdown.Json
