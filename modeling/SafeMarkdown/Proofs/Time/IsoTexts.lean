import Mathlib.Data.List.TakeDrop
import Mathlib.Data.Nat.Digits.Defs
import SafeMarkdown.Proofs.Text.Bytes
import SafeMarkdown.Proofs.Time.Instants
import SafeMarkdown.Time.Iso

/-!
# The instants that ISO texts name

Numbers are written with a fixed count of digits, so each part of a date, a clock reading or an
offset is read back by itself, and what follows it starts at the next sign. A written moment is read
back as it is, unless its offset is shorter than a second: such an offset counts as none. A written
date is read as its midnight.

Documents are ordered by the instants that the texts of their dates name. The text of a moment names
the instant of that moment, told in universal time without an offset; where that lies outside of the
calendar, there is none. So what is told is in the order of the instants, however they are written.
The text of a date names its midnight.
-/

namespace SafeMarkdown.Iso

section Digits

variable {width n : Nat} {c : Char}

theorem isDigit_iff (c : Char) : isDigit c = true ↔ '0'.toNat ≤ c.toNat ∧ c.toNat ≤ '9'.toNat :=
  Bool.and_eq_true_iff.trans (and_congr decide_eq_true_iff decide_eq_true_iff)

/-- The number that digits write. -/
theorem digits_append {ds : List Char} (hds : ∀ c ∈ ds, isDigit c = true) (rest : List Char) :
    digits ds.length (ds ++ rest) = some (Nat.ofDigitChars 10 ds 0, rest) := by
  induction ds with
  | nil => rfl
  | cons c ds ih =>
      rw [List.forall_mem_cons] at hds
      have hvalue : Nat.ofDigitChars 10 (c :: ds) 0 =
          digitValue c * 10 ^ ds.length + Nat.ofDigitChars 10 ds 0 := by
        rw [Nat.ofDigitChars_cons, Nat.ofDigitChars_eq_ofDigitChars_zero, Nat.mul_zero,
          Nat.zero_add, Nat.mul_comm]
        rfl
      rw [List.length_cons, List.cons_append, digits]
      dsimp only
      rw [if_pos hds.1, ih hds.2, hvalue]
      rfl

theorem toList_pad (width n : Nat) : (pad width n).toList =
    List.replicate (width - (Nat.toDigits 10 n).length) '0' ++ Nat.toDigits 10 n :=
  String.toList_ofList

theorem isDigit_of_mem_pad (h : c ∈ (pad width n).toList) : isDigit c = true := by
  rw [toList_pad, List.mem_append] at h
  rcases h with h | h
  · rw [List.eq_of_mem_replicate h]
    rfl
  · exact Nat.isDigit_of_mem_toDigits (by decide) (by decide) h

theorem length_pad (hwidth : 0 < width) (h : n < 10 ^ width) :
    (pad width n).toList.length = width := by
  have hle := Nat.toDigits_length 10 n width hwidth h
  rw [toList_pad, List.length_append, List.length_replicate]
  omega

theorem ofDigitChars_zeros (k : Nat) (ds : List Char) :
    Nat.ofDigitChars 10 (List.replicate k '0' ++ ds) 0 = Nat.ofDigitChars 10 ds 0 := by
  induction k with
  | zero => rfl
  | succ k ih =>
    rw [List.replicate_succ, List.cons_append, Nat.ofDigitChars_cons]
    exact ih

/-- A padded number is read back, whatever follows it. -/
theorem digits_pad (hwidth : 0 < width) (h : n < 10 ^ width) (rest : List Char) :
    digits width ((pad width n).toList ++ rest) = some (n, rest) := by
  have hread : digits (pad width n).toList.length ((pad width n).toList ++ rest) =
      some (Nat.ofDigitChars 10 (pad width n).toList 0, rest) :=
    digits_append (fun c hc ↦ isDigit_of_mem_pad hc) rest
  rw [length_pad hwidth h] at hread
  rw [hread, toList_pad, ofDigitChars_zeros, Nat.ofDigitChars_ten_toDigits]

end Digits

section Dates

theorem exists_pad_two {n : Nat} (h : n < 100) :
    ∃ a b, (pad 2 n).toList = [a, b] ∧ isDigit a = true ∧ isDigit b = true := by
  have hlength : (pad 2 n).toList.length = 2 := length_pad (by decide) h
  obtain ⟨a, b, hab⟩ := List.length_eq_two.mp hlength
  refine ⟨a, b, hab, ?_, ?_⟩
  · exact isDigit_of_mem_pad (hab ▸ List.mem_cons_self)
  · exact isDigit_of_mem_pad (hab ▸ List.mem_cons_of_mem _ List.mem_cons_self)

theorem month_lt (d : Date) : d.month < 100 := by
  have hmonth := d.month_mem.2
  omega

theorem daysInMonth_le (year month : Nat) : daysInMonth year month ≤ 31 := by
  unfold daysInMonth
  split_ifs
  all_goals decide

theorem day_lt (d : Date) : d.day < 100 := by
  have hday := d.day_mem.2
  have hmonth := daysInMonth_le d.year d.month
  omega

theorem year_lt (d : Date) : d.year < 10 ^ 4 := by
  have hyear := d.year_mem.2
  omega

theorem toList_dateText (d : Date) : (dateText d).toList =
    (pad 4 d.year).toList ++ '-' :: ((pad 2 d.month).toList ++ '-' :: (pad 2 d.day).toList) := by
  simp [dateText]

theorem length_dateText (d : Date) : (dateText d).toList.length = 10 := by
  rw [toList_dateText, List.length_append, List.length_cons, List.length_append, List.length_cons,
    length_pad (by decide) (year_lt d), length_pad (by decide) (month_lt d),
    length_pad (by decide) (day_lt d)]

theorem ne_of_isDigit {c d : Char} (hc : isDigit c = true) (hd : isDigit d = false) : c ≠ d := by
  rintro rfl
  rw [hc] at hd
  cases hd

theorem readDate_dateText (d : Date) : readDate (dateText d).toList = some (.ok d) := by
  obtain ⟨a, b, hab, ha, -⟩ := exists_pad_two (month_lt d)
  have hweek : a ≠ 'W' := ne_of_isDigit ha rfl
  have hyear := digits_pad (by decide) (year_lt d)
  have hmonth (rest : List Char) : digits 2 (a :: b :: rest) = some (d.month, rest) := by
    have hread : digits 2 ((pad 2 d.month).toList ++ rest) = some (d.month, rest) :=
      digits_pad (by decide) (month_lt d) rest
    rwa [hab] at hread
  have hday : digits 2 (pad 2 d.day).toList = some (d.day, []) := by
    have hread : digits 2 ((pad 2 d.day).toList ++ []) = some (d.day, []) :=
      digits_pad (by decide) (day_lt d) []
    rwa [List.append_nil] at hread
  have hmake : Date.make d.year d.month d.day = .ok d := Date.make_eq_ok_iff.mpr ⟨rfl, rfl, rfl⟩
  rw [toList_dateText, readDate, hyear, hab]
  simp [hweek, hmonth, hday, hmake]

end Dates

section Clocks

/-- Whether the parts of a clock reading have the widths in which they are written. -/
structure Clock.Fits (c : Clock) : Prop where
  hour_lt : c.hour < 100
  minute_lt : c.minute < 100
  second_lt : c.second < 100
  micro_lt : c.micro < 10 ^ 6

/-- Seconds with their fraction, when there is one. -/
def secondChars (second micro : Nat) : List Char :=
  (pad 2 second).toList ++ (fractionText micro).toList

def clockChars (c : Clock) : List Char :=
  (pad 2 c.hour).toList ++ ':' :: ((pad 2 c.minute).toList ++ ':' :: secondChars c.second c.micro)

theorem digits_two {n : Nat} (h : n < 100) (rest : List Char) :
    digits 2 ((pad 2 n).toList ++ rest) = some (n, rest) :=
  digits_pad (by decide) h rest

theorem readPairs_colon {count n : Nat} {parted : Option Bool} {more : List Char} (hn : n < 100)
    (hparted : parted.getD true = true) (hmore : more ≠ []) :
    readPairs (count + 1) parted ((pad 2 n).toList ++ ':' :: more) =
      (readPairs count (some true) more).map fun (ns, e) ↦ (n :: ns, e) := by
  obtain ⟨d, more, rfl⟩ := List.exists_cons_of_ne_nil hmore
  rw [readPairs, digits_two hn]
  simp [hparted]

theorem readPairs_last {count n : Nat} {parted : Option Bool} (hn : n < 100) :
    readPairs (count + 1) parted (pad 2 n).toList = some ([n], .done) := by
  rw [readPairs, ← List.append_nil (pad 2 n).toList, digits_two hn]
  rfl

theorem readPairs_fraction {count n : Nat} {parted : Option Bool} {more : List Char} (hn : n < 100)
    (hmore : more ≠ []) :
    readPairs (count + 1) parted ((pad 2 n).toList ++ '.' :: more) =
      some ([n], .fraction more) := by
  obtain ⟨d, more, rfl⟩ := List.exists_cons_of_ne_nil hmore
  rw [readPairs, digits_two hn]
  simp

theorem pad_two_append_ne_nil {n : Nat} (hn : n < 100) (rest : List Char) :
    (pad 2 n).toList ++ rest ≠ [] := by
  obtain ⟨a, b, hab, -⟩ := exists_pad_two hn
  rw [hab]
  exact List.cons_ne_nil _ _

theorem toList_fractionText {micro : Nat} (h : micro ≠ 0) :
    (fractionText micro).toList = '.' :: (pad 6 micro).toList := by
  rw [fractionText, if_neg (by simpa using h), String.toList_append]
  rfl

/-- A written clock reading is read back. -/
theorem readClock_clockChars {c : Clock} (h : c.Fits) :
    readClock (clockChars c) = some (c, true) := by
  obtain ⟨hour, minute, second, micro⟩ := c
  obtain ⟨hhour, hminute, hsecond, hmicro⟩ := h
  have hnext := pad_two_append_ne_nil hminute (':' :: secondChars second micro)
  have hlast : secondChars second micro ≠ [] := pad_two_append_ne_nil hsecond _
  rw [readClock, clockChars, readPairs_colon hhour rfl hnext, readPairs_colon hminute rfl hlast,
    secondChars]
  by_cases hzero : micro = 0
  · subst hzero
    rw [show (fractionText 0).toList = [] from rfl, List.append_nil, readPairs_last hsecond]
    rfl
  · have hlength : (pad 6 micro).toList.length = 6 := length_pad (by decide) hmicro
    have hread := digits_pad (by decide) hmicro []
    rw [List.append_nil] at hread
    rw [toList_fractionText hzero,
      readPairs_fraction hsecond (List.ne_nil_of_length_pos (by omega))]
    simp [hlength, hread]

/-- A clock reading of full minutes is read back without its seconds. -/
theorem readClock_minutes {hour minute : Nat} (hhour : hour < 100) (hminute : minute < 100) :
    readClock ((pad 2 hour).toList ++ ':' :: (pad 2 minute).toList) =
      some (⟨hour, minute, 0, 0⟩, true) := by
  have hne := pad_two_append_ne_nil hminute []
  rw [List.append_nil] at hne
  rw [readClock, readPairs_colon hhour rfl hne, readPairs_last hminute]
  rfl

end Clocks

section Offsets

/-- The clock reading that tells an offset, without its sign. -/
def offsetClock (o : Offset) : Clock :=
  let seconds := o.micros.natAbs / 1000000
  ⟨seconds / 3600, seconds / 60 % 60, seconds % 60, o.micros.natAbs % 1000000⟩

/-- Whether an offset is none, or at least a second. -/
def IsTold (o : Offset) : Prop :=
  o.micros = 0 ∨ 1000000 ≤ o.micros.natAbs

theorem natAbs_lt (o : Offset) : o.micros.natAbs < 86400000000 := by
  have hbounds := o.bounds
  rw [microsPerDay] at hbounds
  omega

theorem fits_offsetClock (o : Offset) : (offsetClock o).Fits := by
  have hlt := natAbs_lt o
  refine ⟨?_, ?_, ?_, ?_⟩
  all_goals
    rw [offsetClock]
    dsimp only
    omega

def signChar (o : Offset) : Char :=
  if o.micros < 0 then '-' else '+'

theorem signChar_eq (o : Offset) : signChar o = '-' ∨ signChar o = '+' :=
  ite_eq_or_eq _ _ _

theorem toList_sign (o : Offset) : (if o.micros < 0 then "-" else "+").toList = [signChar o] := by
  rw [signChar]
  split
  · rfl
  · rfl

theorem toList_secondText (second micro : Nat) :
    (":" ++ pad 2 second ++ fractionText micro).toList = ':' :: secondChars second micro := by
  rw [String.toList_append, String.toList_append, secondChars, List.append_assoc]
  rfl

theorem toList_offsetText (o : Offset) : (offsetText o).toList =
    signChar o :: ((pad 2 (offsetClock o).hour).toList ++ ':' ::
      ((pad 2 (offsetClock o).minute).toList ++
        if (offsetClock o).second = 0 ∧ (offsetClock o).micro = 0 then []
        else ':' :: secondChars (offsetClock o).second (offsetClock o).micro)) := by
  have hshape : offsetText o = (if o.micros < 0 then "-" else "+") ++
      (pad 2 (offsetClock o).hour ++ (":" ++ (pad 2 (offsetClock o).minute ++
        if (offsetClock o).second == 0 && (offsetClock o).micro == 0 then ""
        else ":" ++ pad 2 (offsetClock o).second ++ fractionText (offsetClock o).micro))) := by
    simp only [offsetText, offsetClock, String.append_assoc]
  rw [hshape, String.toList_append, toList_sign, String.toList_append, String.toList_append,
    String.toList_append, apply_ite String.toList, toList_secondText, String.toList_empty]
  simp only [Bool.and_eq_true, beq_iff_eq]
  rfl

theorem eq_of_minutes {c : Clock} (hsecond : c.second = 0) (hmicro : c.micro = 0) :
    (⟨c.hour, c.minute, 0, 0⟩ : Clock) = c := by
  cases c
  cases hsecond
  cases hmicro
  rfl

/-- The text of an offset is its sign in front of a text that is read as its clock. -/
theorem exists_offsetText (o : Offset) : ∃ written, (offsetText o).toList = signChar o :: written ∧
    readClock written = some (offsetClock o, true) := by
  have hfits := fits_offsetClock o
  refine ⟨_, toList_offsetText o, ?_⟩
  split
  · rename_i hwhole
    rw [List.append_nil, readClock_minutes hfits.hour_lt hfits.minute_lt,
      eq_of_minutes hwhole.1 hwhole.2]
  · exact readClock_clockChars hfits

theorem eq_utc {o : Offset} (h : o.micros = 0) : o = .utc := by
  cases o
  cases h
  rfl

theorem make_micros (o : Offset) : Offset.make o.micros = .ok o :=
  dif_pos o.bounds

theorem signed_natAbs (o : Offset) :
    (if signChar o == '-' then -(o.micros.natAbs : Int) else o.micros.natAbs) = o.micros := by
  rw [signChar]
  by_cases hnegative : o.micros < 0
  · rw [if_pos hnegative, if_pos (by decide)]
    omega
  · rw [if_neg hnegative, if_neg (by decide)]
    omega

theorem offsetOf_offsetClock {o : Offset} (h : IsTold o) :
    offsetOf (signChar o == '-') (offsetClock o) = .ok o := by
  have hseconds : ((offsetClock o).hour * 60 + (offsetClock o).minute) * 60 +
      (offsetClock o).second = o.micros.natAbs / 1000000 := by
    rw [offsetClock]
    dsimp only
    omega
  have hmicros : ((o.micros.natAbs / 1000000 : Nat) : Int) * 1000000 + (offsetClock o).micro =
      o.micros.natAbs := by
    rw [offsetClock]
    dsimp only
    omega
  rw [offsetOf, hseconds]
  rcases h with hzero | htold
  · rw [if_pos (by omega), eq_utc hzero]
  · rw [if_neg (by omega)]
    dsimp only
    rw [hmicros, signed_natAbs, make_micros]

end Offsets

section Moments

/-- The clock reading of a moment. -/
def clockOf (m : Moment) : Clock :=
  ⟨m.hour, m.minute, m.second, m.micro⟩

def offsetChars : Option Offset → List Char
  | none => []
  | some o => (offsetText o).toList

theorem fits_clockOf (m : Moment) : (clockOf m).Fits :=
  ⟨m.hour.isLt.trans (by decide), m.minute.isLt.trans (by decide), m.second.isLt.trans (by decide),
    m.micro.isLt⟩

theorem toList_momentText (m : Moment) : (momentText m).toList =
    (dateText m.date).toList ++ 'T' :: (clockChars (clockOf m) ++ offsetChars m.offset) := by
  have hshape : momentText m = dateText m.date ++ ("T" ++ (pad 2 m.hour ++ (":" ++
      (pad 2 m.minute ++ (":" ++ pad 2 m.second ++ fractionText m.micro))) ++
        m.offset.elim "" offsetText)) := by
    cases hoffset : m.offset with
    | none => simp only [momentText, hoffset, String.append_assoc, Option.elim_none]
    | some o => simp only [momentText, hoffset, String.append_assoc, Option.elim_some]
  have hoffset : (m.offset.elim "" offsetText).toList = offsetChars m.offset := by
    cases m.offset with
    | none => rfl
    | some o => rfl
  rw [hshape, String.toList_append, String.toList_append, String.toList_append, hoffset,
    String.toList_append, String.toList_append, String.toList_append, toList_secondText]
  rfl

theorem of_mem_secondChars {second micro : Nat} {c : Char} (h : c ∈ secondChars second micro) :
    isDigit c = true ∨ c = '.' := by
  rw [secondChars, List.mem_append] at h
  rcases h with h | h
  · exact .inl (isDigit_of_mem_pad h)
  · by_cases hzero : micro = 0
    · rw [hzero] at h
      cases h
    · rw [toList_fractionText hzero, List.mem_cons] at h
      exact h.symm.imp_left isDigit_of_mem_pad

theorem of_mem_clockChars {clock : Clock} {c : Char} (h : c ∈ clockChars clock) :
    isDigit c = true ∨ c = ':' ∨ c = '.' := by
  simp only [clockChars, List.mem_append, List.mem_cons] at h
  rcases h with h | h | h | h | h
  · exact .inl (isDigit_of_mem_pad h)
  · exact .inr (.inl h)
  · exact .inl (isDigit_of_mem_pad h)
  · exact .inr (.inl h)
  · exact (of_mem_secondChars h).imp_right .inr

theorem startsOffset_of_mem_clockChars {clock : Clock} {c : Char} (h : c ∈ clockChars clock) :
    startsOffset c = false := by
  rcases of_mem_clockChars h with h | rfl | rfl
  · have hplus : c ≠ '+' := ne_of_isDigit h rfl
    have hminus : c ≠ '-' := ne_of_isDigit h rfl
    have hzulu : c ≠ 'Z' := ne_of_isDigit h rfl
    simp [startsOffset, hplus, hminus, hzulu]
  · rfl
  · rfl

theorem span_clockChars (clock : Clock) {tail : List Char}
    (htail : ∀ c ∈ tail.head?, startsOffset c = true) :
    (clockChars clock ++ tail).span (fun c ↦ !startsOffset c) = (clockChars clock, tail) := by
  have hclock : ∀ c ∈ clockChars clock, (!startsOffset c) = true := by
    intro c hc
    rw [startsOffset_of_mem_clockChars hc]
    rfl
  rw [List.span_eq_takeWhile_dropWhile, List.takeWhile_append_of_pos hclock,
    List.dropWhile_append_of_pos hclock]
  cases tail with
  | nil => simp
  | cons c tail =>
      have hc := htail c rfl
      simp [hc]

theorem readClockAndOffset_of_sign {sign : Char} (hsign : sign = '-' ∨ sign = '+')
    {clock told : Clock} {written : List Char} (hclock : clock.Fits) (htold : readClock written = some (told, true)) :
    readClockAndOffset (clockChars clock ++ sign :: written) =
      some (clock, some (offsetOf (sign == '-') told)) := by
  have hstarts : startsOffset sign = true := by
    rcases hsign with rfl | rfl
    · rfl
    · rfl
  rw [readClockAndOffset, span_clockChars clock (by simpa using hstarts)]
  dsimp only
  rw [readClock_clockChars hclock]
  rcases hsign with rfl | rfl
  · simp [htold]
  · simp [htold]

/-- A clock reading and an offset are read back. -/
theorem readClockAndOffset_chars {clock : Clock} (hclock : clock.Fits) {offset : Option Offset}
    (hoffset : ∀ o ∈ offset, IsTold o) :
    readClockAndOffset (clockChars clock ++ offsetChars offset) =
      some (clock, offset.map .ok) := by
  cases offset with
  | none =>
      rw [readClockAndOffset, offsetChars, span_clockChars clock (fun c hc ↦ by cases hc)]
      dsimp only
      rw [readClock_clockChars hclock]
      rfl
  | some o =>
      obtain ⟨written, hwritten, hread⟩ := exists_offsetText o
      rw [offsetChars, hwritten, readClockAndOffset_of_sign (signChar_eq o) hclock hread,
        offsetOf_offsetClock (hoffset o rfl)]
      rfl

theorem dateEnd_of_dash {s : List Char} {a : Char} (hlength : s.length ≠ 7)
    (hdash : s[4]? = some '-') (ha : s[5]? = some a) (hweek : a ≠ 'W') : dateEnd s = 10 := by
  simp [dateEnd, hlength, hdash, ha, hweek]

theorem dateEnd_dateText (d : Date) (rest : List Char) :
    dateEnd ((dateText d).toList ++ rest) = 10 := by
  obtain ⟨a, b, hab, ha, -⟩ := exists_pad_two (month_lt d)
  have hyear : (pad 4 d.year).toList.length = 4 := length_pad (by decide) (year_lt d)
  have hat (i : Nat) : ((dateText d).toList ++ rest)[4 + i]? =
      ('-' :: a :: b :: '-' :: ((pad 2 d.day).toList ++ rest))[i]? := by
    rw [toList_dateText, hab, List.append_assoc, List.getElem?_append_right (by omega), hyear,
      Nat.add_sub_cancel_left]
    rfl
  refine dateEnd_of_dash ?_ (hat 0) (hat 1) (ne_of_isDigit ha rfl)
  rw [List.length_append, length_dateText]
  omega

theorem ascii_of_isDigit {c : Char} (h : isDigit c = true) : c.toNat < 128 := by
  have hrange := (isDigit_iff c).mp h
  have hnine : '9'.toNat = 57 := rfl
  omega

theorem ascii_of_mem_dateText {d : Date} {c : Char} (h : c ∈ (dateText d).toList) :
    c.toNat < 128 := by
  simp only [toList_dateText, List.mem_append, List.mem_cons] at h
  rcases h with h | rfl | h | rfl | h
  · exact ascii_of_isDigit (isDigit_of_mem_pad h)
  · decide
  · exact ascii_of_isDigit (isDigit_of_mem_pad h)
  · decide
  · exact ascii_of_isDigit (isDigit_of_mem_pad h)

theorem ascii_of_mem_secondChars {second micro : Nat} {c : Char}
    (h : c ∈ secondChars second micro) : c.toNat < 128 := by
  rcases of_mem_secondChars h with h | rfl
  · exact ascii_of_isDigit h
  · decide

theorem ascii_of_mem_clockChars {clock : Clock} {c : Char} (h : c ∈ clockChars clock) :
    c.toNat < 128 := by
  rcases of_mem_clockChars h with h | rfl | rfl
  · exact ascii_of_isDigit h
  · decide
  · decide

theorem ascii_of_mem_offsetText {o : Offset} {c : Char} (h : c ∈ (offsetText o).toList) :
    c.toNat < 128 := by
  rw [toList_offsetText, List.mem_cons, List.mem_append, List.mem_cons, List.mem_append] at h
  rcases h with rfl | h | rfl | h | h
  · rcases signChar_eq o with hsign | hsign
    · rw [hsign]
      decide
    · rw [hsign]
      decide
  · exact ascii_of_isDigit (isDigit_of_mem_pad h)
  · decide
  · exact ascii_of_isDigit (isDigit_of_mem_pad h)
  · split at h
    · cases h
    · rcases List.mem_cons.mp h with rfl | h
      · decide
      · exact ascii_of_mem_secondChars h

theorem ascii_of_mem_momentText {m : Moment} {c : Char} (h : c ∈ (momentText m).toList) :
    c.toNat < 128 := by
  rw [toList_momentText, List.mem_append, List.mem_cons, List.mem_append] at h
  rcases h with h | rfl | h | h
  · exact ascii_of_mem_dateText h
  · decide
  · exact ascii_of_mem_clockChars h
  · cases hoffset : m.offset with
    | none =>
        rw [hoffset] at h
        cases h
    | some o =>
        rw [hoffset] at h
        exact ascii_of_mem_offsetText h

/-- The text of a moment is read back, unless its offset is less than a second. -/
theorem readMoment_momentText {m : Moment} (h : ∀ o ∈ m.offset, IsTold o) :
    readMoment (momentText m) = some m := by
  have hbytes : bytesOf (momentText m) = _ :=
    (Text.map_toUTF8_of_ascii fun c ↦ ascii_of_mem_momentText).trans (toList_momentText m)
  have hlength := length_dateText m.date
  have hread := readClockAndOffset_chars (fits_clockOf m) h
  have hmake : Moment.make m.date m.hour m.minute m.second m.micro m.offset = .ok m :=
    Moment.make_eq_ok rfl rfl rfl rfl rfl rfl
  obtain ⟨c, rest, hclock⟩ : ∃ c rest, clockChars (clockOf m) = c :: rest :=
    List.exists_cons_of_ne_nil (pad_two_append_ne_nil (fits_clockOf m).hour_lt _)
  rw [hclock, List.cons_append] at hread
  rw [readMoment, hbytes]
  dsimp only
  rw [dateEnd_dateText, List.take_left' hlength, List.drop_left' hlength, readDate_dateText,
    if_neg (by rw [List.length_append, hlength]; omega), hclock, List.cons_append]
  have hwidth : characterWidth 'T' = 1 := rfl
  cases hoffset : m.offset with
  | none =>
      rw [hoffset] at hread hmake
      simp [hwidth, hread, clockOf, Except.toOption, hmake]
  | some o =>
      rw [hoffset] at hread hmake
      simp [hwidth, hread, clockOf, Except.toOption, hmake]

/-- The text of a date is read as its midnight. -/
theorem readMoment_dateText (d : Date) : readMoment (dateText d) = some (.midnight d) := by
  have hbytes : bytesOf (dateText d) = (dateText d).toList :=
    Text.map_toUTF8_of_ascii fun c ↦ ascii_of_mem_dateText
  have hlength := length_dateText d
  have hend := dateEnd_dateText d []
  rw [List.append_nil] at hend
  rw [readMoment, hbytes]
  dsimp only
  rw [hend, List.take_of_length_le hlength.le, List.drop_of_length_le hlength.le,
    readDate_dateText, if_neg (by omega)]
  rfl

end Moments

/-- Whether the offset of a moment, if it has one, is of whole seconds. -/
def TellsSeconds (m : Moment) : Prop :=
  ∀ o ∈ m.offset, 1000000 ∣ o.micros

variable {m n r s : Moment}

theorem readInstant_momentText (h : TellsSeconds m) : readInstant (momentText m) = m.toUtc := by
  have htold : ∀ o ∈ m.offset, IsTold o := by
    intro o ho
    have hseconds := h o ho
    rw [IsTold]
    omega
  rw [readInstant, readMoment_momentText htold]

theorem readInstant_dateText (d : Date) : readInstant (dateText d) = .ok (.midnight d) := by
  rw [readInstant, readMoment_dateText]
  rfl

/-- What is told of an instant has no offset and is of that instant. -/
theorem of_readInstant (h : TellsSeconds m) (hread : readInstant (momentText m) = .ok r) :
    r.offset = none ∧ r.clock = m.instant := by
  rw [readInstant_momentText h] at hread
  by_cases hcalendar : Moment.InCalendar m.instant
  · obtain ⟨told, htold, hoffset, hclock⟩ := Moment.toUtc_of_inCalendar hcalendar
    rw [hread] at htold
    cases htold
    exact ⟨hoffset, hclock⟩
  · rw [Moment.toUtc_of_not_inCalendar hcalendar] at hread
    cases hread

/-- Texts of moments, whose offsets are of whole seconds, name the instants of these moments, told
without an offset, unless they lie outside of the calendar. What is told is in the order of the
instants. Texts of dates name their midnights. -/
theorem readInstant_names :
    (∀ m : Moment, TellsSeconds m →
      (Moment.InCalendar m.instant → ∃ r, readInstant (momentText m) = .ok r ∧
        r.offset = none ∧ r.instant = m.instant) ∧
      (¬ Moment.InCalendar m.instant → readInstant (momentText m) = .error .beyondCalendar) ∧
      (m.offset = none → readInstant (momentText m) = .ok m)) ∧
    (∀ m n r s : Moment, TellsSeconds m → TellsSeconds n →
      readInstant (momentText m) = .ok r → readInstant (momentText n) = .ok s →
        (r.reading < s.reading ↔ m.instant < n.instant) ∧ (r = s ↔ m.instant = n.instant)) ∧
    ∀ d : Date, readInstant (dateText d) = .ok (.midnight d) := by
  refine ⟨fun m hm ↦ ?_, fun m n r s hm hn hr hs ↦ ?_, readInstant_dateText⟩
  · rw [readInstant_momentText hm]
    refine ⟨fun hcalendar ↦ ?_, Moment.toUtc_of_not_inCalendar, fun hoffset ↦ ?_⟩
    · obtain ⟨r, hr, hoffset, hclock⟩ := Moment.toUtc_of_inCalendar hcalendar
      exact ⟨r, hr, hoffset, (Moment.instant_of_offset_none hoffset).trans hclock⟩
    · rw [Moment.toUtc, hoffset]
  · obtain ⟨hrOffset, hrClock⟩ := of_readInstant hm hr
    obtain ⟨hsOffset, hsClock⟩ := of_readInstant hn hs
    rw [← hrClock, ← hsClock]
    exact ⟨(Moment.clock_lt_iff r s).symm, (Moment.clock_inj hrOffset hsOffset).symm⟩

/-- Half an hour into March 2024, one hour east of universal time. -/
def leapNight : Moment :=
  ⟨⟨2024, 3, 1, by decide, by decide, by decide⟩, ⟨0, by decide⟩, ⟨30, by decide⟩,
    ⟨0, by decide⟩, ⟨0, by decide⟩, some ⟨3600000000, by decide⟩⟩

/-- The last second of the calendar, one hour west of universal time. -/
def lastSecond : Moment :=
  ⟨Date.last, ⟨23, by decide⟩, ⟨59, by decide⟩, ⟨59, by decide⟩, ⟨0, by decide⟩,
    some ⟨-3600000000, by decide⟩⟩

theorem tellsSeconds_of_offset {o : Offset} (h : m.offset = some o) (hdvd : 1000000 ∣ o.micros) :
    TellsSeconds m := by
  intro o' ho'
  rw [h, Option.mem_some_iff] at ho'
  exact ho' ▸ hdvd

/-- One hour east of universal time March begins while there it is the leap day still, and one hour
west of it the last second is after the end of the calendar. -/
theorem readInstant_names_leapNight :
    (TellsSeconds leapNight ∧ Moment.InCalendar leapNight.instant ∧
      ∃ r, readInstant (momentText leapNight) = .ok r ∧ r.reading = [2024, 2, 29, 23, 30, 0, 0]) ∧
    TellsSeconds lastSecond ∧ ¬ Moment.InCalendar lastSecond.instant ∧
      readInstant (momentText lastSecond) = .error .beyondCalendar := by
  have hleapNight : TellsSeconds leapNight := tellsSeconds_of_offset rfl (by decide)
  have hlastSecond : TellsSeconds lastSecond := tellsSeconds_of_offset rfl (by decide)
  have hinside : Moment.InCalendar leapNight.instant := by decide
  have houtside : ¬ Moment.InCalendar lastSecond.instant := by decide
  obtain ⟨r, hr, hoffset, hinstant⟩ := (readInstant_names.1 leapNight hleapNight).1 hinside
  refine ⟨⟨hleapNight, hinside, r, hr, ?_⟩, hlastSecond, houtside,
    (readInstant_names.1 lastSecond hlastSecond).2.1 houtside⟩
  let told : Moment := ⟨⟨2024, 2, 29, by decide, by decide, by decide⟩, ⟨23, by decide⟩,
    ⟨30, by decide⟩, ⟨0, by decide⟩, ⟨0, by decide⟩, none⟩
  have hsame : r.clock = told.clock := by
    rw [← Moment.instant_of_offset_none hoffset, hinstant]
    decide
  rw [(Moment.clock_inj hoffset rfl).mp hsame]
  rfl

end SafeMarkdown.Iso
