import Mathlib.Data.List.Range
import Mathlib.Tactic.SplitIfs
import Mathlib.Tactic.Tauto
import SafeMarkdown.Time.Calendar

/-!
# Days and instants

Years and months are blocks of days that follow each other without a gap. A day is told by its block
and its place in it, later days have later blocks or later places, and the search that spends whole
blocks finds both again. So dates in the order of year, month and day have the numbers from 1 to
that of the last day of the calendar, each number once.

The instant of a moment is what a clock of universal time shows then, in microseconds. Without an
offset a moment is determined by its instant, and moments in the order of year, month, day, hour,
minute, second and microsecond are in the order of their instants. Moving a moment to universal time
finds the one moment without offset of the same instant, and fails exactly when that lies before the
first or after the last day of the calendar.
-/

namespace SafeMarkdown

section Blocks

/-- Blocks of the given sizes follow each other without a gap. -/
def Consecutive (start size : Nat → Nat) : Prop :=
  ∀ k, 1 ≤ k → start (k + 1) = start k + size k

/-- Spends whole blocks, then gives the block reached and what is left. -/
def spend (size : Nat → Nat) : Nat → Nat → Nat → Nat × Nat
  | 0, k, rest => (k, rest)
  | fuel + 1, k, rest =>
    if rest ≤ size k then (k, rest) else spend size fuel (k + 1) (rest - size k)

variable {start size : Nat → Nat} {k l i j : Nat}

theorem Consecutive.start_le (h : Consecutive start size) (hk : 1 ≤ k) (hkl : k ≤ l) :
    start k ≤ start l := by
  induction l, hkl using Nat.le_induction with
  | base => exact le_rfl
  | succ l hkl ih =>
      have hstep := h l (by omega)
      omega

/-- A place in an earlier block comes before every place in a later one. -/
theorem Consecutive.lt_of_lt (h : Consecutive start size) (hk : 1 ≤ k) (hkl : k < l)
    (hi : i ≤ size k) (hj : 1 ≤ j) : start k + i < start l + j := by
  have hstep := h k hk
  have hle : start (k + 1) ≤ start l := h.start_le (by omega) hkl
  omega

theorem Consecutive.lt_iff (h : Consecutive start size) (hk : 1 ≤ k) (hl : 1 ≤ l)
    (hi : 1 ≤ i ∧ i ≤ size k) (hj : 1 ≤ j ∧ j ≤ size l) :
    start k + i < start l + j ↔ k < l ∨ k = l ∧ i < j := by
  rcases Nat.lt_trichotomy k l with hkl | rfl | hkl
  · have hlt := h.lt_of_lt hk hkl hi.2 hj.1
    omega
  · omega
  · have hlt := h.lt_of_lt hl hkl hj.2 hi.1
    omega

theorem Consecutive.spend_eq (h : Consecutive start size) {fuel rest : Nat} (hk : 1 ≤ k)
    (hkl : k ≤ l) (hfuel : l ≤ k + fuel) (hj : 1 ≤ j ∧ j ≤ size l)
    (hrest : start k + rest = start l + j) : spend size fuel k rest = (l, j) := by
  induction fuel generalizing k rest with
  | zero =>
      obtain rfl : k = l := by omega
      rw [spend, Nat.add_left_cancel hrest]
  | succ fuel ih =>
      have hstep := h k hk
      rw [spend]
      rcases Nat.lt_or_eq_of_le hkl with hlt | rfl
      · have hle : start (k + 1) ≤ start l := h.start_le (by omega) hlt
        rw [if_neg (by omega)]
        exact ih (by omega) hlt (by omega) (by omega)
      · rw [if_pos (by omega), Nat.add_left_cancel hrest]

/-- Spending blocks keeps the place. -/
theorem Consecutive.start_spend (h : Consecutive start size) (fuel rest : Nat)
    (hk : 1 ≤ k) :
    start (spend size fuel k rest).1 + (spend size fuel k rest).2 = start k + rest := by
  induction fuel generalizing k rest with
  | zero => rfl
  | succ fuel ih =>
      have hstep := h k hk
      rw [spend]
      split
      · rfl
      · rw [ih (rest - size k) (by omega)]
        omega

theorem Consecutive.exists_place (h : Consecutive start size) (last : Nat) {n : Nat}
    (hfirst : start 1 < n) (hlast : n ≤ start (last + 1)) :
    ∃ k j, (1 ≤ k ∧ k ≤ last) ∧ (1 ≤ j ∧ j ≤ size k) ∧ n = start k + j := by
  induction last with
  | zero => exact absurd hlast (Nat.not_le.mpr hfirst)
  | succ last ih =>
      by_cases hle : n ≤ start (last + 1)
      · obtain ⟨k, j, hk, hj, rfl⟩ := ih hle
        exact ⟨k, j, by omega, hj, rfl⟩
      · have hstep := h (last + 1) (Nat.le_add_left 1 last)
        exact ⟨last + 1, n - start (last + 1), by omega, by omega, by omega⟩

end Blocks

theorem isLeapYear_iff (year : Nat) :
    isLeapYear year = true ↔ 4 ∣ year ∧ (¬ 100 ∣ year ∨ 400 ∣ year) := by
  simp [isLeapYear, Nat.dvd_iff_mod_eq_zero]

namespace Date

theorem consecutive_years : Consecutive daysBeforeYear daysInYear := by
  intro year hyear
  obtain ⟨y, rfl⟩ := Nat.exists_eq_add_of_le' hyear
  have hcenturies : y / 100 ≤ y / 4 := Nat.div_le_div_left (by decide) (by decide)
  rw [daysBeforeYear, daysBeforeYear, daysInYear]
  simp only [Nat.add_sub_cancel, isLeapYear_iff, Nat.succ_div]
  generalize y / 4 = quarters at *
  generalize y / 100 = centuries at *
  split_ifs
  all_goals omega

theorem consecutive_months (year : Nat) :
    Consecutive (daysBeforeMonth year) (daysInMonth year) := by
  intro month hmonth
  obtain ⟨m, rfl⟩ := Nat.exists_eq_add_of_le' hmonth
  rw [daysBeforeMonth, daysBeforeMonth, Nat.add_sub_cancel, Nat.add_sub_cancel,
    List.range'_1_concat, List.foldl_concat, Nat.add_comm 1 m]

theorem splitYears_eq_spend (fuel year days : Nat) :
    splitYears fuel year days = spend daysInYear fuel year days := by
  induction fuel generalizing year days with
  | zero => rfl
  | succ fuel ih => rw [splitYears, spend, ih]

theorem splitMonths_eq_spend (year fuel month days : Nat) :
    splitMonths year fuel month days = spend (daysInMonth year) fuel month days := by
  induction fuel generalizing month days with
  | zero => rfl
  | succ fuel ih => rw [splitMonths, spend, ih]

/-- The months make up the year. -/
theorem daysBeforeMonth_thirteen (year : Nat) : daysBeforeMonth year 13 = daysInYear year := by
  cases hleap : isLeapYear year with
  | true => simp [daysBeforeMonth, daysInYear, daysInMonth, List.range', hleap]
  | false => simp [daysBeforeMonth, daysInYear, daysInMonth, List.range', hleap]

def dayOfYear (d : Date) : Nat :=
  daysBeforeMonth d.year d.month + d.day

theorem ordinal_eq (d : Date) : d.ordinal = daysBeforeYear d.year + d.dayOfYear :=
  Nat.add_assoc _ _ _

theorem dayOfYear_mem (d : Date) : 1 ≤ d.dayOfYear ∧ d.dayOfYear ≤ daysInYear d.year := by
  have hmonths := consecutive_months d.year
  have hstep := hmonths d.month d.month_mem.1
  have hle : daysBeforeMonth d.year (d.month + 1) ≤ daysInYear d.year := by
    rw [← daysBeforeMonth_thirteen]
    exact hmonths.start_le (by omega) (Nat.succ_le_succ d.month_mem.2)
  have hday := d.day_mem
  rw [dayOfYear]
  omega

/-- The numbers of days follow the order of year, month and day. -/
theorem ordinal_lt_iff (d e : Date) : d.ordinal < e.ordinal ↔
    d.year < e.year ∨
      d.year = e.year ∧ (d.month < e.month ∨ d.month = e.month ∧ d.day < e.day) := by
  rw [ordinal_eq, ordinal_eq,
    consecutive_years.lt_iff d.year_mem.1 e.year_mem.1 d.dayOfYear_mem e.dayOfYear_mem]
  refine or_congr_right (and_congr_right fun hyear ↦ ?_)
  have he := e.day_mem
  rw [dayOfYear, dayOfYear, ← hyear,
    (consecutive_months d.year).lt_iff d.month_mem.1 e.month_mem.1 d.day_mem (by rwa [hyear])]

theorem eq_iff (d e : Date) : d = e ↔ d.year = e.year ∧ d.month = e.month ∧ d.day = e.day := by
  refine ⟨fun h ↦ h ▸ ⟨rfl, rfl, rfl⟩, fun h ↦ ?_⟩
  obtain ⟨hyear, hmonth, hday⟩ := h
  cases d
  cases e
  congr

theorem ordinal_inj {d e : Date} : d.ordinal = e.ordinal ↔ d = e := by
  have hd := ordinal_lt_iff d e
  have he := ordinal_lt_iff e d
  refine ⟨fun h ↦ (eq_iff d e).mpr ?_, fun h ↦ h ▸ rfl⟩
  omega

theorem make_eq_ok_iff {year month day : Nat} {d : Date} :
    make year month day = .ok d ↔ d.year = year ∧ d.month = month ∧ d.day = day := by
  constructor
  · intro h
    unfold make at h
    split at h
    · split at h
      · split at h
        · cases h
          exact ⟨rfl, rfl, rfl⟩
        · cases h
      · cases h
    · cases h
  · rintro ⟨rfl, rfl, rfl⟩
    rw [make, dif_pos d.year_mem, dif_pos d.month_mem, dif_pos d.day_mem]

theorem ofOrdinal_ordinal (d : Date) : ofOrdinal d.ordinal = .ok d := by
  have hyears : splitYears 9999 1 d.ordinal = (d.year, d.dayOfYear) := by
    rw [splitYears_eq_spend]
    refine consecutive_years.spend_eq le_rfl d.year_mem.1 (by have := d.year_mem.2; omega)
      d.dayOfYear_mem ?_
    rw [ordinal_eq]
    exact Nat.zero_add _
  have hmonths : splitMonths d.year 11 1 d.dayOfYear = (d.month, d.day) := by
    rw [splitMonths_eq_spend]
    refine (consecutive_months d.year).spend_eq le_rfl d.month_mem.1
      (by have := d.month_mem.2; omega) d.day_mem ?_
    rw [dayOfYear]
    exact Nat.zero_add _
  have hpos := d.dayOfYear_mem.1
  rw [ofOrdinal, if_neg (by rw [ordinal_eq]; omega)]
  dsimp only
  rw [Int.toNat_natCast, hyears]
  dsimp only
  rw [hmonths]
  dsimp only
  rw [make_eq_ok_iff.mpr ⟨rfl, rfl, rfl⟩]

/-- A number gives the date that has it. -/
theorem ofOrdinal_eq_ok_iff {n : Int} {d : Date} : ofOrdinal n = .ok d ↔ (d.ordinal : Int) = n := by
  refine ⟨fun h ↦ ?_, fun h ↦ h ▸ ofOrdinal_ordinal d⟩
  unfold ofOrdinal at h
  split at h
  · cases h
  · have hyears := consecutive_years.start_spend 9999 n.toNat le_rfl
    rw [splitYears_eq_spend] at h
    dsimp only at h
    have hmonths := (consecutive_months (spend daysInYear 9999 1 n.toNat).1).start_spend 11
      (spend daysInYear 9999 1 n.toNat).2 le_rfl
    rw [splitMonths_eq_spend] at h
    split at h
    · rename_i made hmake
      cases h
      obtain ⟨hyear, hmonth, hday⟩ := make_eq_ok_iff.mp hmake
      rw [ordinal, hyear, hmonth, hday]
      have hyearStart : daysBeforeYear 1 = 0 := rfl
      have hmonthStart (year : Nat) : daysBeforeMonth year 1 = 0 := rfl
      rw [hyearStart] at hyears
      rw [hmonthStart] at hmonths
      omega
    · cases h

theorem eq_beyondCalendar_of_ofOrdinal {n : Int} {fault : CalendarFault}
    (h : ofOrdinal n = .error fault) : fault = .beyondCalendar := by
  unfold ofOrdinal at h
  split at h
  · cases h
    rfl
  · dsimp only at h
    split at h
    · cases h
    · cases h
      rfl

/-- The first day of the calendar. -/
def first : Date :=
  ⟨1, 1, 1, by decide, by decide, by decide⟩

/-- The last day of the calendar. -/
def last : Date :=
  ⟨9999, 12, 31, by decide, by decide, by decide⟩

theorem daysBeforeYear_tenThousand : daysBeforeYear 10000 = last.ordinal := by
  decide

/-- The numbers of days are those from the first day to the last one. -/
theorem exists_ordinal_iff {n : Nat} :
    (∃ d : Date, d.ordinal = n) ↔ first.ordinal ≤ n ∧ n ≤ last.ordinal := by
  have hstart : first.ordinal = 1 := by decide
  rw [hstart, ← daysBeforeYear_tenThousand]
  constructor
  · rintro ⟨d, rfl⟩
    have hday := d.dayOfYear_mem
    have hstep := consecutive_years d.year d.year_mem.1
    have hle : daysBeforeYear (d.year + 1) ≤ daysBeforeYear 10000 :=
      consecutive_years.start_le (by omega) (Nat.succ_le_succ d.year_mem.2)
    rw [ordinal_eq]
    omega
  · rintro ⟨hfirst, hlast⟩
    obtain ⟨year, day, hyear, hday, rfl⟩ := consecutive_years.exists_place 9999 hfirst hlast
    obtain ⟨month, dayOfMonth, hmonth, hdayOfMonth, rfl⟩ :=
      (consecutive_months year).exists_place 12 hday.1
        (by rw [daysBeforeMonth_thirteen]; exact hday.2)
    exact ⟨⟨year, month, dayOfMonth, hyear, hmonth, hdayOfMonth⟩, Nat.add_assoc _ _ _⟩

end Date

namespace Moment

/-- The microseconds that a clock of universal time shows at a moment. -/
def instant (m : Moment) : Int :=
  m.clock - m.offset.elim 0 Offset.micros

/-- Whether an instant lies on one of the days of the calendar. -/
def InCalendar (t : Int) : Prop :=
  Date.first.ordinal * microsPerDay ≤ t ∧ t < (Date.last.ordinal + 1) * microsPerDay

instance (t : Int) : Decidable (InCalendar t) :=
  inferInstanceAs (Decidable (_ ∧ _))

/-- What a moment shows, from the year down to the microsecond. -/
def reading (m : Moment) : List Nat :=
  [m.date.year, m.date.month, m.date.day, m.hour, m.minute, m.second, m.micro]

theorem instant_of_offset_none {m : Moment} (h : m.offset = none) : m.instant = m.clock := by
  rw [instant, h]
  exact Int.sub_zero m.clock

theorem microsOfDay_eq (m : Moment) : m.microsOfDay =
    m.hour * 3600000000 + (m.minute * 60000000 + (m.second * 1000000 + m.micro)) := by
  rw [microsOfDay]
  omega

theorem microsOfDay_lt (m : Moment) : m.microsOfDay < 86400000000 := by
  have hhour := m.hour.isLt
  have hminute := m.minute.isLt
  have hsecond := m.second.isLt
  have hmicro := m.micro.isLt
  rw [microsOfDay_eq]
  omega

theorem clock_eq (m : Moment) :
    m.clock = ((m.date.ordinal * 86400000000 + m.microsOfDay : Nat) : Int) := by
  rw [clock, microsPerDay, Int.natCast_add, Int.natCast_mul]
  rfl

section Order

theorem mul_add_lt_iff {size q q' r r' : Nat} (hr : r < size) (hr' : r' < size) :
    q * size + r < q' * size + r' ↔ q < q' ∨ q = q' ∧ r < r' := by
  rcases Nat.lt_trichotomy q q' with h | rfl | h
  · have hle := Nat.mul_le_mul_right size (Nat.succ_le_of_lt h)
    rw [Nat.succ_mul] at hle
    omega
  · omega
  · have hle := Nat.mul_le_mul_right size (Nat.succ_le_of_lt h)
    rw [Nat.succ_mul] at hle
    omega

variable (a b : Moment)

theorem microsOfDay_lt_iff : a.microsOfDay < b.microsOfDay ↔
    ([a.hour.val, a.minute.val, a.second.val, a.micro.val] : List Nat) <
      [b.hour.val, b.minute.val, b.second.val, b.micro.val] := by
  have := a.minute.isLt
  have := a.second.isLt
  have := a.micro.isLt
  have := b.minute.isLt
  have := b.second.isLt
  have := b.micro.isLt
  rw [microsOfDay_eq, microsOfDay_eq, mul_add_lt_iff (by omega) (by omega),
    mul_add_lt_iff (by omega) (by omega), mul_add_lt_iff (by omega) (by omega)]
  simp only [List.cons_lt_cons_iff, List.not_lt_nil, and_false, or_false]

/-- Clocks follow the order of what they show. -/
theorem clock_lt_iff : a.clock < b.clock ↔ a.reading < b.reading := by
  rw [clock_eq, clock_eq, Int.ofNat_lt, mul_add_lt_iff a.microsOfDay_lt b.microsOfDay_lt,
    Date.ordinal_lt_iff, Date.ordinal_inj, Date.eq_iff, microsOfDay_lt_iff, reading, reading]
  simp only [List.cons_lt_cons_iff]
  tauto

theorem eq_of_microsOfDay {a b : Moment} (hdate : a.date = b.date)
    (hday : a.microsOfDay = b.microsOfDay) (hoffset : a.offset = b.offset) : a = b := by
  have hlt := microsOfDay_lt_iff a b
  have hgt := microsOfDay_lt_iff b a
  simp only [List.cons_lt_cons_iff, List.not_lt_nil, and_false, or_false] at hlt hgt
  obtain ⟨hhour, hminute, hsecond, hmicro⟩ : a.hour.val = b.hour.val ∧
      a.minute.val = b.minute.val ∧ a.second.val = b.second.val ∧ a.micro.val = b.micro.val := by
    omega
  cases a
  cases b
  simp_all [Fin.ext_iff]

/-- Without an offset a moment is what its clock shows. -/
theorem clock_inj {a b : Moment} (ha : a.offset = none) (hb : b.offset = none) :
    a.clock = b.clock ↔ a = b := by
  refine ⟨fun h ↦ ?_, fun h ↦ h ▸ rfl⟩
  have halt := a.microsOfDay_lt
  have hblt := b.microsOfDay_lt
  rw [clock_eq, clock_eq] at h
  refine eq_of_microsOfDay (Date.ordinal_inj.mp ?_) ?_ (ha.trans hb.symm)
  · omega
  · omega

end Order

section Universal

variable {m r : Moment} {t : Int}

theorem make_eq_ok {date : Date} {hour minute second micro : Nat} {offset : Option Offset}
    (hdate : m.date = date) (hhour : m.hour.val = hour) (hminute : m.minute.val = minute)
    (hsecond : m.second.val = second) (hmicro : m.micro.val = micro) (hoffset : m.offset = offset) :
    make date hour minute second micro offset = .ok m := by
  subst hdate hhour hminute hsecond hmicro hoffset
  rw [make, dif_pos m.hour.isLt, dif_pos m.minute.isLt, dif_pos m.second.isLt]
  congr
  exact Fin.ext (Nat.mod_eq_of_lt m.micro.isLt)

theorem div_clock (m : Moment) : m.clock / microsPerDay = m.date.ordinal := by
  have hlt := m.microsOfDay_lt
  rw [clock_eq, microsPerDay]
  omega

theorem mod_clock (m : Moment) : (m.clock % microsPerDay).toNat = m.microsOfDay := by
  have hlt := m.microsOfDay_lt
  rw [clock_eq, microsPerDay]
  omega

theorem ofClock_eq {date : Date} (h : Date.ofOrdinal (t / microsPerDay) = .ok date) :
    ofClock t = make date ((t % microsPerDay).toNat / 3600000000)
      ((t % microsPerDay).toNat / 60000000 % 60) ((t % microsPerDay).toNat / 1000000 % 60)
      ((t % microsPerDay).toNat % 1000000) none := by
  unfold ofClock
  rw [h]
  rfl

/-- What a clock shows gives the moment without offset at which it shows that. -/
theorem ofClock_clock (h : m.offset = none) : ofClock m.clock = .ok m := by
  have hhour := m.hour.isLt
  have hminute := m.minute.isLt
  have hsecond := m.second.isLt
  have hmicro := m.micro.isLt
  have hdate : Date.ofOrdinal (m.clock / microsPerDay) = .ok m.date := by
    rw [div_clock, Date.ofOrdinal_ordinal]
  rw [ofClock_eq hdate, mod_clock, microsOfDay_eq]
  exact make_eq_ok rfl (by omega) (by omega) (by omega) (by omega) h

theorem inCalendar_iff_ordinal :
    InCalendar t ↔ ∃ d : Date, (d.ordinal : Int) = t / microsPerDay := by
  have hdays := Date.exists_ordinal_iff (n := (t / microsPerDay).toNat)
  rw [InCalendar, microsPerDay]
  rw [microsPerDay] at hdays
  constructor
  · intro h
    obtain ⟨d, hd⟩ := hdays.mpr (by omega)
    exact ⟨d, by omega⟩
  · rintro ⟨d, hd⟩
    have hrange := hdays.mp ⟨d, by omega⟩
    omega

theorem inCalendar_clock (m : Moment) : InCalendar m.clock :=
  inCalendar_iff_ordinal.mpr ⟨m.date, (div_clock m).symm⟩

theorem exists_clock (h : InCalendar t) : ∃ m : Moment, m.offset = none ∧ m.clock = t := by
  obtain ⟨d, hd⟩ := inCalendar_iff_ordinal.mp h
  rw [microsPerDay] at hd
  obtain ⟨rest, hrest⟩ : ∃ rest : Nat, (rest : Int) = t % 86400000000 :=
    ⟨(t % 86400000000).toNat, by omega⟩
  refine ⟨⟨d, ⟨rest / 3600000000, by omega⟩, ⟨rest / 60000000 % 60, by omega⟩,
    ⟨rest / 1000000 % 60, by omega⟩, ⟨rest % 1000000, by omega⟩, none⟩, rfl, ?_⟩
  rw [clock_eq, microsOfDay_eq]
  dsimp only
  omega

theorem ofClock_of_not_inCalendar (h : ¬ InCalendar t) :
    ofClock t = .error .beyondCalendar := by
  cases hdate : Date.ofOrdinal (t / microsPerDay) with
  | ok d => exact (h (inCalendar_iff_ordinal.mpr ⟨d, Date.ofOrdinal_eq_ok_iff.mp hdate⟩)).elim
  | error fault =>
      rw [ofClock, hdate, Date.eq_beyondCalendar_of_ofOrdinal hdate]
      rfl

/-- The move to universal time finds the moment of the same instant if that is in the calendar. -/
theorem toUtc_of_inCalendar (h : InCalendar m.instant) :
    ∃ r, m.toUtc = .ok r ∧ r.offset = none ∧ r.clock = m.instant := by
  rw [toUtc]
  split
  · rename_i hoffset
    exact ⟨m, rfl, hoffset, (instant_of_offset_none hoffset).symm⟩
  · rename_i o hoffset
    have hinstant : m.instant = m.clock - o.micros := by rw [instant, hoffset, Option.elim_some]
    split
    · rename_i hzero
      refine ⟨{ m with offset := none }, rfl, rfl, ?_⟩
      rw [hinstant, hzero, Int.sub_zero, clock_eq, clock_eq]
      rfl
    · obtain ⟨r, hr, hclock⟩ := exists_clock h
      rw [← hinstant, ← hclock]
      exact ⟨r, ofClock_clock hr, hr, rfl⟩

theorem toUtc_of_not_inCalendar (h : ¬ InCalendar m.instant) :
    m.toUtc = .error .beyondCalendar := by
  have hclock := inCalendar_clock m
  rw [toUtc]
  split
  · rename_i hoffset
    rw [instant_of_offset_none hoffset] at h
    exact (h hclock).elim
  · rename_i o hoffset
    have hinstant : m.instant = m.clock - o.micros := by rw [instant, hoffset, Option.elim_some]
    split
    · rename_i hzero
      rw [hinstant, hzero, Int.sub_zero] at h
      exact (h hclock).elim
    · rw [← hinstant]
      exact ofClock_of_not_inCalendar h

end Universal

end Moment

end SafeMarkdown
