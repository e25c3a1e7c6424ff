/-!
# The calendar

Dates of the years 1 to 9999 in the Gregorian calendar, numbered by days, and moments of such a
date down to the microsecond, with or without an offset from universal time. A moment with an
offset moves to universal time by subtracting it; the move fails only past the ends of the calendar.
-/

namespace SafeMarkdown

/-- What is wrong with a date or a time. -/
inductive CalendarFault where
  | unreadable (text : String)
  | year (year : Nat)
  | month
  | day
  | hour
  | minute
  | second
  | offset (seconds : Int)
  | beyondCalendar
  deriving DecidableEq, Repr

def isLeapYear (year : Nat) : Bool :=
  year % 4 == 0 && (year % 100 != 0 || year % 400 == 0)

def daysInYear (year : Nat) : Nat :=
  if isLeapYear year then 366 else 365

def daysInMonth (year month : Nat) : Nat :=
  if month == 2 then if isLeapYear year then 29 else 28
  else if month == 4 || month == 6 || month == 9 || month == 11 then 30
  else 31

structure Date where
  year : Nat
  month : Nat
  day : Nat
  year_mem : 1 ≤ year ∧ year ≤ 9999
  month_mem : 1 ≤ month ∧ month ≤ 12
  day_mem : 1 ≤ day ∧ day ≤ daysInMonth year month
  deriving DecidableEq

namespace Date

/-- The date with the given numbers; the year is checked first and the day last. -/
def make (year month day : Nat) : Except CalendarFault Date :=
  if hy : 1 ≤ year ∧ year ≤ 9999 then
    if hm : 1 ≤ month ∧ month ≤ 12 then
      if hd : 1 ≤ day ∧ day ≤ daysInMonth year month then
        .ok ⟨year, month, day, hy, hm, hd⟩
      else .error .day
    else .error .month
  else .error (.year year)

def daysBeforeYear (year : Nat) : Nat :=
  let y := year - 1
  y * 365 + y / 4 - y / 100 + y / 400

def daysBeforeMonth (year month : Nat) : Nat :=
  (List.range' 1 (month - 1)).foldl (fun days m ↦ days + daysInMonth year m) 0

/-- The number of a date; the first of January of year 1 is day 1. -/
def ordinal (d : Date) : Nat :=
  daysBeforeYear d.year + daysBeforeMonth d.year d.month + d.day

/-- Spends whole years, then gives the year reached and the days left. -/
def splitYears : Nat → Nat → Nat → Nat × Nat
  | 0, year, days => (year, days)
  | fuel + 1, year, days =>
    if days ≤ daysInYear year then (year, days)
    else splitYears fuel (year + 1) (days - daysInYear year)

/-- Spends whole months, then gives the month reached and the days left. -/
def splitMonths (year : Nat) : Nat → Nat → Nat → Nat × Nat
  | 0, month, days => (month, days)
  | fuel + 1, month, days =>
    if days ≤ daysInMonth year month then (month, days)
    else splitMonths year fuel (month + 1) (days - daysInMonth year month)

def ofOrdinal (n : Int) : Except CalendarFault Date :=
  if n < 1 then .error .beyondCalendar
  else
    let (year, rest) := splitYears 9999 1 n.toNat
    let (month, day) := splitMonths year 11 1 rest
    match make year month day with
    | .ok d => .ok d
    | .error _ => .error .beyondCalendar

/-- The number of days of a year that precede its first numbered week, or minus the days of that
week that fall into the year before: weeks start on Monday and belong to the year of their
Thursday. -/
def firstWeekStart (year : Nat) : Int :=
  let firstDay : Int := daysBeforeYear year + 1
  let weekday := (firstDay + 6) % 7
  let monday := firstDay - weekday
  if 3 < weekday then monday + 7 else monday

def weeksInYear (year : Nat) : Nat :=
  let weekday := (daysBeforeYear year + 7) % 7
  if weekday == 3 || (weekday == 2 && isLeapYear year) then 53 else 52

def ofWeek (year week day : Nat) : Option Date :=
  if year < 1 || 9999 < year || week < 1 || weeksInYear year < week || day < 1 || 7 < day then none
  else
    let n := firstWeekStart year + ((week - 1) * 7 + (day - 1) : Nat)
    match ofOrdinal n with
    | .ok d => some d
    | .error _ => none

end Date

def microsPerDay : Int := 86400000000

/-- A distance from universal time, in microseconds, shorter than a day. -/
structure Offset where
  micros : Int
  bounds : -microsPerDay < micros ∧ micros < microsPerDay
  deriving DecidableEq

def Offset.utc : Offset := ⟨0, by decide⟩

def Offset.make (micros : Int) : Except CalendarFault Offset :=
  if h : -microsPerDay < micros ∧ micros < microsPerDay then .ok ⟨micros, h⟩
  else .error (.offset (micros / 1000000))

/-- A moment of a date, on a clock whose distance from universal time may be known. -/
structure Moment where
  date : Date
  hour : Fin 24
  minute : Fin 60
  second : Fin 60
  micro : Fin 1000000
  offset : Option Offset
  deriving DecidableEq

namespace Moment

/-- The moment with the given clock reading. -/
def make (date : Date) (hour minute second micro : Nat) (offset : Option Offset) :
    Except CalendarFault Moment :=
  if hh : hour < 24 then
    if hm : minute < 60 then
      if hs : second < 60 then
        .ok ⟨date, ⟨hour, hh⟩, ⟨minute, hm⟩, ⟨second, hs⟩, Fin.ofNat 1000000 micro, offset⟩
      else .error .second
    else .error .minute
  else .error .hour

def midnight (d : Date) : Moment :=
  ⟨d, 0, 0, 0, 0, none⟩

def microsOfDay (m : Moment) : Nat :=
  ((m.hour.val * 60 + m.minute.val) * 60 + m.second.val) * 1000000 + m.micro.val

/-- The microseconds shown on the clock since the start of the calendar. -/
def clock (m : Moment) : Int :=
  m.date.ordinal * microsPerDay + m.microsOfDay

/-- The moment, without offset, at which the clock shows so many microseconds. -/
def ofClock (t : Int) : Except CalendarFault Moment := do
  let date ← Date.ofOrdinal (t / microsPerDay)
  let rest := (t % microsPerDay).toNat
  make date (rest / 3600000000) (rest / 60000000 % 60) (rest / 1000000 % 60) (rest % 1000000) none

/-- The same instant on the clock of universal time, without an offset. A moment that has no
offset is taken as universal time already. -/
def toUtc (m : Moment) : Except CalendarFault Moment :=
  match m.offset with
  | none => .ok m
  | some o =>
    if o.micros = 0 then .ok { m with offset := none }
    else ofClock (m.clock - o.micros)

end Moment

end SafeMarkdown
