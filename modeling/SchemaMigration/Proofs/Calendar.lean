import Mathlib.Tactic.IntervalCases
import Mathlib.Tactic.Lift
import Mathlib.Tactic.Ring
import SchemaMigration.Calendar

/-!
This module contains the Gregorian calendar, counted out year by year and month by month, and that
the date which is computed for a day from 1970 on is the one that is found by counting. Days are
numbered in the order of their dates.
-/

namespace SchemaMigration.Calendar

def isLeap (year : Nat) : Bool := year % 4 == 0 && (year % 100 != 0 || year % 400 == 0)

def yearLength (year : Nat) : Nat := if isLeap year then 366 else 365

def monthLength (year month : Nat) : Nat :=
  if month = 2 then (if isLeap year then 29 else 28)
  else if month = 4 ∨ month = 6 ∨ month = 9 ∨ month = 11 then 30
  else 31

def daysBeforeYear (year : Nat) : Nat := ((List.range' 1970 (year - 1970)).map yearLength).sum

def daysBeforeMonth (year month : Nat) : Nat :=
  ((List.range' 1 (month - 1)).map (monthLength year)).sum

def daysBefore (year month day : Nat) : Nat :=
  daysBeforeYear year + daysBeforeMonth year month + (day - 1)

structure IsDate (year month day : Nat) : Prop where
  le_year : 1970 ≤ year
  le_month : 1 ≤ month
  month_le : month ≤ 12
  le_day : 1 ≤ day
  day_le : day ≤ monthLength year month

theorem isLeap_iff {year : Nat} :
    isLeap year = true ↔ year % 4 = 0 ∧ (year % 100 ≠ 0 ∨ year % 400 = 0) := by
  simp [isLeap]

theorem monthLength_le (year month : Nat) : monthLength year month ≤ 31 := by
  unfold monthLength
  split
  . split
    . decide
    . decide
  . split
    . decide
    . decide

theorem daysBeforeYear_succ {year : Nat} (h : 1970 ≤ year) :
    daysBeforeYear (year + 1) = daysBeforeYear year + yearLength year := by
  have hlength : year + 1 - 1970 = year - 1970 + 1 := by omega
  have hlast : 1970 + (year - 1970) = year := by omega
  rw [daysBeforeYear, hlength, List.range'_1_concat, hlast]
  simp [daysBeforeYear]

theorem daysBeforeMonth_succ (year : Nat) {month : Nat} (h : 1 ≤ month) :
    daysBeforeMonth year (month + 1) = daysBeforeMonth year month + monthLength year month := by
  have hlength : month + 1 - 1 = month - 1 + 1 := by omega
  have hlast : 1 + (month - 1) = month := by omega
  rw [daysBeforeMonth, hlength, List.range'_1_concat, hlast]
  simp [daysBeforeMonth]

theorem yearLength_eq (year : Nat) :
    yearLength year + (if 100 ∣ year then 1 else 0) =
      365 + (if 4 ∣ year then 1 else 0) + (if 400 ∣ year then 1 else 0) := by
  unfold yearLength
  split
  . next hleap =>
    rw [isLeap_iff] at hleap
    split <;> split <;> split <;> omega
  . next hcommon =>
    rw [isLeap_iff] at hcommon
    split <;> split <;> split <;> omega

/-- The days before a year in closed form: the leap days are counted from the year 1 on. -/
theorem daysBeforeYear_succ_eq {year : Nat} (h : 1969 ≤ year) :
    daysBeforeYear (year + 1) + 719162 + year / 100 = 365 * year + year / 4 + year / 400 := by
  induction year, h using Nat.le_induction with
  | base => rfl
  | succ year h ih =>
    have hlength := yearLength_eq (year + 1)
    have hnext : 1970 ≤ year + 1 := Nat.succ_le_succ h
    rw [daysBeforeYear_succ hnext, Nat.succ_div, Nat.succ_div, Nat.succ_div]
    omega

theorem daysBeforeMonth_thirteen (year : Nat) : daysBeforeMonth year 13 = yearLength year := by
  cases hleap : isLeap year with
  | false => simp [daysBeforeMonth, List.range', monthLength, yearLength, hleap]
  | true => simp [daysBeforeMonth, List.range', monthLength, yearLength, hleap]

section Order

variable {year year' month month' day day' : Nat}

theorem daysBeforeYear_le (h : 1970 ≤ year) (hle : year ≤ year') :
    daysBeforeYear year ≤ daysBeforeYear year' := by
  induction year', hle using Nat.le_induction with
  | base => exact Nat.le_refl _
  | succ year' hle ih =>
    rw [daysBeforeYear_succ (Nat.le_trans h hle)]
    exact Nat.le_trans ih (Nat.le_add_right _ _)

theorem daysBeforeMonth_le (year : Nat) (h : 1 ≤ month) (hle : month ≤ month') :
    daysBeforeMonth year month ≤ daysBeforeMonth year month' := by
  induction month', hle using Nat.le_induction with
  | base => exact Nat.le_refl _
  | succ month' hle ih =>
    rw [daysBeforeMonth_succ year (Nat.le_trans h hle)]
    exact Nat.le_trans ih (Nat.le_add_right _ _)

/-- A date comes before the next month. -/
theorem IsDate.daysBefore_lt_month (h : IsDate year month day) :
    daysBefore year month day < daysBeforeYear year + daysBeforeMonth year (month + 1) := by
  obtain ⟨_, hmonth, _, hday, hlength⟩ := h
  rw [daysBefore, daysBeforeMonth_succ year hmonth]
  omega

/-- A date comes before the next year. -/
theorem IsDate.daysBefore_lt_year (h : IsDate year month day) :
    daysBefore year month day < daysBeforeYear (year + 1) := by
  have hnext := h.daysBefore_lt_month
  have hmonth := daysBeforeMonth_le year (Nat.le_add_left 1 month) (Nat.succ_le_succ h.month_le)
  rw [daysBeforeMonth_thirteen] at hmonth
  rw [daysBeforeYear_succ h.le_year]
  omega

/-- Of two dates, the later one has more days before it. -/
theorem IsDate.daysBefore_lt (h : IsDate year month day) (h' : IsDate year' month' day')
    (hlt : year < year' ∨ year = year' ∧ (month < month' ∨ month = month' ∧ day < day')) :
    daysBefore year month day < daysBefore year' month' day' := by
  obtain hyear | ⟨rfl, hmonth | ⟨rfl, hday⟩⟩ := hlt
  . have hnext := h.daysBefore_lt_year
    have hyears : daysBeforeYear (year + 1) ≤ daysBeforeYear year' :=
      daysBeforeYear_le (Nat.le_succ_of_le h.le_year) hyear
    rw [daysBefore.eq_1 year']
    omega
  . have hnext := h.daysBefore_lt_month
    have hmonths := daysBeforeMonth_le year (Nat.le_add_left 1 month) hmonth
    rw [daysBefore.eq_1 year month']
    omega
  . have := h.le_day
    unfold daysBefore
    omega

end Order

/-!
An era of four hundred years is cut into centuries, these into cycles of four years and these into
years. A year begins in March here, and so a leap day is the last day of all these that it is in.
-/

/-- The parts of an era that a day is in, and which day of its year it is. -/
structure Parts (dayOfEra century cycle year day : Int) : Prop where
  century_range : 0 ≤ century ∧ century ≤ 3
  cycle_range : 0 ≤ cycle ∧ cycle ≤ 24
  year_range : 0 ≤ year ∧ year ≤ 3
  day_range : 0 ≤ day ∧ day ≤ 365
  leap_day : day = 365 → year = 3 ∧ (cycle = 24 → century = 3)
  sum_eq : dayOfEra = 36524 * century + 1461 * cycle + 365 * year + day

theorem exists_parts (dayOfEra : Int) (h : 0 ≤ dayOfEra) (hlt : dayOfEra < 146097) :
    ∃ century cycle year day, Parts dayOfEra century cycle year day := by
  -- The last century and the last year of a cycle have one day more than the others.
  let century := min (dayOfEra / 36524) 3
  let rest := dayOfEra - 36524 * century
  let year := min (rest % 1461 / 365) 3
  have hrest : 0 ≤ rest ∧ rest ≤ 36524 ∧ (rest = 36524 → century = 3) := by omega
  refine ⟨century, rest / 1461, year, rest % 1461 - 365 * year, ?_⟩
  constructor
  all_goals omega

namespace Parts

variable {days era dayOfEra century cycle year day : Int}

theorem yearOfEra_eq (h : Parts dayOfEra century cycle year day) :
    (dayOfEra - dayOfEra / 1460 + dayOfEra / 36524 - dayOfEra / 146096) / 365 =
      100 * century + 4 * cycle + year := by
  obtain ⟨hcentury, hcycle, hyear, hday, hleap, hsum⟩ := h
  have hcenturies : dayOfEra / 36524 - dayOfEra / 146096 = century := by
    by_cases hlast : 1461 * cycle + 365 * year + day = 36524
    . have : century = 3 := by omega
      omega
    . have : dayOfEra / 36524 = century := by omega
      have : dayOfEra / 146096 = 0 := by omega
      omega
  -- Four years of 365 days are 1460 days: what is counted too often is less than a year.
  let extra := (24 * century + cycle + 365 * year + day) / 1460
  have hcycles : dayOfEra / 1460 = 25 * century + cycle + extra := by omega
  have hextra : 0 ≤ day - extra ∧ day - extra < 365 := by omega
  have hyears : dayOfEra - dayOfEra / 1460 + dayOfEra / 36524 - dayOfEra / 146096 =
      day - extra + 365 * (100 * century + 4 * cycle + year) := by
    rw [hcycles, Int.add_sub_assoc, hcenturies, hsum]
    ring
  rw [hyears, Int.add_mul_ediv_left _ _ (by decide), Int.ediv_eq_zero_of_lt hextra.1 hextra.2,
    Int.zero_add]

theorem dayOfYear_eq (h : Parts dayOfEra century cycle year day) :
    let yearOfEra := 100 * century + 4 * cycle + year
    dayOfEra - (365 * yearOfEra + yearOfEra / 4 - yearOfEra / 100) = day := by
  obtain ⟨hcentury, hcycle, hyear, _, _, hsum⟩ := h
  have hcycles : (100 * century + 4 * cycle + year) / 4 = 25 * century + cycle := by omega
  have hcenturies : (100 * century + 4 * cycle + year) / 100 = century := by omega
  omega

end Parts

def Date.ofMarch (year day : Int) : Date :=
  let month := (5 * day + 2) / 153
  let dayOfMonth := day - (153 * month + 2) / 5 + 1
  if month < 10 then ⟨year, month + 3, dayOfMonth⟩ else ⟨year + 1, month - 9, dayOfMonth⟩

theorem Parts.ofDays_eq {days era dayOfEra century cycle year day : Int}
    (h : Parts dayOfEra century cycle year day)
    (hdays : days + 719468 = 146097 * era + dayOfEra) :
    Date.ofDays days = .ofMarch (400 * era + (100 * century + 4 * cycle + year)) day := by
  have hrange : 0 ≤ dayOfEra ∧ dayOfEra < 146097 := by
    obtain ⟨hcentury, hcycle, hyear, hday, hleap, hsum⟩ := h
    omega
  have hera : (days + 719468) / 146097 = era := by omega
  have hdayOfEra : (days + 719468) % 146097 = dayOfEra := by omega
  simp only [Date.ofDays, Date.ofMarch, hera, hdayOfEra, h.yearOfEra_eq, h.dayOfYear_eq]
  have hday := h.day_range
  split
  . rw [if_neg (by omega), Int.add_zero, Int.add_comm]
  . rw [if_pos (by omega), Int.add_comm (100 * century + 4 * cycle + year)]

section March

variable {year m rest : Nat}

/-- The months from March to December in the days of the year that begins with March. -/
theorem daysBeforeMonth_march (year : Nat) (h : m ≤ 9) :
    daysBeforeMonth year (m + 3) + 306 = yearLength year + (153 * m + 2) / 5 ∧
      monthLength year (m + 3) = (153 * (m + 1) + 2) / 5 - (153 * m + 2) / 5 := by
  cases hleap : isLeap year with
  | false =>
    interval_cases m
    all_goals simp [daysBeforeMonth, List.range', monthLength, yearLength, hleap]
  | true =>
    interval_cases m
    all_goals simp [daysBeforeMonth, List.range', monthLength, yearLength, hleap]

theorem isDate_march (hyear : 1970 ≤ year) (hm : m ≤ 9)
    (hrest : (153 * m + 2) / 5 + rest < (153 * (m + 1) + 2) / 5) :
    IsDate year (m + 3) (rest + 1) ∧
      daysBefore year (m + 3) (rest + 1) + 306 =
        daysBeforeYear (year + 1) + ((153 * m + 2) / 5 + rest) := by
  obtain ⟨hbefore, hlength⟩ := daysBeforeMonth_march year hm
  refine ⟨⟨hyear, by omega, by omega, by omega, by omega⟩, ?_⟩
  rw [daysBefore, daysBeforeYear_succ hyear, Nat.add_sub_cancel]
  omega

theorem isDate_january (hyear : 1970 ≤ year) (hrest : rest < 31) :
    IsDate year 1 (rest + 1) ∧ daysBefore year 1 (rest + 1) = daysBeforeYear year + rest := by
  have hbefore : daysBeforeMonth year 1 = 0 := rfl
  refine ⟨⟨hyear, Nat.le_refl 1, by omega, by omega, hrest⟩, ?_⟩
  rw [daysBefore, hbefore, Nat.add_zero, Nat.add_sub_cancel]

theorem isDate_february (hyear : 1970 ≤ year) (hrest : rest < 29)
    (hleap : rest = 28 → isLeap year = true) :
    IsDate year 2 (rest + 1) ∧ daysBefore year 2 (rest + 1) = daysBeforeYear year + 31 + rest := by
  have hbefore : daysBeforeMonth year 2 = 31 := rfl
  refine ⟨⟨hyear, by omega, by omega, by omega, ?_⟩, ?_⟩
  . change rest + 1 ≤ if isLeap year then 29 else 28
    split
    . omega
    . next hcommon =>
      have : rest ≠ 28 := mt hleap hcommon
      omega
  . rw [daysBefore, hbefore, Nat.add_sub_cancel]

end March

/-- The month of a day of a year that begins in March. -/
theorem exists_month {day : Nat} (h : day ≤ 365) :
    ∃ m rest : Nat, (5 * day + 2) / 153 = m ∧ m ≤ 11 ∧ day = (153 * m + 2) / 5 + rest ∧
      (153 * m + 2) / 5 + rest < (153 * (m + 1) + 2) / 5 := by
  have hlow : (153 * ((5 * day + 2) / 153) + 2) / 5 ≤ day := by omega
  have hhigh : day < (153 * ((5 * day + 2) / 153 + 1) + 2) / 5 := by omega
  obtain ⟨rest, hrest⟩ := Nat.exists_eq_add_of_le hlow
  exact ⟨(5 * day + 2) / 153, rest, rfl, by omega, hrest, by omega⟩

theorem Date.ofMarch_eq {year day : Nat} (hyear : 1969 ≤ year) (hday : day ≤ 365)
    (hleap : day = 365 → isLeap (year + 1) = true) (hfirst : year = 1969 → 306 ≤ day) :
    ∃ civil month rest : Nat, Date.ofMarch year day = ⟨civil, month, (rest + 1 : Nat)⟩ ∧
      IsDate civil month (rest + 1) ∧
      daysBefore civil month (rest + 1) + 306 = daysBeforeYear (year + 1) + day := by
  obtain ⟨m, rest, hm, hle, hsum, hlt⟩ := exists_month hday
  have hmonth : (5 * (day : Int) + 2) / 153 = m := by omega
  have hrest : (day : Int) - (153 * m + 2) / 5 + 1 = (rest + 1 : Nat) := by omega
  simp only [ofMarch, hmonth, hrest]
  by_cases hearly : m < 10
  . refine ⟨year, m + 3, rest, ?_, ?_⟩
    . rw [if_pos (by omega)]
      rfl
    . rw [hsum]
      exact isDate_march (by omega) (by omega) hlt
  . refine ⟨year + 1, m - 9, rest, ?_, ?_⟩
    . rw [if_neg (by omega), Int.natCast_sub (by omega)]
      rfl
    . have hnext : 1970 ≤ year + 1 := Nat.succ_le_succ hyear
      obtain rfl | rfl : m = 10 ∨ m = 11 := by omega
      . obtain ⟨hdate, hbefore⟩ := isDate_january hnext (show rest < 31 by omega)
        refine ⟨hdate, ?_⟩
        rw [hbefore]
        omega
      . have hlast : rest = 28 → isLeap (year + 1) = true := fun _ => hleap (by omega)
        obtain ⟨hdate, hbefore⟩ := isDate_february hnext (by omega) hlast
        refine ⟨hdate, ?_⟩
        rw [hbefore]
        omega

/-- The date that is computed for a day from 1970 on is one, and has that many days before it. -/
theorem ofDays_eq (n : Nat) :
    ∃ year month day : Nat, Date.ofDays n = ⟨year, month, day⟩ ∧ IsDate year month day ∧
      daysBefore year month day = n := by
  obtain ⟨century, cycle, year, day, h⟩ :=
    exists_parts (((n : Int) + 719468) % 146097) (by omega) (by omega)
  obtain ⟨era, hera⟩ : ∃ era : Nat, ((n : Int) + 719468) / 146097 = era :=
    ⟨(((n : Int) + 719468) / 146097).toNat, by omega⟩
  have hdays : (n : Int) + 719468 = 146097 * era + (n + 719468) % 146097 := by omega
  have hofDays := h.ofDays_eq hdays
  obtain ⟨hcentury, hcycle, hyear, hday, hleap, hsum⟩ := h
  lift century to Nat using hcentury.1
  lift cycle to Nat using hcycle.1
  lift year to Nat using hyear.1
  lift day to Nat using hday.1
  obtain ⟨march, hmarch⟩ : ∃ march, march = 400 * era + (100 * century + 4 * cycle + year) :=
    ⟨_, rfl⟩
  have hn : n + 719468 = 146097 * era + (36524 * century + 1461 * cycle + 365 * year + day) := by
    omega
  have hfirst : 1969 ≤ march ∧ (march = 1969 → 306 ≤ day) := by omega
  have hleapDay : day = 365 → isLeap (march + 1) = true := by
    rw [isLeap_iff]
    omega
  have hyears : march / 4 = 100 * era + 25 * century + cycle ∧ march / 100 = 4 * era + century ∧
      march / 400 = era := by
    omega
  have hbefore := daysBeforeYear_succ_eq hfirst.1
  obtain ⟨civil, month, rest, hdate, hisDate, hcount⟩ :=
    Date.ofMarch_eq hfirst.1 (by omega) hleapDay hfirst.2
  refine ⟨civil, month, rest + 1, ?_, hisDate, by omega⟩
  rw [hofDays, ← hdate, hmarch]
  push_cast
  rfl

end SchemaMigration.Calendar
