import Mathlib

/-!
# The Gregorian calendar

Days are numbered through, the first day of the year 1 being day 1. A date has one number, every number has one
date, and the next number is that of the next date: across the ends of months and years, in leap years and in
centuries.
-/
namespace Reportman.Gregorian

section Calendar

def IsLeap (year : ℤ) : Prop := year % 4 = 0 ∧ (year % 100 ≠ 0 ∨ year % 400 = 0)

instance (year : ℤ) : Decidable (IsLeap year) := inferInstanceAs (Decidable (_ ∧ _))

def daysInYear (year : ℤ) : ℤ := if IsLeap year then 366 else 365

def daysInMonth (year month : ℤ) : ℤ :=
  if month = 2 then (if IsLeap year then 29 else 28)
  else if month = 4 ∨ month = 6 ∨ month = 9 ∨ month = 11 then 30 else 31

@[ext]
structure Date where
  year : ℤ
  month : ℤ
  day : ℤ
  deriving DecidableEq, Repr

structure Date.Valid (d : Date) : Prop where
  month_pos : 1 ≤ d.month
  month_le : d.month ≤ 12
  day_pos : 1 ≤ d.day
  day_le : d.day ≤ daysInMonth d.year d.month

def Date.next (d : Date) : Date :=
  if d.day < daysInMonth d.year d.month then ⟨d.year, d.month, d.day + 1⟩
  else if d.month < 12 then ⟨d.year, d.month + 1, 1⟩
  else ⟨d.year + 1, 1, 1⟩

end Calendar

section Numbers

def daysBeforeYear (year : ℤ) : ℤ := 365 * (year - 1) + (year - 1) / 4 - (year - 1) / 100 + (year - 1) / 400

/-- As if February had thirty days, and then what is too much. -/
def daysBeforeMonth (year month : ℤ) : ℤ :=
  (367 * month - 362) / 12 - if month ≤ 2 then 0 else if IsLeap year then 1 else 2

/-- The number of a day, also of one that is counted on beyond the end of its month. -/
def dayNumber (d : Date) : ℤ := daysBeforeYear d.year + daysBeforeMonth d.year d.month + d.day

/-- By cycles of four hundred, one hundred, four years and one; the last year of a cycle may have a day more. -/
def yearOf (n : ℤ) : ℤ :=
  let cycle400 := (n - 1) / 146097
  let rest400 := (n - 1) % 146097
  let cycle100 := min 3 (rest400 / 36524)
  let rest100 := rest400 - 36524 * cycle100
  let cycle4 := rest100 / 1461
  let rest4 := rest100 % 1461
  400 * cycle400 + 100 * cycle100 + 4 * cycle4 + min 3 (rest4 / 365) + 1

/-- The month of a day that so many days of the year lie before. -/
def monthOf (year before : ℤ) : ℤ :=
  (12 * (before + if before < daysBeforeMonth year 3 then 0 else if IsLeap year then 1 else 2) + 373) / 367

def ofDayNumber (n : ℤ) : Date :=
  let year := yearOf n
  let month := monthOf year (n - daysBeforeYear year - 1)
  ⟨year, month, n - daysBeforeYear year - daysBeforeMonth year month⟩

theorem daysBeforeYear_succ (year : ℤ) : daysBeforeYear (year + 1) = daysBeforeYear year + daysInYear year := by
  simp only [daysBeforeYear, daysInYear, IsLeap]
  split_ifs <;> omega

theorem daysBeforeYear_mono {year year' : ℤ} (h : year ≤ year') : daysBeforeYear year ≤ daysBeforeYear year' := by
  simp only [daysBeforeYear]
  omega

/-- The cycles that a day lies in: the last day of a leap year is the only one that is left over. -/
theorem exists_cycles (n : ℤ) : ∃ a b c d e : ℤ, yearOf n = 400 * a + 100 * b + 4 * c + d + 1 ∧
    n = 146097 * a + 36524 * b + 1461 * c + 365 * d + e + 1 ∧ 0 ≤ b ∧ b ≤ 3 ∧ 0 ≤ c ∧ c ≤ 24 ∧ 0 ≤ d ∧ d ≤ 3 ∧
    0 ≤ e ∧ e ≤ 365 ∧ (e = 365 → d = 3 ∧ (c < 24 ∨ b = 3)) := by
  obtain ⟨r, hr⟩ : ∃ r, r = (n - 1) % 146097 := ⟨_, rfl⟩
  obtain ⟨b, hb⟩ : ∃ b, b = min 3 (r / 36524) := ⟨_, rfl⟩
  obtain ⟨q, hq⟩ : ∃ q, q = (r - 36524 * b) % 1461 := ⟨_, rfl⟩
  refine ⟨(n - 1) / 146097, b, (r - 36524 * b) / 1461, min 3 (q / 365), q - 365 * min 3 (q / 365), ?_, ?_, ?_⟩
  · simp only [yearOf, ← hr, ← hb, ← hq]
  · omega
  · omega

theorem yearOf_spec (n : ℤ) : daysBeforeYear (yearOf n) < n ∧ n ≤ daysBeforeYear (yearOf n + 1) := by
  obtain ⟨a, b, c, d, e, hyear, hn, hbounds⟩ := exists_cycles n
  have hfour : (400 * a + 100 * b + 4 * c + d) / 4 = 100 * a + 25 * b + c := by omega
  have hhundred : (400 * a + 100 * b + 4 * c + d) / 100 = 4 * a + b := by omega
  have hfourHundred : (400 * a + 100 * b + 4 * c + d) / 400 = a := by omega
  simp only [daysBeforeYear, hyear]
  omega

theorem year_unique {n year year' : ℤ} (h : daysBeforeYear year < n ∧ n ≤ daysBeforeYear (year + 1))
    (h' : daysBeforeYear year' < n ∧ n ≤ daysBeforeYear (year' + 1)) : year = year' := by
  rcases lt_trichotomy year year' with hlt | heq | hgt
  · have := daysBeforeYear_mono (show year + 1 ≤ year' by omega)
    omega
  · exact heq
  · have := daysBeforeYear_mono (show year' + 1 ≤ year by omega)
    omega

theorem daysBeforeMonth_succ (year : ℤ) {month : ℤ} (h : 1 ≤ month) (h' : month ≤ 11) :
    daysBeforeMonth year (month + 1) = daysBeforeMonth year month + daysInMonth year month := by
  simp only [daysBeforeMonth, daysInMonth]
  interval_cases month <;> split_ifs <;> omega

theorem daysBeforeMonth_december (year : ℤ) : daysBeforeMonth year 12 + 31 = daysInYear year := by
  simp only [daysBeforeMonth, daysInYear]
  split_ifs <;> omega

theorem monthOf_spec {year before : ℤ} (h : 0 ≤ before) (h' : before < daysInYear year) :
    1 ≤ monthOf year before ∧ monthOf year before ≤ 12 ∧ daysBeforeMonth year (monthOf year before) ≤ before ∧
      before < daysBeforeMonth year (monthOf year before) + daysInMonth year (monthOf year before) := by
  simp only [daysInYear] at h'
  simp only [monthOf, daysBeforeMonth, daysInMonth]
  split_ifs at * <;> omega

theorem daysBeforeMonth_mono (year : ℤ) {month month' : ℤ} (h : month ≤ month') (hlow : 1 ≤ month)
    (hhigh : month' ≤ 12) :
    daysBeforeMonth year month ≤ daysBeforeMonth year month' := by
  simp only [daysBeforeMonth]
  split_ifs <;> omega

theorem month_unique {year before month month' : ℤ} (hm : 1 ≤ month ∧ month ≤ 12) (hm' : 1 ≤ month' ∧ month' ≤ 12)
    (h : daysBeforeMonth year month ≤ before ∧ before < daysBeforeMonth year month + daysInMonth year month)
    (h' : daysBeforeMonth year month' ≤ before ∧ before < daysBeforeMonth year month' + daysInMonth year month') :
    month = month' := by
  rcases lt_trichotomy month month' with hlt | heq | hgt
  · have hnext := daysBeforeMonth_succ year hm.1 (by omega)
    have := daysBeforeMonth_mono year (show month + 1 ≤ month' by omega) (by omega) hm'.2
    omega
  · exact heq
  · have hnext := daysBeforeMonth_succ year hm'.1 (by omega)
    have := daysBeforeMonth_mono year (show month' + 1 ≤ month by omega) (by omega) hm.2
    omega

end Numbers

section Dates

variable {d : Date}

@[simp] theorem dayNumber_ofDayNumber (n : ℤ) : dayNumber (ofDayNumber n) = n := by
  simp only [dayNumber, ofDayNumber]
  omega

theorem valid_ofDayNumber (n : ℤ) : (ofDayNumber n).Valid := by
  have hyear := yearOf_spec n
  rw [daysBeforeYear_succ] at hyear
  have hmonth := @monthOf_spec (yearOf n) (n - daysBeforeYear (yearOf n) - 1) (by omega) (by omega)
  constructor <;> simp only [ofDayNumber] <;> omega

/-- A valid date lies in its year, and in its month. -/
theorem Date.Valid.bounds (h : d.Valid) :
    (daysBeforeYear d.year < dayNumber d ∧ dayNumber d ≤ daysBeforeYear (d.year + 1)) ∧
      daysBeforeMonth d.year d.month ≤ dayNumber d - daysBeforeYear d.year - 1 ∧
      dayNumber d - daysBeforeYear d.year - 1 < daysBeforeMonth d.year d.month + daysInMonth d.year d.month := by
  obtain ⟨hpos, hle, hday, hday'⟩ := h
  have hfirst : daysBeforeMonth d.year 1 = 0 := by simp [daysBeforeMonth]
  have hdecember := daysBeforeMonth_december d.year
  have hlow := daysBeforeMonth_mono d.year hpos le_rfl hle
  have hend : daysBeforeMonth d.year d.month + daysInMonth d.year d.month ≤ daysInYear d.year := by
    rcases hle.lt_or_eq with hlt | heq
    · have hnext := daysBeforeMonth_succ d.year hpos (by omega)
      have := daysBeforeMonth_mono d.year (show d.month + 1 ≤ 12 by omega) (by omega) le_rfl
      omega
    · rw [heq]
      simp only [daysInMonth] at *
      omega
  rw [daysBeforeYear_succ]
  simp only [dayNumber]
  omega

theorem Date.Valid.ofDayNumber_dayNumber (h : d.Valid) : ofDayNumber (dayNumber d) = d := by
  obtain ⟨hyear, hmonth⟩ := h.bounds
  have hsame : yearOf (dayNumber d) = d.year := year_unique (yearOf_spec _) hyear
  have hvalid := valid_ofDayNumber (dayNumber d)
  obtain ⟨-, hmonth'⟩ := hvalid.bounds
  rw [dayNumber_ofDayNumber] at hmonth'
  have hyear' : (ofDayNumber (dayNumber d)).year = d.year := hsame
  rw [hyear'] at hmonth'
  have hsame' : (ofDayNumber (dayNumber d)).month = d.month :=
    month_unique ⟨hvalid.month_pos, hvalid.month_le⟩ ⟨h.month_pos, h.month_le⟩ hmonth' hmonth
  have hday : (ofDayNumber (dayNumber d)).day = d.day := by
    have := dayNumber_ofDayNumber (dayNumber d)
    simp only [dayNumber] at this hyear' hsame' ⊢
    rw [hyear', hsame'] at this
    omega
  exact Date.ext hyear' hsame' hday

theorem Date.Valid.next (h : d.Valid) : d.next.Valid ∧ dayNumber d.next = dayNumber d + 1 := by
  obtain ⟨hpos, hle, hday, hday'⟩ := h
  have hlength : ∀ year month, 1 ≤ daysInMonth year month := by
    intro year month
    simp only [daysInMonth]
    split_ifs <;> omega
  unfold Date.next
  split_ifs with hin hyear
  · exact ⟨⟨hpos, hle, by simp only; omega, by simp only; omega⟩, by simp only [dayNumber]; omega⟩
  · have hnext := daysBeforeMonth_succ d.year hpos (by omega)
    refine ⟨⟨by simp only; omega, by simp only; omega, le_rfl, hlength _ _⟩, ?_⟩
    simp only [dayNumber]
    omega
  · have hdecember := daysBeforeMonth_december d.year
    have hnext := daysBeforeYear_succ d.year
    have htwelve : d.month = 12 := by omega
    refine ⟨⟨le_rfl, by simp only; omega, le_rfl, hlength _ _⟩, ?_⟩
    simp only [dayNumber, htwelve, daysInMonth] at *
    simp [daysBeforeMonth] at *
    omega

/-- The next number is that of the next date. -/
theorem ofDayNumber_succ (n : ℤ) : ofDayNumber (n + 1) = (ofDayNumber n).next := by
  obtain ⟨hvalid, hnumber⟩ := (valid_ofDayNumber n).next
  rw [dayNumber_ofDayNumber] at hnumber
  rw [← hnumber, hvalid.ofDayNumber_dayNumber]

/-- The day from which Unix counts its seconds. -/
def epochDay : ℤ := 719163

example : ofDayNumber epochDay = ⟨1970, 1, 1⟩ := by decide +kernel

end Dates

end Reportman.Gregorian
