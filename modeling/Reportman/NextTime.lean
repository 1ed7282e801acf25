import Mathlib
import Reportman.Gregorian
import Reportman.MonitorLog
import Reportman.TimeStrings

/-!
# The next occurrence of a time of day

`get_hh_mm_str` puts the hour and the minute into the local time of now and lets `mktime` say what that is. If
it is past, the day of the month is counted on, also beyond the end of the month, and `mktime` is asked again.
The time is the first at which a timer expires that goes on from day to day.
-/
namespace Reportman.NextTime
open Gregorian Arguments TimeStrings
open MonitorLog (Tm)

section Source

/-- In a zone that is so many seconds east. -/
def localtime (offset time : ℤ) : Tm :=
  let seconds := time + offset
  let date := ofDayNumber (epochDay + seconds / 86400)
  ⟨date.year - 1900, date.month - 1, date.day, seconds % 86400 / 3600, seconds % 3600 / 60, seconds % 60⟩

/-- The time that the fields stand for, whatever range they are in, and the fields as they should be. -/
def mktime (offset : ℤ) (tm : Tm) : ℤ × Tm :=
  let day := dayNumber ⟨tm.year + 1900 + tm.mon / 12, tm.mon % 12 + 1, tm.mday⟩
  let time := (day - epochDay) * 86400 + tm.hour * 3600 + tm.min * 60 + tm.sec - offset
  (time, localtime offset time)

/-- `now`, with another time of day. -/
def target (offset now : ℤ) (hour minute : ℕ) : Tm :=
  { localtime offset now with hour := hour, min := minute, sec := 0 }

/-- `get_hh_mm_str` with the calendar: what it returns, and what is in `*next_time` then. -/
def getHhMmStrAt (offset now : ℤ) (input : String) (nextTime : ℤ) : ℤ × ℤ :=
  match scanHhMm input.toList with
  | none => (dInvalidHhMmFormat, nextTime)
  | some (hour, minute) =>
      if hour > 23 ∨ minute > 59 then (dInvalidHhMmRange, nextTime)
      else
        let (time, nextTarget) := mktime offset (target offset now hour minute)
        let nextTarget := if time - now < 0 then { nextTarget with mday := nextTarget.mday + 1 } else nextTarget
        (dSuccess, (mktime offset nextTarget).1)

def dInterval : ℤ := 24 * 60 * 60

/-- `struct itimerspec`, in seconds. -/
structure Itimerspec where
  value : ℤ
  interval : ℤ

def createTimerAbs (time repeatInterval : ℤ) : Itimerspec := ⟨time, repeatInterval⟩

/-- When a timer expires that `timer_settime` has armed with an absolute time. -/
def expiration (its : Itimerspec) (k : ℕ) : ℤ := its.value + k * its.interval

end Source

section Conversions

variable (offset time : ℤ)

/-- The time of day in seconds. -/
theorem localtime_clock {h m : ℕ} (hm : m ≤ 59) :
    ((localtime offset time).hour = h ∧ (localtime offset time).min = m ∧ (localtime offset time).sec = 0) ↔
      (time + offset) % 86400 = 3600 * h + 60 * m := by
  simp only [localtime]
  omega

/-- Whatever the fields were, `mktime` makes them those of its time. -/
theorem mktime_fields (tm : Tm) : (mktime offset tm).2 = localtime offset (mktime offset tm).1 := rfl

/-- `mktime` counts from the day of a local time, however many days on. -/
theorem mktime_day (days hour min sec : ℤ) :
    (mktime offset { localtime offset time with
      mday := (localtime offset time).mday + days, hour := hour, min := min, sec := sec }).1 =
      ((time + offset) / 86400 + days) * 86400 + hour * 3600 + min * 60 + sec - offset := by
  have hvalid := valid_ofDayNumber (epochDay + (time + offset) / 86400)
  have hnumber := dayNumber_ofDayNumber (epochDay + (time + offset) / 86400)
  have hmonths : ∀ year month : ℤ, 1 ≤ month → month ≤ 12 →
      year - 1900 + 1900 + (month - 1) / 12 = year ∧ (month - 1) % 12 + 1 = month := by
    intro year month hpos hle
    omega
  obtain ⟨hyear, hmonth⟩ := hmonths (ofDayNumber (epochDay + (time + offset) / 86400)).year _ hvalid.month_pos
    hvalid.month_le
  simp only [mktime, localtime, hyear, hmonth]
  simp only [dayNumber] at hnumber ⊢
  omega

theorem mktime_target (hour minute : ℕ) : (mktime offset (target offset time hour minute)).1 =
    (time + offset) / 86400 * 86400 + hour * 3600 + minute * 60 - offset := by
  simpa [target] using mktime_day offset time 0 hour minute 0

/-- One day on, whatever the month has for an end. -/
theorem mktime_later (days : ℤ) :
    (mktime offset { localtime offset time with mday := (localtime offset time).mday + days }).1 =
      time + days * 86400 := by
  have h := mktime_day offset time days ((time + offset) % 86400 / 3600) ((time + offset) % 3600 / 60)
    ((time + offset) % 60)
  refine Eq.trans h ?_
  omega

theorem mktime_localtime : (mktime offset (localtime offset time)).1 = time := by
  simpa using mktime_later offset time 0

end Conversions

section Next

/-- The local clock shows the hour and the minute, and no seconds. -/
def AtTime (offset : ℤ) (h m : ℕ) (time : ℤ) : Prop :=
  (localtime offset time).hour = h ∧ (localtime offset time).min = m ∧ (localtime offset time).sec = 0

/-- The date in the zone. -/
def localDate (offset time : ℤ) : Date := ofDayNumber (epochDay + (time + offset) / 86400)

/-- The calendar as it was left open. -/
def clockAt (offset now : ℤ) : Clock where
  now := now
  mktime := fun hour minute tomorrow =>
    let nextTarget := (mktime offset (target offset now hour minute)).2
    (mktime offset { nextTarget with mday := nextTarget.mday + if tomorrow then 1 else 0 }).1

variable {offset now : ℤ} {input : String} {h m : ℕ}

/-- The time that is stored: today's, or that of the day after. -/
theorem getHhMmStrAt_eq (hread : hhMm input = .ok (h, m)) (nextTime : ℤ) :
    getHhMmStrAt offset now input nextTime = (dSuccess,
      if (now + offset) % 86400 ≤ 3600 * h + 60 * m then (now + offset) / 86400 * 86400 + 3600 * h + 60 * m - offset
      else ((now + offset) / 86400 + 1) * 86400 + 3600 * h + 60 * m - offset) := by
  obtain ⟨hscan, hh, hm⟩ := hhMm_eq_ok_iff.1 hread
  have hrange : ¬ (h > 23 ∨ m > 59) := by omega
  simp only [getHhMmStrAt, hscan, if_neg hrange, mktime_fields, mktime_target]
  refine congrArg (Prod.mk dSuccess) ?_
  split_ifs with hpast hle hle
  · omega
  · rw [mktime_later]
    omega
  · rw [mktime_localtime]
    omega
  · omega

/-- The function with the calendar is the function over the clock that the calendar makes. -/
theorem getHhMmStrAt_clockAt (input : String) (nextTime : ℤ) :
    getHhMmStrAt offset now input nextTime = getHhMm (clockAt offset now) input nextTime := by
  have hmktime : ∀ (hour minute : ℕ) (tomorrow : Bool), (clockAt offset now).mktime hour minute tomorrow =
      (now + offset) / 86400 * 86400 + hour * 3600 + minute * 60 - offset + if tomorrow then 86400 else 0 := by
    intro hour minute tomorrow
    simp only [clockAt, mktime_fields, mktime_later, mktime_target]
    cases tomorrow <;> simp
  cases hread : hhMm input with
  | ok time =>
    obtain ⟨h, m⟩ := time
    rw [getHhMmStrAt_eq hread, getHhMm_ok hread]
    refine congrArg (Prod.mk dSuccess) ?_
    have hnow : (clockAt offset now).now = now := rfl
    simp only [Clock.next, hmktime, hnow]
    split_ifs <;> simp_all <;> omega
  | error code =>
    have hcode : getHhMmStrAt offset now input nextTime = (code, nextTime) := by
      unfold hhMm at hread
      unfold getHhMmStrAt
      split at hread
      · rename_i hscan
        simp_all
      · rename_i hscan
        split_ifs at hread with hrange
        simp_all
    rw [hcode, getHhMm, getHhMmStr, hread]
    rfl

/-- The date of the time that is stored is today's or the next in the calendar. -/
theorem getHhMmStrAt_date (hread : hhMm input = .ok (h, m)) (nextTime : ℤ) :
    localDate offset (getHhMmStrAt offset now input nextTime).2 = localDate offset now ∨
      localDate offset (getHhMmStrAt offset now input nextTime).2 = (localDate offset now).next := by
  obtain ⟨-, hh, hm⟩ := hhMm_eq_ok_iff.1 hread
  simp only [localDate, getHhMmStrAt_eq hread, ← ofDayNumber_succ]
  split_ifs
  · exact .inl (congrArg ofDayNumber (by omega))
  · exact .inr (congrArg ofDayNumber (by omega))

/-- What is stored is the least time from now on at which the clock shows the hour and the minute, on this date
or the next. A timer that is armed with it expires then and a day after each expiration, at such a time again. -/
theorem getHhMmStr_next (offset now : ℤ) {input : String} {h m : ℕ} (hread : hhMm input = .ok (h, m))
    (nextTime : ℤ) :
    ∃ time, getHhMmStrAt offset now input nextTime = (dSuccess, time) ∧
      IsLeast {t | now ≤ t ∧ AtTime offset h m t} time ∧ time < now + 86400 ∧
      (localDate offset time = localDate offset now ∨ localDate offset time = (localDate offset now).next) ∧
      ∀ k, expiration (createTimerAbs time dInterval) k = time + k * dInterval ∧
        AtTime offset h m (expiration (createTimerAbs time dInterval) k) := by
  obtain ⟨-, hh, hm⟩ := hhMm_eq_ok_iff.1 hread
  have hclock : ∀ t, AtTime offset h m t ↔ (t + offset) % 86400 = 3600 * h + 60 * m :=
    fun t => localtime_clock offset t hm
  have hdate := @getHhMmStrAt_date offset now _ _ _ hread nextTime
  rw [getHhMmStrAt_eq hread] at hdate
  refine ⟨_, getHhMmStrAt_eq hread nextTime, ⟨⟨?_, ?_⟩, ?_⟩, ?_, hdate, ?_⟩
  · split_ifs <;> omega
  · rw [hclock]
    split_ifs <;> omega
  · rintro t ⟨hnow, htime⟩
    rw [hclock] at htime
    split_ifs <;> omega
  · split_ifs <;> omega
  · intro k
    refine ⟨rfl, ?_⟩
    rw [hclock]
    simp only [expiration, createTimerAbs, dInterval]
    split_ifs <;> omega

/-- One second past half past eleven in the evening of the 28th of February, in a leap year and in Greenwich. -/
theorem getHhMmStr_next_leap : getHhMmStrAt 0 1709163001 "23:30" 0 = (dSuccess, 1709249400) ∧
    ∃ time, getHhMmStrAt 0 1709163001 "23:30" 0 = (dSuccess, time) ∧
      IsLeast {t | 1709163001 ≤ t ∧ AtTime 0 23 30 t} time ∧ time < 1709163001 + 86400 ∧
      (localDate 0 time = localDate 0 1709163001 ∨ localDate 0 time = (localDate 0 1709163001).next) ∧
      ∀ k, expiration (createTimerAbs time dInterval) k = time + k * dInterval ∧
        AtTime 0 23 30 (expiration (createTimerAbs time dInterval) k) :=
  ⟨by decide +kernel, getHhMmStr_next 0 1709163001 rfl 0⟩

end Next

end Reportman.NextTime
