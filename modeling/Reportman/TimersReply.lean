import Mathlib
import Reportman.EntryPoints
import Reportman.NextTime

/-!
# The reply to `get_timers`

The daemon asks each timer how long it has still to run, gives that to `localtime` as if it were a time, and
prints what `localtime` has left in its only structure. So the reply names one moment twice, and one that
lies as far from 1970 as the next transfer lies from now.
-/
namespace Reportman.TimersReply
open Gregorian Resumable NextTime EntryPoints
open FileSystem (Bytes bytes)
open MonitorLog (Tm)

section Source

/-- The seconds east of Greenwich, at every moment. -/
abbrev Zone := ℤ → ℤ

/-- A moment in nanoseconds, and what `tv_sec` has of it. -/
def tvSec (moment : ℤ) : ℤ := moment / 10 ^ 9

/-- `timer_gettime`: how long it takes the timer to expire. -/
def gettime (now expires : ℤ) : ℤ := expires - now

/-- `localtime` puts the fields into the one structure that it has. -/
def localtimeStatic (zone : Zone) (seconds : ℤ) : StateM Tm Unit := set (localtime (zone seconds) seconds)

def twoDigits (n : ℤ) : Bytes := [(48 + n / 10).toNat.toUInt8, (48 + n % 10).toNat.toUInt8]

/-- "%Y-%m-%d %H:%M:%S". -/
def dateText (tm : Tm) : Bytes :=
  bytes (toString (tm.year + 1900)) ++ (bytes "-" ++ (twoDigits (tm.mon + 1) ++ (bytes "-" ++ (twoDigits tm.mday ++
    (bytes " " ++ (twoDigits tm.hour ++ (bytes ":" ++ (twoDigits tm.min ++ (bytes ":" ++ twoDigits tm.sec)))))))))

/-- Without room for the text and its end nothing is said about the array. -/
def strftime (size : ℕ) (tm : Tm) : Option Bytes :=
  if (dateText tm).length < size then some (dateText tm) else none

/-- The two strings, that of the backup first. -/
def timeStrings (zone : Zone) (now backup transfer : ℤ) : StateM Tm (Option Bytes × Option Bytes) := do
  let backupTime := gettime now backup
  let transferTime := gettime now transfer
  localtimeStatic zone (tvSec backupTime)
  localtimeStatic zone (tvSec transferTime)
  -- both pointers point to the same structure
  let tmInfoBackup ← get
  let tmInfoTransfer ← get
  return (strftime 26 tmInfoBackup, strftime 26 tmInfoTransfer)

/-- The text of the reply. -/
def announcement (transferTime backupTime : Bytes) : Bytes :=
  bytes "Next transfer from " ++ (announced .transfer).1.path ++ bytes " to " ++ (announced .transfer).2.path ++
    bytes " scheduled at " ++ transferTime ++ bytes "\nNext backup of " ++ (announced .backup).1.path ++
    bytes " to " ++ (announced .backup).2.path ++ bytes " scheduled at " ++ backupTime

/-- What a client gets for `get_timers`, as far as it can be said. -/
def getTimersReply (zone : Zone) (now backup transfer : ℤ) (static : Tm) : Option Bytes :=
  match (timeStrings zone now backup transfer).run static with
  | ((some backupTime, some transferTime), _) => some (reply (announcement transferTime backupTime))
  | _ => none

theorem handleCommand_getTimers (sha256 : Bytes → Bytes) (stack fuel : ℕ) {command : Bytes}
    (h : (parseCommand command).1 = .getTimers) (backupTime transferTime : Bytes) :
    handleCommand sha256 stack fuel backupTime transferTime command =
      return ⟨.getTimers, reply (announcement transferTime backupTime), false⟩ := by
  unfold handleCommand
  rw [h]
  rfl

end Source

section Texts

/-- A number is written in characters of one byte. -/
theorem toString_ascii (z : ℤ) : ∀ c ∈ (toString z).toList, c.toNat < 256 := by
  have hnat : ∀ n : ℕ, ∀ c ∈ (toString n).toList, c.toNat < 256 := by
    intro n c hc
    have hdigit : c.isDigit = true :=
      Nat.isDigit_of_mem_toDigits (by decide) (by decide) (Nat.toList_repr ▸ hc)
    have hrange : 48 ≤ c.toNat ∧ c.toNat ≤ 57 := Char.isDigit_iff_toNat.1 hdigit
    omega
  cases z with
  | ofNat n => exact hnat n
  | negSucc n =>
    have hsign : toString (Int.negSucc n) = "-" ++ toString (n + 1) := rfl
    simp only [hsign, String.toList_append, List.mem_append]
    intro c hc
    rcases hc with hc | hc
    · obtain rfl : c = '-' := by simpa using hc
      decide
    · exact hnat _ c hc

theorem toList_of_bytes {s : String} (h : ∀ c ∈ s.toList, c.toNat < 256) :
    (bytes s).map (fun b => Char.ofNat b.toNat) = s.toList := by
  have hback : ∀ c ∈ s.toList, Char.ofNat c.toNat.toUInt8.toNat = c := by
    intro c hc
    have hbyte : c.toNat.toUInt8.toNat = c.toNat := by
      have := h c hc
      simp
      omega
    rw [hbyte, Char.ofNat_toNat]
  rw [bytes, List.map_map]
  exact (List.map_congr_left hback).trans (List.map_id _)

theorem bytes_toString_inj {z z' : ℤ} (h : bytes (toString z) = bytes (toString z')) : z = z' := by
  have hlist : (toString z).toList = (toString z').toList := by
    rw [← toList_of_bytes (toString_ascii z), ← toList_of_bytes (toString_ascii z'), h]
  exact Int.repr_injective (String.toList_inj.1 hlist)

theorem twoDigits_inj {n n' : ℤ} (hn : 0 ≤ n ∧ n < 100) (hn' : 0 ≤ n' ∧ n' < 100) (h : twoDigits n = twoDigits n') :
    n = n' := by
  simp only [twoDigits, List.cons.injEq, and_true] at h
  obtain ⟨htens, hones⟩ := h
  have htens := congrArg UInt8.toNat htens
  have hones := congrArg UInt8.toNat hones
  simp only [Nat.toUInt8, UInt8.toNat_ofNat'] at htens hones
  omega

theorem digit_plain {d : ℤ} (hd : 0 ≤ d ∧ d < 10) : (10 : UInt8) ≠ (48 + d).toNat.toUInt8 := by
  intro h
  have hvalue := congrArg UInt8.toNat h
  simp only [Nat.toUInt8, UInt8.toNat_ofNat'] at hvalue
  simp at hvalue
  omega

theorem twoDigits_plain {n : ℤ} (hn : 0 ≤ n ∧ n < 100) : 10 ∉ twoDigits n := by
  simp only [twoDigits, List.mem_cons, List.not_mem_nil, or_false, not_or]
  exact ⟨digit_plain (by omega), digit_plain (by omega)⟩

/-- The fields can be printed with two digits. -/
structure InRange (tm : Tm) : Prop where
  mon : 0 ≤ tm.mon ∧ tm.mon < 12
  mday : 1 ≤ tm.mday ∧ tm.mday ≤ 31
  hour : 0 ≤ tm.hour ∧ tm.hour < 24
  min : 0 ≤ tm.min ∧ tm.min < 60
  sec : 0 ≤ tm.sec ∧ tm.sec < 60

theorem inRange_localtime (offset time : ℤ) : InRange (localtime offset time) := by
  obtain ⟨hpos, hle, hday, hday'⟩ := valid_ofDayNumber (epochDay + (time + offset) / 86400)
  have hlength : ∀ year month, daysInMonth year month ≤ 31 := by
    intro year month
    simp only [daysInMonth]
    split_ifs <;> omega
  have := hlength (ofDayNumber (epochDay + (time + offset) / 86400)).year
    (ofDayNumber (epochDay + (time + offset) / 86400)).month
  constructor <;> simp only [localtime] <;> omega

theorem dateText_inj {tm tm' : Tm} (hr : InRange tm) (hr' : InRange tm') (h : dateText tm = dateText tm') :
    tm = tm' := by
  have hdash : bytes "-" = [45] := by decide
  have hblank : bytes " " = [32] := by decide
  have hcolon : bytes ":" = [58] := by decide
  obtain ⟨hyear, hrest⟩ := List.append_inj' h (by simp [twoDigits, hdash, hblank, hcolon])
  obtain ⟨-, hrest⟩ := List.append_inj hrest rfl
  obtain ⟨hmon, hrest⟩ := List.append_inj hrest rfl
  obtain ⟨-, hrest⟩ := List.append_inj hrest rfl
  obtain ⟨hmday, hrest⟩ := List.append_inj hrest rfl
  obtain ⟨-, hrest⟩ := List.append_inj hrest rfl
  obtain ⟨hhour, hrest⟩ := List.append_inj hrest rfl
  obtain ⟨-, hrest⟩ := List.append_inj hrest rfl
  obtain ⟨hmin, hrest⟩ := List.append_inj hrest rfl
  obtain ⟨-, hsec⟩ := List.append_inj hrest rfl
  obtain ⟨hmon₁, hmday₁, hhour₁, hmin₁, hsec₁⟩ := hr
  obtain ⟨hmon₂, hmday₂, hhour₂, hmin₂, hsec₂⟩ := hr'
  have := bytes_toString_inj hyear
  have := twoDigits_inj (by omega) (by omega) hmon
  have := twoDigits_inj (by omega) (by omega) hmday
  have := twoDigits_inj (by omega) (by omega) hhour
  have := twoDigits_inj (by omega) (by omega) hmin
  have := twoDigits_inj (by omega) (by omega) hsec
  obtain ⟨year, mon, mday, hour, min, sec⟩ := tm
  obtain ⟨year', mon', mday', hour', min', sec'⟩ := tm'
  simp only [Tm.mk.injEq] at *
  omega

/-- Two local times look alike when the local clocks read the same. -/
theorem dateText_localtime_iff {offset offset' time time' : ℤ} :
    dateText (localtime offset time) = dateText (localtime offset' time') ↔ time + offset = time' + offset' := by
  constructor
  · intro h
    have htm := dateText_inj (inRange_localtime _ _) (inRange_localtime _ _) h
    have hback := mktime_localtime offset time
    rw [htm] at hback
    have hback' := mktime_localtime offset' time'
    simp only [mktime] at hback hback'
    omega
  · intro h
    simp only [localtime, h]

theorem dateText_plain (offset time : ℤ) : 10 ∉ dateText (localtime offset time) := by
  obtain ⟨hmon, hmday, hhour, hmin, hsec⟩ := inRange_localtime offset time
  have hmarks : 10 ∉ bytes "-" ∧ 10 ∉ bytes " " ∧ 10 ∉ bytes ":" := by decide
  obtain ⟨hdash, hblank, hcolon⟩ := hmarks
  have hyear : 10 ∉ bytes (toString ((localtime offset time).year + 1900)) := fun h => by
    simpa using (Arguments.bytes_toString _).2 10 h
  simp only [dateText, List.mem_append, not_or]
  exact ⟨hyear, hdash, twoDigits_plain (by omega), hdash, twoDigits_plain (by omega), hblank,
    twoDigits_plain (by omega), hcolon, twoDigits_plain (by omega), hcolon, twoDigits_plain (by omega)⟩

/-- The two texts can be told from the announcement, since only it breaks the line. -/
theorem announcement_inj {t b t' b' : Bytes} (ht : 10 ∉ t) (hb : 10 ∉ b)
    (h : announcement t' b' = announcement t b) : t' = t ∧ b' = b := by
  have hcut : ∀ t b : Bytes, announcement t b =
      ((bytes "Next transfer from " ++ (announced .transfer).1.path ++ bytes " to " ++
        (announced .transfer).2.path ++ bytes " scheduled at ") ++ t) ++ 10 ::
        ((bytes "Next backup of " ++ (announced .backup).1.path ++ bytes " to " ++
          (announced .backup).2.path ++ bytes " scheduled at ") ++ b) := by
    intro t b
    have hbreak : bytes "\nNext backup of " = 10 :: bytes "Next backup of " := by decide
    simp only [announcement, hbreak, List.append_assoc, List.cons_append]
  have hfirst : 10 ∉ bytes "Next transfer from " ++ (announced .transfer).1.path ++ bytes " to " ++
      (announced .transfer).2.path ++ bytes " scheduled at " := by decide +kernel
  have hsecond : 10 ∉ bytes "Next backup of " ++ (announced .backup).1.path ++ bytes " to " ++
      (announced .backup).2.path ++ bytes " scheduled at " := by decide +kernel
  rw [hcut, hcut] at h
  obtain ⟨hleft, -, hright⟩ := (List.append_cons_inj_of_notMem (by
    rw [List.mem_append, not_or]
    exact ⟨hfirst, ht⟩) (by
    rw [List.mem_append, not_or]
    exact ⟨hsecond, hb⟩)).1 h.symm
  exact ⟨(List.append_cancel_left hleft).symm, (List.append_cancel_left hright).symm⟩

/-- Two dates of twenty-five characters leave room enough. -/
theorem reply_announcement {t b : Bytes} (ht : t.length < 26) (hb : b.length < 26) :
    reply (announcement t b) = announcement t b := by
  have hlength : (announcement [] []).length ≤ 900 := by decide +kernel
  refine List.take_of_length_le ?_
  simp only [announcement, List.length_append, List.length_nil] at hlength ⊢
  omega

end Texts

section Reports

variable (zone : Zone) (now backup transfer : ℤ)

/-- What the local clock reads, in seconds as if it were in Greenwich. -/
def reads (seconds : ℤ) : ℤ := seconds + zone seconds

/-- The local date and time of a moment. -/
def dateOf (moment : ℤ) : Bytes := dateText (localtime (zone (tvSec moment)) (tvSec moment))

/-- The reply gives the local date and time of the next transfer and of the next backup. -/
def Reports : Prop :=
  ∀ static, getTimersReply zone now backup transfer static =
    some (announcement (dateOf zone transfer) (dateOf zone backup))

/-- How long the transfer has still to wait, in whole seconds. -/
def remaining : ℤ := tvSec (gettime now transfer)

theorem getTimersReply_eq (static : Tm) : getTimersReply zone now backup transfer static =
    (strftime 26 (localtime (zone (remaining now transfer)) (remaining now transfer))).map fun date =>
      announcement date date := by
  have hstrings : (timeStrings zone now backup transfer).run static =
      ((strftime 26 (localtime (zone (remaining now transfer)) (remaining now transfer)),
        strftime 26 (localtime (zone (remaining now transfer)) (remaining now transfer))),
        localtime (zone (remaining now transfer)) (remaining now transfer)) := rfl
  unfold getTimersReply
  rw [hstrings, strftime]
  split_ifs with hfits
  · exact congrArg some (reply_announcement hfits hfits)
  · rfl

/-- The reply is right if the wait, taken for a time of its own, reads like both of the times. -/
theorem getTimers_reports_iff (zone : Zone) (now backup transfer : ℤ) :
    Reports zone now backup transfer ↔
      (dateText (localtime (zone (remaining now transfer)) (remaining now transfer))).length < 26 ∧
        reads zone (remaining now transfer) = reads zone (tvSec transfer) ∧
        reads zone (remaining now transfer) = reads zone (tvSec backup) := by
  have hstatic : Nonempty Tm := ⟨⟨0, 0, 0, 0, 0, 0⟩⟩
  have hplain : ∀ moment, 10 ∉ dateOf zone moment := fun moment => dateText_plain _ _
  simp only [Reports, getTimersReply_eq, forall_const, Option.map_eq_some_iff, reads, ← dateText_localtime_iff]
  constructor
  · rintro ⟨date, hdate, heq⟩
    obtain ⟨htransfer, hbackup⟩ := announcement_inj (hplain transfer) (hplain backup) heq
    unfold strftime at hdate
    split_ifs at hdate with hfits
    obtain rfl := Option.some.inj hdate
    exact ⟨hfits, htransfer, hbackup⟩
  · rintro ⟨hfits, htransfer, hbackup⟩
    refine ⟨_, if_pos hfits, ?_⟩
    exact congrArg₂ announcement htransfer hbackup

/-- At midnight before a backup at half past twelve and a transfer at half past eleven in the evening. -/
theorem not_reports_midnight : (∀ static, getTimersReply (fun _ => 0) (1709164800 * 10 ^ 9)
      ((1709164800 + 1800) * 10 ^ 9) ((1709164800 + 84600) * 10 ^ 9) static =
        some (announcement (bytes "1970-01-01 23:30:00") (bytes "1970-01-01 23:30:00"))) ∧
    ¬ Reports (fun _ => 0) (1709164800 * 10 ^ 9) ((1709164800 + 1800) * 10 ^ 9)
      ((1709164800 + 84600) * 10 ^ 9) := by
  refine ⟨fun static => ?_, fun h => ?_⟩
  · rw [getTimersReply_eq]
    decide +kernel
  · have hdate := h ⟨0, 0, 0, 0, 0, 0⟩
    revert hdate
    decide +kernel

end Reports

end Reportman.TimersReply
