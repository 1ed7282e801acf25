import Mathlib
import Reportman.Numerals

/-!
# The times of day on the command line

`get_hh_mm_str` leaves the reading to `sscanf` and looks at the two numbers only after they have been cut to
sixteen bits. So it takes many strings for a time that are none.
-/
namespace Reportman.TimeStrings
open Arguments Numerals

section Source

def dSuccess : ℤ := 0

/-- `get_hh_mm_str`: what it returns, and what is in `*next_time` then. -/
def getHhMm (clock : Clock) (input : String) (nextTime : ℤ) : ℤ × ℤ :=
  match getHhMmStr clock input with
  | .error code => (code, nextTime)
  | .ok time => (dSuccess, time)

end Source

section Scanning

/-- What `%hu` makes of a number: `strtoul` stops at `ULONG_MAX` and goes round below zero, and sixteen bits
are kept. -/
def ushort (n : Numeral) : ℕ :=
  (if 2 ^ 64 ≤ n.magnitude then 2 ^ 64 - 1
    else if n.sign = .minus then (2 ^ 64 - n.magnitude) % 2 ^ 64 else n.magnitude) % 2 ^ 16

theorem scanUshort_text (n : Numeral) {rest : List Char} (h : Stops rest) :
    scanUshort (n.text ++ rest) = some (ushort n, rest) := by
  have hsigned : signed ((n.text ++ rest).dropWhile isSpace) = (decide (n.sign = .minus), n.digits ++ rest) := by
    rw [dropWhile_text, signed_text]
  simp only [scanUshort, hsigned, takeWhile_digits n h, dropWhile_digits_append n h, if_neg n.nonempty,
    decide_eq_true_eq]
  rfl

theorem scanUshort_eq_some_iff {text rest : List Char} {value : ℕ} : scanUshort text = some (value, rest) ↔
    ∃ n : Numeral, text = n.text ++ rest ∧ Stops rest ∧ ushort n = value := by
  constructor
  · intro h
    have hne : (signed (text.dropWhile isSpace)).2.takeWhile Char.isDigit ≠ [] := by
      intro hnil
      simp [scanUshort, hnil] at h
    obtain ⟨n, htext, hstops⟩ := exists_numeral hne
    rw [htext, scanUshort_text n hstops] at h
    simp only [Option.some.injEq, Prod.mk.injEq] at h
    exact ⟨n, h.2 ▸ htext, h.2 ▸ hstops, h.1⟩
  · rintro ⟨n, rfl, hstops, rfl⟩
    exact scanUshort_text n hstops

/-- Two numbers with a colon between them, whatever stands behind. -/
theorem scanHhMm_eq_some_iff {text : List Char} {h m : ℕ} : scanHhMm text = some (h, m) ↔
    ∃ (hour minute : Numeral) (rest : List Char), text = hour.text ++ ':' :: (minute.text ++ rest) ∧ Stops rest ∧
      ushort hour = h ∧ ushort minute = m := by
  have hcolon : ∀ rest : List Char, Stops (':' :: rest) := by simp [Stops]
  constructor
  · intro hscan
    unfold scanHhMm at hscan
    split at hscan
    · rename_i h' rest hhour
      obtain ⟨⟨m', rest'⟩, hminute, heq⟩ := Option.map_eq_some_iff.1 hscan
      obtain ⟨rfl, rfl⟩ := Prod.mk.inj heq
      obtain ⟨hour, htext, -, hvalue⟩ := scanUshort_eq_some_iff.1 hhour
      obtain ⟨minute, hrest, hstops, hvalue'⟩ := scanUshort_eq_some_iff.1 hminute
      exact ⟨hour, minute, rest', by rw [htext, hrest], hstops, hvalue, hvalue'⟩
    · cases hscan
  · rintro ⟨hour, minute, rest, rfl, hstops, rfl, rfl⟩
    simp [scanHhMm, scanUshort_text hour (hcolon _), scanUshort_text minute hstops]

theorem hhMm_eq_ok_iff {input : String} {h m : ℕ} :
    hhMm input = .ok (h, m) ↔ scanHhMm input.toList = some (h, m) ∧ h ≤ 23 ∧ m ≤ 59 := by
  unfold hhMm
  cases hscan : scanHhMm input.toList with
  | none => simp
  | some time =>
    obtain ⟨h', m'⟩ := time
    dsimp only
    split_ifs with hrange
    · simp only [Option.some.injEq, Prod.mk.injEq, false_iff]
      omega
    · simp only [Except.ok.injEq, Prod.mk.injEq, Option.some.injEq]
      omega

end Scanning

section Times

/-- One digit or two. -/
structure ShortDigits (digits : List Char) (value : ℕ) : Prop where
  isDigit : ∀ c ∈ digits, c.isDigit = true
  length : digits.length = 1 ∨ digits.length = 2
  value : Nat.ofDigitChars 10 digits 0 = value

/-- The whole string is a time of day. -/
def IsTime (input : String) (h m : ℕ) : Prop :=
  ∃ hour minute, input.toList = hour ++ ':' :: minute ∧ ShortDigits hour h ∧ ShortDigits minute m ∧
    h ≤ 23 ∧ m ≤ 59

/-- Two numbers are found that are those of a time of day when sixteen bits are left of them. -/
def Scanned (input : String) : Prop :=
  ∃ (hour minute : Numeral) (rest : List Char), input.toList = hour.text ++ ':' :: (minute.text ++ rest) ∧
    Stops rest ∧ ushort hour ≤ 23 ∧ ushort minute ≤ 59

/-- A time is read as what it is, and of all other strings nothing is kept but the code of the failure. -/
def Conforms (input : String) : Prop :=
  ∀ (clock : Clock) (nextTime : ℤ),
    ((getHhMm clock input nextTime).1 = dSuccess ↔ ∃ h m, IsTime input h m) ∧
    (∀ h m, IsTime input h m → getHhMm clock input nextTime = (dSuccess, clock.next (h, m))) ∧
    ((¬ ∃ h m, IsTime input h m) →
      (getHhMm clock input nextTime).1 < 0 ∧ (getHhMm clock input nextTime).2 = nextTime)

def ShortDigits.numeral {digits : List Char} {value : ℕ} (h : ShortDigits digits value) : Numeral where
  blanks := []
  sign := .none
  digits := digits
  isBlank := by simp
  isDigit := h.isDigit
  nonempty := by
    rintro rfl
    simpa using h.length

variable {input : String}

/-- A number of a time of day keeps its value in sixteen bits. -/
theorem ShortDigits.ushort_numeral {digits : List Char} {value : ℕ} (h : ShortDigits digits value)
    (hvalue : value ≤ 59) : ushort h.numeral = value := by
  have hmagnitude : h.numeral.magnitude = value := h.value
  have hsign : h.numeral.sign = .none := rfl
  simp only [ushort, hmagnitude, hsign, reduceCtorEq, ↓reduceIte]
  rw [if_neg (by omega)]
  omega

theorem hhMm_of_isTime {h m : ℕ} (htime : IsTime input h m) : hhMm input = .ok (h, m) := by
  obtain ⟨hour, minute, htext, hhour, hminute, hrange⟩ := htime
  refine hhMm_eq_ok_iff.2 ⟨scanHhMm_eq_some_iff.2 ⟨hhour.numeral, hminute.numeral, [], ?_, stops_nil, ?_, ?_⟩, hrange⟩
  · simpa [Numeral.text, ShortDigits.numeral, Sign.text] using htext
  · exact hhour.ushort_numeral (by omega)
  · exact hminute.ushort_numeral hrange.2

theorem exists_hhMm_iff : (∃ h m, hhMm input = .ok (h, m)) ↔ Scanned input := by
  constructor
  · rintro ⟨h, m, hread⟩
    obtain ⟨hscan, hrange⟩ := hhMm_eq_ok_iff.1 hread
    obtain ⟨hour, minute, rest, htext, hstops, rfl, rfl⟩ := scanHhMm_eq_some_iff.1 hscan
    exact ⟨hour, minute, rest, htext, hstops, hrange⟩
  · rintro ⟨hour, minute, rest, htext, hstops, hrange⟩
    exact ⟨_, _, hhMm_eq_ok_iff.2 ⟨scanHhMm_eq_some_iff.2 ⟨hour, minute, rest, htext, hstops, rfl, rfl⟩, hrange⟩⟩

theorem getHhMm_ok {h m : ℕ} (hread : hhMm input = .ok (h, m)) (clock : Clock) (nextTime : ℤ) :
    getHhMm clock input nextTime = (dSuccess, clock.next (h, m)) := by
  simp only [getHhMm, getHhMmStr, hread]
  rfl

/-- Both codes of a failure are below zero. -/
theorem getHhMm_error (hnone : ¬ Scanned input) (clock : Clock) (nextTime : ℤ) :
    (getHhMm clock input nextTime).1 < 0 ∧ (getHhMm clock input nextTime).2 = nextTime := by
  have hcode : ∃ code < 0, hhMm input = .error code := by
    cases hread : hhMm input with
    | ok time => exact absurd (exists_hhMm_iff.1 ⟨time.1, time.2, hread⟩) hnone
    | error code =>
      refine ⟨code, ?_, rfl⟩
      unfold hhMm at hread
      split at hread
      · cases hread
        decide
      · split_ifs at hread
        cases hread
        decide
  obtain ⟨code, hneg, hread⟩ := hcode
  simp only [getHhMm, getHhMmStr, hread]
  exact ⟨hneg, rfl⟩

/-- The strings that are read as they should be: the times, and those in which no time is found at all. -/
theorem getHhMmStr_conforms_iff (input : String) :
    Conforms input ↔ (∃ h m, IsTime input h m) ∨ ¬ Scanned input := by
  constructor
  · intro hconforms
    by_cases hscanned : Scanned input
    · obtain ⟨h, m, hread⟩ := exists_hhMm_iff.2 hscanned
      obtain ⟨hiff, -⟩ := hconforms ⟨0, fun _ _ _ => 0⟩ 0
      exact .inl (hiff.1 (by rw [getHhMm_ok hread]))
    · exact .inr hscanned
  · rintro (⟨h, m, htime⟩ | hnone) clock nextTime
    · refine ⟨?_, fun h' m' htime' => getHhMm_ok (hhMm_of_isTime htime') clock nextTime,
        fun hnot => absurd ⟨h, m, htime⟩ hnot⟩
      simp only [getHhMm_ok (hhMm_of_isTime htime), true_iff]
      exact ⟨h, m, htime⟩
    · have hnot : ∀ h m, ¬ IsTime input h m := fun h m htime =>
        hnone (exists_hhMm_iff.1 ⟨h, m, hhMm_of_isTime htime⟩)
      have herror := getHhMm_error hnone clock nextTime
      refine ⟨?_, fun h m htime => absurd htime (hnot h m), fun _ => herror⟩
      simp only [hnot, exists_const, iff_false, dSuccess]
      omega

/-- Half past seven in the evening is taken for half past seven in the morning. -/
theorem not_conforms_evening : hhMm "7:30pm" = .ok (7, 30) ∧ ¬ Conforms "7:30pm" := by
  refine ⟨rfl, fun hconforms => ?_⟩
  obtain ⟨hiff, -⟩ := hconforms ⟨0, fun _ _ _ => 0⟩ 0
  obtain ⟨h, m, hour, minute, htext, hhour, hminute, -⟩ := hiff.1 rfl
  have hlength : 6 = hour.length + (minute.length + 1) := by
    rw [← List.length_cons, ← List.length_append, ← htext]
    rfl
  have := hhour.length
  have := hminute.length
  omega

end Times

end Reportman.TimeStrings
