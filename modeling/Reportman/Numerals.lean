import Mathlib
import Reportman.Arguments

/-!
# Numbers on the command line

What C takes for an integer: blanks, a sign and digits, with anything behind them. `strtol` and `sscanf` say
where they have stopped, and nobody asks. So a number with some other text behind it is taken for the number.
-/
namespace Reportman.Numerals
open Arguments

section Grammar

inductive Sign
  | none
  | plus
  | minus
  deriving DecidableEq, Repr

def Sign.text : Sign → List Char
  | .none => []
  | .plus => ['+']
  | .minus => ['-']

/-- An integer as it can be written. -/
structure Numeral where
  blanks : List Char
  sign : Sign
  digits : List Char
  isBlank : ∀ c ∈ blanks, isSpace c = true
  isDigit : ∀ c ∈ digits, c.isDigit = true
  nonempty : digits ≠ []

def Numeral.text (n : Numeral) : List Char := n.blanks ++ (n.sign.text ++ n.digits)

def Numeral.magnitude (n : Numeral) : ℕ := Nat.ofDigitChars 10 n.digits 0

def Numeral.value (n : Numeral) : ℤ := if n.sign = .minus then -n.magnitude else n.magnitude

/-- No digit that would still belong to the number before it. -/
def Stops (rest : List Char) : Prop := ∀ c, rest.head? = some c → c.isDigit = false

/-- Where the number ends. -/
def afterNumeral (text : List Char) : List Char := (signed (text.dropWhile isSpace)).2.dropWhile Char.isDigit

@[simp] theorem stops_nil : Stops [] := by simp [Stops]

/-- The blanks go as far as the sign or the digits. -/
theorem dropWhile_text (n : Numeral) (rest : List Char) :
    (n.text ++ rest).dropWhile isSpace = n.sign.text ++ (n.digits ++ rest) := by
  obtain ⟨d, ds, hdigits⟩ := List.exists_cons_of_ne_nil n.nonempty
  have hd : d.isDigit = true := n.isDigit d (by simp [hdigits])
  have hspace := isSpace_of_isDigit hd
  rw [Numeral.text, List.append_assoc, List.dropWhile_append_of_pos n.isBlank, List.append_assoc, hdigits]
  cases n.sign with
  | none => simp [Sign.text, hspace]
  | plus => simp [Sign.text, isSpace]
  | minus => simp [Sign.text, isSpace]

theorem signed_text (n : Numeral) (rest : List Char) :
    signed (n.sign.text ++ (n.digits ++ rest)) = (decide (n.sign = .minus), n.digits ++ rest) := by
  obtain ⟨d, ds, hdigits⟩ := List.exists_cons_of_ne_nil n.nonempty
  have hd : d.isDigit = true := n.isDigit d (by simp [hdigits])
  cases n.sign with
  | none =>
    rw [hdigits]
    simp only [Sign.text, List.nil_append, List.cons_append]
    unfold signed
    split <;> simp_all
  | plus => rfl
  | minus => rfl

theorem takeWhile_digits (n : Numeral) {rest : List Char} (h : Stops rest) :
    (n.digits ++ rest).takeWhile Char.isDigit = n.digits := by
  rw [List.takeWhile_append_of_pos n.isDigit]
  cases rest with
  | nil => simp
  | cons c cs => simp [h c rfl]

theorem dropWhile_digits_append (n : Numeral) {rest : List Char} (h : Stops rest) :
    (n.digits ++ rest).dropWhile Char.isDigit = rest := by
  rw [List.dropWhile_append_of_pos n.isDigit]
  cases rest with
  | nil => rfl
  | cons c cs => simp [h c rfl]

theorem afterNumeral_text (n : Numeral) {rest : List Char} (h : Stops rest) :
    afterNumeral (n.text ++ rest) = rest := by
  rw [afterNumeral, dropWhile_text, signed_text, dropWhile_digits_append n h]

/-- A text is cut in one way only. -/
theorem rest_unique {n n' : Numeral} {rest rest' : List Char} (h : Stops rest) (h' : Stops rest')
    (heq : n.text ++ rest = n'.text ++ rest') : rest = rest' := by
  rw [← afterNumeral_text n h, heq, afterNumeral_text n' h']

theorem signed_append (text : List Char) : ∃ sign : Sign,
    text = sign.text ++ (signed text).2 ∧ (signed text).1 = decide (sign = .minus) := by
  unfold signed
  split
  · exact ⟨.minus, rfl, rfl⟩
  · exact ⟨.plus, rfl, rfl⟩
  · exact ⟨.none, rfl, rfl⟩

/-- A text in which digits are found begins with a number. -/
theorem exists_numeral {text : List Char}
    (h : (signed (text.dropWhile isSpace)).2.takeWhile Char.isDigit ≠ []) :
    ∃ n : Numeral, text = n.text ++ afterNumeral text ∧ Stops (afterNumeral text) := by
  obtain ⟨sign, hsign, -⟩ := signed_append (text.dropWhile isSpace)
  let n : Numeral :=
    { blanks := text.takeWhile isSpace
      sign := sign
      digits := (signed (text.dropWhile isSpace)).2.takeWhile Char.isDigit
      isBlank := fun c hc => List.mem_takeWhile_imp hc
      isDigit := fun c hc => List.mem_takeWhile_imp hc
      nonempty := h }
  refine ⟨n, ?_, ?_⟩
  · have hdigits : n.digits ++ afterNumeral text = (signed (text.dropWhile isSpace)).2 :=
      List.takeWhile_append_dropWhile
    have htext : text.takeWhile isSpace ++ text.dropWhile isSpace = text := List.takeWhile_append_dropWhile
    rw [Numeral.text, List.append_assoc, List.append_assoc, hdigits, ← hsign, htext]
  · intro c hc
    have := List.head?_dropWhile_not Char.isDigit (signed (text.dropWhile isSpace)).2
    rw [afterNumeral] at hc
    rw [hc] at this
    simpa using this

end Grammar

section Strtol

/-- At the ends of a `long` the value stays where it is. -/
def saturated (value : ℤ) : ℤ := max longMin (min longMax value)

theorem strtol_text (n : Numeral) {rest : List Char} (h : Stops rest) {input : String}
    (hinput : input.toList = n.text ++ rest) : strtol input = some (saturated n.value) := by
  have hsigned : signed (input.toList.dropWhile isSpace) = (decide (n.sign = .minus), n.digits ++ rest) := by
    rw [hinput, dropWhile_text, signed_text]
  simp only [strtol, hsigned, takeWhile_digits n h, if_neg n.nonempty, decide_eq_true_eq]
  rfl

/-- `strtol` converts the number that the text begins with. -/
theorem strtol_eq_some_iff {input : String} {value : ℤ} : strtol input = some value ↔
    ∃ (n : Numeral) (rest : List Char), input.toList = n.text ++ rest ∧ Stops rest ∧ saturated n.value = value := by
  constructor
  · intro h
    have hne : (signed (input.toList.dropWhile isSpace)).2.takeWhile Char.isDigit ≠ [] := by
      intro hnil
      simp [strtol, hnil] at h
    obtain ⟨n, htext, hstops⟩ := exists_numeral hne
    rw [strtol_text n hstops htext] at h
    exact ⟨n, _, htext, hstops, Option.some.inj h⟩
  · rintro ⟨n, rest, htext, hstops, rfl⟩
    exact strtol_text n hstops htext

theorem saturated_eq_iff {low high value v : ℤ} (hlow : longMin < low) (hhigh : high < longMax)
    (hrange : low ≤ value ∧ value ≤ high) : saturated v = value ↔ v = value := by
  simp only [saturated]
  omega

end Strtol

section Exact

/-- The three functions that read a number. -/
inductive NumericArg
  | short
  | unsignedInt
  | signedInt
  deriving DecidableEq, Repr

namespace NumericArg

def parse : NumericArg → String → Except ArgExit ℤ
  | .short => parseShortArg
  | .unsignedInt => parseUnsignedIntArg
  | .signedInt => parseSignedIntArg

def low : NumericArg → ℤ
  | .short => 0
  | .unsignedInt => 0
  | .signedInt => -2 ^ 31

def high : NumericArg → ℤ
  | .short => 65535
  | .unsignedInt => 2 ^ 32 - 1
  | .signedInt => 2 ^ 31 - 1

end NumericArg

variable (a : NumericArg) (input : String)

/-- The whole string is an integer of the type, and that is what is returned. -/
def Exact : Prop :=
  ∀ value, a.parse input = .ok value ↔
    ∃ n : Numeral, input.toList = n.text ∧ n.value = value ∧ a.low ≤ value ∧ value ≤ a.high

/-- Something stands behind an integer of the type. -/
def Trailing : Prop :=
  ∃ (n : Numeral) (rest : List Char), input.toList = n.text ++ rest ∧ Stops rest ∧ rest ≠ [] ∧
    a.low ≤ n.value ∧ n.value ≤ a.high

variable {a input}

theorem parseLongArg_eq_ok_iff {notConverted outOfRange : String} {low high value : ℤ} :
    parseLongArg notConverted outOfRange low high input = .ok value ↔
      strtol input = some value ∧ low ≤ value ∧ value ≤ high := by
  unfold parseLongArg
  cases h : strtol input with
  | none => simp
  | some v =>
    dsimp only
    split_ifs with hrange
    · simp only [Option.some.injEq, false_iff]
      omega
    · simp only [Except.ok.injEq, Option.some.injEq]
      omega

theorem parse_eq_ok_iff_strtol {value : ℤ} :
    a.parse input = .ok value ↔ strtol input = some value ∧ a.low ≤ value ∧ value ≤ a.high := by
  cases a <;> exact parseLongArg_eq_ok_iff

/-- What is read, whatever stands behind it. -/
theorem parse_eq_ok_iff {value : ℤ} : a.parse input = .ok value ↔ ∃ (n : Numeral) (rest : List Char),
    input.toList = n.text ++ rest ∧ Stops rest ∧ n.value = value ∧ a.low ≤ value ∧ value ≤ a.high := by
  have hbounds : longMin < a.low ∧ a.high < longMax := by cases a <;> decide
  rw [parse_eq_ok_iff_strtol, strtol_eq_some_iff]
  constructor
  · rintro ⟨⟨n, rest, htext, hstops, hvalue⟩, hrange⟩
    exact ⟨n, rest, htext, hstops, (saturated_eq_iff hbounds.1 hbounds.2 hrange).1 hvalue, hrange⟩
  · rintro ⟨n, rest, htext, hstops, hvalue, hrange⟩
    exact ⟨⟨n, rest, htext, hstops, (saturated_eq_iff hbounds.1 hbounds.2 hrange).2 hvalue⟩, hrange⟩

/-- The numbers are read exactly but for those with text behind them. -/
theorem parse_exact_iff (a : NumericArg) (input : String) : Exact a input ↔ ¬ Trailing a input := by
  constructor
  · rintro hexact ⟨n, rest, htext, hstops, hne, hrange⟩
    have hread : a.parse input = .ok n.value := parse_eq_ok_iff.2 ⟨n, rest, htext, hstops, rfl, hrange⟩
    obtain ⟨n', htext', -⟩ := (hexact n.value).1 hread
    have hsame : n.text ++ rest = n'.text ++ [] := by rw [← htext, htext', List.append_nil]
    exact hne (rest_unique hstops stops_nil hsame)
  · intro hnone value
    rw [parse_eq_ok_iff]
    constructor
    · rintro ⟨n, rest, htext, hstops, rfl, hrange⟩
      have hnil : rest = [] := by
        by_contra hne
        exact hnone ⟨n, rest, htext, hstops, hne, hrange⟩
      exact ⟨n, by simpa [hnil] using htext, rfl, hrange⟩
    · rintro ⟨n, htext, hvalue, hrange⟩
      exact ⟨n, [], by simpa using htext, stops_nil, hvalue, hrange⟩

/-- A port with a letter behind it. -/
theorem not_exact_trailing : parseShortArg "7770x" = .ok 7770 ∧ ¬ Exact .short "7770x" := by
  refine ⟨rfl, fun h => ?_⟩
  obtain ⟨n, htext, -⟩ := (h 7770).1 rfl
  have hrest : afterNumeral ("7770x".toList) = [] := by
    rw [htext, ← List.append_nil n.text]
    exact afterNumeral_text n stops_nil
  exact absurd hrest (by decide)

end Exact

end Reportman.Numerals
