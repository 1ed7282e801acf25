import Mathlib
import Reportman.Daemon

/-!
# The arguments of the programs

Each program goes through its arguments and asks of each, in a fixed order, whether it is one of its
options. `start_child_process` writes arguments for the other two programs, and what they read is what it
wrote.
-/
namespace Reportman.Arguments
open Resumable Ipc Daemon
open FileSystem (Bytes bytes)

section Numbers

/-- `isspace` in the C locale. -/
def isSpace (c : Char) : Bool := c = ' ' || ('\t' ≤ c && c ≤ '\r')

/-- The optional sign: whether it is a minus, and what comes after it. -/
def signed : List Char → Bool × List Char
  | '-' :: rest => (true, rest)
  | '+' :: rest => (false, rest)
  | text => (false, text)

def longMin : ℤ := -2 ^ 63
def longMax : ℤ := 2 ^ 63 - 1

/-- In base ten; nothing if there are no digits to convert. -/
def strtol (input : String) : Option ℤ :=
  let (negative, text) := signed (input.toList.dropWhile isSpace)
  let digits := text.takeWhile Char.isDigit
  let value : ℤ := Nat.ofDigitChars 10 digits 0
  if digits = [] then none else some (max longMin (min longMax (if negative then -value else value)))

/-- `%hu` of `sscanf`, and what it leaves. -/
def scanUshort (text : List Char) : Option (ℕ × List Char) :=
  let (negative, text) := signed (text.dropWhile isSpace)
  let digits := text.takeWhile Char.isDigit
  let value := Nat.ofDigitChars 10 digits 0
  let long := if 2 ^ 64 ≤ value then 2 ^ 64 - 1 else if negative then (2 ^ 64 - value) % 2 ^ 64 else value
  if digits = [] then none else some (long % 2 ^ 16, text.dropWhile Char.isDigit)

/-- What `%d` prints is nothing but digits and a sign. -/
theorem bytes_toString (z : ℤ) : bytes (toString z) ≠ [] ∧
    ∀ b ∈ bytes (toString z), b.toNat = 45 ∨ 48 ≤ b.toNat ∧ b.toNat ≤ 57 := by
  have hnat : ∀ n : ℕ, bytes (toString n) ≠ [] ∧ ∀ b ∈ bytes (toString n), 48 ≤ b.toNat ∧ b.toNat ≤ 57 := by
    intro n
    refine ⟨fun h => ?_, fun b hb => ?_⟩
    · have hnil : (toString n).toList = [] := List.map_eq_nil_iff.1 h
      exact Nat.toDigits_ne_nil (Nat.toList_repr.symm.trans hnil)
    · obtain ⟨c, hc, rfl⟩ := List.mem_map.1 hb
      have hdigit : c.isDigit = true :=
        Nat.isDigit_of_mem_toDigits (by decide) (by decide) (Nat.toList_repr ▸ hc)
      have hrange : 48 ≤ c.toNat ∧ c.toNat ≤ 57 := Char.isDigit_iff_toNat.1 hdigit
      simp
      omega
  cases z with
  | ofNat n => exact ⟨(hnat n).1, fun b hb => .inr ((hnat n).2 b hb)⟩
  | negSucc n =>
    have hneg : bytes (toString (Int.negSucc n)) = 45 :: bytes (toString (n + 1)) := by
      have hsign : toString (Int.negSucc n) = "-" ++ toString (n + 1) := rfl
      simp [hsign, bytes]
    rw [hneg]
    refine ⟨nofun, fun b hb => ?_⟩
    rcases List.mem_cons.1 hb with rfl | hb
    · exact .inl rfl
    · exact .inr ((hnat (n + 1)).2 b hb)

end Numbers

section Options

/-- The program ends: with `EXIT_FAILURE` and a message, or with what a function has returned. -/
inductive ArgExit
  | failure (message : String)
  | response (code : ℤ)
  deriving DecidableEq, Repr

theorem map_eq_ok {ε α β : Type} {x : Except ε α} {f : α → β} {b : β} (h : f <$> x = .ok b) :
    ∃ a, x = .ok a ∧ f a = b := by
  cases x with
  | error e => cases h
  | ok a => exact ⟨a, rfl, Except.ok.inj h⟩

def parseLongArg (notConverted outOfRange : String) (low high : ℤ) (input : String) : Except ArgExit ℤ :=
  match strtol input with
  | none => .error (.failure (notConverted ++ input ++ "\n"))
  | some value =>
      if value < low ∨ value > high then .error (.failure (outOfRange ++ input ++ "\n")) else .ok value

def parseShortArg : String → Except ArgExit ℤ :=
  parseLongArg "Argument could not be converted to a short : " "Argument out of range: " 0 65535

def parseUnsignedIntArg : String → Except ArgExit ℤ :=
  parseLongArg "Argument could not be converted to an unsigned int : " "Unsigned int argument out of range: " 0
    4294967295

def parseSignedIntArg : String → Except ArgExit ℤ :=
  parseLongArg "Argument could not be converted to an unsigned int : " "Signed int argument out of range: "
    (-2147483648) 2147483647

/-- `strcmp` gives zero for equal strings, so that only "true" is false and no number is ever read. -/
def parseBoolArg (input : String) : Except ArgExit Bool :=
  if input.toLower ≠ "true" then .ok true
  else if input.toLower ≠ "false" then .ok false
  else (fun value => decide (value ≠ 0)) <$>
    parseLongArg "Argument could not be converted to an unsigned int : " "Bool argument out of range: " 0 1
      input.toLower

inductive ArgAction (σ : Type)
  | flag (set : σ → σ)
  | value (valueName : String) (set : String → σ → Except ArgExit σ)

structure ArgOption (σ : Type) where
  shortName : String
  longName : String
  action : ArgAction σ

def ArgOption.named {σ : Type} (o : ArgOption σ) (arg : String) : Bool :=
  arg = o.shortName || arg = o.longName

variable {σ : Type} (shortName longName valueName : String)

def argParseFlag (set : σ → σ) : ArgOption σ := ⟨shortName, longName, .flag set⟩

def argParseString (set : String → σ → Except ArgExit σ) : ArgOption σ :=
  ⟨shortName, longName, .value valueName set⟩

def argParseUshort (set : ℤ → σ → σ) : ArgOption σ :=
  ⟨shortName, longName, .value valueName fun input s => (set · s) <$> parseShortArg input⟩

def argParseInt (set : ℤ → σ → σ) : ArgOption σ :=
  ⟨shortName, longName, .value valueName fun input s => (set · s) <$> parseSignedIntArg input⟩

def argParseBool (set : Bool → σ → σ) : ArgOption σ :=
  ⟨shortName, longName, .value valueName fun input s => (set · s) <$> parseBoolArg input⟩

def argUnrecognised (arg : String) : Bool := arg.toList.head? = some '-'

/-- The loop over the arguments; `otherwise` is its last branch. -/
def parseArgs (options : List (ArgOption σ)) (otherwise : String → σ → Except ArgExit σ) :
    List String → σ → Except ArgExit σ
  | [], s => .ok s
  | arg :: rest, s =>
      match options.find? (·.named arg) with
      | none => do
          let s ← otherwise arg s
          parseArgs options otherwise rest s
      | some ⟨_, _, .flag set⟩ => parseArgs options otherwise rest (set s)
      | some ⟨_, _, .value valueName set⟩ =>
          match rest with
          | [] => .error (.failure ("No " ++ valueName ++ " specified with " ++ arg ++ "\n"))
          | input :: rest => do
              let s ← set input s
              parseArgs options otherwise rest s

/-- The value given last to an option, or `kept` if there is none. -/
def lastValue (options : List (ArgOption σ)) : List String → String → String
  | [], kept => kept
  | arg :: rest, kept =>
      match options.find? (·.named arg) with
      | none => lastValue options rest kept
      | some ⟨_, _, .flag _⟩ => lastValue options rest kept
      | some ⟨short, _, .value _ _⟩ =>
          match rest with
          | [] => kept
          | input :: rest => lastValue options rest (if short = shortName then input else kept)

/-- The option sets the field to its value if it has this name, and otherwise keeps the field. -/
def ArgOption.Sets (field : σ → String) (o : ArgOption σ) : Prop :=
  match o.action with
  | .flag set => ∀ s, field (set s) = field s
  | .value _ set => ∀ input s s', set input s = .ok s' →
      field s' = if o.shortName = shortName then input else field s

/-- The rounds of a loop that comes to its end, from the last one to the first. -/
@[elab_as_elim] theorem parseArgs_induction {options : List (ArgOption σ)}
    {otherwise : String → σ → Except ArgExit σ} {s' : σ} {motive : List String → σ → Prop} (nil : motive [] s')
    (other : ∀ arg rest s s₁, options.find? (·.named arg) = none → otherwise arg s = .ok s₁ →
      motive rest s₁ → motive (arg :: rest) s)
    (flag : ∀ arg rest s short long set, options.find? (·.named arg) = some ⟨short, long, .flag set⟩ →
      motive rest (set s) → motive (arg :: rest) s)
    (value : ∀ arg input rest s s₁ short long name set,
      options.find? (·.named arg) = some ⟨short, long, .value name set⟩ → set input s = .ok s₁ →
      motive rest s₁ → motive (arg :: input :: rest) s)
    {args : List String} {s : σ} (h : parseArgs options otherwise args s = .ok s') : motive args s := by
  fun_induction parseArgs options otherwise args s with
  | case1 s =>
    obtain rfl : s = s' := Except.ok.inj h
    exact nil
  | case2 arg rest s hfind ih =>
    cases hstep : otherwise arg s with
    | error e => simp [hstep, Bind.bind, Except.bind] at h
    | ok s₁ =>
      rw [hstep] at h
      exact other arg rest s s₁ hfind hstep (ih s₁ h)
  | case3 arg rest s short long set hfind ih => exact flag arg rest s short long set hfind (ih h)
  | case4 => cases h
  | case5 arg s short long name set hfind input rest ih =>
    cases hstep : set input s with
    | error e => simp [hstep, Bind.bind, Except.bind] at h
    | ok s₁ =>
      rw [hstep] at h
      exact value arg input rest s s₁ short long name set hfind hstep (ih s₁ h)

/-- What a field holds in the end, if one option sets it and nothing else does. -/
theorem parseArgs_lastValue {options : List (ArgOption σ)} {otherwise : String → σ → Except ArgExit σ}
    {shortName : String} (field : σ → String) (hother : ∀ arg s s', otherwise arg s = .ok s' → field s' = field s)
    (hsets : ∀ o ∈ options, o.Sets shortName field)
    {args : List String} {s s' : σ} (h : parseArgs options otherwise args s = .ok s') :
    field s' = lastValue shortName options args (field s) := by
  refine parseArgs_induction ?nil ?other ?flag ?value h
  case nil => rfl
  case other =>
    intro arg rest s s₁ hfind hstep ih
    rw [lastValue, hfind, ih, hother arg s s₁ hstep]
  case flag =>
    intro arg rest s short long set hfind ih
    have hset : ∀ s, field (set s) = field s := hsets _ (List.mem_of_find?_eq_some hfind)
    rw [lastValue, hfind, ih, hset]
  case value =>
    intro arg input rest s s₁ short long name set hfind hstep ih
    have hset : field s₁ = if short = shortName then input else field s :=
      hsets _ (List.mem_of_find?_eq_some hfind) input s s₁ hstep
    rw [lastValue, hfind, ih, hset]

end Options

section Monitor

def mLogPath : String := "/var/log/reportman/monitor.log"

def rReportsDirectory : String := "/srv/reportman/reports"
def rBackupDirectory : String := "/srv/reportman/backup"
def rDashboardDirectory : String := "/srv/reportman/dashboard"

structure MonitorConf where
  logFile : String
  logSysName : String
  logToSys : Bool
  logToFile : Bool
  logToStdout : Bool
  deriving DecidableEq, Repr

structure MonitorArgs where
  fromDaemon : Bool
  dirs : List String
  conf : MonitorConf
  pipes : IpcPipes

def monitorArgs : MonitorArgs where
  fromDaemon := false
  dirs := [rBackupDirectory, rDashboardDirectory, rReportsDirectory]
  conf := ⟨mLogPath, "reportman_mon", false, true, true⟩
  pipes := ⟨-1, -1⟩

/-- The arguments read so far, and the array of the directories among them. -/
structure MonitorScan where
  args : MonitorArgs
  stringArray : List String

def MonitorScan.setArgs (f : MonitorArgs → MonitorArgs) (s : MonitorScan) : MonitorScan :=
  { s with args := f s.args }

def MonitorScan.setConf (f : MonitorConf → MonitorConf) : MonitorScan → MonitorScan :=
  MonitorScan.setArgs fun a => { a with conf := f a.conf }

def monitorOptions : List (ArgOption MonitorScan) :=
  [argParseFlag "-fd" "--from-daemon" (MonitorScan.setArgs fun a => { a with fromDaemon := true }),
    argParseInt "--d-to-c" "--d-to-c" "daemon to mon read pipe id" fun fd =>
      MonitorScan.setArgs fun a => { a with pipes := { a.pipes with read := fd } },
    argParseInt "--c-to-d" "--c-to-d" "mon to daemon write pipe id" fun fd =>
      MonitorScan.setArgs fun a => { a with pipes := { a.pipes with write := fd } },
    argParseString "-lf" "--log-file" "log file path" fun path s =>
      .ok (s.setConf fun conf => { conf with logFile := path }),
    argParseString "-ls" "--log-sys-name" "log sys name" fun name s =>
      .ok (s.setConf fun conf => { conf with logSysName := name }),
    argParseBool "--log-to-file" "--log-to-file" "bool" fun b =>
      MonitorScan.setConf fun conf => { conf with logToFile := b },
    argParseBool "--log-to-sys" "--log-to-sys" "bool" fun b =>
      MonitorScan.setConf fun conf => { conf with logToSys := b }]

def notDefined {σ : Type} (arg : String) : Except ArgExit σ :=
  .error (.failure ("Argument '" ++ arg ++ "' is not defined"))

def monitorOtherwise (arg : String) (s : MonitorScan) : Except ArgExit MonitorScan :=
  if argUnrecognised arg then notDefined arg
  else .ok ⟨{ s.args with dirs := s.stringArray ++ [arg] }, s.stringArray ++ [arg]⟩

def configureMonitorArgs (argv : List String) : Except ArgExit MonitorArgs :=
  (·.args) <$> parseArgs monitorOptions monitorOtherwise argv.tail ⟨monitorArgs, []⟩

end Monitor

section Fm

/-- What `time`, `localtime` and `mktime` say: the present, and a time of day today or tomorrow. -/
structure Clock where
  now : ℤ
  mktime : (hour minute : ℕ) → (tomorrow : Bool) → ℤ

def dInvalidHhMmFormat : ℤ := -1
def dInvalidHhMmRange : ℤ := -2

def scanHhMm (text : List Char) : Option (ℕ × ℕ) :=
  match scanUshort text with
  | some (hour, ':' :: rest) => (scanUshort rest).map fun minute => (hour, minute.1)
  | _ => none

/-- The time of day, or the code of the failure. -/
def hhMm (input : String) : Except ℤ (ℕ × ℕ) :=
  match scanHhMm input.toList with
  | none => .error dInvalidHhMmFormat
  | some (hour, minute) => if hour > 23 ∨ minute > 59 then .error dInvalidHhMmRange else .ok (hour, minute)

def Clock.next (clock : Clock) (time : ℕ × ℕ) : ℤ :=
  if clock.mktime time.1 time.2 false < clock.now then clock.mktime time.1 time.2 true
  else clock.mktime time.1 time.2 false

def getHhMmStr (clock : Clock) (input : String) : Except ℤ ℤ := clock.next <$> hhMm input

structure FmArgs where
  fromDaemon : Bool
  debug : Bool
  backupTime : ℤ
  transferTime : ℤ
  doBackup : Bool
  doTransfer : Bool
  pipes : IpcPipes

def fmArgs : FmArgs := ⟨false, false, 0, 0, false, false, ⟨-1, -1⟩⟩

def dDefaultBackupTime : String := "00:30"
def dDefaultTransferTime : String := "23:30"

variable (clock : Clock)

/-- A time from `get_hh_mm_str`, or its failure as the exit code. -/
def timeOrExit (input : String) : Except ArgExit ℤ := (getHhMmStr clock input).mapError .response

def fmOptions : List (ArgOption FmArgs) :=
  [argParseFlag "-fd" "--from-daemon" fun a => { a with fromDaemon := true },
    argParseFlag "--debug" "--debug" fun a => { a with debug := true },
    argParseInt "--d-to-c" "--d-to-c" "daemon to fm read pipe id" fun fd a =>
      { a with pipes := { a.pipes with read := fd } },
    argParseInt "--c-to-d" "--c-to-d" "fm to daemon write pipe id" fun fd a =>
      { a with pipes := { a.pipes with write := fd } },
    argParseString "-tt" "--transfer-time" "time stamp" fun text a =>
      (fun time => { a with transferTime := time }) <$> timeOrExit clock text,
    argParseString "-bt" "--backup-time" "time stamp" fun text a =>
      (fun time => { a with backupTime := time }) <$> timeOrExit clock text,
    argParseFlag "-b" "--backup" fun a => { a with doBackup := true },
    argParseFlag "-t" "--transfer" fun a => { a with doTransfer := true }]

/-- An argument that is not an option is passed over. -/
def fmOtherwise (arg : String) (a : FmArgs) : Except ArgExit FmArgs :=
  if argUnrecognised arg then notDefined arg else .ok a

def orDefault (time : ℤ) (default : String) : Except ArgExit ℤ :=
  if time = 0 then timeOrExit clock default else .ok time

def configureReportmanFmArgs (argv : List String) : Except ArgExit FmArgs := do
  let a ← parseArgs (fmOptions clock) fmOtherwise argv.tail fmArgs
  let backupTime ← orDefault clock a.backupTime dDefaultBackupTime
  let transferTime ← orDefault clock a.transferTime dDefaultTransferTime
  return { a with backupTime := backupTime, transferTime := transferTime }

end Fm

section RoundTrip

theorem isSpace_of_isDigit {c : Char} (h : c.isDigit = true) : isSpace c = false := by
  have hc : '0'.toNat ≤ c.toNat ∧ c.toNat ≤ '9'.toNat := Char.isDigit_iff_toNat.1 h
  simp only [isSpace, Bool.or_eq_false_iff, decide_eq_false_iff_not, Bool.and_eq_false_iff]
  refine ⟨?_, .inr ?_⟩
  · rintro rfl
    exact absurd hc.1 (by decide)
  · intro hle
    have : c.toNat ≤ '\r'.toNat := hle
    exact absurd (hc.1.trans this) (by decide)

theorem dropWhile_digits {ds : List Char} (h : ∀ c ∈ ds, c.isDigit = true) : ds.dropWhile isSpace = ds := by
  cases ds with
  | nil => rfl
  | cons c cs =>
    have hspace : isSpace c = false := isSpace_of_isDigit (h c (List.mem_cons_self ..))
    rw [List.dropWhile_cons_of_neg (by simp [hspace])]

theorem signed_digits {ds : List Char} (h : ∀ c ∈ ds, c.isDigit = true) : signed ds = (false, ds) := by
  cases ds with
  | nil => rfl
  | cons c cs =>
    have hc := h c (List.mem_cons_self ..)
    unfold signed
    split
    · exact absurd hc (by simp_all)
    · exact absurd hc (by simp_all)
    · rfl

theorem strtol_digits {input : String} (hne : input.toList ≠ []) (h : ∀ c ∈ input.toList, c.isDigit = true) :
    strtol input = some (max longMin (min longMax (Nat.ofDigitChars 10 input.toList 0 : ℤ))) := by
  have htake : input.toList.takeWhile Char.isDigit = input.toList :=
    List.takeWhile_eq_self_iff.2 h
  simp [strtol, dropWhile_digits h, signed_digits h, htake, hne]

/-- What `%d` prints is read back. -/
theorem parseSignedIntArg_toString {fd : ℤ} (hfd : 0 ≤ fd) (hmax : fd ≤ 2147483647) :
    parseSignedIntArg (toString fd) = .ok fd := by
  obtain ⟨n, rfl⟩ := Int.eq_ofNat_of_zero_le hfd
  have hlist : (toString (n : ℤ)).toList = Nat.toDigits 10 n := Nat.toList_repr
  have hvalue : strtol (toString (n : ℤ)) = some (n : ℤ) := by
    rw [strtol_digits (by rw [hlist]; exact Nat.toDigits_ne_nil)
      (fun c hc => Nat.isDigit_of_mem_toDigits (by decide) (by decide) (hlist ▸ hc)), hlist,
      Nat.ofDigitChars_ten_toDigits]
    simp only [longMin, longMax]
    rw [min_eq_right (by omega), max_eq_right (by omega)]
  unfold parseSignedIntArg parseLongArg
  rw [hvalue]
  exact if_neg (by omega)

variable {σ : Type}

/-- Every name of an option begins with a dash. -/
def Dashed (options : List (ArgOption σ)) : Prop :=
  ∀ o ∈ options, argUnrecognised o.shortName = true ∧ argUnrecognised o.longName = true

theorem Dashed.find?_eq_none {options : List (ArgOption σ)} (h : Dashed options) {arg : String}
    (harg : argUnrecognised arg = false) : options.find? (·.named arg) = none := by
  refine List.find?_eq_none.2 fun o ho hnamed => ?_
  obtain ⟨hshort, hlong⟩ := h o ho
  rcases (by simpa [ArgOption.named] using hnamed : arg = o.shortName ∨ arg = o.longName) with rfl | rfl
  · simp [harg] at hshort
  · simp [harg] at hlong

theorem monitorOptions_dashed : Dashed monitorOptions := by
  simp [Dashed, monitorOptions, argParseFlag, argParseInt, argParseString, argParseBool, argUnrecognised]

/-- Directories are added to the array in their order. -/
theorem parseArgs_directories {extraArgs : List String} (h : ∀ e ∈ extraArgs, argUnrecognised e = false)
    (s : MonitorScan) (hdirs : s.stringArray ≠ [] → s.args.dirs = s.stringArray) :
    parseArgs monitorOptions monitorOtherwise extraArgs s = .ok
      ⟨{ s.args with dirs := if extraArgs = [] then s.args.dirs else s.stringArray ++ extraArgs },
        s.stringArray ++ extraArgs⟩ := by
  induction extraArgs generalizing s with
  | nil => simp [parseArgs]
  | cons e es ih =>
    have he := h e (List.mem_cons_self ..)
    have hstep : parseArgs monitorOptions monitorOtherwise (e :: es) s =
        parseArgs monitorOptions monitorOtherwise es
          ⟨{ s.args with dirs := s.stringArray ++ [e] }, s.stringArray ++ [e]⟩ := by
      simp only [parseArgs, monitorOptions_dashed.find?_eq_none he, monitorOtherwise, he]
      rfl
    rw [hstep, ih (fun e' he' => h e' (List.mem_cons_of_mem _ he')) _ fun _ => rfl]
    cases es <;> simp

theorem parseArgs_flag {options : List (ArgOption σ)} {otherwise : String → σ → Except ArgExit σ}
    {shortName longName arg : String} {set : σ → σ}
    (h : options.find? (·.named arg) = some (argParseFlag shortName longName set)) (rest : List String) (s : σ) :
    parseArgs options otherwise (arg :: rest) s = parseArgs options otherwise rest (set s) := by
  rw [parseArgs, h]
  rfl

theorem parseArgs_int {options : List (ArgOption σ)} {otherwise : String → σ → Except ArgExit σ}
    {shortName longName valueName arg : String} {set : ℤ → σ → σ}
    (h : options.find? (·.named arg) = some (argParseInt shortName longName valueName set)) {fd : ℤ}
    (hfd : 0 ≤ fd) (hmax : fd ≤ 2147483647) (rest : List String) (s : σ) :
    parseArgs options otherwise (arg :: toString fd :: rest) s =
      parseArgs options otherwise rest (set fd s) := by
  rw [parseArgs, h]
  simp only [argParseInt, parseSignedIntArg_toString hfd hmax]
  rfl

variable {parentRead childWrite : ℤ} (hread : 0 ≤ parentRead) (hreadMax : parentRead ≤ 2147483647)
  (hwrite : 0 ≤ childWrite) (hwriteMax : childWrite ≤ 2147483647)
include hread hreadMax hwrite hwriteMax

/-- Whatever the other options are. -/
theorem parseArgs_childArgs {options : List (ArgOption σ)} {otherwise : String → σ → Except ArgExit σ}
    {setDaemon : σ → σ} {setRead setWrite : ℤ → σ → σ} {readName writeName : String} (c : ChildName)
    (hdaemon : options.find? (·.named "--from-daemon") = some (argParseFlag "-fd" "--from-daemon" setDaemon))
    (hdToC : options.find? (·.named "--d-to-c") = some (argParseInt "--d-to-c" "--d-to-c" readName setRead))
    (hcToD : options.find? (·.named "--c-to-d") = some (argParseInt "--c-to-d" "--c-to-d" writeName setWrite))
    (extraArgs : List String) (s : σ) :
    parseArgs options otherwise (childArgs c parentRead childWrite extraArgs).tail s =
      parseArgs options otherwise extraArgs (setWrite childWrite (setRead parentRead (setDaemon s))) := by
  have htail : (childArgs c parentRead childWrite extraArgs).tail = "--from-daemon" :: "--d-to-c" ::
      toString parentRead :: "--c-to-d" :: toString childWrite :: extraArgs := rfl
  rw [htail, parseArgs_flag hdaemon, parseArgs_int hdToC hread hreadMax, parseArgs_int hcToD hwrite hwriteMax]

theorem configureMonitorArgs_childArgs {extraArgs : List String}
    (h : ∀ e ∈ extraArgs, argUnrecognised e = false) :
    configureMonitorArgs (childArgs .mon parentRead childWrite extraArgs) = .ok
      { monitorArgs with
        fromDaemon := true
        dirs := if extraArgs = [] then monitorArgs.dirs else extraArgs
        pipes := ⟨childWrite, parentRead⟩ } := by
  unfold configureMonitorArgs
  rw [parseArgs_childArgs hread hreadMax hwrite hwriteMax .mon rfl rfl rfl,
    parseArgs_directories h _ fun hne => absurd rfl hne]
  rfl

theorem configureReportmanFmArgs_childArgs (clock : Clock) :
    configureReportmanFmArgs clock (childArgs .fm parentRead childWrite []) = .ok
      { fmArgs with
        fromDaemon := true
        backupTime := clock.next (0, 30)
        transferTime := clock.next (23, 30)
        pipes := ⟨childWrite, parentRead⟩ } := by
  unfold configureReportmanFmArgs
  rw [parseArgs_childArgs hread hreadMax hwrite hwriteMax .fm rfl rfl rfl]
  rfl

end RoundTrip

section Spawn

/-- What an `int` that is not negative can be. -/
def IsDescriptor (fd : ℤ) : Prop := 0 ≤ fd ∧ fd ≤ 2147483647

instance (fd : ℤ) : Decidable (IsDescriptor fd) := inferInstanceAs (Decidable (_ ∧ _))

def dMaxInterprocessArguments : ℕ := 25

/-- The new process gives up at an argument whose number is above the maximum. -/
def tooManyArguments (extraArgs : List String) : Bool :=
  (List.range extraArgs.length).any fun argCount => argCount > dMaxInterprocessArguments

/-- The child has learned that it is one, its ends of the two pipes, and its directories. -/
def ReadBack (pipes : IpcPipes) (extraArgs args : List String) : ChildName → Prop
  | .fm => ∀ clock, ∃ a, configureReportmanFmArgs clock args = .ok a ∧ a.fromDaemon = true ∧ a.pipes = pipes
  | .mon => ∃ a, configureMonitorArgs args = .ok a ∧ a.fromDaemon = true ∧ a.pipes = pipes ∧
      a.dirs = if extraArgs = [] then monitorArgs.dirs else extraArgs

theorem childArgs_readBack {c : ChildName} {parentRead childWrite : ℤ} (hread : IsDescriptor parentRead)
    (hwrite : IsDescriptor childWrite) {extraArgs : List String}
    (hdash : ∀ e ∈ extraArgs, argUnrecognised e = false) (hfm : c = .fm → extraArgs = []) :
    ReadBack ⟨childWrite, parentRead⟩ extraArgs (childArgs c parentRead childWrite extraArgs) c := by
  cases c with
  | fm =>
    rw [hfm rfl]
    exact fun clock => ⟨_, configureReportmanFmArgs_childArgs hread.1 hread.2 hwrite.1 hwrite.2 clock, rfl, rfl⟩
  | mon => exact ⟨_, configureMonitorArgs_childArgs hread.1 hread.2 hwrite.1 hwrite.2 hdash, rfl, rfl, rfl⟩

/-- What the child reads is what the daemon has kept, each pipe seen from its other end. -/
theorem startChildProcess_readBack {dSocket : ℤ} {p : ChildProcess} {c : ChildName} {extraArgs : List String}
    (hlength : extraArgs.length ≤ 25) (hdash : ∀ e ∈ extraArgs, argUnrecognised e = false)
    (hfm : c = .fm → extraArgs = []) {sched : ℕ → Environment} {t : ℕ}
    {childRead childWrite parentRead parentWrite : ℤ} (hchild : sched t .pipe = some (childRead, childWrite))
    (hparent : sched (t + 1) .pipe = some (parentRead, parentWrite)) (hread : IsDescriptor parentRead)
    (hwrite : IsDescriptor childWrite) :
    tooManyArguments extraArgs = false ∧ ∃ closed args,
      ⟨.fork c closed args, sched (t + 2) (.fork c closed args), (), ()⟩ ∈
        trace answer sched (startChildProcess dSocket p c extraArgs) t () ∧
      ReadBack ⟨childWrite, parentRead⟩ extraArgs args c ∧
      ∀ pid, sched (t + 2) (.fork c closed args) = some pid → ∃ p',
        (run answer sched (startChildProcess dSocket p c extraArgs) t ()).result = some p' ∧
        p'.pipes.write = parentWrite ∧ p'.pipes.read = childRead := by
  refine ⟨?_, [dSocket, parentWrite, childRead], childArgs c parentRead childWrite extraArgs, ?_,
    childArgs_readBack hread hwrite hdash hfm, fun pid hpid => ?_⟩
  · simp only [tooManyArguments, dMaxInterprocessArguments, List.any_eq_false, List.mem_range, gt_iff_lt,
      decide_eq_true_eq, not_lt]
    omega
  · simp [startChildProcess, sys, trace_answer, hchild, hparent]
  · refine ⟨{ p with pid := pid, pipes := ⟨parentWrite, childRead⟩, isAlive := true }, ?_, rfl, rfl⟩
    simp [startChildProcess, sys, run_answer, hchild, hparent, hpid, run]

theorem startChildProcess_readBack_two : ∃ closed args,
    ⟨.fork .mon closed args, some 102, (), ()⟩ ∈ trace answer (answering ackBytes 0)
      (startChildProcess 4 (initially fun _ => 3).mon .mon ["/srv/a", "/srv/b"]) 0 () ∧
    ReadBack ⟨11, 12⟩ ["/srv/a", "/srv/b"] args .mon := by
  obtain ⟨-, closed, args, hmem, hread, -⟩ := @startChildProcess_readBack 4 (initially fun _ => 3).mon .mon
    ["/srv/a", "/srv/b"] (by decide) (by decide) nofun (answering ackBytes 0) 0 10 11 12 13 rfl rfl (by decide)
    (by decide)
  exact ⟨closed, args, hmem, hread⟩

end Spawn

end Reportman.Arguments
