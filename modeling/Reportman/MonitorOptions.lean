import Mathlib
import Reportman.Arguments

/-!
# What the command line of the monitor comes to

A command line is a list of options, of values of options and of other arguments. What the monitor makes of it
depends on the value given last to each option and on the other arguments in their order, however they are
mixed. What a value says is read as the option wants it, and the test for "true" has its sense reversed. The
strings are taken to fit the buffers that they are copied to.
-/
namespace Reportman.MonitorOptions
open Arguments

section Items

/-- What one round of the loop takes. -/
inductive Item
  | flag (shortName : String)
  | value (shortName input : String)
  | other (arg : String)
  deriving DecidableEq, Repr

variable {σ : Type} (options : List (ArgOption σ)) (otherwise : String → σ → Except ArgExit σ)

/-- The arguments one after the other, and an option together with its value. -/
def items : List String → List Item
  | [] => []
  | arg :: rest =>
      match options.find? (·.named arg) with
      | none => .other arg :: items rest
      | some ⟨short, _, .flag _⟩ => .flag short :: items rest
      | some ⟨short, _, .value _ _⟩ =>
          match rest with
          | [] => []
          | input :: rest => .value short input :: items rest

def Item.valueOf (shortName : String) : Item → Option String
  | .value short input => if short = shortName then some input else none
  | _ => none

def Item.positional : Item → Option String
  | .other arg => some arg
  | _ => none

/-- The values given to an option. -/
def values (shortName : String) (done : List Item) : List String := done.filterMap (Item.valueOf shortName)

def positionals (done : List Item) : List String := done.filterMap Item.positional

/-- Each round of the loop keeps a statement about what is done and what has come of it. -/
structure Keeps (P : List Item → σ → Prop) : Prop where
  flag : ∀ done s short long set, ⟨short, long, .flag set⟩ ∈ options → P done s →
    P (done ++ [.flag short]) (set s)
  value : ∀ done s s' short long name set input, ⟨short, long, .value name set⟩ ∈ options →
    set input s = .ok s' → P done s → P (done ++ [.value short input]) s'
  other : ∀ done s s' arg, otherwise arg s = .ok s' → P done s → P (done ++ [.other arg]) s'

variable {options otherwise}

/-- Then the statement holds of the whole command line. -/
theorem Keeps.parseArgs {P : List Item → σ → Prop} (h : Keeps options otherwise P) {args : List String}
    {done : List Item} {s s' : σ} (hs : P done s) (hrun : parseArgs options otherwise args s = .ok s') :
    P (done ++ items options args) s' := by
  have hall : ∀ done, P done s → P (done ++ items options args) s' := by
    refine parseArgs_induction ?nil ?other ?flag ?value hrun
    case nil =>
      intro done hs
      simpa [items] using hs
    case other =>
      intro arg rest s s₁ hfind hstep ih done hs
      rw [items, hfind]
      simpa using ih _ (h.other done s s₁ arg hstep hs)
    case flag =>
      intro arg rest s short long set hfind ih done hs
      rw [items, hfind]
      simpa using ih _ (h.flag done s short long set (List.mem_of_find?_eq_some hfind) hs)
    case value =>
      intro arg input rest s s₁ short long name set hfind hstep ih done hs
      rw [items, hfind]
      simpa using ih _ (h.value done s s₁ short long name set input (List.mem_of_find?_eq_some hfind) hstep hs)
  exact hall done hs

@[simp] theorem values_append_flag (shortName short : String) (done : List Item) :
    values shortName (done ++ [.flag short]) = values shortName done := by
  simp [values, Item.valueOf]

@[simp] theorem values_append_other (shortName arg : String) (done : List Item) :
    values shortName (done ++ [.other arg]) = values shortName done := by
  simp [values, Item.valueOf]

theorem values_append_value (shortName short input : String) (done : List Item) :
    values shortName (done ++ [.value short input]) =
      if short = shortName then values shortName done ++ [input] else values shortName done := by
  by_cases hname : short = shortName
  · simp [values, Item.valueOf, hname]
  · simp [values, Item.valueOf, hname]

@[simp] theorem positionals_append_flag (short : String) (done : List Item) :
    positionals (done ++ [.flag short]) = positionals done := by
  simp [positionals, List.filterMap, Item.positional]

@[simp] theorem positionals_append_value (short input : String) (done : List Item) :
    positionals (done ++ [.value short input]) = positionals done := by
  simp [positionals, List.filterMap, Item.positional]

@[simp] theorem positionals_append_other (arg : String) (done : List Item) :
    positionals (done ++ [.other arg]) = positionals done ++ [arg] := by
  simp [positionals, Item.positional]

end Items

section Latest

variable {α : Type} {meaning : String → Option α} {kept x : α} {given : List String}

/-- Every value has a meaning, and the last one is `x`; without a value it is what it was. -/
def Latest (meaning : String → Option α) (kept : α) (given : List String) (x : α) : Prop :=
  (∀ input ∈ given, (meaning input).isSome) ∧ given.getLast?.elim (some kept) meaning = some x

theorem latest_nil (meaning : String → Option α) (kept : α) : Latest meaning kept [] kept := by
  simp [Latest]

theorem Latest.append (h : Latest meaning kept given x) {input : String} {y : α} (hy : meaning input = some y) :
    Latest meaning kept (given ++ [input]) y := by
  obtain ⟨hall, -⟩ := h
  constructor
  · intro input' hmem
    rcases List.mem_append.1 hmem with hmem | hmem
    · exact hall input' hmem
    · rw [List.mem_singleton.1 hmem, hy]
      rfl
  · simpa using hy

variable {σ : Type} {options : List (ArgOption σ)} {otherwise : String → σ → Except ArgExit σ}

/-- An option writes what its value means if it has this name, and otherwise keeps the field. -/
def Assigns (shortName : String) (meaning : String → Option α) (field : σ → α) (o : ArgOption σ) : Prop :=
  match o.action with
  | .flag set => ∀ s, field (set s) = field s
  | .value _ set => ∀ input s s', set input s = .ok s' →
      if o.shortName = shortName then meaning input = some (field s') else field s' = field s

theorem assigns_value_iff {β : Type} {shortName short long name : String} {field : σ → α}
    {parse : String → Except ArgExit β} {set : β → σ → σ} :
    Assigns shortName meaning field ⟨short, long, .value name fun input s => (set · s) <$> parse input⟩ ↔
      ∀ input x, parse input = .ok x → ∀ s,
        if short = shortName then meaning input = some (field (set x s)) else field (set x s) = field s := by
  constructor
  · intro hassigns input x hx s
    have hstep : (set · s) <$> parse input = .ok (set x s) := by
      rw [hx]
      rfl
    exact hassigns input s (set x s) hstep
  · intro hset input s s' h
    obtain ⟨x, hx, rfl⟩ := map_eq_ok h
    exact hset input x hx s

/-- The last value of each option wins. -/
theorem keeps_latest {shortName : String} {field : σ → α}
    (hother : ∀ arg s s', otherwise arg s = .ok s' → field s' = field s)
    (hassigns : ∀ o ∈ options, Assigns shortName meaning field o) :
    Keeps options otherwise fun done s => Latest meaning kept (values shortName done) (field s) := by
  constructor
  · intro done s short long set hmem hlatest
    have hset : ∀ s, field (set s) = field s := hassigns _ hmem
    simpa [hset] using hlatest
  · intro done s s' short long name set input hmem hstep hlatest
    have hset := hassigns _ hmem input s s' hstep
    rw [values_append_value]
    by_cases hname : short = shortName
    · rw [if_pos hname] at hset ⊢
      exact hlatest.append hset
    · rw [if_neg hname] at hset ⊢
      rwa [hset]
  · intro done s s' arg hstep hlatest
    simpa [hother arg s s' hstep] using hlatest

end Latest

section Booleans

/-- What a value of `--log-to-file` and of `--log-to-sys` says. -/
def boolOf (input : String) : Option Bool :=
  if input.toLower = "true" ∨ input = "1" then some true
  else if input.toLower = "false" ∨ input = "0" then some false
  else none

/-- What `__parse_bool_arg` makes of it. -/
def parsedBool (input : String) : Option Bool := (parseBoolArg input).toOption

theorem parseBoolArg_eq (input : String) : parseBoolArg input = .ok (decide (input.toLower ≠ "true")) := by
  unfold parseBoolArg
  by_cases htrue : input.toLower = "true"
  · simp [htrue]
  · simp [htrue]

theorem parsedBool_eq (input : String) : parsedBool input = some (decide (input.toLower ≠ "true")) := by
  rw [parsedBool, parseBoolArg_eq]
  rfl

theorem toLower_eq_iff (input word : String) :
    input.toLower = word ↔ input.toList.map Char.toLower = word.toList := by
  rw [← String.toList_inj, String.toLower, String.toList_map]

/-- "1" is the one value that is taken for what it says. -/
theorem boolOf_eq_parsedBool_iff (input : String) : boolOf input = parsedBool input ↔ input = "1" := by
  rw [parsedBool_eq]
  unfold boolOf
  constructor
  · intro heq
    by_contra hone
    split_ifs at heq <;> simp_all
  · intro hone
    simp [hone, toLower_eq_iff]

theorem Latest.boolOf_iff {kept x : Bool} {given : List String} (h : Latest parsedBool kept given x) :
    Latest boolOf kept given x ↔
      (∀ input ∈ given, (boolOf input).isSome) ∧ ∀ input, given.getLast? = some input → input = "1" := by
  obtain ⟨-, hlast⟩ := h
  unfold Latest
  cases hgiven : given.getLast? with
  | none =>
    have hkept : kept = x := by simpa [hgiven] using hlast
    simp [hkept]
  | some input =>
    rw [hgiven, Option.elim_some] at hlast
    rw [Option.elim_some, ← hlast, boolOf_eq_parsedBool_iff]
    simp

end Booleans

section Monitor

@[simp] theorem toOption_ok {ε α : Type} (a : α) : (Except.ok a : Except ε α).toOption = some a := rfl

/-- What the value of a pipe says. -/
def intOf (input : String) : Option ℤ := (parseSignedIntArg input).toOption

/-- What the arguments come to from left to right, when `meaning` is what a truth value says. -/
structure Folded (meaning : String → Option Bool) (done : List Item) (args : MonitorArgs) : Prop where
  fromDaemon : args.fromDaemon = decide (.flag "-fd" ∈ done)
  read : Latest intOf (-1) (values "--d-to-c" done) args.pipes.read
  write : Latest intOf (-1) (values "--c-to-d" done) args.pipes.write
  logFile : Latest some mLogPath (values "-lf" done) args.conf.logFile
  logSysName : Latest some "reportman_mon" (values "-ls" done) args.conf.logSysName
  logToFile : Latest meaning true (values "--log-to-file" done) args.conf.logToFile
  logToSys : Latest meaning false (values "--log-to-sys" done) args.conf.logToSys
  logToStdout : args.conf.logToStdout = true
  dirs : args.dirs = if positionals done = [] then monitorArgs.dirs else positionals done

theorem monitorOtherwise_eq_ok {arg : String} {s s' : MonitorScan} (h : monitorOtherwise arg s = .ok s') :
    s' = ⟨{ s.args with dirs := s.stringArray ++ [arg] }, s.stringArray ++ [arg]⟩ := by
  unfold monitorOtherwise at h
  split_ifs at h
  · cases h
  · exact (Except.ok.inj h).symm

theorem monitorOptions_assigns : ∀ o ∈ monitorOptions,
    Assigns "--d-to-c" intOf (·.args.pipes.read) o ∧ Assigns "--c-to-d" intOf (·.args.pipes.write) o ∧
      Assigns "-lf" some (·.args.conf.logFile) o ∧ Assigns "-ls" some (·.args.conf.logSysName) o ∧
      Assigns "--log-to-file" parsedBool (·.args.conf.logToFile) o ∧
      Assigns "--log-to-sys" parsedBool (·.args.conf.logToSys) o := by
  intro o ho
  simp only [monitorOptions, List.mem_cons, List.not_mem_nil, or_false] at ho
  rcases ho with rfl | rfl | rfl | rfl | rfl | rfl | rfl
  · simp [argParseFlag, Assigns, MonitorScan.setArgs]
  · simp +contextual [argParseInt, assigns_value_iff, intOf, MonitorScan.setArgs]
  · simp +contextual [argParseInt, assigns_value_iff, intOf, MonitorScan.setArgs]
  · simp [argParseString, Assigns, MonitorScan.setConf, MonitorScan.setArgs]
  · simp [argParseString, Assigns, MonitorScan.setConf, MonitorScan.setArgs]
  · simp +contextual [argParseBool, assigns_value_iff, parsedBool, MonitorScan.setConf, MonitorScan.setArgs]
  · simp +contextual [argParseBool, assigns_value_iff, parsedBool, MonitorScan.setConf, MonitorScan.setArgs]

/-- A value touches neither what says who has started the monitor nor the directories. -/
theorem monitorOptions_frame {short long name input : String}
    {set : String → MonitorScan → Except ArgExit MonitorScan} {s s' : MonitorScan}
    (hmem : ⟨short, long, .value name set⟩ ∈ monitorOptions) (h : set input s = .ok s') :
    s'.args.fromDaemon = s.args.fromDaemon ∧ s'.args.conf.logToStdout = s.args.conf.logToStdout ∧
      s'.args.dirs = s.args.dirs ∧ s'.stringArray = s.stringArray := by
  simp only [monitorOptions, List.mem_cons, List.not_mem_nil, or_false] at hmem
  rcases hmem with ho | ho | ho | ho | ho | ho | ho
  · cases ho
  · cases ho
    obtain ⟨fd, -, rfl⟩ := map_eq_ok h
    exact ⟨rfl, rfl, rfl, rfl⟩
  · cases ho
    obtain ⟨fd, -, rfl⟩ := map_eq_ok h
    exact ⟨rfl, rfl, rfl, rfl⟩
  · cases ho
    cases h
    exact ⟨rfl, rfl, rfl, rfl⟩
  · cases ho
    cases h
    exact ⟨rfl, rfl, rfl, rfl⟩
  · cases ho
    obtain ⟨b, -, rfl⟩ := map_eq_ok h
    exact ⟨rfl, rfl, rfl, rfl⟩
  · cases ho
    obtain ⟨b, -, rfl⟩ := map_eq_ok h
    exact ⟨rfl, rfl, rfl, rfl⟩

/-- What comes of the flag and of the other arguments. -/
structure Collected (done : List Item) (s : MonitorScan) : Prop where
  fromDaemon : s.args.fromDaemon = decide (.flag "-fd" ∈ done)
  logToStdout : s.args.conf.logToStdout = true
  array : s.stringArray = positionals done
  dirs : s.args.dirs = if positionals done = [] then monitorArgs.dirs else positionals done

theorem keeps_collected : Keeps monitorOptions monitorOtherwise Collected := by
  constructor
  · intro done s short long set hmem hdone
    simp only [monitorOptions, argParseFlag, argParseInt, argParseString, argParseBool, List.mem_cons,
      ArgOption.mk.injEq, ArgAction.flag.injEq, reduceCtorEq, and_false, or_false, List.not_mem_nil] at hmem
    obtain ⟨rfl, -, rfl⟩ := hmem
    constructor
    · simp [MonitorScan.setArgs]
    · exact hdone.logToStdout
    · simpa [MonitorScan.setArgs] using hdone.array
    · simpa [MonitorScan.setArgs] using hdone.dirs
  · intro done s s' short long name set input hmem hstep hdone
    obtain ⟨hdaemon, hstdout, hdirs, harray⟩ := monitorOptions_frame hmem hstep
    constructor
    · simpa [hdaemon] using hdone.fromDaemon
    · rw [hstdout, hdone.logToStdout]
    · simpa [harray] using hdone.array
    · simpa [hdirs] using hdone.dirs
  · intro done s s' arg hstep hdone
    rw [monitorOtherwise_eq_ok hstep]
    constructor
    · simpa using hdone.fromDaemon
    · exact hdone.logToStdout
    · simp [hdone.array]
    · simp [hdone.array]

/-- A field that one option sets holds what its last value means. -/
theorem latest_of_run {α : Type} {shortName : String} {meaning : String → Option α} (field : MonitorArgs → α)
    (hdirs : ∀ a dirs, field { a with dirs := dirs } = field a)
    (hassigns : ∀ o ∈ monitorOptions, Assigns shortName meaning (fun s => field s.args) o) {args : List String}
    {s : MonitorScan} (hrun : parseArgs monitorOptions monitorOtherwise args ⟨monitorArgs, []⟩ = .ok s) :
    Latest meaning (field monitorArgs) (values shortName (items monitorOptions args)) (field s.args) := by
  have hother : ∀ arg s s', monitorOtherwise arg s = .ok s' → field s'.args = field s.args := by
    intro arg s s' hstep
    rw [monitorOtherwise_eq_ok hstep, hdirs]
  have hstart : Latest meaning (field monitorArgs) (values shortName []) (field monitorArgs) := latest_nil _ _
  have hkeeps := @keeps_latest α meaning (field monitorArgs) _ _ _ _ _ hother hassigns
  exact hkeeps.parseArgs hstart hrun

/-- The monitor folds its arguments, with what it takes for the sense of a truth value. -/
theorem configureMonitorArgs_folded {argv : List String} {args : MonitorArgs}
    (h : configureMonitorArgs argv = .ok args) : Folded parsedBool (items monitorOptions argv.tail) args := by
  obtain ⟨s, hrun, rfl⟩ := map_eq_ok h
  have hstart : Collected [] ⟨monitorArgs, []⟩ := ⟨rfl, rfl, rfl, rfl⟩
  have hcollected := keeps_collected.parseArgs hstart hrun
  constructor
  · exact hcollected.fromDaemon
  · exact latest_of_run (·.pipes.read) (fun _ _ => rfl) (fun o ho => (monitorOptions_assigns o ho).1) hrun
  · exact latest_of_run (·.pipes.write) (fun _ _ => rfl) (fun o ho => (monitorOptions_assigns o ho).2.1) hrun
  · exact latest_of_run (·.conf.logFile) (fun _ _ => rfl) (fun o ho => (monitorOptions_assigns o ho).2.2.1) hrun
  · exact latest_of_run (·.conf.logSysName) (fun _ _ => rfl) (fun o ho => (monitorOptions_assigns o ho).2.2.2.1) hrun
  · exact latest_of_run (·.conf.logToFile) (fun _ _ => rfl) (fun o ho => (monitorOptions_assigns o ho).2.2.2.2.1) hrun
  · exact latest_of_run (·.conf.logToSys) (fun _ _ => rfl) (fun o ho => (monitorOptions_assigns o ho).2.2.2.2.2) hrun
  · exact hcollected.logToStdout
  · exact hcollected.dirs

/-- Every value given to the option says true or false, and the last one is "1". -/
def OnlyOne (shortName : String) (done : List Item) : Prop :=
  (∀ input ∈ values shortName done, (boolOf input).isSome) ∧
    ∀ input, (values shortName done).getLast? = some input → input = "1"

/-- The configuration is what the arguments say if and only if no truth value is given in the end but "1". -/
theorem configureMonitorArgs_folded_iff {argv : List String} {args : MonitorArgs}
    (h : configureMonitorArgs argv = .ok args) :
    Folded boolOf (items monitorOptions argv.tail) args ↔
      OnlyOne "--log-to-file" (items monitorOptions argv.tail) ∧
        OnlyOne "--log-to-sys" (items monitorOptions argv.tail) := by
  have hparsed := configureMonitorArgs_folded h
  constructor
  · intro hfolded
    exact ⟨hparsed.logToFile.boolOf_iff.1 hfolded.logToFile, hparsed.logToSys.boolOf_iff.1 hfolded.logToSys⟩
  · rintro ⟨hfile, hsys⟩
    exact
      { hparsed with
        logToFile := hparsed.logToFile.boolOf_iff.2 hfile
        logToSys := hparsed.logToSys.boolOf_iff.2 hsys }

/-- Two directories, and between them a value for the log of the system. -/
def aroundLogToSys (input : String) : List String := ["reportman_mon", "/srv/a", "--log-to-sys", input, "/srv/b"]

theorem configureMonitorArgs_aroundLogToSys (input : String) :
    configureMonitorArgs (aroundLogToSys input) = .ok
      { monitorArgs with
        dirs := ["/srv/a", "/srv/b"]
        conf := { monitorArgs.conf with logToSys := decide (input.toLower ≠ "true") } } := by
  simp [configureMonitorArgs, aroundLogToSys, parseArgs, monitorOptions, argParseFlag, argParseInt, argParseString,
    argParseBool, ArgOption.named, parseBoolArg_eq, monitorOtherwise, argUnrecognised, MonitorScan.setConf,
    MonitorScan.setArgs, Functor.map, Except.map, Bind.bind, Except.bind]

theorem configureMonitorArgs_folded_iff_one : ∃ args, configureMonitorArgs (aroundLogToSys "1") = .ok args ∧
    Folded boolOf (items monitorOptions (aroundLogToSys "1").tail) args := by
  have hfile : values "--log-to-file" (items monitorOptions (aroundLogToSys "1").tail) = [] := rfl
  have hsys : values "--log-to-sys" (items monitorOptions (aroundLogToSys "1").tail) = ["1"] := rfl
  refine ⟨_, configureMonitorArgs_aroundLogToSys "1",
    (configureMonitorArgs_folded_iff (configureMonitorArgs_aroundLogToSys "1")).2 ⟨?_, ?_⟩⟩
  · simp [OnlyOne, hfile]
  · simp [OnlyOne, hsys, boolOf]

/-- The log of the system is not wanted, and it is on. -/
theorem not_folded_false : ∃ args, configureMonitorArgs (aroundLogToSys "false") = .ok args ∧
    args.conf.logToSys = true ∧ ¬ Folded boolOf (items monitorOptions (aroundLogToSys "false").tail) args := by
  have hfalse : "false".toLower ≠ "true" := by
    simp [toLower_eq_iff]
  refine ⟨_, configureMonitorArgs_aroundLogToSys "false", by simpa using hfalse, fun hfolded => ?_⟩
  have hvalues : values "--log-to-sys" (items monitorOptions (aroundLogToSys "false").tail) = ["false"] := rfl
  have hlast := hfolded.logToSys.2
  rw [hvalues] at hlast
  simp [boolOf, toLower_eq_iff] at hlast

end Monitor

end Reportman.MonitorOptions
