import Mathlib
import Reportman.Arguments
import Reportman.Watching

/-!
# What becomes of the daemon's settings

The daemon reads two times and a log path from its own arguments, and starts its children with nothing but
pipes and directories. So the children keep to their own defaults, after each restart as before.
-/
namespace Reportman.Settings
open Resumable Ipc Daemon Watching Arguments

structure DaemonArguments where
  makeDaemon : Bool
  force : Bool
  close : Bool
  logToSys : Bool
  logToFile : Bool
  monitorLogFilePath : String
  monitorLogSysName : String
  daemonPort : ℤ
  backupTimeStr : String
  transferTimeStr : String

def execArgs : DaemonArguments where
  makeDaemon := true
  force := false
  close := false
  logToSys := false
  logToFile := true
  monitorLogFilePath := mLogPath
  monitorLogSysName := "reportman_mon"
  daemonPort := 7770
  backupTimeStr := "01:00"
  transferTimeStr := "23:30"

section Paths

/-- What the file system says about a path: `realpath`, and `access` to its `dirname` for existence and for
writing. -/
structure PathCalls where
  realpath : String → Option String
  parentExists : String → ℤ
  parentWritable : String → ℤ

def wOk : ℤ := 2

/-- Zero is success, so that this is never so. -/
def hasWritePermissionToParent (fs : PathCalls) (path : String) : Bool := fs.parentWritable path = wOk

def hasPathParent (fs : PathCalls) (path : String) : Bool := fs.parentExists path = 0

/-- What is before the last slash, and what is after it. -/
def removeLastItemPath (path : String) : Option (String × String) :=
  if '/' ∈ path.toList then
    some (.ofList (path.toList.reverse.dropWhile (· ≠ '/')).tail.reverse,
      .ofList (path.toList.reverse.takeWhile (· ≠ '/')).reverse)
  else none

def dInvalidPathFormat : ℤ := -1
def dNoWriteToLogParentDirectory : ℤ := -2
def dParentPathNoExist : ℤ := -3
def dCouldNotExpand : ℤ := -4

def getPath (fs : PathCalls) (inputPath : String) : Except ℤ String :=
  if inputPath = "" then .error dInvalidPathFormat
  else
    match removeLastItemPath inputPath with
    | none => if fs.realpath inputPath = none then .error dCouldNotExpand else .ok inputPath
    | some (directory, fileName) =>
        let outputPath := directory ++ "/" ++ fileName
        if fs.realpath directory = none then .error dCouldNotExpand
        else if ¬ hasPathParent fs outputPath then .error dParentPathNoExist
        else if hasWritePermissionToParent fs outputPath then .error dNoWriteToLogParentDirectory
        else .ok outputPath

theorem removeLastItemPath_append {path directory fileName : String}
    (h : removeLastItemPath path = some (directory, fileName)) : directory ++ "/" ++ fileName = path := by
  unfold removeLastItemPath at h
  split_ifs at h with hslash
  obtain ⟨rfl, rfl⟩ := Prod.mk.inj (Option.some.inj h)
  obtain ⟨c, rest, hrest⟩ : ∃ c rest, path.toList.reverse.dropWhile (· ≠ '/') = c :: rest := by
    refine List.exists_cons_of_ne_nil fun hnil => ?_
    have := List.dropWhile_eq_nil_iff.1 hnil '/' (List.mem_reverse.2 hslash)
    simp at this
  have hc : c = '/' := by
    have := List.head?_dropWhile_not (fun x : Char => decide (x ≠ '/')) path.toList.reverse
    rw [hrest] at this
    simpa using this
  have hsplit := List.takeWhile_append_dropWhile (p := fun x : Char => decide (x ≠ '/')) (l := path.toList.reverse)
  rw [hrest, hc] at hsplit
  refine String.toList_inj.1 ?_
  rw [hrest]
  have := congrArg List.reverse hsplit
  simpa using this

theorem getPath_ok {fs : PathCalls} {inputPath outputPath : String} (h : getPath fs inputPath = .ok outputPath) :
    outputPath = inputPath := by
  have hne : inputPath ≠ "" := by
    rintro rfl
    cases h
  rw [getPath, if_neg hne] at h
  cases hsplit : removeLastItemPath inputPath with
  | none =>
    simp only [hsplit] at h
    split_ifs at h
    exact (Except.ok.inj h).symm
  | some parts =>
    simp only [hsplit] at h
    split_ifs at h
    exact (Except.ok.inj h).symm.trans (removeLastItemPath_append hsplit)

end Paths

section Configuration

variable (fs : PathCalls)

def daemonOptions : List (ArgOption DaemonArguments) :=
  [argParseFlag "-nd" "--no-daemon" fun a => { a with makeDaemon := false },
    argParseFlag "-f" "--force" fun a => { a with force := true },
    argParseFlag "-c" "--close" fun a => { a with close := true },
    argParseUshort "-p" "--port" "port" fun port a => { a with daemonPort := port },
    argParseString "-tt" "--transfer-time" "time stamp" fun text a => .ok { a with transferTimeStr := text },
    argParseString "-bt" "--backup-time" "time stamp" fun text a => .ok { a with backupTimeStr := text },
    argParseString "-lf" "--log-file" "log file" fun path a =>
      (fun logFile => { a with monitorLogFilePath := logFile }) <$> (getPath fs path).mapError .response]

def daemonOtherwise (arg : String) (_ : DaemonArguments) : Except ArgExit DaemonArguments :=
  .error (.failure ("Unrecognized argument passed '" ++ arg ++ "'."))

def configureDaemonArgs (argv : List String) : Except ArgExit DaemonArguments :=
  parseArgs (daemonOptions fs) daemonOtherwise argv.tail execArgs

/-- What the user has asked for: the last value of each option, or the daemon's own default. -/
def asked (argv : List String) (shortName default : String) : String :=
  lastValue shortName (daemonOptions fs) argv.tail default

variable {fs} {argv : List String} {settings : DaemonArguments}

theorem mapError_eq_ok {ε ε' α : Type} {x : Except ε α} {f : ε → ε'} {a : α} (h : x.mapError f = .ok a) :
    x = .ok a := by
  cases x with
  | error e => cases h
  | ok a' => exact congrArg Except.ok (Except.ok.inj h)

/-- The log path is kept as it was given. -/
theorem daemonOptions_sets {field : DaemonArguments → String} {shortName : String}
    (hflags : ∀ a b, field { a with makeDaemon := b } = field a ∧ field { a with force := b } = field a ∧
      field { a with close := b } = field a)
    (hport : ∀ a port, field { a with daemonPort := port } = field a)
    (htransfer : ∀ a text, field { a with transferTimeStr := text } = if "-tt" = shortName then text else field a)
    (hbackup : ∀ a text, field { a with backupTimeStr := text } = if "-bt" = shortName then text else field a)
    (hlog : ∀ a text, field { a with monitorLogFilePath := text } = if "-lf" = shortName then text else field a)
    (hname : "-p" ≠ shortName) : ∀ o ∈ daemonOptions fs, o.Sets shortName field := by
  intro o ho
  simp only [daemonOptions, List.mem_cons, List.not_mem_nil, or_false] at ho
  rcases ho with rfl | rfl | rfl | rfl | rfl | rfl | rfl
  · exact fun a => (hflags a false).1
  · exact fun a => (hflags a true).2.1
  · exact fun a => (hflags a true).2.2
  · intro input a a' h
    obtain ⟨port, -, rfl⟩ := map_eq_ok h
    exact (hport a port).trans (if_neg hname).symm
  · rintro input a _ ⟨⟩
    exact htransfer a input
  · rintro input a _ ⟨⟩
    exact hbackup a input
  · intro input a a' h
    obtain ⟨logFile, hpath, rfl⟩ := map_eq_ok h
    rw [getPath_ok (mapError_eq_ok hpath)]
    exact hlog a input

theorem configureDaemonArgs_asked (h : configureDaemonArgs fs argv = .ok settings) :
    settings.backupTimeStr = asked fs argv "-bt" execArgs.backupTimeStr ∧
      settings.transferTimeStr = asked fs argv "-tt" execArgs.transferTimeStr ∧
      settings.monitorLogFilePath = asked fs argv "-lf" execArgs.monitorLogFilePath := by
  have hother : ∀ (field : DaemonArguments → String) arg a a', daemonOtherwise arg a = .ok a' →
      field a' = field a := by
    rintro field arg a a' ⟨⟩
  refine ⟨parseArgs_lastValue _ (hother _) (daemonOptions_sets ?_ ?_ ?_ ?_ ?_ ?_) h,
    parseArgs_lastValue _ (hother _) (daemonOptions_sets ?_ ?_ ?_ ?_ ?_ ?_) h,
    parseArgs_lastValue _ (hother _) (daemonOptions_sets ?_ ?_ ?_ ?_ ?_ ?_) h⟩
  all_goals simp

end Configuration

section Forks

/-- `__directories`. -/
def directories : List String := [rReportsDirectory, rBackupDirectory, rDashboardDirectory]

def pipeEnds : (op : DaemonSys) → op.Res → Bool
  | .pipe, some (readEnd, writeEnd) => IsDescriptor readEnd ∧ IsDescriptor writeEnd
  | _, _ => true

/-- Both ends of a pipe are descriptors. -/
def PipeEnds (op : DaemonSys) (r : op.Res) (_ : Unit) : Prop := pipeEnds op r = true

instance (op : DaemonSys) (r : op.Res) : Decidable (PipeEnds op r ()) :=
  inferInstanceAs (Decidable (_ = true))

/-- A child gets the ends of its pipes, and no option but those that name them. -/
def PlainFork : (op : DaemonSys) → op.Res → Unit → Prop
  | .fork c _ args, _, _ => ∃ parentRead childWrite extraArgs, args = childArgs c parentRead childWrite extraArgs ∧
      IsDescriptor parentRead ∧ IsDescriptor childWrite ∧ (extraArgs = [] ∨ c = .mon ∧ extraArgs = directories)
  | _, _, _ => True

def Forkless : DaemonSys → Prop
  | .fork _ _ _ => False
  | _ => True

abbrev Forks {α : Type} (P : α → Unit → Prop) (p : DaemonProg α) : Prop :=
  Upheld (fun _ _ _ => ()) PipeEnds PlainFork (fun _ => True) P p ()

variable {α : Type} (dSocket : ℤ) (fds : PollFds) (d : DaemonState)

theorem forks_of_forkless {P : α → Unit → Prop} {Q : α → Prop} {p : DaemonProg α}
    (h : p.Always (fun op _ => Forkless op) Q) (hP : ∀ a s, Q a → P a s) : Forks P p := by
  refine (upheld_of_always (J := fun _ => True) h ?_ (fun _ _ => trivial) trivial).mono
    fun a s h' => hP a s h'.1
  intro op r s hop _ _
  cases op <;> first | exact hop.elim | exact ⟨trivial, trivial⟩

theorem forks_of_elsewhere {P : α → Unit → Prop} {Q : α → Prop} {p : DaemonProg α}
    (h : p.Always (fun op _ => Elsewhere op) Q) (hP : ∀ a s, Q a → P a s) : Forks P p := by
  refine forks_of_forkless (h.mono (fun op _ hop => ?_) fun _ hq => hq) hP
  cases op <;> first | exact hop.elim | trivial

theorem forks_of_talks {P : α → Unit → Prop} {Q : α → Prop} {site : Site} {pipes : IpcPipes} {p : DaemonProg α}
    (h : p.Always (fun op _ => Talks site pipes op) Q) (hP : ∀ a s, Q a → P a s) : Forks P p := by
  refine forks_of_forkless (h.mono (fun op _ hop => ?_) fun _ hq => hq) hP
  cases op <;> first | exact hop.elim | trivial

theorem startChildProcess_forks (p : ChildProcess) (c : ChildName) {extraArgs : List String}
    (hextra : extraArgs = [] ∨ c = .mon ∧ extraArgs = directories) :
    Forks (fun _ _ => True) (startChildProcess dSocket p c extraArgs) := by
  refine upheld_call fun childPipes hchild => ⟨trivial, ?_⟩
  rcases childPipes with _ | ⟨childRead, childWrite⟩
  · trivial
  refine upheld_call fun parentPipes hparent => ⟨trivial, ?_⟩
  rcases parentPipes with _ | ⟨parentRead, parentWrite⟩
  · trivial
  refine upheld_call fun forked _ => ⟨⟨parentRead, childWrite, extraArgs, rfl, (of_decide_eq_true hparent).1,
    (of_decide_eq_true hchild).2, hextra⟩, ?_⟩
  cases forked with
  | none => exact forks_of_elsewhere (exitWith_elsewhere _ fun _ => True) fun _ _ _ => trivial
  | some pid =>
    exact upheld_call fun _ _ => ⟨trivial, upheld_call fun _ _ => ⟨trivial, trivial⟩⟩

theorem childSpawn_forks (c : ChildName) {extraArgs : List String}
    (hextra : extraArgs = [] ∨ c = .mon ∧ extraArgs = directories) :
    Forks (fun _ _ => True) (childSpawn dSocket d c extraArgs) :=
  (startChildProcess_forks dSocket (d.child c) c hextra).bind fun _ _ _ =>
    (forks_of_talks (acknowledgeClient_talks _ c) fun _ _ _ => trivial).bind
      (P := fun _ _ => True) fun _ _ _ => trivial

theorem healthProbeChildProcess_forks (c : ChildName) {post : DaemonState → DaemonProg DaemonState}
    (hpost : ∀ d, Forks (fun _ _ => True) (post d)) :
    Forks (fun _ _ => True) (healthProbeChildProcess dSocket d c post) := by
  have hrestart : ∀ d, Forks (fun _ _ => True) (restartChild dSocket d c post) := by
    intro d
    unfold restartChild
    dsimp only
    split_ifs
    · exact forks_of_elsewhere (exitWith_elsewhere _ fun _ => True) fun _ _ _ => trivial
    · exact (childSpawn_forks dSocket _ c (.inl rfl)).bind fun d₁ _ _ => (hpost d₁).bind fun _ _ _ => trivial
  rw [healthProbeChildProcess_eq]
  refine upheld_call fun isAlive _ => ⟨trivial, ?_⟩
  cases isAlive with
  | false => exact hrestart _
  | true =>
    refine (forks_of_talks (answersProbe_talks _ c) fun _ _ _ => trivial).bind
      (P := fun _ _ => True) fun answered _ _ => ?_
    cases answered with
    | true => trivial
    | false => exact upheld_call fun _ _ => ⟨trivial, upheld_call fun _ _ => ⟨trivial, hrestart _⟩⟩

theorem parts : Parts (fun _ _ _ => ()) PipeEnds PlainFork (fun _ => True) dSocket fds fun _ _ => True where
  poll := fun _ _ _ _ _ => ⟨trivial, trivial⟩
  giveUp := fun _ _ _ => forks_of_elsewhere
    (elsewhere_of_quits (killChildren_exit_quits .failure fun _ => False)) fun _ _ h => h
  signal := fun d _ _ => forks_of_elsewhere (signalMessage_elsewhere dSocket fds d) fun _ _ _ => trivial
  client := fun d _ exchanges _ => forks_of_elsewhere (clientMessage_elsewhere dSocket fds d exchanges)
    fun _ _ _ => ⟨fun _ => trivial, fun _ _ => trivial⟩
  message := by
    intro d _ c site secs _ _
    refine (forks_of_talks (getCommand_talks d site c secs) fun _ _ _ => trivial).bind
      (P := fun _ _ => True) fun d' _ _ => ?_
    split_ifs
    · exact forks_of_elsewhere (cleanClose_elsewhere dSocket fds d' .failure fun _ => True) fun _ _ _ => trivial
    · trivial
  rearm := fun _ _ _ _ _ => ⟨trivial, fun _ => trivial, fun _ =>
    forks_of_elsewhere (exitWith_elsewhere .failure fun _ => False) fun _ _ h => h⟩
  probeFm := fun d _ _ => healthProbeChildProcess_forks dSocket d .fm fun d' =>
    forks_of_talks (reportmanFmGetTimers_talks d') fun _ _ _ => trivial
  probeMon := fun d _ _ => healthProbeChildProcess_forks dSocket d .mon fun _ => trivial

theorem startUp_forks : Forks (fun _ _ => True) (startUp dSocket directories d) := by
  refine (childSpawn_forks dSocket d .fm (.inl rfl)).bind fun d₁ _ _ => ?_
  refine (forks_of_talks (reportmanFmGetTimers_talks d₁) fun _ _ _ => trivial).bind
    (P := fun _ _ => True) fun d₂ _ _ => ?_
  refine (childSpawn_forks dSocket d₂ .mon (.inr ⟨rfl, rfl⟩)).bind fun d₃ _ _ => ?_
  obtain ⟨next, hnext, halways⟩ := prepare_elsewhere dSocket d₃
  rw [hnext]
  exact upheld_call fun command _ => ⟨trivial, forks_of_elsewhere (halways command) fun _ _ _ => trivial⟩

/-- Every start of a child in a run, the first as well as the restarts. -/
theorem daemonMain_forks (exchanges rounds : ℕ) (sched : ℕ → Environment)
    (hpipes : ∀ e ∈ trace answer sched (daemonMain dSocket directories exchanges rounds d) 0 (),
      PipeEnds e.op e.res ()) :
    ∀ e ∈ trace answer sched (daemonMain dSocket directories exchanges rounds d) 0 (),
      PlainFork e.op e.res () := by
  have hmain : Forks (fun _ _ => True) (daemonMain dSocket directories exchanges rounds d) := by
    refine (startUp_forks dSocket d).bind fun r _ _ => ?_
    exact ((parts dSocket r.1).pollLoop exchanges rounds trivial).bind fun _ _ _ => trivial
  exact (Program.Upholds.run hmain sched hpipes).1

end Forks

section Settings

variable (clock : Clock) (fs : PathCalls) (argv : List String)

/-- What a child started with `args` does is what the daemon has been asked for. -/
def Carried (args : List String) : ChildName → Prop
  | .fm => ∃ a, configureReportmanFmArgs clock args = .ok a ∧
      getHhMmStr clock (asked fs argv "-bt" execArgs.backupTimeStr) = .ok a.backupTime ∧
      getHhMmStr clock (asked fs argv "-tt" execArgs.transferTimeStr) = .ok a.transferTime
  | .mon => ∃ a, configureMonitorArgs args = .ok a ∧
      asked fs argv "-lf" execArgs.monitorLogFilePath = a.conf.logFile

/-- The daemon has been asked for what the child does by itself. -/
def AskedForDefaults : ChildName → Prop
  | .fm => hhMm (asked fs argv "-bt" execArgs.backupTimeStr) = hhMm dDefaultBackupTime ∧
      hhMm (asked fs argv "-tt" execArgs.transferTimeStr) = hhMm dDefaultTransferTime
  | .mon => asked fs argv "-lf" execArgs.monitorLogFilePath = mLogPath

/-- The start of an epoch without any offset from it. -/
def epoch : Clock := ⟨0, fun hour minute tomorrow => 3600 * hour + 60 * minute + if tomorrow then 86400 else 0⟩

variable {clock fs argv}

theorem hhMm_minute {input : String} {hour minute : ℕ} (h : hhMm input = .ok (hour, minute)) :
    hour ≤ 23 ∧ minute ≤ 59 := by
  unfold hhMm at h
  split at h
  · cases h
  · split_ifs at h with hrange
    obtain ⟨rfl, rfl⟩ := Prod.mk.inj (Except.ok.inj h)
    omega

/-- Two times of day at which a clock never disagrees are the same. -/
theorem hhMm_of_next {input : String} {hour minute : ℕ} (hminute : minute ≤ 59)
    (h : getHhMmStr epoch input = .ok (epoch.next (hour, minute))) : hhMm input = .ok (hour, minute) := by
  unfold getHhMmStr at h
  obtain ⟨⟨hour', minute'⟩, htime, hnext⟩ := map_eq_ok h
  have hrange := hhMm_minute htime
  have hsame : 3600 * (hour' : ℤ) + 60 * minute' = 3600 * hour + 60 * minute := by
    have hzero : ∀ h m : ℕ, epoch.next (h, m) = 3600 * (h : ℤ) + 60 * m := by
      intro h m
      unfold Clock.next epoch
      have hlate : ¬ (3600 * (h : ℤ) + 60 * m + if false = true then 86400 else 0) < 0 := by
        simp
        omega
      rw [if_neg hlate]
      simp
    rwa [hzero, hzero] at hnext
  obtain rfl : hour' = hour := by omega
  obtain rfl : minute' = minute := by omega
  exact htime

theorem carried_iff {c : ChildName} {args : List String} (h : PlainFork (.fork c [] args) none ()) :
    (∀ clock, Carried clock fs argv args c) ↔ AskedForDefaults fs argv c := by
  obtain ⟨parentRead, childWrite, extraArgs, rfl, hread, hwrite, hextra⟩ := h
  cases c with
  | fm =>
    obtain rfl : extraArgs = [] := hextra.resolve_right fun h => nomatch h.1
    have hargs := fun clock =>
      configureReportmanFmArgs_childArgs hread.1 hread.2 hwrite.1 hwrite.2 clock
    constructor
    · intro hcarried
      obtain ⟨a, ha, hbackup, htransfer⟩ := hcarried epoch
      obtain rfl := Except.ok.inj ((hargs epoch).symm.trans ha)
      exact ⟨hhMm_of_next (by decide) hbackup, hhMm_of_next (by decide) htransfer⟩
    · rintro ⟨hbackup, htransfer⟩ clock
      refine ⟨_, hargs clock, ?_, ?_⟩
      · unfold getHhMmStr
        rw [hbackup]
        rfl
      · unfold getHhMmStr
        rw [htransfer]
        rfl
  | mon =>
    have hdash : ∀ e ∈ extraArgs, argUnrecognised e = false := by
      rcases hextra with rfl | ⟨-, rfl⟩
      · exact nofun
      · decide
    have hargs := configureMonitorArgs_childArgs hread.1 hread.2 hwrite.1 hwrite.2 hdash
    constructor
    · intro hcarried
      obtain ⟨a, ha, hlog⟩ := hcarried epoch
      obtain rfl := Except.ok.inj (hargs.symm.trans ha)
      exact hlog
    · exact fun hlog _ => ⟨_, hargs, hlog⟩

/-- Whatever the daemon has been asked for, its children do what they do by themselves. -/
theorem daemonMain_settings {settings : DaemonArguments} (haccepted : configureDaemonArgs fs argv = .ok settings)
    (dSocket : ℤ) (exchanges rounds : ℕ) (maxRetries : ChildName → UInt16) (sched : ℕ → Environment)
    (hpipes : ∀ e ∈ trace answer sched
      (daemonMain dSocket directories exchanges rounds (initially maxRetries)) 0 (), PipeEnds e.op e.res ()) :
    (settings.backupTimeStr = asked fs argv "-bt" execArgs.backupTimeStr ∧
      settings.transferTimeStr = asked fs argv "-tt" execArgs.transferTimeStr ∧
      settings.monitorLogFilePath = asked fs argv "-lf" execArgs.monitorLogFilePath) ∧
    ∀ e ∈ trace answer sched (daemonMain dSocket directories exchanges rounds (initially maxRetries)) 0 (),
      ∀ c closed args, e.op = .fork c closed args →
        ((∀ clock, Carried clock fs argv args c) ↔ AskedForDefaults fs argv c) := by
  refine ⟨configureDaemonArgs_asked haccepted, ?_⟩
  rintro ⟨op, res, before, after⟩ he c closed args rfl
  exact carried_iff (daemonMain_forks dSocket _ exchanges rounds sched hpipes _ he)

/-- A file system in which every path can be resolved and written to. -/
def anyPath : PathCalls := ⟨some, fun _ => 0, fun _ => 0⟩

theorem daemonMain_settings_default : ∃ args, (∃ e ∈ trace answer (answering ackBytes 0)
      (daemonMain 4 directories 0 1 (initially fun _ => 3)) 0 (), ∃ closed, e.op = .fork .fm closed args) ∧
    ((∀ clock, Carried clock anyPath ["reportmand", "-bt", "00:30"] args .fm) ↔
      AskedForDefaults anyPath ["reportmand", "-bt", "00:30"] .fm) := by
  have hpipes : ∀ e ∈ trace answer (answering ackBytes 0)
      (daemonMain 4 directories 0 1 (initially fun _ => 3)) 0 (), PipeEnds e.op e.res () := by
    decide +kernel
  have hfork : (trace answer (answering ackBytes 0) (daemonMain 4 directories 0 1 (initially fun _ => 3)) 0 ())[2]? =
      some ⟨.fork .fm [4, 13, 10] (childArgs .fm 12 11 []), some 102, (), ()⟩ := rfl
  have hmem := List.mem_of_getElem? hfork
  exact ⟨_, ⟨_, hmem, _, rfl⟩, (@daemonMain_settings anyPath ["reportmand", "-bt", "00:30"]
    { execArgs with backupTimeStr := "00:30" } rfl 4 0 1 (fun _ => 3) (answering ackBytes 0) hpipes).2 _ hmem _ _ _
    rfl⟩

/-- Without any option the daemon means one o'clock and `reportman_fm` half past twelve. -/
theorem not_carried_default : configureDaemonArgs anyPath ["reportmand"] = .ok execArgs ∧
    ∃ e ∈ trace answer (answering ackBytes 0) (daemonMain 4 directories 0 1 (initially fun _ => 3)) 0 (),
      ∃ closed args, e.op = .fork .fm closed args ∧ ¬ Carried epoch anyPath ["reportmand"] args .fm := by
  have hfork : (trace answer (answering ackBytes 0) (daemonMain 4 directories 0 1 (initially fun _ => 3)) 0 ())[2]? =
      some ⟨.fork .fm [4, 13, 10] (childArgs .fm 12 11 []), some 102, (), ()⟩ := rfl
  refine ⟨rfl, _, List.mem_of_getElem? hfork, _, _, rfl, ?_⟩
  rintro ⟨a, ha, hbackup, -⟩
  have hargs : configureReportmanFmArgs epoch (childArgs .fm 12 11 []) = _ :=
    configureReportmanFmArgs_childArgs (by decide) (by decide) (by decide) (by decide) epoch
  obtain rfl := Except.ok.inj (hargs.symm.trans ha)
  exact absurd (@hhMm_of_next _ 0 30 (by decide) hbackup) (by decide)

end Settings

end Reportman.Settings
