import Mathlib
import Reportman.FormatStrings
import Reportman.MonitorLog

/-!
# What the monitor passes to `syslog`

Some messages of the monitor have a format of their own, and others are put together first and then passed as
a format. Paths, the names of files and the name for the log of the system are in them.
-/
namespace Reportman.SyslogFormats
open FormatStrings Arguments MonitorLog
open FileSystem (Bytes bytes)

section Source

/-- A string literal of the source. -/
def text (s : String) : Text := literal (bytes s)

def snprintf (size : ℕ) (built : Text) : Text := built.take (size - 1)

/-- A message in a format of its own. -/
def formatted (format : String) (args : List Bytes) (built : Bytes) : Call := ⟨text format, args, built⟩

def eventLogText (path : Bytes) (event : InotifyEvent) : Text :=
  snprintf mLogBufferSize (text "Received event in '" ++ (data path ++ (text "/" ++ (data event.name ++
    (text "': " ++ (literal (getLogMessage event) ++ (text " by " ++ literal unimplemented)))))))

/-- How the calls of `__log_event` that can fail come out, and what `strerror` says about them. -/
structure Outcome where
  printed : Bool
  flushed : Bool
  strerror : Bytes

/-- What there is to say about the log itself. `fprintf` on `NULL` ends the process. -/
def logErrorCalls (m : MonitorTool) (outcome : Outcome) : List Call :=
  if m.logFileFd = none then
    [formatted "File descriptor for %s is not open" [bytes m.conf.logFile]
      (bytes "File descriptor for " ++ (bytes m.conf.logFile ++ bytes " is not open"))]
  else
    (if outcome.printed then []
      else [formatted "fprintf out of range: %s" [outcome.strerror]
        (bytes "fprintf out of range: " ++ outcome.strerror)]) ++
    if outcome.flushed then []
    else [formatted "fflush out of range: %s" [outcome.strerror]
      (bytes "fflush out of range: " ++ outcome.strerror)]

def logEventCalls (m : MonitorTool) (outcome : Outcome) (eventLogMessage : Text) : List Call :=
  (if m.conf.logToSys then [.ofText eventLogMessage] else []) ++
    if m.conf.logToFile then logErrorCalls m outcome else []

def mtEventProcessCalls (m : MonitorTool) (monitors : List DirMonitored) (event : InotifyEvent)
    (outcome : Outcome) : List Call :=
  match monitorOf monitors event with
  | none => []
  | some monitor => logEventCalls m outcome (eventLogText monitor.path event)

/-- `PATH_MAX * 4`. -/
def monitorListSize : ℕ := 16384

/-- The message as an argument of the `snprintf` that writes it: C does not say whether it is kept, and it is
emptied first where `snprintf` begins with a zero. -/
def itself (keeps : Bool) (message : Text) : Text := if keeps then message else []

def monitorListMessage (keeps : Bool) (conf : MonitorConf) (dir : Bytes) : Text :=
  let message := snprintf monitorListSize (text "Monitoring " ++ (data dir ++ text " "))
  let message :=
    if conf.logToSys then
      snprintf monitorListSize
        (itself keeps message ++ (text "to syslog (" ++ (data (bytes conf.logSysName) ++ text ")")))
    else message
  let message :=
    if conf.logToSys && conf.logToFile then snprintf monitorListSize (itself keeps message ++ text " and ")
    else message
  if conf.logToFile then
    snprintf monitorListSize (itself keeps message ++ (text "to log file(" ++ (data dir ++ text ")")))
  else message

/-- The loop over the directories, from number `i` on. A directory that is `NULL` ends the process. -/
def directoryCalls (keeps : Bool) (conf : MonitorConf) : ℕ → List (Option Bytes) → List Call
  | _, [] => []
  | i, none :: _ => [formatted "Directory provided %lu is NULL" [bytes (toString i)]
      (bytes "Directory provided " ++ (bytes (toString i) ++ bytes " is NULL"))]
  | i, some dir :: rest => .ofText (monitorListMessage keeps conf dir) :: directoryCalls keeps conf (i + 1) rest

def monitorPathsCalls (keeps panic : Bool) (conf : MonitorConf) (dirs : List (Option Bytes)) : List Call :=
  if panic then [] else directoryCalls keeps conf 0 dirs

/-- Where the monitor calls `syslog`. -/
inductive Site
  | mtEventProcess (m : MonitorTool) (monitors : List DirMonitored) (event : InotifyEvent) (outcome : Outcome)
  | monitorPaths (keeps panic : Bool) (conf : MonitorConf) (dirs : List (Option Bytes))

def Site.calls : Site → List Call
  | .mtEventProcess m monitors event outcome => mtEventProcessCalls m monitors event outcome
  | .monitorPaths keeps panic conf dirs => monitorPathsCalls keeps panic conf dirs

end Source

section Percent

/-- Without the origins it is the message of the event. -/
theorem bytesOf_eventLogText (path : Bytes) (event : InotifyEvent) :
    bytesOf (eventLogText path event) = eventLogMessage path event := by
  simp [eventLogText, eventLogMessage, snprintf, MonitorLog.snprintf, bytesOf, text, literal, data, Function.comp_def]

theorem getLogMessage_unformatted (event : InotifyEvent) : percent ∉ getLogMessage event := by
  unfold getLogMessage
  split
  · decide
  · rename_i entry hfind
    exact (by decide : ∀ entry ∈ eventMasks, percent ∉ entry.2) entry (List.mem_of_find?_eq_some hfind)

theorem eventLogText_unformatted (path : Bytes) (event : InotifyEvent) : Unformatted (eventLogText path event) := by
  have hkind := unformatted_literal (getLogMessage_unformatted event)
  refine Unformatted.take ?_ _
  refine (unformatted_literal (by decide)).append ((unformatted_data path).append ?_)
  refine (unformatted_literal (by decide)).append ((unformatted_data event.name).append ?_)
  exact (unformatted_literal (by decide)).append (hkind.append ((unformatted_literal (by decide)).append
    (unformatted_literal (by decide))))

@[simp] theorem clean_take_text (room : ℕ) (s : String) : Clean ((text s).take room) := clean_take_literal (bytes s)

theorem eventLogText_clean_iff (path : Bytes) (event : InotifyEvent) : Clean (eventLogText path event) ↔
    PlainIn 1004 path ∧ PlainIn (1003 - path.length) event.name := by
  have hbefore : (text "Received event in '").length = 19 := rfl
  have hslash : (text "/").length = 1 := rfl
  have hroom : 1004 - path.length - 1 = 1003 - path.length := by omega
  simp [eventLogText, snprintf, mLogBufferSize, clean_take_append, hbefore, hslash, hroom]

theorem formatted_verbatim {format : String} {args : List Bytes} {built : Bytes}
    (h : ∀ unspecified, render unspecified (scan none (text format)) args = built) :
    (formatted format args built).Verbatim :=
  ⟨fun _ hmem _ hm => origin_of_literal hmem hm, h⟩

theorem logErrorCalls_verbatim (m : MonitorTool) (outcome : Outcome) :
    ∀ c ∈ logErrorCalls m outcome, c.Verbatim := by
  have hnull : (formatted "File descriptor for %s is not open" [bytes m.conf.logFile]
      (bytes "File descriptor for " ++ (bytes m.conf.logFile ++ bytes " is not open"))).Verbatim :=
    formatted_verbatim fun _ => rfl
  have hprinted : (formatted "fprintf out of range: %s" [outcome.strerror]
      (bytes "fprintf out of range: " ++ outcome.strerror)).Verbatim :=
    formatted_verbatim fun _ => congrArg (bytes "fprintf out of range: " ++ ·) (List.append_nil outcome.strerror)
  have hflushed : (formatted "fflush out of range: %s" [outcome.strerror]
      (bytes "fflush out of range: " ++ outcome.strerror)).Verbatim :=
    formatted_verbatim fun _ => congrArg (bytes "fflush out of range: " ++ ·) (List.append_nil outcome.strerror)
  unfold logErrorCalls
  split_ifs <;> simp [hnull, hprinted, hflushed]

theorem logEventCalls_verbatim_iff (m : MonitorTool) (outcome : Outcome) {message : Text}
    (h : Unformatted message) : (∀ c ∈ logEventCalls m outcome message, c.Verbatim) ↔
      (m.conf.logToSys = true → Clean message) := by
  have herrors : ∀ c ∈ (if m.conf.logToFile then logErrorCalls m outcome else []), c.Verbatim := by
    split_ifs
    · exact logErrorCalls_verbatim m outcome
    · simp
  unfold logEventCalls
  rw [List.forall_mem_append, and_iff_left herrors]
  cases m.conf.logToSys with
  | false => simp
  | true => simp [verbatim_ofText_iff h]

/-- The strings that are in the message of the start, each as far as there is room for it. Where the message is
not kept only its last piece has strings. -/
def PlainMonitoring (keeps : Bool) (conf : MonitorConf) (dir : Bytes) : Prop :=
  match keeps with
  | true => PlainIn 16372 dir ∧ (conf.logToSys = true → PlainIn (16360 - dir.length) (bytes conf.logSysName))
  | false =>
      if conf.logToFile then PlainIn 16371 dir
      else if conf.logToSys then PlainIn 16372 (bytes conf.logSysName)
      else PlainIn 16372 dir

theorem unformatted_itself {message : Text} (h : Unformatted message) (keeps : Bool) :
    Unformatted (itself keeps message) := by
  cases keeps with
  | false => simp [itself, Unformatted]
  | true => exact h

theorem monitorListMessage_unformatted (keeps : Bool) (conf : MonitorConf) (dir : Bytes) :
    Unformatted (monitorListMessage keeps conf dir) := by
  have hstart : Unformatted (snprintf monitorListSize (text "Monitoring " ++ (data dir ++ text " "))) :=
    ((unformatted_literal (by decide)).append ((unformatted_data dir).append
      (unformatted_literal (by decide)))).take _
  have hsys : ∀ message, Unformatted message → Unformatted (snprintf monitorListSize
      (itself keeps message ++ (text "to syslog (" ++ (data (bytes conf.logSysName) ++ text ")")))) :=
    fun message h => ((unformatted_itself h keeps).append ((unformatted_literal (by decide)).append
      ((unformatted_data _).append (unformatted_literal (by decide))))).take _
  have hand : ∀ message, Unformatted message →
      Unformatted (snprintf monitorListSize (itself keeps message ++ text " and ")) :=
    fun message h => ((unformatted_itself h keeps).append (unformatted_literal (by decide))).take _
  have hfile : ∀ message, Unformatted message → Unformatted (snprintf monitorListSize
      (itself keeps message ++ (text "to log file(" ++ (data dir ++ text ")")))) :=
    fun message h => ((unformatted_itself h keeps).append ((unformatted_literal (by decide)).append
      ((unformatted_data _).append (unformatted_literal (by decide))))).take _
  unfold monitorListMessage
  cases conf.logToSys with
  | false =>
    cases conf.logToFile with
    | false => exact hstart
    | true => exact hfile _ hstart
  | true =>
    cases conf.logToFile with
    | false => exact hsys _ hstart
    | true => exact hfile _ (hand _ (hsys _ hstart))

/-- To cut a message, to go on with it and to cut it again is to cut it once. -/
theorem snprintf_append (size : ℕ) (message more : Text) :
    snprintf size (snprintf size message ++ more) = snprintf size (message ++ more) := by
  unfold snprintf
  rw [List.take_append, List.take_take, min_self, List.length_take, tsub_min, ← List.take_append]

theorem monitorListMessage_kept (conf : MonitorConf) (dir : Bytes) : monitorListMessage true conf dir =
    snprintf monitorListSize (text "Monitoring " ++ (data dir ++ (text " " ++
      ((if conf.logToSys then text "to syslog (" ++ (data (bytes conf.logSysName) ++ text ")") else []) ++
        ((if conf.logToSys && conf.logToFile then text " and " else []) ++
          if conf.logToFile then text "to log file(" ++ (data dir ++ text ")") else []))))) := by
  cases hs : conf.logToSys <;> cases hf : conf.logToFile <;>
    simp [monitorListMessage, hs, hf, itself, snprintf_append]

/-- Behind the directory the name for the log has what room is left. -/
theorem clean_monitoring_iff (dir : Bytes) (more : Text) :
    Clean (snprintf monitorListSize (text "Monitoring " ++ (data dir ++ (text " " ++ more)))) ↔
      PlainIn 16372 dir ∧ Clean (more.take (16371 - dir.length)) := by
  have hmonitoring : (text "Monitoring ").length = 11 := rfl
  have hblank : (text " ").length = 1 := rfl
  have hroom : 16372 - dir.length - 1 = 16371 - dir.length := by omega
  simp [snprintf, monitorListSize, clean_take_append, hmonitoring, hblank, hroom]

theorem clean_syslog_iff (b : Bool) (name : Bytes) (room : ℕ) :
    Clean ((if b then text "to syslog (" ++ (data name ++ text ")") else []).take room) ↔
      (b = true → PlainIn (room - 11) name) := by
  have hsyslog : (text "to syslog (").length = 11 := rfl
  cases b with
  | false => simp [Clean]
  | true => simp [clean_take_append, hsyslog]

theorem clean_and (b : Bool) (room : ℕ) : Clean ((if b then text " and " else []).take room) := by
  cases b with
  | false => simp [Clean]
  | true => simp

theorem clean_logFile {dir : Bytes} {room room' : ℕ} (hdir : PlainIn room dir) (hroom : room' ≤ room) (b : Bool) :
    Clean ((if b then text "to log file(" ++ (data dir ++ text ")") else []).take room') := by
  have hfile : (text "to log file(").length = 12 := rfl
  cases b with
  | false => simp [Clean]
  | true =>
    have hlater : PlainIn (room' - 12) dir := hdir.mono (by omega)
    simp [clean_take_append, hfile, hlater]

theorem monitorListMessage_clean_iff (keeps : Bool) (conf : MonitorConf) (dir : Bytes) :
    Clean (monitorListMessage keeps conf dir) ↔ PlainMonitoring keeps conf dir := by
  cases keeps with
  | false =>
    have hmonitoring : (text "Monitoring ").length = 11 := rfl
    have hsyslog : (text "to syslog (").length = 11 := rfl
    have hfile : (text "to log file(").length = 12 := rfl
    cases hs : conf.logToSys <;> cases hf : conf.logToFile <;>
      simp [monitorListMessage, PlainMonitoring, hs, hf, snprintf, monitorListSize, itself, clean_take_append,
        hmonitoring, hsyslog, hfile]
  | true =>
    have hroom : 16371 - dir.length - 11 = 16360 - dir.length := by omega
    rw [monitorListMessage_kept, clean_monitoring_iff, clean_take_append, clean_take_append, clean_syslog_iff, hroom]
    constructor
    · rintro ⟨hdir, hsys, -⟩
      exact ⟨hdir, hsys⟩
    · rintro ⟨hdir, hsys⟩
      exact ⟨hdir, hsys, clean_and _ _, clean_logFile hdir (by omega) _⟩

theorem directoryCalls_verbatim_iff (keeps : Bool) (conf : MonitorConf) (i : ℕ) (dirs : List (Option Bytes)) :
    (∀ c ∈ directoryCalls keeps conf i dirs, c.Verbatim) ↔
      ∀ dir, some dir ∈ dirs.takeWhile Option.isSome → PlainMonitoring keeps conf dir := by
  induction dirs generalizing i with
  | nil => simp [directoryCalls]
  | cons d rest ih =>
    cases d with
    | none =>
      have hnull : (formatted "Directory provided %lu is NULL" [bytes (toString i)]
          (bytes "Directory provided " ++ (bytes (toString i) ++ bytes " is NULL"))).Verbatim :=
        formatted_verbatim fun _ => rfl
      rw [directoryCalls, List.forall_mem_singleton]
      exact ⟨fun _ dir hdir => by simp at hdir, fun _ => hnull⟩
    | some dir =>
      rw [directoryCalls, List.forall_mem_cons, ih,
        verbatim_ofText_iff (monitorListMessage_unformatted keeps conf dir), monitorListMessage_clean_iff]
      simp

/-- No string that is put into a message for `syslog` has a percent sign where it has room. -/
def Site.Plain : Site → Prop
  | .mtEventProcess m monitors event _ => m.conf.logToSys = true →
      ∀ monitor, monitorOf monitors event = some monitor →
        PlainIn 1004 monitor.path ∧ PlainIn (1003 - monitor.path.length) event.name
  | .monitorPaths keeps panic conf dirs => panic = false →
      ∀ dir, some dir ∈ dirs.takeWhile Option.isSome → PlainMonitoring keeps conf dir

/-- All messages are logged as they are if and only if the strings in them are plain. -/
theorem Site.calls_verbatim_iff (site : Site) : (∀ c ∈ site.calls, c.Verbatim) ↔ site.Plain := by
  cases site with
  | mtEventProcess m monitors event outcome =>
    simp only [calls, Plain, mtEventProcessCalls]
    cases hmonitor : monitorOf monitors event with
    | none => simp
    | some monitor =>
      simp [logEventCalls_verbatim_iff m outcome (eventLogText_unformatted monitor.path event),
        eventLogText_clean_iff]
  | monitorPaths keeps panic conf dirs =>
    simp only [calls, Plain, monitorPathsCalls]
    cases panic with
    | false => simp [directoryCalls_verbatim_iff]
    | true => simp

/-- A file that is called "100%sure" is created while the log goes to the system. -/
def sureEvent : Site :=
  .mtEventProcess { monitorTool with conf := { monitorTool.conf with logToSys := true } } [⟨bytes "/srv", 1⟩]
    ⟨1, 0x100, 16, bytes "100%sure"⟩ ⟨true, true, []⟩

/-- "%s" is a conversion then. -/
theorem not_verbatim_sure : ¬ ∀ c ∈ sureEvent.calls, c.Verbatim := by
  intro hall
  have hlog := hall (.ofText (eventLogText (bytes "/srv") ⟨1, 0x100, 16, bytes "100%sure"⟩))
    (List.mem_cons_self ..)
  have hclean := (verbatim_ofText_iff (eventLogText_unformatted _ _)).1 hlog
  have hname := ((eventLogText_clean_iff _ _).1 hclean).2
  revert hname
  decide

end Percent

end Reportman.SyslogFormats
