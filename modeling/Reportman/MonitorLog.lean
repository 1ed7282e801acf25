import Mathlib
import Reportman.Arguments

/-!
# The log of the monitor

`reportman_mon` writes one message for each event to a stream that it opens when it starts. The stream and
the configuration are variables of `monitor_tool.c`, and the stream is opened before the configuration is
set. `syslog` comes back here: `log_to_sys` is off, or there is no percent sign in what it is given for a format.
-/
namespace Reportman.MonitorLog
open Resumable Arguments
open FileSystem (Bytes bytes)

section Source

inductive OpenMode
  | read
  | write
  | append
  deriving DecidableEq, Repr

/-- The calls that concern the log. A stream is the path that it was opened for, or `NULL`. -/
inductive LogSys
  | fopen (path : String) (mode : OpenMode)
  | close (path : String)
  | sendPanic (log : String)
  | syslog (message : Bytes)
  | fprintf (stream : Option String) (text : Bytes)
  | fflush (stream : Option String)
  | fclose (stream : String)

abbrev LogSys.Res : LogSys → Type
  | .fopen _ _ => Bool
  | .close _ => Unit
  | .sendPanic _ => Unit
  | .syslog _ => Unit
  | .fprintf _ _ => Bool
  | .fflush _ => Bool
  | .fclose _ => Unit

abbrev LogProg := Program LogSys LogSys.Res

abbrev LogEnvironment := (op : LogSys) → op.Res

/-- The stream for writing that is open, by its path. -/
def opens : (op : LogSys) → op.Res → Option String → Option String
  | .fopen path mode, true, stream => if mode = .read then stream else some path
  | .fclose _, _, _ => none
  | _, _, stream => stream

def libc (env : LogEnvironment) (op : LogSys) (stream : Option String) : op.Res × Option String :=
  (env op, opens op (env op) stream)

def call (op : LogSys) : LogProg op.Res := Program.perform op

/-- `__monitor_conf` and `__log_file_fd`. -/
structure MonitorTool where
  conf : MonitorConf
  logFileFd : Option String

def monitorTool : MonitorTool := ⟨⟨mLogPath, "reportmand_monitor", false, true, false⟩, none⟩

def mLogFileCreateErr : ℤ := -1
def mLogFileCreated : ℤ := 2
def mLogFileExisted : ℤ := 1

/-- Whether the stream that replaces the first one is open is not asked. -/
def mtInitializeLogFile (m : MonitorTool) : LogProg (ℤ × MonitorTool) := do
  if ¬ (← call (.fopen m.conf.logFile .read)) then
    if ¬ (← call (.fopen m.conf.logFile .write)) then return (mLogFileCreateErr, m)
    else return (mLogFileCreated, { m with logFileFd := some m.conf.logFile })
  else do
    call (.close m.conf.logFile)
    let opened ← call (.fopen m.conf.logFile .append)
    return (mLogFileExisted, { m with logFileFd := if opened then some m.conf.logFile else none })

def mtUpdateMonitorConf (m : MonitorTool) (conf : MonitorConf) : MonitorTool :=
  { m with conf := { conf with logToStdout := m.conf.logToStdout } }

def mtCloseLogFile (m : MonitorTool) : LogProg Unit :=
  match m.logFileFd with
  | none => return ()
  | some path => call (.fclose path)

def ifCalled (b : Bool) (op : LogSys) : LogProg Unit := if b then (fun _ => ()) <$> call op else return ()

/-- `fprintf` on `NULL` ends the process. The newline that is removed is one of the message for syslog,
which is not used again. -/
def logEvent (m : MonitorTool) (eventFileMessage eventLogMessage : Bytes) : LogProg Unit := do
  ifCalled m.conf.logToSys (.syslog eventLogMessage)
  if ¬ m.conf.logToFile then return ()
  else do
    ifCalled m.logFileFd.isNone
      (.syslog (bytes "File descriptor for " ++ bytes m.conf.logFile ++ bytes " is not open"))
    let _ ← call (.fprintf m.logFileFd (eventFileMessage ++ [10]))
    if m.logFileFd = none then .halt
    else do
      let _ ← call (.fflush m.logFileFd)
      return ()

/-- An event as `mt_event_process` sees it: `name` is the string that `event->name` points to, which is the
name in the event only if `len` is not zero. -/
structure InotifyEvent where
  wd : ℤ
  mask : UInt32
  len : ℕ
  name : Bytes

def eventMasks : List (UInt32 × Bytes) :=
  [(0x1, bytes "IN_ACCESS"), (0x4, bytes "IN_ATTRIB"), (0x20, bytes "IN_OPEN"), (0x8, bytes "IN_CLOSE_WRITE"),
    (0x10, bytes "IN_CLOSE_NOWRITE"), (0x100, bytes "IN_CREATE"), (0x200, bytes "IN_DELETE"),
    (0x400, bytes "IN_DELETE_SELF"), (0x2, bytes "IN_MODIFY"), (0x800, bytes "IN_MOVE_SELF"),
    (0x40, bytes "IN_MOVED_FROM"), (0x80, bytes "IN_MOVED_TO")]

def getLogMessage (event : InotifyEvent) : Bytes :=
  match eventMasks.find? fun entry => event.mask &&& entry.1 ≠ 0 with
  | none => bytes "UNKNOWN"
  | some entry => entry.2

/-- `struct tm`. -/
structure Tm where
  year : ℤ
  mon : ℤ
  mday : ℤ
  hour : ℤ
  min : ℤ
  sec : ℤ

def snprintf (size : ℕ) (text : Bytes) : Bytes := text.take (size - 1)

def getCurrentDateTime (tm : Tm) : Bytes :=
  snprintf 32 (bytes (toString (tm.year + 1900)) ++ (bytes "-" ++ (bytes (toString (tm.mon + 1)) ++ (bytes "-" ++
    (bytes (toString tm.mday) ++ (bytes " " ++ (bytes (toString tm.hour) ++ (bytes ":" ++
      (bytes (toString tm.min) ++ (bytes ":" ++ bytes (toString tm.sec)))))))))))

structure DirMonitored where
  path : Bytes
  wd : ℤ

def mLogBufferSize : ℕ := 1024

def unimplemented : Bytes := bytes "UNIMPLEMENTED"

def eventLogMessage (path : Bytes) (event : InotifyEvent) : Bytes :=
  snprintf mLogBufferSize (bytes "Received event in '" ++ path ++ bytes "/" ++ event.name ++ bytes "': " ++
    getLogMessage event ++ bytes " by " ++ unimplemented)

/-- Without a name the arguments stand in another order and the format has lost a pair of brackets. -/
def eventFileMessage (path : Bytes) (event : InotifyEvent) (tm : Tm) : Bytes :=
  snprintf mLogBufferSize
    (if event.len > 0 then
      getLogMessage event ++ (bytes " by [" ++ (unimplemented ++ (bytes "] @ [" ++ (getCurrentDateTime tm ++
        (bytes "]: " ++ (path ++ (bytes "/" ++ event.name)))))))
    else
      getLogMessage event ++ (bytes " by [" ++ (getCurrentDateTime tm ++ (bytes "] @ " ++ (unimplemented ++
        (bytes ": " ++ (path ++ (bytes "/" ++ event.name))))))))

/-- The first monitor with the event's descriptor. -/
def monitorOf (monitors : List DirMonitored) (event : InotifyEvent) : Option DirMonitored :=
  monitors.find? fun monitor => monitor.wd = event.wd

def mtEventProcess (m : MonitorTool) (monitors : List DirMonitored) (event : InotifyEvent) (tm : Tm) :
    LogProg Unit :=
  match monitorOf monitors event with
  | none => return ()
  | some monitor => logEvent m (eventFileMessage monitor.path event tm) (eventLogMessage monitor.path event)

/-- The events that the loop of `__monitor_paths` reads, each with the time at which it is handled. -/
def mtEvents (m : MonitorTool) (monitors : List DirMonitored) : List (InotifyEvent × Tm) → LogProg Unit
  | [] => return ()
  | (event, tm) :: rest => do
      mtEventProcess m monitors event tm
      mtEvents m monitors rest

/-- What `__monitor_paths` does about the log. -/
def monitorPaths (args : MonitorArgs) (monitors : List DirMonitored) (handled : List (InotifyEvent × Tm)) :
    LogProg Unit := do
  let (result, m) ← mtInitializeLogFile monitorTool
  ifCalled (result = mLogFileCreateErr) (.sendPanic "Log file could not be created.")
  let m := mtUpdateMonitorConf m args.conf
  mtEvents m monitors handled
  mtCloseLogFile m

/-- `__started_from_daemon`: without a daemon nothing is monitored. -/
def startedFromDaemon (args : MonitorArgs) (monitors : List DirMonitored)
    (handled : List (InotifyEvent × Tm)) : LogProg Unit :=
  if ¬ args.fromDaemon then return ()
  else if args.pipes.read < 0 ∨ args.pipes.write < 0 then return ()
  else monitorPaths args monitors handled

def monMain (argv : List String) (monitors : List DirMonitored) (handled : List (InotifyEvent × Tm)) :
    LogProg Unit :=
  match configureMonitorArgs argv with
  | .error _ => .halt
  | .ok args => startedFromDaemon args monitors handled

end Source

section Written

abbrev LogHistory := List (Event LogSys LogSys.Res (Option String))

/-- A write to a stream, and the stream that is open then. -/
structure LogWrite where
  stream : Option String
  opened : Option String
  text : Bytes

def writeOf (e : Event LogSys LogSys.Res (Option String)) : Option LogWrite :=
  match e.op with
  | .fprintf stream text => some ⟨stream, e.before, text⟩
  | _ => none

def written (calls : LogHistory) : List LogWrite := calls.filterMap writeOf

variable {sched : ℕ → LogEnvironment} {α : Type} {s : Option String}

/-- Whatever comes after it, the program makes these writes and leaves the streams as they are. -/
def Writes (sched : ℕ → LogEnvironment) (s : Option String) (p : LogProg Unit) (ws : List LogWrite) : Prop :=
  ∀ (k : LogProg Unit) (t : ℕ), ∃ t', written (trace libc sched (p >>= fun _ => k) t s) =
    ws ++ written (trace libc sched k t' s)

theorem writes_ret : Writes sched s (return ()) [] := fun _ t => ⟨t, rfl⟩

theorem Writes.bind {p q : LogProg Unit} {ws ws' : List LogWrite} (h : Writes sched s p ws)
    (h' : Writes sched s q ws') : Writes sched s (p >>= fun _ => q) (ws ++ ws') := by
  intro k t
  obtain ⟨t₁, h₁⟩ := h (q >>= fun _ => k) t
  obtain ⟨t₂, h₂⟩ := h' k t₁
  refine ⟨t₂, ?_⟩
  rw [bind_assoc, h₁, h₂, List.append_assoc]

/-- A call that opens and closes nothing. -/
theorem writes_call {op : LogSys} {k : LogProg Unit} {ws : List LogWrite} (hkeeps : ∀ r, opens op r s = s)
    (hk : Writes sched s k ws) :
    Writes sched s (.call op fun _ => k) ((writeOf ⟨op, sched 0 op, s, s⟩).toList ++ ws) := by
  intro k' t
  obtain ⟨t', ht'⟩ := hk k' (t + 1)
  refine ⟨t', ?_⟩
  have htrace : trace libc sched ((.call op fun _ => k : LogProg Unit) >>= fun _ => k') t s =
      ⟨op, sched t op, s, s⟩ :: trace libc sched (k >>= fun _ => k') (t + 1) s := by
    simp only [Program.call_bind, trace, libc, hkeeps]
  have hwrite : writeOf ⟨op, sched t op, s, s⟩ = writeOf ⟨op, sched 0 op, s, s⟩ := by cases op <;> rfl
  rw [htrace, List.append_assoc, ← ht', written, List.filterMap_cons, hwrite]
  cases writeOf ⟨op, sched 0 op, s, s⟩ <;> rfl

theorem ifCalled_writes (b : Bool) {op : LogSys} (hkeeps : ∀ r, opens op r s = s)
    (hquiet : writeOf ⟨op, sched 0 op, s, s⟩ = none) : Writes sched s (ifCalled b op) [] := by
  cases b with
  | false => exact writes_ret
  | true =>
    have hcall : Writes sched s (.call op fun _ => .ret ()) _ := writes_call hkeeps writes_ret
    rw [hquiet] at hcall
    exact hcall

theorem syslog_writes (b : Bool) (message : Bytes) : Writes sched s (ifCalled b (.syslog message)) [] :=
  ifCalled_writes b (fun _ => rfl) rfl

variable {m : MonitorTool} {monitors : List DirMonitored}

theorem logEvent_silent (hfile : m.conf.logToFile = false) (text message : Bytes) :
    Writes sched s (logEvent m text message) [] := by
  unfold logEvent
  simp only [hfile]
  exact (syslog_writes _ _).bind writes_ret

theorem logEvent_writes (hfile : m.conf.logToFile = true) {path : String} (hfd : m.logFileFd = some path)
    (text message : Bytes) : Writes sched s (logEvent m text message) [⟨some path, s, text ++ [10]⟩] := by
  obtain ⟨conf, logFileFd⟩ := m
  obtain rfl : logFileFd = some path := hfd
  have hflush : Writes sched s (.call (.fflush (some path)) fun _ => .ret ()) [] :=
    writes_call (fun _ => rfl) writes_ret
  have hprint : Writes sched s (.call (.fprintf (some path) (text ++ [10])) fun _ =>
      .call (.fflush (some path)) fun _ => .ret ()) [⟨some path, s, text ++ [10]⟩] :=
    writes_call (fun _ => rfl) hflush
  unfold logEvent
  simp only [show conf.logToFile = true from hfile]
  exact (syslog_writes _ _).bind ((syslog_writes false []).bind hprint)

/-- The write that ends the process. -/
theorem logEvent_null (hfile : m.conf.logToFile = true) (hfd : m.logFileFd = none) (text message : Bytes)
    (k : LogProg Unit) (t : ℕ) :
    written (trace libc sched (logEvent m text message >>= fun _ => k) t s) = [⟨none, s, text ++ [10]⟩] := by
  have hlog : logEvent m text message = ifCalled m.conf.logToSys (.syslog message) >>= fun _ =>
      ifCalled true (.syslog (bytes "File descriptor for " ++ bytes m.conf.logFile ++ bytes " is not open")) >>=
        fun _ => .call (.fprintf none (text ++ [10])) fun _ => .halt := by
    obtain ⟨conf, logFileFd⟩ := m
    obtain rfl : logFileFd = none := hfd
    unfold logEvent
    simp only [show conf.logToFile = true from hfile]
    rfl
  rw [hlog, bind_assoc]
  obtain ⟨t₁, h₁⟩ := syslog_writes m.conf.logToSys message _ t
  obtain ⟨t₂, h₂⟩ := syslog_writes true _ _ t₁
  rw [h₁, bind_assoc, h₂]
  rfl

/-- What the events leave in the log, one write for each that has a monitor. -/
def eventWrites (monitors : List DirMonitored) (stream opened : Option String)
    (handled : List (InotifyEvent × Tm)) : List LogWrite :=
  handled.filterMap fun x => (monitorOf monitors x.1).map fun monitor =>
    ⟨stream, opened, eventFileMessage monitor.path x.1 x.2 ++ [10]⟩

theorem mtEvents_silent {handled : List (InotifyEvent × Tm)}
    (h : m.conf.logToFile = false ∨ ∀ x ∈ handled, monitorOf monitors x.1 = none) :
    Writes sched s (mtEvents m monitors handled) [] := by
  induction handled with
  | nil => exact writes_ret
  | cons x rest ih =>
    have hrest := ih (h.imp_right fun hnone y hy => hnone y (List.mem_cons_of_mem _ hy))
    have hevent : Writes sched s (mtEventProcess m monitors x.1 x.2) [] := by
      unfold mtEventProcess
      cases hmonitor : monitorOf monitors x.1 with
      | none => exact writes_ret
      | some monitor =>
        refine logEvent_silent (h.resolve_right fun hnone => ?_) _ _
        exact absurd ((hnone x (List.mem_cons_self ..)).symm.trans hmonitor) (by simp)
    exact hevent.bind hrest

theorem mtEvents_writes (hfile : m.conf.logToFile = true) {path : String} (hfd : m.logFileFd = some path)
    (handled : List (InotifyEvent × Tm)) :
    Writes sched s (mtEvents m monitors handled) (eventWrites monitors (some path) s handled) := by
  induction handled with
  | nil => exact writes_ret
  | cons x rest ih =>
    have hevent : Writes sched s (mtEventProcess m monitors x.1 x.2) (((monitorOf monitors x.1).map fun monitor =>
        (⟨some path, s, eventFileMessage monitor.path x.1 x.2 ++ [10]⟩ : LogWrite)).toList) := by
      unfold mtEventProcess
      cases monitorOf monitors x.1 with
      | none => exact writes_ret
      | some monitor => exact logEvent_writes hfile hfd _ _
    have heq : eventWrites monitors (some path) s (x :: rest) = ((monitorOf monitors x.1).map fun monitor =>
        (⟨some path, s, eventFileMessage monitor.path x.1 x.2 ++ [10]⟩ : LogWrite)).toList ++
          eventWrites monitors (some path) s rest := by
      unfold eventWrites
      cases h : monitorOf monitors x.1 <;> simp [h]
    rw [heq]
    exact hevent.bind ih

/-- Without a stream the first event that has a monitor is the last one. -/
theorem mtEvents_null (hfile : m.conf.logToFile = true) (hfd : m.logFileFd = none)
    {handled : List (InotifyEvent × Tm)} (h : ∃ x ∈ handled, monitorOf monitors x.1 ≠ none) (k : LogProg Unit)
    (t : ℕ) : ∃ w ∈ written (trace libc sched (mtEvents m monitors handled >>= fun _ => k) t s),
      w.stream = none := by
  induction handled generalizing t with
  | nil => simp at h
  | cons x rest ih =>
    unfold mtEvents mtEventProcess
    cases hmonitor : monitorOf monitors x.1 with
    | none =>
      obtain ⟨y, hy, hsome⟩ := h
      rcases List.mem_cons.1 hy with rfl | hy
      · exact absurd hmonitor hsome
      · exact ih ⟨y, hy, hsome⟩ t
    | some monitor =>
      rw [bind_assoc, logEvent_null hfile hfd]
      exact ⟨_, List.mem_singleton_self _, rfl⟩

end Written

section Stream

/-- What the calls that open the log have to say. -/
def Opened (sched : ℕ → LogEnvironment) : Bool :=
  if sched 0 (.fopen mLogPath .read) then sched 2 (.fopen mLogPath .append)
  else sched 1 (.fopen mLogPath .write)

/-- The stream is open, and it is that of the configured file. -/
def Faithful (conf : MonitorConf) (w : LogWrite) : Prop :=
  w.stream = some conf.logFile ∧ w.opened = some conf.logFile

/-- The process has been started by the daemon and knows its pipes. -/
def Started (args : MonitorArgs) : Prop := args.fromDaemon = true ∧ 0 ≤ args.pipes.read ∧ 0 ≤ args.pipes.write

variable {sched : ℕ → LogEnvironment} {monitors : List DirMonitored} {handled : List (InotifyEvent × Tm)}

/-- The stream of the path that is compiled in, whatever the configuration says. -/
def firstStream (sched : ℕ → LogEnvironment) : Option String := if Opened sched then some mLogPath else none

/-- The variables when the first event is handled. -/
def configured (sched : ℕ → LogEnvironment) (conf : MonitorConf) : MonitorTool :=
  mtUpdateMonitorConf { monitorTool with logFileFd := firstStream sched } conf

theorem mtInitializeLogFile_bind (m : MonitorTool) (k : ℤ × MonitorTool → LogProg Unit) :
    mtInitializeLogFile m >>= k = .call (.fopen m.conf.logFile .read) fun existed =>
      if existed = true then .call (.close m.conf.logFile) fun _ =>
        .call (.fopen m.conf.logFile .append) fun opened =>
          k (mLogFileExisted, { m with logFileFd := if opened = true then some m.conf.logFile else none })
      else .call (.fopen m.conf.logFile .write) fun created =>
        if created = true then k (mLogFileCreated, { m with logFileFd := some m.conf.logFile })
        else k (mLogFileCreateErr, m) := by
  refine congrArg (Program.call _) (funext fun existed => ?_)
  cases existed with
  | true => rfl
  | false =>
    refine congrArg (Program.call _) (funext fun created => ?_)
    cases created <;> rfl

theorem mtInitializeLogFile_written (k : ℤ × MonitorTool → LogProg Unit) : ∃ result t,
    written (trace libc sched (mtInitializeLogFile monitorTool >>= k) 0 none) =
      written (trace libc sched (k (result, { monitorTool with logFileFd := firstStream sched })) t
        (firstStream sched)) := by
  rw [mtInitializeLogFile_bind]
  cases hread : sched 0 (.fopen mLogPath .read) with
  | false =>
    cases hwrite : sched 1 (.fopen mLogPath .write) with
    | false =>
      have hstream : firstStream sched = none := by simp [firstStream, Opened, hread, hwrite]
      refine ⟨mLogFileCreateErr, 2, ?_⟩
      simp [hstream, monitorTool, trace, libc, hread, hwrite, opens, written, writeOf]
      rfl
    | true =>
      have hstream : firstStream sched = some mLogPath := by simp [firstStream, Opened, hread, hwrite]
      refine ⟨mLogFileCreated, 2, ?_⟩
      simp [hstream, monitorTool, trace, libc, hread, hwrite, opens, written, writeOf]
      rfl
  | true =>
    refine ⟨mLogFileExisted, 3, ?_⟩
    cases happend : sched 2 (.fopen mLogPath .append) with
    | false =>
      have hstream : firstStream sched = none := by simp [firstStream, Opened, hread, happend]
      simp [hstream, monitorTool, trace, libc, hread, happend, opens, written, writeOf]
      rfl
    | true =>
      have hstream : firstStream sched = some mLogPath := by simp [firstStream, Opened, hread, happend]
      simp [hstream, monitorTool, trace, libc, hread, happend, opens, written, writeOf]
      rfl

theorem mtCloseLogFile_written (m : MonitorTool) (t : ℕ) (s : Option String) :
    written (trace libc sched (mtCloseLogFile m) t s) = [] := by
  unfold mtCloseLogFile
  cases m.logFileFd <;> rfl

/-- Up to the events nothing is written. -/
theorem monitorPaths_written (args : MonitorArgs) : ∃ t,
    written (trace libc sched (monitorPaths args monitors handled) 0 none) =
      written (trace libc sched (mtEvents (configured sched args.conf) monitors handled >>= fun _ =>
        mtCloseLogFile (configured sched args.conf)) t (firstStream sched)) := by
  obtain ⟨result, t, h⟩ := @mtInitializeLogFile_written sched fun r => do
    ifCalled (r.1 = mLogFileCreateErr) (.sendPanic "Log file could not be created.")
    mtEvents (mtUpdateMonitorConf r.2 args.conf) monitors handled
    mtCloseLogFile (mtUpdateMonitorConf r.2 args.conf)
  have hpanic : Writes sched (firstStream sched) (ifCalled (result = mLogFileCreateErr)
      (.sendPanic "Log file could not be created.")) [] := ifCalled_writes _ (fun _ => rfl) rfl
  obtain ⟨t', h'⟩ := hpanic (mtEvents (configured sched args.conf) monitors handled >>= fun _ =>
    mtCloseLogFile (configured sched args.conf)) t
  exact ⟨t', h.trans h'⟩

theorem monitorPaths_faithful (args : MonitorArgs) :
    (∀ w ∈ written (trace libc sched (monitorPaths args monitors handled) 0 none), Faithful args.conf w) ↔
      args.conf.logToFile = false ∨ (∀ x ∈ handled, monitorOf monitors x.1 = none) ∨
        (args.conf.logFile = mLogPath ∧ Opened sched = true) := by
  obtain ⟨t, h⟩ := @monitorPaths_written sched monitors handled args
  rw [h]
  by_cases hsilent : args.conf.logToFile = false ∨ ∀ x ∈ handled, monitorOf monitors x.1 = none
  · have hevents : Writes sched (firstStream sched) (mtEvents (configured sched args.conf) monitors handled) [] :=
      mtEvents_silent hsilent
    obtain ⟨t', h'⟩ := hevents (mtCloseLogFile (configured sched args.conf)) t
    rw [h', mtCloseLogFile_written]
    exact ⟨fun _ => hsilent.imp_right .inl, fun _ => nofun⟩
  obtain ⟨hfile, hsome⟩ := not_or.1 hsilent
  have hfile : args.conf.logToFile = true := by simpa using hfile
  obtain ⟨x, hx, hmonitor⟩ : ∃ x ∈ handled, monitorOf monitors x.1 ≠ none := by simpa using hsome
  refine Iff.trans ?_ (Iff.trans (or_iff_right hsome).symm
    (or_iff_right (by simp [hfile])).symm)
  cases hopened : Opened sched with
  | false =>
    have hstream : (configured sched args.conf).logFileFd = none := by
      simp [configured, mtUpdateMonitorConf, firstStream, hopened]
    obtain ⟨w, hw, hnull⟩ := mtEvents_null hfile hstream ⟨x, hx, hmonitor⟩
      (mtCloseLogFile (configured sched args.conf)) t
    refine ⟨fun hall => ?_, nofun⟩
    have := (hall w hw).1
    rw [hnull] at this
    cases this
  | true =>
    have hfirst : firstStream sched = some mLogPath := by simp [firstStream, hopened]
    have hevents : Writes sched (firstStream sched) (mtEvents (configured sched args.conf) monitors handled)
        (eventWrites monitors (some mLogPath) (firstStream sched) handled) := mtEvents_writes hfile hfirst handled
    obtain ⟨t', h'⟩ := hevents (mtCloseLogFile (configured sched args.conf)) t
    rw [h', mtCloseLogFile_written, List.append_nil]
    constructor
    · intro hall
      obtain ⟨monitor, hfound⟩ := Option.ne_none_iff_exists'.1 hmonitor
      have hw := hall _ (List.mem_filterMap.2 ⟨x, hx, by rw [hfound]; rfl⟩)
      exact ⟨(Option.some.inj hw.1).symm, rfl⟩
    · rintro ⟨hpath, -⟩ w hw
      obtain ⟨y, -, hy⟩ := List.mem_filterMap.1 hw
      obtain ⟨monitor, -, rfl⟩ := Option.map_eq_some_iff.1 hy
      exact ⟨congrArg some hpath.symm, hfirst.trans (congrArg some hpath.symm)⟩

/-- The stream that is written to is that of the configured file only if this is the file compiled in. -/
theorem monMain_faithful {argv : List String} {args : MonitorArgs} (haccepted : configureMonitorArgs argv = .ok args)
    (sched : ℕ → LogEnvironment) (monitors : List DirMonitored) (handled : List (InotifyEvent × Tm)) :
    (∀ w ∈ written (trace libc sched (monMain argv monitors handled) 0 none), Faithful args.conf w) ↔
      ¬ Started args ∨ args.conf.logToFile = false ∨ (∀ x ∈ handled, monitorOf monitors x.1 = none) ∨
        (args.conf.logFile = mLogPath ∧ Opened sched = true) := by
  have hmain : monMain argv monitors handled = startedFromDaemon args monitors handled := by
    unfold monMain
    rw [haccepted]
  rw [hmain]
  by_cases hstarted : Started args
  · have hpaths : startedFromDaemon args monitors handled = monitorPaths args monitors handled := by
      unfold startedFromDaemon
      rw [if_neg (not_not.2 hstarted.1), if_neg (by simpa using hstarted.2)]
    rw [hpaths, monitorPaths_faithful]
    exact ⟨.inr, fun h => h.resolve_left (not_not.2 hstarted)⟩
  · have hnothing : startedFromDaemon args monitors handled = return () := by
      unfold startedFromDaemon
      by_cases hdaemon : args.fromDaemon = true
      · rw [if_neg (not_not.2 hdaemon), if_pos]
        by_contra hpipes
        obtain ⟨hread, hwrite⟩ := not_or.1 hpipes
        exact hstarted ⟨hdaemon, not_lt.1 hread, not_lt.1 hwrite⟩
      · exact if_pos hdaemon
    rw [hnothing]
    exact ⟨fun _ => .inl hstarted, fun _ _ hw => nomatch hw⟩

/-- Every file can be opened and every write succeeds. -/
def smooth (_ : ℕ) : LogEnvironment
  | .fopen _ _ => true
  | .close _ => ()
  | .sendPanic _ => ()
  | .syslog _ => ()
  | .fprintf _ _ => true
  | .fflush _ => true
  | .fclose _ => ()

/-- A file named `a` is created in a directory that is watched, at the turn of an epoch. -/
def watched : DirMonitored := ⟨bytes "/srv", 1⟩
def created (name : Bytes) : InotifyEvent × Tm := (⟨1, 0x100, 16, name⟩, ⟨70, 0, 1, 0, 0, 0⟩)

theorem monMain_faithful_default : ∃ args, configureMonitorArgs (Daemon.childArgs .mon 12 11 []) = .ok args ∧
    ((∀ w ∈ written (trace libc smooth
      (monMain (Daemon.childArgs .mon 12 11 []) [watched] [created (bytes "a")]) 0 none), Faithful args.conf w) ↔
      ¬ Started args ∨ args.conf.logToFile = false ∨
        (∀ x ∈ [created (bytes "a")], monitorOf [watched] x.1 = none) ∨
          (args.conf.logFile = mLogPath ∧ Opened smooth = true)) := by
  have hargs : configureMonitorArgs (Daemon.childArgs .mon 12 11 []) = _ :=
    configureMonitorArgs_childArgs (by decide) (by decide) (by decide) (by decide) nofun
  exact ⟨_, hargs, monMain_faithful hargs smooth [watched] [created (bytes "a")]⟩

/-- Another log file is configured, and the first one is written to. -/
theorem not_faithful_configured : ∃ args, configureMonitorArgs ["reportman_mon", "-fd", "--d-to-c", "12",
      "--c-to-d", "11", "-lf", "/srv/mon.log"] = .ok args ∧
    ∃ w ∈ written (trace libc smooth (monMain ["reportman_mon", "-fd", "--d-to-c", "12", "--c-to-d", "11", "-lf",
      "/srv/mon.log"] [watched] [created (bytes "a")]) 0 none), ¬ Faithful args.conf w := by
  refine ⟨{ monitorArgs with
    fromDaemon := true
    pipes := ⟨11, 12⟩
    conf := { monitorArgs.conf with logFile := "/srv/mon.log" } }, rfl, ?_⟩
  refine ⟨⟨some mLogPath, some mLogPath, eventFileMessage (bytes "/srv") (created (bytes "a")).1
    (created (bytes "a")).2 ++ [10]⟩, .head _, ?_⟩
  exact fun h => absurd h.1 (by decide)

end Stream

section Lines

def linesOf : Bytes → List Bytes
  | [] => []
  | b :: bs =>
      if b = 10 then [] :: linesOf bs
      else match linesOf bs with
        | [] => [[b]]
        | line :: lines => (b :: line) :: lines

theorem linesOf_line {message : Bytes} (h : 10 ∉ message) (rest : Bytes) :
    linesOf (message ++ 10 :: rest) = message :: linesOf rest := by
  induction message with
  | nil => simp [linesOf]
  | cons b bs ih =>
    obtain ⟨hb, hbs⟩ := not_or.1 (mt List.mem_cons.2 h)
    simp [linesOf, ih hbs, Ne.symm hb]

theorem length_linesOf (message rest : Bytes) :
    (linesOf (message ++ 10 :: rest)).length = message.count 10 + 1 + (linesOf rest).length := by
  induction message with
  | nil => simp [linesOf, Nat.add_comm]
  | cons b bs ih =>
    rw [List.cons_append, linesOf]
    split_ifs with hb
    · subst hb
      simp [ih]
      omega
    · rw [List.count_cons_of_ne hb]
      cases hlines : linesOf (bs ++ 10 :: rest) with
      | nil =>
        rw [hlines] at ih
        simp at ih
        omega
      | cons line lines =>
        rw [hlines] at ih
        simpa using ih

/-- The lines are as many as the messages only if no message breaks. -/
theorem linesOf_messages {messages records : List Bytes} (hlength : messages.length = records.length) :
    linesOf (messages.flatMap fun message => message ++ [10]) = records ↔
      messages = records ∧ ∀ message ∈ messages, 10 ∉ message := by
  have hwhole : ∀ ms : List Bytes, (∀ message ∈ ms, 10 ∉ message) →
      linesOf (ms.flatMap fun message => message ++ [10]) = ms := by
    intro ms h
    induction ms with
    | nil => rfl
    | cons m ms ih =>
      rw [List.flatMap_cons, List.append_assoc, List.singleton_append, linesOf_line (h m (List.mem_cons_self ..)),
        ih fun m' hm' => h m' (List.mem_cons_of_mem _ hm')]
  have hcount : ∀ ms : List Bytes, (linesOf (ms.flatMap fun message => message ++ [10])).length =
      (ms.map fun message => message.count 10 + 1).sum := by
    intro ms
    induction ms with
    | nil => rfl
    | cons m ms ih =>
      rw [List.flatMap_cons, List.append_assoc, List.singleton_append, length_linesOf, ih]
      rfl
  constructor
  · intro h
    have hsum : (messages.map fun message => message.count 10 + 1).sum = messages.length := by
      rw [← hcount, h, hlength]
    have hplain : ∀ message ∈ messages, 10 ∉ message := by
      clear h hlength
      induction messages with
      | nil => exact nofun
      | cons m ms ih =>
        have hle : ms.length ≤ (ms.map fun message => message.count 10 + 1).sum := by
          clear hsum ih
          induction ms with
          | nil => rfl
          | cons m ms ih =>
            simp only [List.map_cons, List.sum_cons, List.length_cons]
            omega
        simp only [List.map_cons, List.sum_cons, List.length_cons] at hsum
        intro message hmem
        rcases List.mem_cons.1 hmem with rfl | hmem
        · exact List.count_eq_zero.1 (by omega)
        · exact ih (by omega) message hmem
    exact ⟨(hwhole messages hplain).symm.trans h, hplain⟩
  · rintro ⟨rfl, hplain⟩
    exact hwhole messages hplain

end Lines

section Records

theorem getCurrentDateTime_plain (tm : Tm) :
    (∃ b rest, getCurrentDateTime tm = b :: rest ∧ b ≠ 85) ∧ 10 ∉ getCurrentDateTime tm := by
  have hmarks : 10 ∉ bytes "-" ∧ 10 ∉ bytes " " ∧ 10 ∉ bytes ":" := by decide
  have hnumbers : ∀ z : ℤ, 10 ∉ bytes (toString z) := fun z h => by
    simpa using (bytes_toString z).2 10 h
  refine ⟨?_, fun h => ?_⟩
  · obtain ⟨b, rest, hyear⟩ := List.exists_cons_of_ne_nil (bytes_toString (tm.year + 1900)).1
    have hhead : ∃ rest', getCurrentDateTime tm = b :: rest' := by
      unfold getCurrentDateTime snprintf
      rw [hyear]
      exact ⟨_, rfl⟩
    obtain ⟨rest', hrest⟩ := hhead
    refine ⟨b, rest', hrest, ?_⟩
    rintro rfl
    simpa using (bytes_toString (tm.year + 1900)).2 85 (hyear ▸ List.mem_cons_self ..)
  · have hmem := List.mem_of_mem_take h
    simp only [List.mem_append] at hmem
    obtain ⟨hdash, hblank, hcolon⟩ := hmarks
    have := hnumbers (tm.year + 1900)
    have := hnumbers (tm.mon + 1)
    have := hnumbers tm.mday
    have := hnumbers tm.hour
    have := hnumbers tm.min
    have := hnumbers tm.sec
    tauto

theorem getLogMessage_plain (event : InotifyEvent) :
    (getLogMessage event).length ≤ 16 ∧ 10 ∉ getLogMessage event := by
  have hmasks : ∀ entry ∈ eventMasks, entry.2.length ≤ 16 ∧ 10 ∉ entry.2 := by decide
  unfold getLogMessage
  cases h : eventMasks.find? fun entry => event.mask &&& entry.1 ≠ 0 with
  | none => decide
  | some entry => exact hmasks entry (List.mem_of_find?_eq_some h)

/-- The path of the event's monitor. -/
def pathOf (monitors : List DirMonitored) (event : InotifyEvent) : Bytes :=
  (monitorOf monitors event).elim [] DirMonitored.path

def nameOf (event : InotifyEvent) : Bytes := if event.len > 0 then event.name else []

/-- The line that an event is to leave: its kind, the user, the time, and path and name. -/
def record (monitors : List DirMonitored) (x : InotifyEvent × Tm) : Bytes :=
  getLogMessage x.1 ++ (bytes " by [" ++ (unimplemented ++ (bytes "] @ [" ++ (getCurrentDateTime x.2 ++
    (bytes "]: " ++ (pathOf monitors x.1 ++ (bytes "/" ++ nameOf x.1)))))))

/-- The event has a name, nothing in its path or name breaks the line, and the line fits the buffer. -/
def Recordable (monitors : List DirMonitored) (x : InotifyEvent × Tm) : Prop :=
  x.1.len > 0 ∧ 10 ∉ pathOf monitors x.1 ∧ 10 ∉ x.1.name ∧ (record monitors x).length ≤ 1023

variable {monitors : List DirMonitored}

/-- Where the user stands in a record, an event without a name has the time. -/
theorem eventFileMessage_nameless {x : InotifyEvent × Tm} (hlen : ¬ x.1.len > 0) :
    eventFileMessage (pathOf monitors x.1) x.1 x.2 ≠ record monitors x := by
  intro h
  obtain ⟨⟨b, rest, htime, hb⟩, -⟩ := getCurrentDateTime_plain x.2
  have hkind := (getLogMessage_plain x.1).1
  unfold eventFileMessage record snprintf at h
  rw [if_neg hlen, htime] at h
  have hat := congrArg (·[(getLogMessage x.1).length + 5]?) h
  have hby : bytes " by [" = [32, 98, 121, 32, 91] := by decide
  have huser : unimplemented = 85 :: bytes "NIMPLEMENTED" := by decide
  simp only [hby, huser, mLogBufferSize] at hat
  rw [List.getElem?_take_of_lt (by omega), List.getElem?_append_right (by omega),
    List.getElem?_append_right (by simp)] at hat
  simp at hat
  exact hb hat

theorem eventFileMessage_eq_iff (x : InotifyEvent × Tm) :
    (eventFileMessage (pathOf monitors x.1) x.1 x.2 = record monitors x ∧
      10 ∉ eventFileMessage (pathOf monitors x.1) x.1 x.2) ↔ Recordable monitors x := by
  by_cases hlen : x.1.len > 0
  swap
  · exact ⟨fun h => absurd h.1 (eventFileMessage_nameless hlen), fun h => absurd h.1 hlen⟩
  have hmessage : eventFileMessage (pathOf monitors x.1) x.1 x.2 = (record monitors x).take 1023 := by
    unfold eventFileMessage record snprintf nameOf
    rw [if_pos hlen, if_pos hlen]
    rfl
  have hname : nameOf x.1 = x.1.name := if_pos hlen
  have hplain : 10 ∉ record monitors x ↔ 10 ∉ pathOf monitors x.1 ∧ 10 ∉ x.1.name := by
    have hfixed : 10 ∉ bytes " by [" ∧ 10 ∉ unimplemented ∧ 10 ∉ bytes "] @ [" ∧ 10 ∉ bytes "]: " ∧
      10 ∉ bytes "/" := by decide
    obtain ⟨h₁, h₂, h₃, h₄, h₅⟩ := hfixed
    have htime := (getCurrentDateTime_plain x.2).2
    have hkind := (getLogMessage_plain x.1).2
    simp only [record, hname, List.mem_append, not_or]
    tauto
  constructor
  · rintro ⟨heq, hten⟩
    rw [heq] at hten
    rw [hmessage] at heq
    refine ⟨hlen, (hplain.1 hten).1, (hplain.1 hten).2, ?_⟩
    have := congrArg List.length heq
    rw [List.length_take] at this
    omega
  · rintro ⟨-, hpath, hten, hfits⟩
    have hwhole : (record monitors x).take 1023 = record monitors x := List.take_of_length_le hfits
    rw [hmessage, hwhole]
    exact ⟨rfl, hplain.2 ⟨hpath, hten⟩⟩

variable {m : MonitorTool} {path : String} {handled : List (InotifyEvent × Tm)}

theorem eventWrites_text {stream opened : Option String}
    (hregistered : ∀ x ∈ handled, monitorOf monitors x.1 ≠ none) :
    (eventWrites monitors stream opened handled).flatMap LogWrite.text =
      (handled.map fun x => eventFileMessage (pathOf monitors x.1) x.1 x.2).flatMap fun message =>
        message ++ [10] := by
  induction handled with
  | nil => rfl
  | cons x rest ih =>
    obtain ⟨monitor, hmonitor⟩ := Option.ne_none_iff_exists'.1 (hregistered x (List.mem_cons_self ..))
    have hpath : pathOf monitors x.1 = monitor.path := by
      unfold pathOf
      rw [hmonitor]
      rfl
    have hcons : eventWrites monitors stream opened (x :: rest) =
        ⟨stream, opened, eventFileMessage monitor.path x.1 x.2 ++ [10]⟩ ::
          eventWrites monitors stream opened rest := by
      simp [eventWrites, hmonitor]
    rw [hcons, List.flatMap_cons, ih fun y hy => hregistered y (List.mem_cons_of_mem _ hy), List.map_cons,
      List.flatMap_cons, hpath]

/-- The log grows by the records of the events if and only if they are such that nothing can go wrong. -/
theorem mtEvents_lines (hfile : m.conf.logToFile = true) (hfd : m.logFileFd = some path)
    (hregistered : ∀ x ∈ handled, monitorOf monitors x.1 ≠ none) (sched : ℕ → LogEnvironment) (t : ℕ) :
    linesOf ((written (trace libc sched (mtEvents m monitors handled) t (some path))).flatMap LogWrite.text) =
      handled.map (record monitors) ↔ ∀ x ∈ handled, Recordable monitors x := by
  have hwrites : Writes sched (some path) (mtEvents m monitors handled) _ := mtEvents_writes hfile hfd handled
  obtain ⟨t', h⟩ := hwrites (.ret ()) t
  have hend : (mtEvents m monitors handled >>= fun _ => (.ret () : LogProg Unit)) = mtEvents m monitors handled :=
    bind_pure _
  rw [hend] at h
  rw [h, trace, written, List.filterMap_nil, List.append_nil, eventWrites_text hregistered,
    linesOf_messages (by simp)]
  constructor
  · rintro ⟨heq, hplain⟩ x hx
    refine (eventFileMessage_eq_iff x).1 ⟨List.map_inj_left.1 heq x hx, ?_⟩
    exact hplain _ (List.mem_map_of_mem hx)
  · intro hall
    refine ⟨List.map_inj_left.2 fun x hx => ((eventFileMessage_eq_iff x).2 (hall x hx)).1, ?_⟩
    intro message hmem
    obtain ⟨x, hx, rfl⟩ := List.mem_map.1 hmem
    exact ((eventFileMessage_eq_iff x).2 (hall x hx)).2

/-- The monitor as it is configured without any option. -/
def logging : MonitorTool := ⟨monitorArgs.conf, some mLogPath⟩

theorem mtEvents_lines_created : linesOf ((written (trace libc smooth
      (mtEvents logging [watched] [created (bytes "a"), created (bytes "b")]) 0 (some mLogPath))).flatMap
        LogWrite.text) =
    [created (bytes "a"), created (bytes "b")].map (record [watched]) := by
  refine (mtEvents_lines (m := logging) rfl rfl ?_ smooth 0).2 ?_
  · intro x hx
    fin_cases hx <;> decide
  · intro x hx
    fin_cases hx <;> exact ⟨by decide, by decide, by decide, by decide +kernel⟩

/-- A file whose name has a line break in it leaves two lines. -/
theorem not_lines_newline : linesOf ((written (trace libc smooth
      (mtEvents logging [watched] [created (97 :: 10 :: bytes "IN_DELETE by [root]")]) 0 (some mLogPath))).flatMap
        LogWrite.text) ≠
    [created (97 :: 10 :: bytes "IN_DELETE by [root]")].map (record [watched]) := by
  decide +kernel

end Records

end Reportman.MonitorLog
