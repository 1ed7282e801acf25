import Mathlib
import Reportman.MonitorLog

/-!
# The log file from one run to the next

A monitor that starts takes over the log of the one before it. What a stream has been given stays in a buffer
until it is written out, and a monitor that is killed, or a write that fails, leaves a line cut short. As in the log
of one monitor, `syslog` comes back.
-/
namespace Reportman.LogFile
open Resumable Arguments MonitorLog
open FileSystem (Bytes bytes)

section Source

/-- The files, and the stream that is open for writing with what it holds back. -/
structure LogState where
  files : String → Option Bytes
  stream : Option (String × Bytes)

def content (files : String → Option Bytes) (path : String) : Bytes := (files path).getD []

/-- How a call turns out: whether a file that is there cannot be read, whether anything else fails, how much of
its text a failing `fprintf` takes, how much of the buffer reaches the file, and whether the rest is kept when a
write has failed. -/
structure Turn where
  hides : Bool
  fails : Bool
  accepted : ℕ
  given : ℕ
  keeps : Bool

/-- Some of the buffer goes to the end of the file. -/
def LogState.give (s : LogState) (path : String) (buffer : Bytes) (count : ℕ) (keeps : Bool) : LogState where
  files := Function.update s.files path (some (content s.files path ++ buffer.take count))
  stream := some (path, if keeps then buffer.drop count else [])

def LogState.start (s : LogState) (path : String) (text : Bytes) : LogState where
  files := Function.update s.files path (some text)
  stream := some (path, [])

def flush (turn : Turn) (path : String) (buffer : Bytes) (s : LogState) : LogState :=
  if turn.fails then s.give path buffer turn.given turn.keeps else s.give path buffer buffer.length false

/-- A stream opened to write has emptied the file, and one opened to append has left it. -/
def stdio (turn : Turn) : (op : LogSys) → LogState → op.Res × LogState
  | .fopen path .read, s => ((s.files path).isSome && !turn.hides, s)
  | .fopen path .write, s => if turn.fails then (false, s) else (true, s.start path [])
  | .fopen path .append, s => if turn.fails then (false, s) else (true, s.start path (content s.files path))
  | .close _, s => ((), s)
  | .sendPanic _, s => ((), s)
  | .syslog _, s => ((), s)
  | .fprintf _ text, s =>
      match s.stream with
      | none => (false, s)
      | some (path, buffer) =>
          if turn.fails then (false, s.give path (buffer ++ text.take turn.accepted) turn.given turn.keeps)
          else (true, s.give path (buffer ++ text) turn.given true)
  | .fflush _, s =>
      match s.stream with
      | none => (false, s)
      | some (path, buffer) => (!turn.fails, flush turn path buffer s)
  | .fclose _, s =>
      match s.stream with
      | none => ((), s)
      | some (path, buffer) => ((), { flush turn path buffer s with stream := none })

/-- A run of the monitor: its arguments, what it watches and the events that it handles. -/
structure MonitorRun where
  args : MonitorArgs
  monitors : List DirMonitored
  handled : List (InotifyEvent × Tm)

def MonitorRun.program (r : MonitorRun) : LogProg Unit := monitorPaths r.args r.monitors r.handled

/-- The line of an event, if there is one. -/
def lineOf (monitors : List DirMonitored) (x : InotifyEvent × Tm) : Option Bytes :=
  (monitorOf monitors x.1).map fun monitor => eventFileMessage monitor.path x.1 x.2 ++ [10]

def MonitorRun.lines (r : MonitorRun) : List Bytes :=
  if r.args.conf.logToFile = true then r.handled.filterMap (lineOf r.monitors) else []

end Source

section Cuts

/-- The text is made of the beginnings of the lines, in their order. -/
inductive Cut : Bytes → List Bytes → Prop
  | nil : Cut [] []
  | cons {piece line text : Bytes} {lines : List Bytes} (h : piece <+: line) (hrest : Cut text lines) :
      Cut (piece ++ text) (line :: lines)

theorem cut_nil (lines : List Bytes) : Cut [] lines := by
  induction lines with
  | nil => exact .nil
  | cons line lines ih => exact .cons List.nil_prefix ih

theorem cut_flatten (lines : List Bytes) : Cut lines.flatten lines := by
  induction lines with
  | nil => exact .nil
  | cons line lines ih => exact .cons (List.prefix_refl line) ih

theorem Cut.append {text text' : Bytes} {lines lines' : List Bytes} (h : Cut text lines) (h' : Cut text' lines') :
    Cut (text ++ text') (lines ++ lines') := by
  induction h with
  | nil => exact h'
  | cons hpiece hrest ih =>
    rw [List.append_assoc, List.cons_append]
    exact .cons hpiece ih

theorem Cut.pad {text : Bytes} {lines : List Bytes} (h : Cut text lines) (more : List Bytes) :
    Cut text (lines ++ more) := by
  simpa using h.append (cut_nil more)

theorem Cut.snoc {text piece line : Bytes} {lines : List Bytes} (h : Cut text lines) (hpiece : piece <+: line) :
    Cut (text ++ piece) (lines ++ [line]) := by
  have hlast : Cut (piece ++ []) [line] := .cons hpiece .nil
  simpa using h.append hlast

/-- Whatever is cut off. -/
theorem Cut.of_prefix {text shown : Bytes} {lines : List Bytes} (h : Cut text lines) (hshown : shown <+: text) :
    Cut shown lines := by
  induction h generalizing shown with
  | nil =>
    obtain rfl := List.prefix_nil.1 hshown
    exact .nil
  | @cons piece line text lines hpiece hrest ih =>
    obtain ⟨rest, hsplit⟩ := hshown
    rcases List.append_eq_append_iff.1 hsplit with ⟨more, rfl, -⟩ | ⟨more, rfl, htext⟩
    · have hcut : Cut (shown ++ []) (line :: lines) :=
        .cons ((List.prefix_append shown more).trans hpiece) (cut_nil lines)
      simpa using hcut
    · exact .cons hpiece (ih ⟨rest, htext.symm⟩)

end Cuts

section Runs

variable (exact : Bool) (files : String → Option Bytes) (lines : List Bytes)

/-- The other files are as they were, and in the log there is, after what was there, nothing but beginnings of the
lines. -/
def Kept (s : LogState) : Prop :=
  (∀ path, path ≠ mLogPath → s.files path = files path) ∧
    ∃ text, Cut text lines ∧ content s.files mLogPath = content files mLogPath ++ text

/-- Nobody else writes to the files; if the run is to be exact, nothing fails. -/
def logTerms : Terms LogSys LogSys.Res Turn LogState where
  exec := stdio
  allowed turn := turn.hides = false ∧ (exact = true → turn.fails = false)
  rely := Eq
  guarantee _ _ _ s' := Kept files lines s'
  rely_refl _ := rfl
  rely_trans := Eq.trans

/-- The stream is open and has been given these lines. -/
structure Underway (done : List Bytes) (buffer : Bytes) (s : LogState) : Prop where
  others : ∀ path, path ≠ mLogPath → s.files path = files path
  stream : s.stream = some (mLogPath, buffer)
  text : ∃ shown, content s.files mLogPath = content files mLogPath ++ shown ∧ Cut (shown ++ buffer) done ∧
    (exact = true → shown ++ buffer = done.flatten)

/-- … and, if it is exact, holds nothing back. -/
def AtEvent (done : List Bytes) (s : LogState) : Prop :=
  ∃ buffer, Underway exact files done buffer s ∧ (exact = true → buffer = [])

variable {exact files lines} {done : List Bytes} {buffer : Bytes} {s : LogState} {turn : Turn}

@[simp] theorem content_update (files : String → Option Bytes) (path : String) (text : Bytes) :
    content (Function.update files path (some text)) path = text := by
  simp [content]

theorem Underway.kept (h : Underway exact files done buffer s) {rest : List Bytes} (hlines : lines = done ++ rest) :
    Kept files lines s := by
  obtain ⟨shown, hcontent, hcut, -⟩ := h.text
  have hshown : Cut shown done := hcut.of_prefix (List.prefix_append shown buffer)
  rw [hlines]
  exact ⟨h.others, shown, hshown.pad rest, hcontent⟩

theorem Underway.give (h : Underway exact files done buffer s) (count : ℕ) (keeps : Bool)
    (hexact : exact = true → keeps = true ∨ buffer.length ≤ count) :
    Underway exact files done (if keeps = true then buffer.drop count else [])
      (s.give mLogPath buffer count keeps) where
  others := by
    intro path hpath
    simp [LogState.give, hpath, h.others path hpath]
  stream := rfl
  text := by
    obtain ⟨shown, hcontent, hcut, hwhole⟩ := h.text
    refine ⟨shown ++ buffer.take count, by simp [LogState.give, hcontent], ?_⟩
    cases keeps with
    | true =>
      have hsame : shown ++ buffer.take count ++ buffer.drop count = shown ++ buffer := by simp
      simp only [if_true, hsame]
      exact ⟨hcut, hwhole⟩
    | false =>
      simp only [Bool.false_eq_true, if_false, List.append_nil]
      refine ⟨hcut.of_prefix ?_, fun hex => ?_⟩
      · exact (List.prefix_append_right_inj shown).2 (List.take_prefix count buffer)
      · have hcount : buffer.length ≤ count := (hexact hex).resolve_left nofun
        rw [List.take_of_length_le hcount]
        exact hwhole hex

theorem Underway.flush (h : Underway exact files done buffer s) (hturn : exact = true → turn.fails = false) :
    AtEvent exact files done (flush turn mLogPath buffer s) := by
  unfold LogFile.flush
  cases hfails : turn.fails with
  | true =>
    have hnot : exact = true → False := by
      intro hex
      simp [hturn hex] at hfails
    exact ⟨_, h.give turn.given turn.keeps fun hex => (hnot hex).elim, fun hex => (hnot hex).elim⟩
  | false => exact ⟨_, h.give buffer.length false fun _ => .inr le_rfl, fun _ => rfl⟩

/-- A line, or the beginning of one, goes to the stream. -/
theorem Underway.print (h : Underway exact files done buffer s) {piece line : Bytes} (hpiece : piece <+: line)
    (hexact : exact = true → piece = line) :
    Underway exact files (done ++ [line]) (buffer ++ piece) { s with stream := some (mLogPath, buffer ++ piece) } where
  others := h.others
  stream := rfl
  text := by
    obtain ⟨shown, hcontent, hcut, hwhole⟩ := h.text
    refine ⟨shown, hcontent, ?_, fun hex => ?_⟩
    · rw [← List.append_assoc]
      exact hcut.snoc hpiece
    · rw [← List.append_assoc, hwhole hex, hexact hex]
      simp

theorem exec_fprintf (hturn : exact = true → turn.fails = false) (h : Underway exact files done buffer s)
    (stream : Option String) (line : Bytes) : ∃ r s' buffer', stdio turn (.fprintf stream line) s = (r, s') ∧
      Underway exact files (done ++ [line]) buffer' s' := by
  cases hfails : turn.fails with
  | true =>
    have hnot : exact = true → False := by
      intro hex
      simp [hturn hex] at hfails
    have hprint := h.print (List.take_prefix turn.accepted line) fun hex => (hnot hex).elim
    refine ⟨false, _, _, ?_, hprint.give turn.given turn.keeps fun hex => (hnot hex).elim⟩
    simp [stdio, h.stream, hfails, LogState.give]
  | false =>
    have hprint := h.print (List.prefix_refl line) fun _ => rfl
    refine ⟨true, _, _, ?_, hprint.give turn.given true fun _ => .inl rfl⟩
    simp [stdio, h.stream, hfails, LogState.give]

theorem exec_fflush (hturn : exact = true → turn.fails = false) (h : Underway exact files done buffer s)
    (stream : Option String) : ∃ r s', stdio turn (.fflush stream) s = (r, s') ∧ AtEvent exact files done s' := by
  refine ⟨!turn.fails, _, ?_, h.flush hturn⟩
  simp [stdio, h.stream]

theorem ifCalled_meets (b : Bool) {op : LogSys} (hquiet : ∀ turn, (stdio turn op s).2 = s) (h : Kept files lines s) :
    (logTerms exact files lines).Meets (Terms.Returns fun _ s' => s' = s) (ifCalled b op) s := by
  cases b with
  | false =>
    rintro s' rfl
    rfl
  | true =>
    refine Terms.Meets.call ?_
    rintro s₁ rfl turn -
    have hsame : (stdio turn op s).2 = s := hquiet turn
    refine ⟨(stdio turn op s).1, s, Prod.ext rfl hsame, h, ?_⟩
    rintro s' rfl
    rfl

variable {m : MonitorTool} {monitors : List DirMonitored}

/-- Without a stream, or with nothing to be written, the files stay as they are. -/
theorem logEvent_quiet (hquiet : m.conf.logToFile = false ∨ m.logFileFd = none) (hstream : s.stream = none ∨
    m.conf.logToFile = false) (h : Kept files lines s) (text message : Bytes) : (logTerms exact files lines).Meets
      (fun o s' => s' = s ∧ (m.conf.logToFile = false → o ≠ none)) (logEvent m text message) s := by
  unfold logEvent
  refine Terms.Meets.bind_returns (ifCalled_meets _ (fun _ => rfl) h) ?_
  rintro - s' rfl
  cases hfile : m.conf.logToFile with
  | false =>
    rintro s' rfl
    exact ⟨rfl, fun _ => nofun⟩
  | true =>
    have hfd : m.logFileFd = none := hquiet.resolve_left (by simp [hfile])
    have hnone : s'.stream = none := hstream.resolve_right (by simp [hfile])
    refine Terms.Meets.bind_returns (ifCalled_meets _ (fun _ => rfl) h) ?_
    rintro - s₁ rfl
    refine Terms.Meets.call ?_
    rintro s₂ rfl turn -
    have hexec : stdio turn (.fprintf m.logFileFd (text ++ [10])) s₁ = (false, s₁) := by simp [stdio, hnone]
    refine ⟨false, s₁, hexec, h, ?_⟩
    rw [hfd]
    rintro s₃ rfl
    exact ⟨rfl, nofun⟩

theorem logEvent_meets (hfile : m.conf.logToFile = true) {path : String} (hfd : m.logFileFd = some path)
    {text : Bytes} {rest : List Bytes} (hlines : lines = done ++ (text ++ [10]) :: rest)
    (h : AtEvent exact files done s) (message : Bytes) : (logTerms exact files lines).Meets
      (Terms.Returns fun _ s' => AtEvent exact files (done ++ [text ++ [10]]) s') (logEvent m text message) s := by
  have hlog : logEvent m text message = ifCalled m.conf.logToSys (.syslog message) >>= fun _ =>
      .call (.fprintf (some path) (text ++ [10])) fun _ => .call (.fflush (some path)) fun _ => .ret () := by
    obtain ⟨conf, logFileFd⟩ := m
    obtain rfl : logFileFd = some path := hfd
    unfold logEvent
    simp only [show conf.logToFile = true from hfile]
    rfl
  have hlines' : lines = done ++ [text ++ [10]] ++ rest := by simp [hlines]
  obtain ⟨buffer, hunder, -⟩ := h
  rw [hlog]
  refine Terms.Meets.bind_returns (ifCalled_meets _ (fun _ => rfl) (hunder.kept hlines)) ?_
  rintro - s' rfl
  refine Terms.Meets.call ?_
  rintro s₁ rfl turn ⟨-, hturn⟩
  obtain ⟨r, s₂, buffer', hprint, hunder'⟩ := exec_fprintf hturn hunder (some path) (text ++ [10])
  refine ⟨r, s₂, hprint, hunder'.kept hlines', ?_⟩
  refine Terms.Meets.call ?_
  rintro s₃ rfl turn' ⟨-, hturn'⟩
  obtain ⟨r', s₄, hflush, hevent⟩ := exec_fflush hturn' hunder' (some path)
  have hkept : Kept files lines s₄ := by
    obtain ⟨buffer'', hunder'', -⟩ := hevent
    exact hunder''.kept hlines'
  refine ⟨r', s₄, hflush, hkept, ?_⟩
  rintro s₅ rfl
  exact hevent

theorem mtEvents_quiet (hquiet : m.conf.logToFile = false ∨ m.logFileFd = none) (hstream : s.stream = none ∨
    m.conf.logToFile = false) (h : Kept files lines s) (handled : List (InotifyEvent × Tm)) :
    (logTerms exact files lines).Meets (fun o s' => s' = s ∧ (m.conf.logToFile = false → o ≠ none))
      (mtEvents m monitors handled) s := by
  induction handled with
  | nil =>
    rintro s' rfl
    exact ⟨rfl, fun _ => nofun⟩
  | cons x rest ih =>
    have hevent : (logTerms exact files lines).Meets (fun o s' => s' = s ∧ (m.conf.logToFile = false → o ≠ none))
        (mtEventProcess m monitors x.1 x.2) s := by
      unfold mtEventProcess
      cases monitorOf monitors x.1 with
      | none =>
        rintro s' rfl
        exact ⟨rfl, fun _ => nofun⟩
      | some monitor => exact logEvent_quiet hquiet hstream h _ _
    refine Terms.Meets.bind (hevent.mono ?_)
    rintro (_ | _) s' ⟨rfl, hsome⟩
    · exact ⟨rfl, hsome⟩
    · exact ih

theorem mtEvents_meets (hfile : m.conf.logToFile = true) {path : String} (hfd : m.logFileFd = some path)
    {handled : List (InotifyEvent × Tm)} (hlines : lines = done ++ handled.filterMap (lineOf monitors))
    (h : AtEvent exact files done s) : (logTerms exact files lines).Meets
      (Terms.Returns fun _ s' => AtEvent exact files lines s') (mtEvents m monitors handled) s := by
  induction handled generalizing done s with
  | nil =>
    rintro s' rfl
    have hdone : lines = done := by simpa using hlines
    rw [hdone]
    exact h
  | cons x rest ih =>
    unfold mtEvents mtEventProcess
    cases hmonitor : monitorOf monitors x.1 with
    | none =>
      have hline : lineOf monitors x = none := by simp [lineOf, hmonitor]
      rw [List.filterMap_cons_none hline] at hlines
      exact ih hlines h
    | some monitor =>
      have hline : lineOf monitors x = some (eventFileMessage monitor.path x.1 x.2 ++ [10]) := by
        simp [lineOf, hmonitor]
      rw [List.filterMap_cons_some hline] at hlines
      refine Terms.Meets.bind_returns (logEvent_meets hfile hfd hlines h _) ?_
      intro _ s' hevent
      exact ih (by simpa using hlines) hevent

/-- How a run leaves the files: if it was exact, every line is in the log. -/
def Ended (exact : Bool) (files : String → Option Bytes) (lines : List Bytes) (s : LogState) : Prop :=
  Kept files lines s ∧ (exact = true → content s.files mLogPath = content files mLogPath ++ lines.flatten)

theorem AtEvent.ended (h : AtEvent exact files lines s) : Ended exact files lines s := by
  obtain ⟨buffer, hunder, hnothing⟩ := h
  refine ⟨hunder.kept (List.append_nil lines).symm, fun hex => ?_⟩
  obtain ⟨shown, hcontent, -, hwhole⟩ := hunder.text
  rw [hcontent, ← hwhole hex, hnothing hex, List.append_nil]

theorem mtCloseLogFile_meets {path : String} (hfd : m.logFileFd = some path) (h : AtEvent exact files lines s) :
    (logTerms exact files lines).Meets (Terms.Returns fun _ s' => Ended exact files lines s') (mtCloseLogFile m) s := by
  unfold mtCloseLogFile
  rw [hfd]
  obtain ⟨buffer, hunder, -⟩ := h
  refine Terms.Meets.call ?_
  rintro s₁ rfl turn ⟨-, hturn⟩
  have hexec : stdio turn (.fclose path) s = ((), { flush turn mLogPath buffer s with stream := none }) := by
    simp [stdio, hunder.stream]
  have hended : Ended exact files lines { flush turn mLogPath buffer s with stream := none } :=
    (hunder.flush hturn).ended
  refine ⟨(), _, hexec, hended.1, ?_⟩
  rintro s₂ rfl
  exact hended

variable {r : MonitorRun}

/-- What comes once the log has been opened, or could not be. -/
def monitored (m : MonitorTool) (r : MonitorRun) (result : ℤ) : LogProg Unit := do
  ifCalled (result = mLogFileCreateErr) (.sendPanic "Log file could not be created.")
  mtEvents m r.monitors r.handled
  mtCloseLogFile m

theorem monitored_open {path : String} (hfd : m.logFileFd = some path)
    (hconf : m.conf.logToFile = r.args.conf.logToFile) (result : ℤ) (h : AtEvent exact files [] s) :
    (logTerms exact files r.lines).Meets (Terms.Returns fun _ s' => Ended exact files r.lines s')
      (monitored m r result) s := by
  have hkept : Kept files r.lines s := by
    obtain ⟨buffer, hunder, -⟩ := h
    exact hunder.kept rfl
  refine Terms.Meets.bind_returns (ifCalled_meets _ (fun _ => rfl) hkept) ?_
  rintro - s' rfl
  cases hfile : m.conf.logToFile with
  | false =>
    have hlines : r.lines = [] := by simp [MonitorRun.lines, ← hconf, hfile]
    refine Terms.Meets.bind ((mtEvents_quiet (.inl hfile) (.inr hfile) hkept r.handled).mono ?_)
    rintro (_ | _) s' ⟨rfl, hsome⟩
    · exact absurd rfl (hsome hfile)
    · rw [hlines]
      exact mtCloseLogFile_meets hfd h
  | true =>
    have hlines : r.lines = [] ++ r.handled.filterMap (lineOf r.monitors) := by
      simp [MonitorRun.lines, ← hconf, hfile]
    refine Terms.Meets.bind_returns (mtEvents_meets hfile hfd hlines h) ?_
    intro _ s' hevent
    exact mtCloseLogFile_meets hfd hevent

theorem kept_start (files : String → Option Bytes) (lines : List Bytes) : Kept files lines ⟨files, none⟩ :=
  ⟨fun _ _ => rfl, [], cut_nil lines, (List.append_nil _).symm⟩

theorem monitored_unopened (hfd : m.logFileFd = none) (result : ℤ) (hexact : exact = true → False) :
    (logTerms exact files r.lines).Meets (fun _ s' => Ended exact files r.lines s') (monitored m r result)
      ⟨files, none⟩ := by
  have hkept := kept_start files r.lines
  have hended : Ended exact files r.lines ⟨files, none⟩ := ⟨hkept, fun hex => (hexact hex).elim⟩
  have hclose : mtCloseLogFile m = .ret () := by
    unfold mtCloseLogFile
    rw [hfd]
    rfl
  refine Terms.Meets.bind_returns (ifCalled_meets _ (fun _ => rfl) hkept) ?_
  rintro - s' rfl
  refine Terms.Meets.bind ((mtEvents_quiet (.inr hfd) (.inl rfl) hkept r.handled).mono ?_)
  rintro (_ | _) s' ⟨rfl, -⟩
  · exact hended
  · rw [Terms.enters_some, hclose]
    rintro s' rfl
    exact hended

/-- Opened, and nothing is lost of what is there. -/
theorem atEvent_start (exact : Bool) (files : String → Option Bytes) :
    AtEvent exact files [] (LogState.start ⟨files, none⟩ mLogPath (content files mLogPath)) := by
  refine ⟨[], ?_, fun _ => rfl⟩
  exact {
    others := by
      intro path hpath
      simp [LogState.start, hpath]
    stream := rfl
    text := ⟨[], by simp [LogState.start], .nil, fun _ => rfl⟩ }

/-- Opening the log, whatever comes of it. -/
theorem program_meets (exact : Bool) (files : String → Option Bytes) (r : MonitorRun) :
    (logTerms exact files r.lines).Meets (fun o s' => Ended exact files r.lines s' ∧ (exact = true → o ≠ none))
      r.program ⟨files, none⟩ := by
  have hopened : ∀ (m : MonitorTool) (path : String) (result : ℤ) (s : LogState), m.logFileFd = some path →
      m.conf.logToFile = r.args.conf.logToFile → AtEvent exact files [] s → (logTerms exact files r.lines).Meets
        (fun o s' => Ended exact files r.lines s' ∧ (exact = true → o ≠ none)) (monitored m r result) s := by
    intro m path result s hfd hconf h
    refine (monitored_open hfd hconf result h).mono ?_
    intro o s' hreturns
    exact ⟨hreturns.holds, fun _ => hreturns.ne_none⟩
  have hnot : ∀ (m : MonitorTool) (result : ℤ), m.logFileFd = none → (exact = true → False) →
      (logTerms exact files r.lines).Meets (fun o s' => Ended exact files r.lines s' ∧ (exact = true → o ≠ none))
        (monitored m r result) ⟨files, none⟩ := by
    intro m result hfd hexact
    refine (monitored_unopened hfd result hexact).mono ?_
    intro o s' hended
    exact ⟨hended, fun hex => (hexact hex).elim⟩
  have hkept := kept_start files r.lines
  obtain ⟨buffer, hunder, -⟩ := atEvent_start exact files
  have hkept' : Kept files r.lines (LogState.start ⟨files, none⟩ mLogPath (content files mLogPath)) := hunder.kept rfl
  unfold MonitorRun.program monitorPaths
  rw [mtInitializeLogFile_bind]
  refine Terms.Meets.call ?_
  rintro s₁ rfl turn ⟨hread, -⟩
  cases hfile : files mLogPath with
  | none =>
    have hempty : content files mLogPath = [] := by simp [content, hfile]
    have hexec : stdio turn (.fopen mLogPath .read) ⟨files, none⟩ = (false, ⟨files, none⟩) := by simp [stdio, hfile]
    refine ⟨false, _, hexec, hkept, ?_⟩
    refine Terms.Meets.call ?_
    rintro s₂ rfl turn' ⟨-, hturn⟩
    cases hfails : turn'.fails with
    | true =>
      have hexec' : stdio turn' (.fopen mLogPath .write) ⟨files, none⟩ = (false, ⟨files, none⟩) := by
        simp [stdio, hfails]
      refine ⟨false, _, hexec', hkept, ?_⟩
      exact hnot (mtUpdateMonitorConf monitorTool r.args.conf) mLogFileCreateErr rfl fun hex => by
        simp [hturn hex] at hfails
    | false =>
      have hexec' : stdio turn' (.fopen mLogPath .write) ⟨files, none⟩ =
          (true, LogState.start ⟨files, none⟩ mLogPath (content files mLogPath)) := by
        simp [stdio, hfails, hempty]
      refine ⟨true, _, hexec', hkept', ?_⟩
      exact hopened (mtUpdateMonitorConf { monitorTool with logFileFd := some mLogPath } r.args.conf) mLogPath
        mLogFileCreated _ rfl rfl (atEvent_start exact files)
  | some text =>
    have hexec : stdio turn (.fopen mLogPath .read) ⟨files, none⟩ = (true, ⟨files, none⟩) := by
      simp [stdio, hfile, hread]
    refine ⟨true, _, hexec, hkept, ?_⟩
    refine Terms.Meets.call ?_
    rintro s₂ rfl turn' -
    refine ⟨(), _, rfl, hkept, ?_⟩
    refine Terms.Meets.call ?_
    rintro s₃ rfl turn'' ⟨-, hturn⟩
    cases hfails : turn''.fails with
    | true =>
      have hexec' : stdio turn'' (.fopen mLogPath .append) ⟨files, none⟩ = (false, ⟨files, none⟩) := by
        simp [stdio, hfails]
      refine ⟨false, _, hexec', hkept, ?_⟩
      exact hnot (mtUpdateMonitorConf monitorTool r.args.conf) mLogFileExisted rfl fun hex => by
        simp [hturn hex] at hfails
    | false =>
      have hexec' : stdio turn'' (.fopen mLogPath .append) ⟨files, none⟩ =
          (true, LogState.start ⟨files, none⟩ mLogPath (content files mLogPath)) := by
        simp [stdio, hfails]
      refine ⟨true, _, hexec', hkept', ?_⟩
      exact hopened (mtUpdateMonitorConf { monitorTool with logFileFd := some mLogPath } r.args.conf) mLogPath
        mLogFileExisted _ rfl rfl (atEvent_start exact files)

end Runs

section Restarts

variable {files files' : String → Option Bytes} {r : MonitorRun} {sched : ℕ → Turn} {s : LogState}

/-- Wherever a run is broken off. -/
theorem kept_of_reaches (hread : ∀ t, (sched t).hides = false) {q : LogProg Unit} {t : ℕ}
    (h : Reaches stdio sched r.program 0 ⟨files, none⟩ q t s) : Kept files r.lines s := by
  have hallowed : ∀ t, (logTerms false files r.lines).allowed (sched t) := fun t => ⟨hread t, nofun⟩
  obtain ⟨-, htrace⟩ := (program_meets false files r).run sched hallowed 0
  exact h.invariant (fun e he _ => htrace e he) (kept_start files r.lines)

/-- A run in which nothing fails comes to its end, with all its lines in the log. -/
theorem ended_of_run (hread : ∀ t, (sched t).hides = false) (hgood : ∀ t, (sched t).fails = false) :
    Ended true files r.lines (run stdio sched r.program 0 ⟨files, none⟩).state := by
  have hallowed : ∀ t, (logTerms true files r.lines).allowed (sched t) := fun t => ⟨hread t, fun _ => hgood t⟩
  obtain ⟨⟨hended, -⟩, -⟩ := (program_meets true files r).run sched hallowed 0
  exact hended

/-- One run of the monitor after the other, with a mark on those that have been let alone. The others may be killed
after any call, and their calls may fail; no file that is there is hidden from a run. -/
inductive Restarts : List (MonitorRun × Bool) → (String → Option Bytes) → (String → Option Bytes) → Prop
  | nil (files : String → Option Bytes) : Restarts [] files files
  | disturbed {r : MonitorRun} {runs : List (MonitorRun × Bool)} {files files' : String → Option Bytes}
      {sched : ℕ → Turn} {q : LogProg Unit} {t : ℕ} {s : LogState} (hread : ∀ t, (sched t).hides = false)
      (h : Reaches stdio sched r.program 0 ⟨files, none⟩ q t s) (hrest : Restarts runs s.files files') :
      Restarts ((r, false) :: runs) files files'
  | alone {r : MonitorRun} {runs : List (MonitorRun × Bool)} {files files' : String → Option Bytes}
      {sched : ℕ → Turn} (hread : ∀ t, (sched t).hides = false) (hgood : ∀ t, (sched t).fails = false)
      (hrest : Restarts runs (run stdio sched r.program 0 ⟨files, none⟩).state.files files') :
      Restarts ((r, true) :: runs) files files'

/-- What a run has added to the log. -/
def Adds (text : Bytes) (run : MonitorRun × Bool) : Prop :=
  Cut text run.1.lines ∧ (run.2 = true → text = run.1.lines.flatten)

/-- The log only grows, by what each run adds to it. -/
theorem restarts_kept {runs : List (MonitorRun × Bool)} (h : Restarts runs files files') :
    (∀ path, path ≠ mLogPath → files' path = files path) ∧ ∃ texts, List.Forall₂ Adds texts runs ∧
      content files' mLogPath = content files mLogPath ++ texts.flatten := by
  induction h with
  | nil files => exact ⟨fun _ _ => rfl, [], .nil, (List.append_nil _).symm⟩
  | disturbed hread hreach hrest ih =>
    obtain ⟨hothers, text, hcut, hcontent⟩ := kept_of_reaches hread hreach
    obtain ⟨hothers', texts, htexts, hcontent'⟩ := ih
    refine ⟨fun path hpath => (hothers' path hpath).trans (hothers path hpath), text :: texts, ?_, ?_⟩
    · exact .cons ⟨hcut, nofun⟩ htexts
    · rw [hcontent', hcontent]
      simp
  | @alone r runs files files' sched hread hgood hrest ih =>
    obtain ⟨⟨hothers, -⟩, hwhole⟩ := @ended_of_run files r sched hread hgood
    obtain ⟨hothers', texts, htexts, hcontent'⟩ := ih
    refine ⟨fun path hpath => (hothers' path hpath).trans (hothers path hpath), r.lines.flatten :: texts, ?_, ?_⟩
    · exact .cons ⟨cut_flatten _, fun _ => rfl⟩ htexts
    · rw [hcontent', hwhole rfl]
      simp

/-- A log that cannot be read is taken for one that is not there, and what it held is lost. -/
theorem hidden_emptied (hread : (sched 0).hides = true) (hopen : (sched 1).fails = false) :
    ∃ q s, Reaches stdio sched r.program 0 ⟨files, none⟩ q 2 s ∧ content s.files mLogPath = [] := by
  have hexec : stdio (sched 0) (.fopen monitorTool.conf.logFile .read) ⟨files, none⟩ = (false, ⟨files, none⟩) := by
    simp [stdio, hread]
  have hexec' : stdio (sched 1) (.fopen monitorTool.conf.logFile .write) ⟨files, none⟩ =
      (true, LogState.start ⟨files, none⟩ mLogPath []) := by
    simp [stdio, hopen, monitorTool]
  refine ⟨monitored (mtUpdateMonitorConf { monitorTool with logFileFd := some mLogPath } r.args.conf) r mLogFileCreated,
    LogState.start ⟨files, none⟩ mLogPath [], ?_, by simp [LogState.start]⟩
  unfold MonitorRun.program monitorPaths
  rw [mtInitializeLogFile_bind]
  apply Reaches.call
  rw [hexec]
  apply Reaches.call
  rw [hexec']
  exact .here _ _ _

/-- One event, in a monitor with the configuration that is compiled in. -/
def sampleRun : MonitorRun := ⟨monitorArgs, [watched], [created (bytes "a")]⟩

def sampleLine : Bytes := eventFileMessage watched.path (created (bytes "a")).1 (created (bytes "a")).2 ++ [10]

/-- Nothing fails, and three bytes go to the file at once. -/
def sampleTurn : Turn := ⟨false, false, 0, 3, false⟩

/-- The first monitor is killed between a line and its end, and the second one goes on behind what it has left. -/
theorem restarts_kept_killed : ∃ files', Restarts [(sampleRun, false), (sampleRun, true)] (fun _ => none) files' ∧
    content files' mLogPath = sampleLine.take 3 ++ sampleLine ∧
    ∃ texts, List.Forall₂ Adds texts [(sampleRun, false), (sampleRun, true)] ∧
      content files' mLogPath = content (fun _ => none) mLogPath ++ texts.flatten := by
  have hlines : sampleRun.lines = [sampleLine] := rfl
  obtain ⟨q, t, s, hreach, hcontent⟩ : ∃ q t s,
      Reaches stdio (fun _ => sampleTurn) sampleRun.program 0 ⟨fun _ => none, none⟩ q t s ∧
        content s.files mLogPath = sampleLine.take 3 :=
    ⟨_, _, _, .call (.call (.call (.here _ _ _))), rfl⟩
  have hruns : Restarts [(sampleRun, false), (sampleRun, true)] (fun _ => none) _ :=
    .disturbed (fun _ => rfl) hreach
      (@Restarts.alone sampleRun [] _ _ (fun _ => sampleTurn) (fun _ => rfl) (fun _ => rfl) (.nil _))
  have hend := (@ended_of_run s.files sampleRun (fun _ => sampleTurn) (fun _ => rfl) fun _ => rfl).2 rfl
  rw [hcontent, hlines] at hend
  exact ⟨_, hruns, by simpa using hend, (restarts_kept hruns).2⟩

end Restarts

end Reportman.LogFile
