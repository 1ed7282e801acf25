import Mathlib
import Reportman.EntryPoints
import Reportman.FmLoop

/-!
# The daemon

`reportmand` from the spawn of its first child on. Every call names what it is about, and each call on
a pipe the place in the source that makes it, so that runs can be spoken of; the environment decides
what a call returns. A loop is watched for a number of rounds, and the conversation with a client for
a number of its own.
-/
namespace Reportman.Daemon
open Resumable Ipc EntryPoints FileSystem
open FmLoop (Errno SignalRead WriteResult Exit sigint sigterm)

inductive ChildName
  | fm
  | mon
  deriving DecidableEq, Repr

def ChildName.executable : ChildName → String
  | .fm => "reportman_fm"
  | .mon => "reportman_mon"

/-- Where a pipe is used: `acknowledge_client`, `__reportman_fm_get_timers`, the poll loop, the reads
before the probes, and `__health_probe_child_process`. -/
inductive Site
  | acknowledge (c : ChildName)
  | timers
  | loop (c : ChildName)
  | drain (c : ChildName)
  | probe (c : ChildName)
  deriving DecidableEq, Repr

structure PollEvents where
  pollin : Bool
  pollhup : Bool
  pollerr : Bool
  pollnval : Bool
  deriving DecidableEq, Repr

structure DaemonRevents where
  signal : PollEvents
  client : PollEvents
  fm : PollEvents
  mon : PollEvents
  health : PollEvents
  deriving DecidableEq, Repr

/-- The descriptors of the array that is polled. -/
structure PollFds where
  signal : ℤ
  client : ℤ
  fm : ℤ
  mon : ℤ
  health : ℤ
  deriving DecidableEq, Repr

/-- The calls of the daemon. `execute` is what `__handle_command` does for a client, and `fork` also
stands for what the new process does until its `execv`: it closes the descriptors listed. -/
inductive DaemonSys
  | poll (fds : PollFds)
  | readSignal
  | accept
  | selectClient (fd : ℤ)
  | readClient (fd : ℤ)
  | writeClient (fd : ℤ) (text : Bytes)
  | execute (command : Bytes)
  | timerCreate
  | timerfdCreate
  | settime
  | sigaction
  | initializeSignals
  | timerDelete
  | select (site : Site) (fd : ℤ) (timeoutSecs : ℕ)
  | read (site : Site) (fd : ℤ)
  | write (site : Site) (fd : ℤ) (word : UInt64)
  | uninitialized (site : Option Site) (known : List UInt8)
  | kill (c : ChildName) (pid : ℤ) (signo : ℕ)
  | killGroup (signo : ℕ)
  | waitpid (pid : ℤ)
  | pipe
  | fork (c : ChildName) (closed : List ℤ) (args : List String)
  | close (fd : ℤ)
  | exit (code : Exit)

/-- `pipe` gives the read end and the write end. -/
abbrev DaemonSys.Res : DaemonSys → Type
  | .poll _ => Except Errno DaemonRevents
  | .readSignal => SignalRead
  | .accept => Option ℤ
  | .selectClient _ => SelectResult
  | .readClient _ => Option Bytes
  | .writeClient _ _ => WriteResult
  | .execute _ => Bytes
  | .timerCreate => Bool
  | .timerfdCreate => Option ℤ
  | .settime => Bool
  | .sigaction => Bool
  | .initializeSignals => Option ℤ
  | .timerDelete => Unit
  | .select _ _ _ => SelectResult
  | .read _ _ => Option (List UInt8)
  | .write _ _ _ => WriteResult
  | .uninitialized _ _ => UInt64
  | .kill _ _ _ => Bool
  | .killGroup _ => Unit
  | .waitpid _ => Unit
  | .pipe => Option (ℤ × ℤ)
  | .fork _ _ _ => Option ℤ
  | .close _ => Unit
  | .exit _ => Unit

abbrev DaemonProg := Program DaemonSys DaemonSys.Res

structure ChildProcess where
  pid : ℤ
  pipes : IpcPipes
  maxRetries : UInt16
  retries : UInt16
  isAlive : Bool

/-- The variables of the program, `command` being the one of the poll loop; `handlesSigpipe` says that
`__handle_sigpipe` has been installed. -/
structure DaemonState where
  fm : ChildProcess
  mon : ChildProcess
  current : Option ChildName
  closeRequested : Bool
  backupTimer : UInt64
  transferTimer : UInt64
  command : UInt32
  handlesSigpipe : Bool

namespace DaemonState

def child (d : DaemonState) : ChildName → ChildProcess
  | .fm => d.fm
  | .mon => d.mon

def setChild (d : DaemonState) : ChildName → ChildProcess → DaemonState
  | .fm, p => { d with fm := p }
  | .mon, p => { d with mon := p }

@[simp] theorem child_setChild (d : DaemonState) (c : ChildName) (p : ChildProcess) :
    (d.setChild c p).child c = p := by cases c <;> rfl

theorem child_setChild_ne (d : DaemonState) {c c' : ChildName} (h : c' ≠ c) (p : ChildProcess) :
    (d.setChild c p).child c' = d.child c' := by cases c <;> cases c' <;> first | rfl | exact absurd rfl h

@[simp] theorem setChild_setChild (d : DaemonState) (c : ChildName) (p q : ChildProcess) :
    (d.setChild c p).setChild c q = d.setChild c q := by cases c <;> rfl

@[simp] theorem setChild_current (d : DaemonState) (c : ChildName) (p : ChildProcess) :
    (d.setChild c p).current = d.current := by cases c <;> rfl

@[simp] theorem setChild_handlesSigpipe (d : DaemonState) (c : ChildName) (p : ChildProcess) :
    (d.setChild c p).handlesSigpipe = d.handlesSigpipe := by cases c <;> rfl

end DaemonState

def initially (maxRetries : ChildName → UInt16) : DaemonState where
  fm := ⟨-1, ⟨-1, -1⟩, maxRetries .fm, 0, false⟩
  mon := ⟨-1, ⟨-1, -1⟩, maxRetries .mon, 0, false⟩
  current := none
  closeRequested := false
  backupTimer := 0
  transferTimer := 0
  command := 0
  handlesSigpipe := false

/-- The environment: what each call returns. -/
abbrev Environment := (op : DaemonSys) → op.Res

/-- A call of which nothing but its result is followed. -/
def answer (env : Environment) (op : DaemonSys) (_ : Unit) : op.Res × Unit := (env op, ())

abbrev DaemonHistory := List (Event DaemonSys DaemonSys.Res Unit)

theorem run_answer {α : Type} (sched : ℕ → Environment) (op : DaemonSys) (next : op.Res → DaemonProg α)
    (t : ℕ) : run answer sched (.call op next) t () = run answer sched (next (sched t op)) (t + 1) () :=
  rfl

theorem trace_answer {α : Type} (sched : ℕ → Environment) (op : DaemonSys)
    (next : op.Res → DaemonProg α) (t : ℕ) : trace answer sched (.call op next) t () =
      ⟨op, sched t op, (), ()⟩ :: trace answer sched (next (sched t op)) (t + 1) () :=
  rfl

section Source

def sys (op : DaemonSys) : DaemonProg op.Res := Program.perform op

def exitWith {α : Type} (code : Exit) : DaemonProg α := .call (.exit code) fun _ => .halt

/-- A broken pipe raises `SIGPIPE`: the process ends unless the handler has been installed, and in the
handler if there is no current process whose name it could log. -/
def brokenPipe (d : DaemonState) : DaemonProg Bool :=
  if d.handlesSigpipe ∧ d.current ≠ none then return false else .halt

def written (d : DaemonState) : WriteResult → DaemonProg Bool
  | .written => return true
  | .failed => return false
  | .broken => brokenPipe d

def daemonCalls (d : DaemonState) (site : Site) : PipeCalls DaemonProg where
  select fd timeoutSecs := sys (.select site fd timeoutSecs)
  read fd := sys (.read site fd)
  write fd word := sys (.write site fd word) >>= written d
  uninitialized known := sys (.uninitialized (some site) known)

def acknowledgeClient (d : DaemonState) (c : ChildName) : DaemonProg Unit := do
  match ← sys (.select (.acknowledge c) (d.child c).pipes.read 10) with
  | .error => exitWith .failure
  | .timeout => exitWith .failure
  | .ready =>
      if ¬ (← ipcGetAck (daemonCalls d (.acknowledge c)) (d.child c).pipes) then exitWith .failure
      else if ¬ (← ipcSendAck (daemonCalls d (.acknowledge c)) (d.child c).pipes) then
        exitWith .failure
      else return ()

def reportmanFmGetTimers (d : DaemonState) : DaemonProg DaemonState := do
  match ← sys (.select .timers d.fm.pipes.read 10) with
  | .error => exitWith .failure
  | .timeout => exitWith .failure
  | .ready =>
      let backup ← ipcGetUlong (daemonCalls d .timers) d.fm.pipes
      if backup = ipcValueUintFlag.toUInt64 then exitWith .failure
      else do
        let transfer ← ipcGetUlong (daemonCalls d .timers) d.fm.pipes
        if transfer = ipcValueUintFlag.toUInt64 then exitWith .failure
        else return { d with backupTimer := backup, transferTimer := transfer }

/-- The arguments of `execv`. -/
def childArgs (c : ChildName) (parentToChildRead childToParentWrite : ℤ) (extraArgs : List String) :
    List String :=
  [c.executable, "--from-daemon", "--d-to-c", toString parentToChildRead, "--c-to-d",
    toString childToParentWrite] ++ extraArgs

variable (dSocket : ℤ)

def startChildProcess (p : ChildProcess) (c : ChildName) (extraArgs : List String) :
    DaemonProg ChildProcess := do
  match ← sys .pipe with
  | none => return p
  | some (childRead, childWrite) =>
    match ← sys .pipe with
    | none => return p
    | some (parentRead, parentWrite) =>
      match ← sys (.fork c [dSocket, parentWrite, childRead]
          (childArgs c parentRead childWrite extraArgs)) with
      | none => exitWith .failure
      | some pid => do
          sys (.close parentRead)
          sys (.close childWrite)
          return { p with pid := pid, pipes := ⟨parentWrite, childRead⟩, isAlive := true }

/-- What `start_child_process` returns is not looked at. -/
def childSpawn (d : DaemonState) (c : ChildName) (extraArgs : List String) :
    DaemonProg DaemonState := do
  let p ← startChildProcess dSocket (d.child c) c extraArgs
  let d := d.setChild c p
  acknowledgeClient d c
  return d

def killChildren : DaemonProg Unit := do
  sys (.killGroup sigterm)
  sys (.waitpid 0)

def cleanClose {α : Type} (fds : PollFds) (d : DaemonState) (code : Exit) : DaemonProg α := do
  sys (.close fds.health)
  sys (.close d.fm.pipes.read)
  sys (.close d.mon.pipes.read)
  sys .timerDelete
  killChildren
  sys (.close fds.signal)
  sys (.close dSocket)
  exitWith code

/-- A probe is sent, and whatever command comes next is the answer. -/
def answersProbe (d : DaemonState) (c : ChildName) : DaemonProg Bool := do
  let _ ← ipcSendHealthProbe (daemonCalls d (.probe c)) (d.child c).pipes
  let (result, _) ← ipcGetCommand (daemonCalls d (.probe c)) (d.child c).pipes ipcTimeout
  return result = 1

/-- The second half of `__health_probe_child_process`, for a child that is dead or does not answer. -/
def restartChild (d : DaemonState) (c : ChildName) (postProcLaunch : DaemonState → DaemonProg DaemonState) :
    DaemonProg DaemonState :=
  let p := d.child c
  if p.retries > p.maxRetries then exitWith .failure
  else do
    let d ← childSpawn dSocket (d.setChild c { p with retries := p.retries + 1 }) c []
    let d ← postProcLaunch d
    return { d with current := none }

def healthProbeChildProcess (d : DaemonState) (c : ChildName)
    (postProcLaunch : DaemonState → DaemonProg DaemonState) : DaemonProg DaemonState := do
  let d := { d with current := some c }
  let p := d.child c
  let isAlive ← sys (.kill c p.pid 0)
  let d := d.setChild c { p with isAlive := isAlive }
  if isAlive then do
    if ← answersProbe d c then return d
    else do
      let _ ← sys (.kill c p.pid sigterm)
      sys (.waitpid p.pid)
      restartChild dSocket (d.setChild c { p with isAlive := false }) c postProcLaunch
  else restartChild dSocket d c postProcLaunch

/-- `ipc_get_command` into `command`, whose result is not looked at. -/
def getCommand (d : DaemonState) (site : Site) (c : ChildName) (timeoutSecs : ℕ) :
    DaemonProg DaemonState := do
  let (_, command) ← ipcGetCommand (daemonCalls d site) (d.child c).pipes timeoutSecs
  return { d with command := command.getD d.command }

def childMessage (fds : PollFds) (d : DaemonState) (site : Site) (c : ChildName) (timeoutSecs : ℕ) :
    DaemonProg DaemonState := do
  let d ← getCommand d site c timeoutSecs
  if d.command = ipcCommandPanic then cleanClose dSocket fds d .failure else return d

/-- SIGINT and SIGTERM end the loop. -/
def signalMessage (fds : PollFds) (d : DaemonState) : DaemonProg Unit := do
  match ← sys .readSignal with
  | .error _ => do
      killChildren
      exitWith .failure
  | .short => do
      killChildren
      exitWith .failure
  | .signal signo =>
      if signo = sigint ∨ signo = sigterm then do
        killChildren
        cleanClose dSocket fds { d with closeRequested := true } .success
      else return ()

@[irreducible] def timeoutMsg : Bytes := bytes "Timeout reached. Closing connection." ++ [0]

/-- What the write returns is not looked at. -/
def writeClient (d : DaemonState) (fd : ℤ) (text : Bytes) : DaemonProg Unit := do
  let _ ← sys (.writeClient fd text) >>= written d
  return ()

/-- What follows the conversation. -/
def farewell (fd : ℤ) (d : DaemonState) (selected : SelectResult) : DaemonProg (Option DaemonState) :=
  if selected = .error then return some d
  else do
    writeClient d fd timeoutMsg
    return some d

def noteClose (d : DaemonState) (command : Bytes) : DaemonState :=
  { d with closeRequested := d.closeRequested || (parseCommand command).1 = .close }

/-- The conversation with one client; nothing is returned while it goes on. -/
def session (fd : ℤ) (d : DaemonState) : ℕ → DaemonProg (Option DaemonState)
  | 0 => return none
  | exchanges + 1 => do
      let selected ← sys (.selectClient fd)
      if selected = .timeout then farewell fd d selected
      else
        match ← sys (.readClient fd) with
        | none => session fd d exchanges
        | some [] => farewell fd d selected
        | some (b :: bs) => do
            let command := (b :: bs).takeWhile (· ≠ 0)
            let response ← sys (.execute command)
            writeClient (noteClose d command) fd response
            session fd (noteClose d command) exchanges

/-- How the part of a round that serves a client ends: with `continue`, with nothing as the
conversation goes on, or at the next part. -/
inductive Served
  | again
  | serving
  | done (d : DaemonState)

def clientMessage (fds : PollFds) (d : DaemonState) (exchanges : ℕ) : DaemonProg Served := do
  match ← sys .accept with
  | none => return .again
  | some fd =>
      match ← session fd d exchanges with
      | none => return .serving
      | some d => do
          sys (.close fd)
          if d.closeRequested then cleanClose dSocket fds d .success else return .done d

def healthRound (fds : PollFds) (d : DaemonState) : DaemonProg DaemonState := do
  if ¬ (← sys .settime) then exitWith .failure
  else do
    let d ← childMessage dSocket fds d (.drain .fm) .fm 1
    let d ← childMessage dSocket fds d (.drain .mon) .mon 1
    let d ← healthProbeChildProcess dSocket d .fm reportmanFmGetTimers
    healthProbeChildProcess dSocket d .mon pure

/-- One of the `if`s over the `revents`. -/
def handled (pollin : Bool) (d : DaemonState) (handler : DaemonProg DaemonState) :
    DaemonProg DaemonState :=
  if pollin then handler else return d

def clientHandled (fds : PollFds) (d : DaemonState) (exchanges : ℕ) (pollin : Bool) :
    DaemonProg Served :=
  if pollin then clientMessage dSocket fds d exchanges else return .done d

def signalHandled (fds : PollFds) (d : DaemonState) (pollin : Bool) : DaemonProg Unit :=
  if pollin then signalMessage dSocket fds d else return ()

/-- The `if`s that do not end in `continue`. -/
def childrenHandled (fds : PollFds) (d : DaemonState) (revents : DaemonRevents) :
    DaemonProg DaemonState := do
  let d ← handled revents.fm.pollin d (childMessage dSocket fds d (.loop .fm) .fm 5)
  let d ← handled revents.mon.pollin d (childMessage dSocket fds d (.loop .mon) .mon 5)
  handled revents.health.pollin d (healthRound dSocket fds d)

/-- One round of the poll loop; nothing is returned while a client is being served. -/
def daemonRound (fds : PollFds) (exchanges : ℕ) (d : DaemonState) :
    DaemonProg (Option DaemonState) := do
  match ← sys (.poll fds) with
  | .error .eintr => return some d
  | .error .other => do
      killChildren
      exitWith .failure
  | .ok revents => do
      signalHandled dSocket fds d revents.signal.pollin
      match ← clientHandled dSocket fds d exchanges revents.client.pollin with
      | .again => return some d
      | .serving => return none
      | .done d => some <$> childrenHandled dSocket fds d revents

/-- The poll loop, watched for a number of rounds. -/
def pollLoop (fds : PollFds) (exchanges : ℕ) : ℕ → DaemonState → DaemonProg (Option DaemonState)
  | 0, d => return some d
  | rounds + 1, d => do
      match ← daemonRound dSocket fds exchanges d with
      | none => return none
      | some d => pollLoop fds exchanges rounds d

/-- `__listen_to_clients` up to its loop. -/
def prepare (d : DaemonState) : DaemonProg (PollFds × DaemonState) := do
  let command ← sys (.uninitialized none [])
  if ¬ (← sys .timerCreate) then exitWith .failure
  else
    match ← sys .timerfdCreate with
    | none => exitWith .failure
    | some timerfd =>
      if ¬ (← sys .settime) then exitWith .failure
      else if ¬ (← sys .sigaction) then exitWith .failure
      else
        match ← sys .initializeSignals with
        | none => exitWith .failure
        | some signalFd =>
            return (⟨signalFd, dSocket, d.fm.pipes.read, d.mon.pipes.read, timerfd⟩,
              { d with command := command.toUInt32, handlesSigpipe := true })

/-- `main` up to the poll loop. -/
def startUp (directories : List String) (d : DaemonState) : DaemonProg (PollFds × DaemonState) := do
  let d ← childSpawn dSocket d .fm []
  let d ← reportmanFmGetTimers d
  let d ← childSpawn dSocket d .mon directories
  prepare dSocket d

/-- The daemon, watched for a number of rounds. -/
def daemonMain (directories : List String) (exchanges rounds : ℕ) (d : DaemonState) :
    DaemonProg (Option (PollFds × DaemonState)) := do
  let (fds, d) ← startUp dSocket directories d
  let end? ← pollLoop dSocket fds exchanges rounds d
  return end?.map (fds, ·)

end Source

section Equations

variable {α : Type} (d : DaemonState) (site : Site) (pipes : IpcPipes)

theorem received_bind (bytes : List UInt8) (k : UInt64 → DaemonProg α) :
    received (daemonCalls d site) bytes >>= k =
      if bytes.length = 8 then k (wordOf bytes).toUInt64
      else .call (.uninitialized (some site) bytes) k := by
  unfold received
  split_ifs <;> rfl

theorem received_always {A : (op : DaemonSys) → op.Res → Prop} {Q : α → Prop} {bytes : List UInt8}
    {k : UInt64 → DaemonProg α} (hunset : ∀ r, A (.uninitialized (some site) bytes) r)
    (hk : ∀ msg, (k msg).Always A Q) : (received (daemonCalls d site) bytes >>= k).Always A Q := by
  rw [received_bind]
  split_ifs
  · exact hk _
  · exact fun msg => ⟨hunset msg, hk msg⟩

theorem ipcGetCommand_bind (timeoutSecs : ℕ) (k : ℤ × Option UInt32 → DaemonProg α) :
    ipcGetCommand (daemonCalls d site) pipes timeoutSecs >>= k =
      .call (.select site pipes.read timeoutSecs) fun selected => match selected with
        | .error => k (0, none)
        | .timeout => k (ipcTimeoutErr, none)
        | .ready => .call (.read site pipes.read) fun got => match got with
            | none => k (0, none)
            | some bytes => received (daemonCalls d site) bytes >>= fun msg =>
                if ipcIsCommand msg then k (1, some msg.toUInt32) else k (0, none) := by
  refine congrArg (Program.call (DaemonSys.select site pipes.read timeoutSecs)) (funext fun selected => ?_)
  rcases selected with _ | _ | _
  · rfl
  · rfl
  refine congrArg (Program.call (DaemonSys.read site pipes.read)) (funext fun got => ?_)
  rcases got with _ | bytes
  · rfl
  refine (bind_assoc (received (daemonCalls d site) bytes) _ _).trans ?_
  refine congrArg (received (daemonCalls d site) bytes >>= ·) (funext fun msg => ?_)
  by_cases hc : ipcIsCommand msg = true
  · rw [if_neg (by simp [hc]), if_pos hc]
    rfl
  · rw [if_pos (by simp [hc]), if_neg hc]
    rfl

theorem ipcGetUlong_bind (k : UInt64 → DaemonProg α) :
    ipcGetUlong (daemonCalls d site) pipes >>= k =
      .call (.read site pipes.read) fun got => match got with
        | none => k ipcValueUintFlag.toUInt64
        | some bytes => received (daemonCalls d site) bytes >>= fun msg =>
            if ipcIsUlong msg then k (msg &&& (~~~ipcValueUintFlag).toUInt64)
            else k ipcValueUintFlag.toUInt64 := by
  refine congrArg (Program.call (DaemonSys.read site pipes.read)) (funext fun got => ?_)
  rcases got with _ | bytes
  · rfl
  refine (bind_assoc (received (daemonCalls d site) bytes) _ _).trans ?_
  refine congrArg (received (daemonCalls d site) bytes >>= ·) (funext fun msg => ?_)
  by_cases hc : ipcIsUlong msg = true
  · rw [if_neg (by simp [hc]), if_pos hc]
    rfl
  · rw [if_pos (by simp [hc]), if_neg hc]
    rfl

theorem ipcGetAck_bind (k : Bool → DaemonProg α) :
    ipcGetAck (daemonCalls d site) pipes >>= k =
      .call (.read site pipes.read) fun got => match got with
        | none => k false
        | some bytes => received (daemonCalls d site) bytes >>= fun msg => k (ipcIsAck msg) := by
  refine congrArg (Program.call (DaemonSys.read site pipes.read)) (funext fun got => ?_)
  rcases got with _ | bytes
  · rfl
  · exact bind_assoc (received (daemonCalls d site) bytes) _ _

theorem getCommand_eq (c : ChildName) (timeoutSecs : ℕ) : getCommand d site c timeoutSecs =
    .call (.select site (d.child c).pipes.read timeoutSecs) fun selected => match selected with
      | .error => .ret d
      | .timeout => .ret d
      | .ready => .call (.read site (d.child c).pipes.read) fun got => match got with
          | none => .ret d
          | some bytes => received (daemonCalls d site) bytes >>= fun msg =>
              if ipcIsCommand msg then .ret { d with command := msg.toUInt32 } else .ret d := by
  refine (ipcGetCommand_bind d site (d.child c).pipes timeoutSecs fun r =>
    .ret { d with command := r.2.getD d.command }).trans ?_
  refine congrArg (Program.call (DaemonSys.select site (d.child c).pipes.read timeoutSecs))
    (funext fun selected => ?_)
  rcases selected with _ | _ | _
  · rfl
  · rfl
  refine congrArg (Program.call (DaemonSys.read site (d.child c).pipes.read)) (funext fun got => ?_)
  rcases got with _ | bytes <;> rfl

theorem ipcSend_bind (fd : ℤ) (word : UInt64) (k : Bool → DaemonProg α) :
    (daemonCalls d site).write fd word >>= k =
      .call (.write site fd word) fun r => written d r >>= k :=
  bind_assoc (sys (.write site fd word)) (written d) k

theorem acknowledgeClient_eq (c : ChildName) : acknowledgeClient d c =
    .call (.select (.acknowledge c) (d.child c).pipes.read 10) fun selected => match selected with
      | .error => exitWith .failure
      | .timeout => exitWith .failure
      | .ready => ipcGetAck (daemonCalls d (.acknowledge c)) (d.child c).pipes >>= fun acknowledged =>
          if acknowledged then
            (daemonCalls d (.acknowledge c)).write (d.child c).pipes.write ipcCommandAck.toUInt64 >>=
              fun sent => if sent then .ret () else exitWith .failure
          else exitWith .failure := by
  refine congrArg (Program.call (DaemonSys.select (.acknowledge c) (d.child c).pipes.read 10))
    (funext fun selected => ?_)
  rcases selected with _ | _ | _
  · rfl
  · rfl
  refine congrArg (ipcGetAck (daemonCalls d (.acknowledge c)) (d.child c).pipes >>= ·)
    (funext fun acknowledged => ?_)
  cases acknowledged with
  | false => rfl
  | true =>
    refine congrArg (ipcSendAck (daemonCalls d (.acknowledge c)) (d.child c).pipes >>= ·)
      (funext fun sent => ?_)
    cases sent <;> rfl

/-- What becomes of the two timers. -/
theorem reportmanFmGetTimers_eq : reportmanFmGetTimers d =
    .call (.select .timers d.fm.pipes.read 10) fun selected => match selected with
      | .error => exitWith .failure
      | .timeout => exitWith .failure
      | .ready => ipcGetUlong (daemonCalls d .timers) d.fm.pipes >>= fun backup =>
          if backup = ipcValueUintFlag.toUInt64 then exitWith .failure
          else ipcGetUlong (daemonCalls d .timers) d.fm.pipes >>= fun transfer =>
            if transfer = ipcValueUintFlag.toUInt64 then exitWith .failure
            else .ret { d with backupTimer := backup, transferTimer := transfer } := by
  refine congrArg (Program.call (DaemonSys.select .timers d.fm.pipes.read 10))
    (funext fun selected => ?_)
  rcases selected with _ | _ | _ <;> rfl

/-- What follows the write of a probe: `k` is given the verdict. -/
def awaitAnswer (d : DaemonState) (c : ChildName) (pipes : IpcPipes) (k : Bool → DaemonProg α) :
    DaemonProg α :=
  .call (.select (.probe c) pipes.read ipcTimeout) fun selected => match selected with
    | .error => k false
    | .timeout => k false
    | .ready => .call (.read (.probe c) pipes.read) fun got => match got with
        | none => k false
        | some bytes => received (daemonCalls d (.probe c)) bytes >>= fun msg => k (ipcIsCommand msg)

theorem answersProbe_bind {d : DaemonState} {c : ChildName} {pipes : IpcPipes}
    (hpipes : (d.child c).pipes = pipes) (k : Bool → DaemonProg α) : answersProbe d c >>= k =
    .call (.write (.probe c) pipes.write ipcCommandHealthProbe.toUInt64) fun r =>
      written d r >>= fun _ => awaitAnswer d c pipes k := by
  subst hpipes
  have hget : ∀ _sent : Bool, (ipcGetCommand (daemonCalls d (.probe c)) (d.child c).pipes ipcTimeout >>=
      fun r => Program.ret (decide (r.1 = 1))) >>= k = _ := fun _ =>
    (bind_assoc _ _ _).trans (ipcGetCommand_bind d (.probe c) (d.child c).pipes ipcTimeout fun r =>
      k (decide (r.1 = 1)))
  refine (bind_assoc (ipcSendHealthProbe (daemonCalls d (.probe c)) (d.child c).pipes) _ k).trans ?_
  refine (ipcSend_bind d (.probe c) _ _ _).trans ?_
  refine congrArg (Program.call (DaemonSys.write (.probe c) (d.child c).pipes.write
    ipcCommandHealthProbe.toUInt64)) (funext fun r => congrArg (written d r >>= ·) (funext fun sent => ?_))
  refine (hget sent).trans ?_
  refine congrArg (Program.call (DaemonSys.select (.probe c) (d.child c).pipes.read ipcTimeout))
    (funext fun selected => ?_)
  rcases selected with _ | _ | _
  · rfl
  · rfl
  refine congrArg (Program.call (DaemonSys.read (.probe c) (d.child c).pipes.read))
    (funext fun got => ?_)
  rcases got with _ | bytes
  · rfl
  refine congrArg (received (daemonCalls d (.probe c)) bytes >>= ·) (funext fun msg => ?_)
  cases ipcIsCommand msg <;> rfl

theorem healthProbeChildProcess_eq (dSocket : ℤ) (c : ChildName)
    (post : DaemonState → DaemonProg DaemonState) : healthProbeChildProcess dSocket d c post =
    let d' := { d with current := some c }
    let p := d.child c
    .call (.kill c p.pid 0) fun isAlive =>
      if isAlive then answersProbe (d'.setChild c { p with isAlive := true }) c >>= fun answered =>
        if answered then .ret (d'.setChild c { p with isAlive := true })
        else .call (.kill c p.pid sigterm) fun _ => .call (.waitpid p.pid) fun _ =>
          restartChild dSocket ((d'.setChild c { p with isAlive := true }).setChild c
            { p with isAlive := false }) c post
      else restartChild dSocket (d'.setChild c { p with isAlive := false }) c post := by
  cases c
  all_goals
    refine congrArg (Program.call _) (funext fun isAlive => ?_)
    cases isAlive with
    | false => rfl
    | true =>
      refine congrArg (answersProbe _ _ >>= ·) (funext fun answered => ?_)
      cases answered <;> rfl

end Equations

/-- The calls by which the daemon ends. -/
def Quits : DaemonSys → Prop
  | .readSignal => True
  | .killGroup _ => True
  | .waitpid _ => True
  | .close _ => True
  | .timerDelete => True
  | .exit _ => True
  | _ => False

/-- The calls that prepare the poll loop. -/
def Prepares : DaemonSys → Prop
  | .timerCreate => True
  | .timerfdCreate => True
  | .settime => True
  | .sigaction => True
  | .initializeSignals => True
  | .exit _ => True
  | _ => False

section Ends

variable {α : Type} (dSocket : ℤ) (fds : PollFds) (d : DaemonState)

theorem exitWith_quits (code : Exit) (Q : α → Prop) :
    (exitWith code : DaemonProg α).Always (fun op _ => Quits op) Q := fun _ => ⟨trivial, trivial⟩

theorem killChildren_quits : killChildren.Always (fun op _ => Quits op) fun _ => True :=
  fun _ => ⟨trivial, fun _ => ⟨trivial, trivial⟩⟩

/-- The children are told to end before the daemon does. -/
theorem killChildren_exit_quits (code : Exit) (Q : α → Prop) :
    (killChildren >>= fun _ => (exitWith code : DaemonProg α)).Always (fun op _ => Quits op) Q :=
  killChildren_quits.bind fun _ _ => exitWith_quits code Q

theorem cleanClose_quits (code : Exit) (Q : α → Prop) :
    (cleanClose dSocket fds d code : DaemonProg α).Always (fun op _ => Quits op) Q := by
  simp [cleanClose, killChildren, exitWith, sys, Program.Always, Quits]

theorem signalMessage_quits : (signalMessage dSocket fds d).Always (fun op _ => Quits op) fun _ => True := by
  rintro (_ | _ | signo)
  · exact ⟨trivial, killChildren_exit_quits .failure _⟩
  · exact ⟨trivial, killChildren_exit_quits .failure _⟩
  · refine ⟨trivial, ?_⟩
    dsimp only [Program.bind]
    split_ifs
    · exact killChildren_quits.bind fun _ _ => cleanClose_quits _ _ _ _ _
    · trivial

/-- After the declaration of `command`. -/
theorem prepare_prepares : ∃ next, prepare dSocket d = .call (.uninitialized none []) next ∧
    ∀ command, (next command).Always (fun op _ => Prepares op) fun r => ∀ c, r.2.child c = d.child c := by
  have hexit : (exitWith .failure : DaemonProg (PollFds × DaemonState)).Always
      (fun op _ => Prepares op) fun r => ∀ c, r.2.child c = d.child c := fun _ => ⟨trivial, trivial⟩
  refine ⟨_, rfl, fun command created => ⟨trivial, ?_⟩⟩
  cases created with
  | false => exact hexit
  | true =>
  rintro (_ | timerfd)
  · exact ⟨trivial, hexit⟩
  refine ⟨trivial, fun armed => ⟨trivial, ?_⟩⟩
  cases armed with
  | false => exact hexit
  | true =>
  refine fun installed => ⟨trivial, ?_⟩
  cases installed with
  | false => exact hexit
  | true =>
  rintro (_ | signalFd)
  · exact ⟨trivial, hexit⟩
  · exact ⟨trivial, fun c => by cases c <;> rfl⟩

end Ends

/-- The calls that neither use a child's pipes nor concern its process. -/
def Elsewhere : DaemonSys → Prop
  | .select _ _ _ => False
  | .read _ _ => False
  | .write _ _ _ => False
  | .uninitialized _ _ => False
  | .kill _ _ _ => False
  | .pipe => False
  | .fork _ _ _ => False
  | _ => True

section Elsewhere

variable {α : Type} (dSocket : ℤ) (fds : PollFds)

theorem Quits.elsewhere {op : DaemonSys} (h : Quits op) : Elsewhere op := by
  cases op <;> first | exact h | exact h.elim

theorem Prepares.elsewhere {op : DaemonSys} (h : Prepares op) : Elsewhere op := by
  cases op <;> first | exact h | exact h.elim

theorem elsewhere_of_quits {Q : α → Prop} {p : DaemonProg α} (h : p.Always (fun op _ => Quits op) Q) :
    p.Always (fun op _ => Elsewhere op) Q :=
  h.mono (fun _ _ hop => hop.elsewhere) fun _ hq => hq

theorem exitWith_elsewhere (code : Exit) (Q : α → Prop) :
    (exitWith code : DaemonProg α).Always (fun op _ => Elsewhere op) Q := elsewhere_of_quits (exitWith_quits code Q)

theorem killChildren_elsewhere : killChildren.Always (fun op _ => Elsewhere op) fun _ => True :=
  elsewhere_of_quits killChildren_quits

theorem cleanClose_elsewhere (d : DaemonState) (code : Exit) (Q : α → Prop) :
    (cleanClose dSocket fds d code : DaemonProg α).Always (fun op _ => Elsewhere op) Q :=
  elsewhere_of_quits (cleanClose_quits dSocket fds d code Q)

theorem signalMessage_elsewhere (d : DaemonState) :
    (signalMessage dSocket fds d).Always (fun op _ => Elsewhere op) fun _ => True :=
  elsewhere_of_quits (signalMessage_quits dSocket fds d)

/-- It makes no call. -/
theorem written_always (P : (op : DaemonSys) → op.Res → Prop) (d : DaemonState) (r : WriteResult) :
    (written d r).Always P fun _ => True := by
  cases r with
  | written => trivial
  | failed => trivial
  | broken =>
    unfold written brokenPipe
    split_ifs <;> trivial

theorem written_elsewhere (d : DaemonState) (r : WriteResult) :
    (written d r).Always (fun op _ => Elsewhere op) fun _ => True :=
  written_always _ d r

/-- The calls of a conversation with a client. -/
def Converses (fd : ℤ) : DaemonSys → Prop
  | .selectClient fd' => fd' = fd
  | .readClient fd' => fd' = fd
  | .writeClient fd' _ => fd' = fd
  | .execute _ => True
  | _ => False

theorem Converses.elsewhere {fd : ℤ} {op : DaemonSys} (h : Converses fd op) : Elsewhere op := by
  cases op <;> trivial

theorem writeClient_converses (d : DaemonState) (fd : ℤ) (text : Bytes) :
    (writeClient d fd text).Always (fun op _ => Converses fd op) fun _ => True :=
  fun r => ⟨rfl, (written_always _ d r).bind fun _ _ => trivial⟩

/-- What a client may change. -/
def Closing (d d' : DaemonState) : Prop := ∃ b, d' = { d with closeRequested := b }

theorem farewell_converses (fd : ℤ) (d : DaemonState) (selected : SelectResult) :
    (farewell fd d selected).Always (fun op _ => Converses fd op) fun o => ∀ d', o = some d' → Closing d d' := by
  have hend : ∀ d', some d = some d' → Closing d d' := by
    rintro _ ⟨⟩
    exact ⟨d.closeRequested, rfl⟩
  unfold farewell
  split_ifs
  · exact hend
  · exact (writeClient_converses d fd timeoutMsg).bind fun _ _ => hend

theorem session_converses (fd : ℤ) (d : DaemonState) (exchanges : ℕ) :
    (session fd d exchanges).Always (fun op _ => Converses fd op) fun o => ∀ d', o = some d' → Closing d d' := by
  induction exchanges generalizing d with
  | zero =>
    rintro _ ⟨⟩
  | succ exchanges ih =>
    intro selected
    refine ⟨rfl, ?_⟩
    by_cases htimeout : selected = .timeout
    · simp only [Program.bind, htimeout, if_true]
      exact farewell_converses fd d .timeout
    simp only [Program.bind, htimeout, if_false]
    rintro (_ | _ | ⟨b, bs⟩)
    · exact ⟨rfl, ih d⟩
    · exact ⟨rfl, farewell_converses fd d selected⟩
    · refine ⟨rfl, fun response => ⟨trivial, ?_⟩⟩
      refine (writeClient_converses _ fd response).bind fun _ _ => (ih _).mono (fun _ _ h => h) ?_
      rintro o ho d' rfl
      obtain ⟨b, rfl⟩ := ho d' rfl
      exact ⟨b, rfl⟩

theorem session_elsewhere (fd : ℤ) (d : DaemonState) (exchanges : ℕ) :
    (session fd d exchanges).Always (fun op _ => Elsewhere op) fun o => ∀ d', o = some d' → Closing d d' :=
  (session_converses fd d exchanges).mono (fun _ _ h => h.elsewhere) fun _ h => h

theorem clientMessage_eq (d : DaemonState) (exchanges : ℕ) : clientMessage dSocket fds d exchanges =
    .call .accept fun client => match client with
      | none => .ret .again
      | some fd => session fd d exchanges >>= fun o => match o with
          | none => .ret .serving
          | some d => .call (.close fd) fun _ =>
              if d.closeRequested then cleanClose dSocket fds d .success else .ret (.done d) := by
  refine congrArg (Program.call DaemonSys.accept) (funext fun client => ?_)
  rcases client with _ | fd
  · rfl
  refine congrArg (session fd d exchanges >>= ·) (funext fun o => ?_)
  rcases o with _ | d' <;> rfl

theorem clientMessage_elsewhere (d : DaemonState) (exchanges : ℕ) :
    (clientMessage dSocket fds d exchanges).Always (fun op _ => Elsewhere op)
      fun o => ∀ d', o = .done d' → Closing d d' := by
  rw [clientMessage_eq]
  rintro (_ | fd)
  · refine ⟨trivial, ?_⟩
    rintro _ ⟨⟩
  refine ⟨trivial, ?_⟩
  refine Program.Always.bind (session_elsewhere fd d exchanges) ?_
  rintro (_ | d') hd
  · rintro _ ⟨⟩
  refine fun _ => ⟨trivial, ?_⟩
  split_ifs
  · exact cleanClose_elsewhere _ _ _ _ _
  · rintro _ ⟨⟩
    exact hd d' rfl

theorem prepare_elsewhere (d : DaemonState) : ∃ next, prepare dSocket d = .call (.uninitialized none []) next ∧
    ∀ command, (next command).Always (fun op _ => Elsewhere op) fun _ => True := by
  obtain ⟨next, hprepare, hnext⟩ := prepare_prepares dSocket d
  exact ⟨next, hprepare, fun command => (hnext command).mono (fun _ _ hop => hop.elsewhere) fun _ _ => trivial⟩

end Elsewhere

/-- The calls that wait for a child and read from it. -/
def Reads (site : Site) (fd : ℤ) : DaemonSys → Prop
  | .select s fd' _ => s = site ∧ fd' = fd
  | .read s fd' => s = site ∧ fd' = fd
  | .uninitialized s _ => s = some site
  | _ => False

section Reads

variable {α : Type} (d : DaemonState)

theorem getCommand_reads (site : Site) (c : ChildName) (timeoutSecs : ℕ) :
    (getCommand d site c timeoutSecs).Always (fun op _ => Reads site (d.child c).pipes.read op)
      fun d' => ∃ command, d' = { d with command := command } := by
  have hsame : ∃ command, d = { d with command := command } := ⟨d.command, rfl⟩
  rw [getCommand_eq]
  rintro (_ | _ | _)
  · exact ⟨⟨rfl, rfl⟩, hsame⟩
  · exact ⟨⟨rfl, rfl⟩, hsame⟩
  refine ⟨⟨rfl, rfl⟩, ?_⟩
  rintro (_ | bytes)
  · exact ⟨⟨rfl, rfl⟩, hsame⟩
  refine ⟨⟨rfl, rfl⟩, received_always d site (fun _ => rfl) fun msg => ?_⟩
  split_ifs
  · exact ⟨_, rfl⟩
  · exact hsame

theorem ipcGetUlong_always {A : (op : DaemonSys) → op.Res → Prop} {Q : α → Prop} {site : Site} {pipes : IpcPipes}
    {k : UInt64 → DaemonProg α} (hA : ∀ op r, Reads site pipes.read op → A op r)
    (hk : ∀ msg, (k msg).Always A Q) :
    (ipcGetUlong (daemonCalls d site) pipes >>= k).Always A Q := by
  rw [ipcGetUlong_bind]
  rintro (_ | bytes)
  · exact ⟨hA _ _ ⟨rfl, rfl⟩, hk _⟩
  refine ⟨hA _ _ ⟨rfl, rfl⟩, received_always d site (fun r => hA _ r rfl) fun msg => ?_⟩
  split_ifs
  · exact hk _
  · exact hk _

theorem reportmanFmGetTimers_reads :
    (reportmanFmGetTimers d).Always (fun op _ => Reads .timers d.fm.pipes.read op ∨ op = .exit .failure)
      fun d' => ∃ backup transfer, d' = { d with backupTimer := backup, transferTimer := transfer } := by
  have hexit : (exitWith .failure : DaemonProg DaemonState).Always
      (fun op _ => Reads .timers d.fm.pipes.read op ∨ op = .exit .failure)
      fun d' => ∃ backup transfer, d' = { d with backupTimer := backup, transferTimer := transfer } :=
    fun _ => ⟨.inr rfl, trivial⟩
  rw [reportmanFmGetTimers_eq]
  rintro (_ | _ | _)
  · exact ⟨.inl ⟨rfl, rfl⟩, hexit⟩
  · exact ⟨.inl ⟨rfl, rfl⟩, hexit⟩
  refine ⟨.inl ⟨rfl, rfl⟩, ipcGetUlong_always d (fun _ _ => .inl) fun backup => ?_⟩
  split_ifs
  · exact hexit
  refine ipcGetUlong_always d (fun _ _ => .inl) fun transfer => ?_
  split_ifs
  · exact hexit
  · exact ⟨backup, transfer, rfl⟩

end Reads

/-- The calls on the pipes of a child, with the exit that may follow them. -/
def Talks (site : Site) (pipes : IpcPipes) : DaemonSys → Prop
  | .select s fd _ => s = site ∧ fd = pipes.read
  | .read s fd => s = site ∧ fd = pipes.read
  | .write s fd _ => s = site ∧ fd = pipes.write
  | .uninitialized s _ => s = some site
  | .exit _ => True
  | _ => False

section Talks

variable {α : Type} (d : DaemonState) {site : Site} {pipes : IpcPipes}

/-- No child has been given other pipes. -/
def SamePipes (d d' : DaemonState) : Prop := d'.fm.pipes = d.fm.pipes ∧ d'.mon.pipes = d.mon.pipes

theorem exitWith_talks (code : Exit) (Q : α → Prop) :
    (exitWith code : DaemonProg α).Always (fun op _ => Talks site pipes op) Q := fun _ => ⟨trivial, trivial⟩

theorem acknowledgeClient_talks (c : ChildName) : (acknowledgeClient d c).Always
    (fun op _ => Talks (.acknowledge c) (d.child c).pipes op) fun _ => True := by
  rw [acknowledgeClient_eq]
  rintro (_ | _ | _)
  · exact ⟨⟨rfl, rfl⟩, exitWith_talks _ _⟩
  · exact ⟨⟨rfl, rfl⟩, exitWith_talks _ _⟩
  refine ⟨⟨rfl, rfl⟩, ?_⟩
  dsimp only
  rw [ipcGetAck_bind]
  rintro (_ | bytes)
  · exact ⟨⟨rfl, rfl⟩, exitWith_talks _ _⟩
  refine ⟨⟨rfl, rfl⟩, received_always d _ (fun _ => rfl) fun msg => ?_⟩
  cases ipcIsAck msg with
  | false => exact exitWith_talks _ _
  | true =>
    rw [if_pos rfl, ipcSend_bind]
    refine fun r => ⟨⟨rfl, rfl⟩, (written_always _ d r).bind fun sent _ => ?_⟩
    cases sent with
    | false => exact exitWith_talks _ _
    | true => trivial

theorem Reads.talks {op : DaemonSys} (h : Reads site pipes.read op) : Talks site pipes op := by
  cases op <;> first | exact h | exact h.elim

theorem reportmanFmGetTimers_talks :
    (reportmanFmGetTimers d).Always (fun op _ => Talks .timers d.fm.pipes op) (SamePipes d) := by
  refine (reportmanFmGetTimers_reads d).mono ?_ ?_
  · rintro op _ (hop | rfl)
    · exact hop.talks
    · trivial
  · rintro _ ⟨backup, transfer, rfl⟩
    exact ⟨rfl, rfl⟩

theorem getCommand_talks (site : Site) (c : ChildName) (timeoutSecs : ℕ) : (getCommand d site c timeoutSecs).Always
    (fun op _ => Talks site (d.child c).pipes op) (SamePipes d) := by
  refine (getCommand_reads d site c timeoutSecs).mono (fun _ _ hop => hop.talks) ?_
  rintro _ ⟨command, rfl⟩
  exact ⟨rfl, rfl⟩

theorem answersProbe_talks (c : ChildName) : (answersProbe d c).Always
    (fun op _ => Talks (.probe c) (d.child c).pipes op) fun _ => True := by
  rw [← bind_pure (answersProbe d c), answersProbe_bind rfl]
  refine fun r => ⟨⟨rfl, rfl⟩, (written_always _ d r).bind fun _ _ => ?_⟩
  rintro (_ | _ | _)
  · exact ⟨⟨rfl, rfl⟩, trivial⟩
  · exact ⟨⟨rfl, rfl⟩, trivial⟩
  refine ⟨⟨rfl, rfl⟩, ?_⟩
  rintro (_ | bytes)
  · exact ⟨⟨rfl, rfl⟩, trivial⟩
  · exact ⟨⟨rfl, rfl⟩, received_always d _ (fun _ => rfl) fun _ => trivial⟩

end Talks

/-- The places at which the poll loop looks for a command. -/
def listens : Site → Bool
  | .loop _ | .drain _ => true
  | .acknowledge _ | .timers | .probe _ => false

/-- The calls by which a child is started, probed and told to end, and those around them. -/
def Tends : DaemonSys → Prop
  | .select site _ _ => listens site = false
  | .read site _ => listens site = false
  | .uninitialized (some site) _ => listens site = false
  | .poll _ => False
  | .readSignal => False
  | .accept => False
  | .selectClient _ => False
  | .readClient _ => False
  | .writeClient _ _ => False
  | .execute _ => False
  | .timerDelete => False
  | .killGroup _ => False
  | _ => True

section Tends

variable {α : Type} (dSocket : ℤ) (d : DaemonState)

theorem Prepares.tends {op : DaemonSys} (h : Prepares op) : Tends op := by
  cases op <;> first | exact h.elim | trivial

theorem Talks.tends {site : Site} {pipes : IpcPipes} {op : DaemonSys} (h : Talks site pipes op)
    (hsite : listens site = false) : Tends op := by
  cases op
  case select => exact h.1 ▸ hsite
  case read => exact h.1 ▸ hsite
  case uninitialized s known =>
    obtain rfl : s = some site := h
    exact hsite
  case write => trivial
  case exit => trivial
  all_goals exact h.elim

theorem tends_of_talks {site : Site} {pipes : IpcPipes} {Q : α → Prop} {p : DaemonProg α}
    (hsite : listens site = false) (h : p.Always (fun op _ => Talks site pipes op) Q) :
    p.Always (fun op _ => Tends op) fun _ => True :=
  h.mono (fun _ _ hop => hop.tends hsite) fun _ _ => trivial

theorem exitWith_tends (code : Exit) (Q : α → Prop) :
    (exitWith code : DaemonProg α).Always (fun op _ => Tends op) Q := fun _ => ⟨trivial, trivial⟩

theorem startChildProcess_tends (p : ChildProcess) (c : ChildName) (extraArgs : List String) :
    (startChildProcess dSocket p c extraArgs).Always (fun op _ => Tends op) fun _ => True := by
  rintro (_ | ⟨childRead, childWrite⟩)
  · exact ⟨trivial, trivial⟩
  refine ⟨trivial, ?_⟩
  rintro (_ | ⟨parentRead, parentWrite⟩)
  · exact ⟨trivial, trivial⟩
  refine ⟨trivial, ?_⟩
  rintro (_ | pid)
  · exact ⟨trivial, exitWith_tends _ _⟩
  · exact ⟨trivial, fun _ => ⟨trivial, fun _ => ⟨trivial, trivial⟩⟩⟩

theorem childSpawn_tends (c : ChildName) (extraArgs : List String) :
    (childSpawn dSocket d c extraArgs).Always (fun op _ => Tends op) fun _ => True := by
  refine (startChildProcess_tends dSocket (d.child c) c extraArgs).bind fun p _ => ?_
  exact (tends_of_talks rfl (acknowledgeClient_talks _ c)).bind fun _ _ => trivial

theorem reportmanFmGetTimers_tends : (reportmanFmGetTimers d).Always (fun op _ => Tends op) fun _ => True :=
  tends_of_talks rfl (reportmanFmGetTimers_talks d)

theorem restartChild_tends (c : ChildName) {post : DaemonState → DaemonProg DaemonState}
    (hpost : ∀ d, (post d).Always (fun op _ => Tends op) fun _ => True) :
    (restartChild dSocket d c post).Always (fun op _ => Tends op) fun _ => True := by
  unfold restartChild
  dsimp only
  split_ifs
  · exact exitWith_tends _ _
  · exact (childSpawn_tends dSocket _ c []).bind fun d₁ _ => (hpost d₁).bind fun _ _ => trivial

theorem healthProbeChildProcess_tends (c : ChildName) {post : DaemonState → DaemonProg DaemonState}
    (hpost : ∀ d, (post d).Always (fun op _ => Tends op) fun _ => True) :
    (healthProbeChildProcess dSocket d c post).Always (fun op _ => Tends op) fun _ => True := by
  rw [healthProbeChildProcess_eq]
  refine fun isAlive => ⟨trivial, ?_⟩
  cases isAlive with
  | false => exact restartChild_tends dSocket _ c hpost
  | true =>
    refine (tends_of_talks rfl (answersProbe_talks _ c)).bind fun answered _ => ?_
    cases answered with
    | true => trivial
    | false => exact fun _ => ⟨trivial, fun _ => ⟨trivial, restartChild_tends dSocket _ c hpost⟩⟩

theorem startUp_tends (directories : List String) :
    (startUp dSocket directories d).Always (fun op _ => Tends op) fun _ => True := by
  refine (childSpawn_tends dSocket d .fm []).bind fun d₁ _ => ?_
  refine (reportmanFmGetTimers_tends d₁).bind fun d₂ _ => ?_
  refine (childSpawn_tends dSocket d₂ .mon directories).bind fun d₃ _ => ?_
  obtain ⟨next, hprepare, hnext⟩ := prepare_prepares dSocket d₃
  rw [hprepare]
  exact fun command => ⟨trivial, (hnext command).mono (fun _ _ hop => hop.tends) fun _ _ => trivial⟩

end Tends

def ackBytes : List UInt8 := [2, 0, 0, 0xFF, 0, 0, 0, 0]

/-- What `__handle_command` replies, with one report in the directories. -/
@[irreducible] def responding (command : Bytes) : Bytes :=
  (run exec (fun _ => Choice.plain) (handleCommand id 8 8 (bytes "1970-01-01 00:10:00")
    (bytes "1970-01-01 00:05:00") command) 0 Directories.sample).result.elim [] CommandResponse.response

/-- Both children start and answer; the timers have the ids 0 and 0. The health timer has expired, and
what is read after the probe to `reportman_mon` is `reply`; an unset variable holds `stale`. -/
def answering (reply : List UInt8) (stale : UInt64) (t : ℕ) : Environment
  | .poll _ => .ok ⟨⟨false, false, false, false⟩, ⟨false, false, false, false⟩,
      ⟨false, false, false, false⟩, ⟨false, false, false, false⟩, ⟨true, false, false, false⟩⟩
  | .readSignal => .short
  | .accept => none
  | .selectClient _ => .timeout
  | .readClient _ => none
  | .writeClient _ _ => .written
  | .execute command => responding command
  | .timerCreate => true
  | .timerfdCreate => some 5
  | .settime => true
  | .sigaction => true
  | .initializeSignals => some 6
  | .timerDelete => ()
  | .select (.drain _) _ _ => .timeout
  | .select _ _ _ => .ready
  | .read .timers _ => some [0, 0, 0, 0xF0, 0, 0, 0, 0]
  | .read (.probe .mon) _ => some reply
  | .read _ _ => some ackBytes
  | .write _ _ _ => .written
  | .uninitialized _ _ => stale
  | .kill _ _ _ => true
  | .killGroup _ => ()
  | .waitpid _ => ()
  | .pipe => some (2 * t + 10, 2 * t + 11)
  | .fork _ _ _ => some (100 + t)
  | .close _ => ()
  | .exit _ => ()

/-- A daemon whose start and first round are watched. -/
def sample : DaemonProg (Option (PollFds × DaemonState)) :=
  daemonMain 4 [] 0 1 (initially fun _ => 3)

end Reportman.Daemon
