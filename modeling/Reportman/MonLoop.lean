import Mathlib
import Reportman.FmLoop
import Reportman.Inotify

/-!
# The event loop of `reportman_mon`

The loop of a `reportman_mon` that the daemon has started: events of the watched directories, messages
of the daemon, signals.
-/
namespace Reportman.MonLoop
open Resumable Ipc Inotify
open FmLoop (Errno SignalRead WriteResult Exit sigint sigterm)

/-- `revents & POLLIN` of the three descriptors. -/
structure MonRevents where
  signal : Bool
  inotify : Bool
  parent : Bool
  deriving DecidableEq, Repr

/-- `readInotify` gives the buffer and what `read` returns. -/
inductive MonSys
  | poll (count : ℕ)
  | readInotify
  | eventProcess (buffer : Buffer) (event : ℕ)
  | select (fd : ℤ) (timeoutSecs : ℕ)
  | read (fd : ℤ)
  | write (fd : ℤ) (word : UInt64)
  | readSignal
  | uninitialized (known : List UInt8)

abbrev MonSys.Res : MonSys → Type
  | .poll _ => Except Errno MonRevents
  | .readInotify => Buffer × ℤ
  | .eventProcess _ _ => Unit
  | .select _ _ => SelectResult
  | .read _ => Option (List UInt8)
  | .write _ _ => WriteResult
  | .readSignal => SignalRead
  | .uninitialized _ => UInt64

abbrev MonProg := Program MonSys MonSys.Res

section Source

def monCall (op : MonSys) : MonProg op.Res := Program.perform op

/-- The default action of `SIGPIPE` ends the process. -/
def monWrite (fd : ℤ) (word : UInt64) : MonProg Bool := do
  match ← monCall (.write fd word) with
  | .written => return true
  | .failed => return false
  | .broken => .halt

def monCalls : PipeCalls MonProg where
  select fd timeoutSecs := monCall (.select fd timeoutSecs)
  read fd := monCall (.read fd)
  write := monWrite
  uninitialized known := monCall (.uninitialized known)

variable (pipes : IpcPipes)

def inotifyMessage : MonProg Unit := do
  let (buffer, length) ← monCall .readInotify
  if length > 0 then
    (processEvents buffer length).forM fun event => monCall (.eventProcess buffer event)
  else return ()

/-- The `switch` over the command. -/
def monHandleCommand (command : UInt32) : MonProg (Option Exit) := do
  if command = ipcCommandHealthProbe then
    let _ ← ipcSendCommand monCalls pipes ipcCommandAck
    return none
  else if command = ipcCommandPanic then return some .failure
  else return none

/-- A message of the daemon; a timeout of `ipc_get_command` is not zero. -/
def monParentMessage : MonProg (Option Exit) := do
  let (status, command) ← ipcGetCommand monCalls pipes ipcTimeout
  if status = 0 then return none
  else match command with
    | some command => monHandleCommand pipes command
    | none => do
        let stale ← monCalls.uninitialized []
        monHandleCommand pipes stale.toUInt32

def monSignalMessage : MonProg (Option Exit) := do
  match ← monCall .readSignal with
  | .error _ => return some .failure
  | .short => return some .failure
  | .signal signo => if signo = sigint ∨ signo = sigterm then return some .success else return none

def monCheckInotify (revents : MonRevents) : MonProg Unit :=
  if revents.inotify then inotifyMessage else return ()

def monCheckParent (revents : MonRevents) : MonProg (Option Exit) :=
  if revents.parent then monParentMessage pipes else return none

def monRound (count : ℕ) : MonProg (Option Exit) := do
  match ← monCall (.poll count) with
  | .error _ => return some .failure
  | .ok revents =>
      monCheckInotify revents
      match ← monCheckParent pipes revents with
      | some exit => return some exit
      | none => if revents.signal then monSignalMessage else return none

/-- `for (;;)` with any `poll_count`, watched for a number of rounds: nothing is returned while the loop goes on. -/
def monLoop (count : ℕ) : ℕ → MonProg (Option Exit)
  | 0 => return none
  | rounds + 1 => do
      match ← monRound pipes count with
      | some exit => return some exit
      | none => monLoop count rounds

end Source

section Equations

variable (pipes : IpcPipes)

theorem monHandleCommand_probe : monHandleCommand pipes ipcCommandHealthProbe =
    if pipes.read < 0 ∧ pipes.write < 0 then .ret none
    else .call (.write pipes.write ipcCommandAck.toUInt64) fun r => match r with
      | .broken => .halt
      | _ => .ret none := by
  unfold monHandleCommand
  rw [if_pos rfl]
  unfold ipcSendCommand
  split_ifs
  · rfl
  · refine congrArg (Program.call (MonSys.write pipes.write ipcCommandAck.toUInt64)) (funext fun r => ?_)
    cases r <;> rfl

theorem monParentMessage_eq : monParentMessage pipes =
    .call (.select pipes.read ipcTimeout) fun selected => match selected with
      | .error => .ret none
      | .timeout => .call (.uninitialized []) fun stale => monHandleCommand pipes stale.toUInt32
      | .ready => .call (.read pipes.read) fun got => match got with
          | none => .ret none
          | some bytes => received monCalls bytes >>= fun msg =>
              if ipcIsCommand msg then monHandleCommand pipes msg.toUInt32 else .ret none := by
  refine congrArg (Program.call (MonSys.select pipes.read ipcTimeout)) (funext fun selected => ?_)
  rcases selected with _ | _ | _
  · rfl
  · rfl
  refine congrArg (Program.call (MonSys.read pipes.read)) (funext fun got => ?_)
  rcases got with _ | bytes
  · rfl
  have hrest : ∀ msg, ((if ¬ ipcIsCommand msg then Program.ret (0, none)
      else Program.ret (1, some msg.toUInt32) : MonProg (ℤ × Option UInt32)) >>= fun r =>
        if r.1 = 0 then .ret none else match r.2 with
          | some command => monHandleCommand pipes command
          | none => monCalls.uninitialized [] >>= fun stale => monHandleCommand pipes stale.toUInt32) =
      if ipcIsCommand msg then monHandleCommand pipes msg.toUInt32 else .ret none := by
    intro msg
    by_cases hc : ipcIsCommand msg = true
    · rw [if_neg (by simp [hc]), if_pos hc]
      rfl
    · rw [if_pos (by simp [hc]), if_neg hc]
      rfl
  refine (bind_assoc (received monCalls bytes) _ _).trans ?_
  exact congrArg (received monCalls bytes >>= ·) (funext hrest)

theorem monRound_eq (count : ℕ) : monRound pipes count =
    .call (.poll count) fun answer => match answer with
      | .error _ => .ret (some .failure)
      | .ok revents => monCheckInotify revents >>= fun _ => monCheckParent pipes revents >>= fun left =>
          left.elim (if revents.signal then monSignalMessage else .ret none) (.ret ∘ some) := by
  refine congrArg (Program.call (MonSys.poll count)) (funext fun answer => ?_)
  cases answer with
  | error => rfl
  | ok revents =>
    refine congrArg (_ >>= ·) (funext fun _ => ?_)
    exact congrArg (_ >>= ·) (funext fun left => by cases left <;> rfl)

end Equations

end Reportman.MonLoop
