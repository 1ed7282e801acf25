import Mathlib
import Reportman.Ipc
import Reportman.TransferFile

/-!
# The event loop of `reportman_fm`

The loop of a `reportman_fm` that the daemon has started, with the signals of its two timers. A
handler may run at any call; one that runs while the call waits makes the call fail with `EINTR`,
as no handler was installed with `SA_RESTART`. The environment decides everything else a call may
return, and what uninitialised variables hold.
-/
namespace Reportman.FmLoop
open Resumable Ipc TransferFile

inductive Errno
  | eintr
  | other
  deriving DecidableEq, Repr

/-- `revents & POLLIN` of the two descriptors. -/
structure Revents where
  signal : Bool
  parent : Bool
  deriving DecidableEq, Repr

/-- What comes of reading a `signalfd_siginfo`. -/
inductive SignalRead
  | error (errno : Errno)
  | short
  | signal (signo : ℕ)
  deriving DecidableEq, Repr

/-- A `write` to a pipe that nobody reads raises `SIGPIPE`. -/
inductive WriteResult
  | written
  | failed
  | broken
  deriving DecidableEq, Repr

inductive FmSys
  | poll (count : ℕ)
  | select (fd : ℤ) (timeoutSecs : ℕ)
  | read (fd : ℤ)
  | write (fd : ℤ) (word : UInt64)
  | readSignal
  | uninitialized (known : List UInt8)

abbrev FmSys.Res : FmSys → Type
  | .poll _ => Except Errno Revents
  | .select _ _ => SelectResult
  | .read _ => Option (List UInt8)
  | .write _ _ => WriteResult
  | .readSignal => SignalRead
  | .uninitialized _ => UInt64

abbrev FmProg := Program FmSys FmSys.Res

structure FmArgs where
  debug : Bool
  pipes : IpcPipes

/-- Why the process has left the loop. -/
inductive Exit
  | failure
  | success
  deriving DecidableEq, Repr

def sigint : ℕ := 2
def sigterm : ℕ := 15

section Source

def fmCall (op : FmSys) : FmProg op.Res := Program.perform op

/-- The default action of `SIGPIPE` ends the process. -/
def fmWrite (fd : ℤ) (word : UInt64) : FmProg Bool := do
  match ← fmCall (.write fd word) with
  | .written => return true
  | .failed => return false
  | .broken => .halt

def fmCalls : PipeCalls FmProg where
  select fd timeoutSecs := fmCall (.select fd timeoutSecs)
  read fd := fmCall (.read fd)
  write := fmWrite
  uninitialized known := fmCall (.uninitialized known)

variable (args : FmArgs)

/-- `poll_count`; `panic` says that the signals could not be initialised. -/
def pollCount (panic : Bool) : ℕ :=
  if args.pipes.read > 0 then 2 else if panic then 1 else 2 - 1

/-- The `switch` over the command, none of whose other cases leave the loop. -/
def handleCommand (command : UInt32) : FmProg (Option Exit) := do
  if command = ipcCommandHealthProbe then
    let _ ← ipcSendCommand fmCalls args.pipes ipcCommandAck
    return none
  else if command = ipcCommandPanic then return some .failure
  else return none

/-- A message of the daemon. A timeout of `ipc_get_command` is not zero, so `command` is used then
although nothing has been stored in it. -/
def parentMessage : FmProg (Option Exit) := do
  let (status, command) ← ipcGetCommand fmCalls args.pipes ipcTimeout
  if status = 0 then return none
  else match command with
    | some command => handleCommand args command
    | none => do
        let stale ← fmCalls.uninitialized []
        handleCommand args stale.toUInt32

def signalMessage : FmProg (Option Exit) := do
  match ← fmCall .readSignal with
  | .error _ => return some .failure
  | .short => return some .failure
  | .signal signo => if signo = sigint ∨ signo = sigterm then return some .success else return none

def checkParent (revents : Revents) : FmProg (Option Exit) :=
  if !args.debug && revents.parent then parentMessage args else return none

def fmRound (count : ℕ) : FmProg (Option Exit) := do
  match ← fmCall (.poll count) with
  | .error _ => return some .failure
  | .ok revents =>
      match ← checkParent args revents with
      | some exit => return some exit
      | none => if revents.signal then signalMessage else return none

/-- `for (;;)`, watched for a number of rounds: nothing is returned while the loop goes on. -/
def fmLoop (count : ℕ) : ℕ → FmProg (Option Exit)
  | 0 => return none
  | rounds + 1 => do
      match ← fmRound args count with
      | some exit => return some exit
      | none => fmLoop count rounds

end Source

/-- What the environment does at one call. -/
structure FmChoice where
  timer : Option TransferMethod
  waiting : Bool
  fails : Bool
  revents : Revents
  ready : Bool
  bytes : List UInt8
  broken : Bool
  short : Bool
  signo : ℕ
  garbage : UInt64

/-- A handler runs while the call waits. -/
def FmChoice.interrupts (c : FmChoice) : Bool := c.timer.isSome && c.waiting

/-- One call; the state lists the runs that the handlers have made. `signalFd` is negative when the
signals could not be initialised. -/
def fmExec (signalFd : ℤ) (c : FmChoice) :
    (op : FmSys) → List TransferMethod → op.Res × List TransferMethod
  | .poll _, s =>
      (if c.interrupts then .error .eintr else if c.fails then .error .other
        else .ok ⟨decide (0 ≤ signalFd) && c.revents.signal, c.revents.parent⟩, s ++ c.timer.toList)
  | .select _ _, s =>
      (if c.interrupts || c.fails then .error else if c.ready then .ready else .timeout,
        s ++ c.timer.toList)
  | .read _, s =>
      (if c.interrupts || c.fails then none else some (c.bytes.take 8), s ++ c.timer.toList)
  | .write _ _, s =>
      (if c.broken then .broken else if c.interrupts || c.fails then .failed else .written,
        s ++ c.timer.toList)
  | .readSignal, s =>
      (if c.interrupts then .error .eintr else if c.fails then .error .other
        else if c.short then .short else .signal c.signo, s ++ c.timer.toList)
  | .uninitialized known, s => (stored known c.garbage, s ++ c.timer.toList)

/-- The calls that may be the last one: a poll or signalfd error that is no interruption, SIGINT or
SIGTERM, a whole PANIC word of the daemon. -/
def Justifies : (op : FmSys) → op.Res → Prop
  | .poll _, r => r = .error .other
  | .readSignal, r => r = .error .other ∨ r = .short ∨ ∃ signo, r = .signal signo ∧
      (signo = sigint ∨ signo = sigterm)
  | .read _, r => ∃ bytes, r = some bytes ∧ bytes.length = 8 ∧
      (wordOf bytes).toUInt64.toUInt32 = ipcCommandPanic
  | _, _ => False

abbrev FmHistory := List (Event FmSys FmSys.Res (List TransferMethod))

/-- The process is in the loop, or has left it for one of the reasons that it should. -/
def Survives (result : Option (Option Exit)) (calls : FmHistory) : Prop :=
  result = some none ∨
    ∃ exit before e, result = some (some exit) ∧ calls = before ++ [e] ∧ Justifies e.op e.res

/-- Neither `poll` nor the read of the signals was interrupted, the reply found its reader, and no
variable that nothing was stored in looked like a PANIC. -/
def Harmless : (op : FmSys) → op.Res → Prop
  | .poll _, r => r ≠ .error .eintr
  | .readSignal, r => r ≠ .error .eintr
  | .write _ _, r => r ≠ .broken
  | .uninitialized _, r => r.toUInt32 ≠ ipcCommandPanic
  | _, _ => True

section Equations

variable (args : FmArgs)

theorem handleCommand_probe : handleCommand args ipcCommandHealthProbe =
    if args.pipes.read < 0 ∧ args.pipes.write < 0 then .ret none
    else .call (.write args.pipes.write ipcCommandAck.toUInt64) fun r => match r with
      | .broken => .halt
      | _ => .ret none := by
  unfold handleCommand
  rw [if_pos rfl]
  unfold ipcSendCommand
  split_ifs
  · rfl
  · refine congrArg (Program.call (FmSys.write args.pipes.write ipcCommandAck.toUInt64)) (funext fun r => ?_)
    cases r <;> rfl

theorem handleCommand_other {command : UInt32} (h : command ≠ ipcCommandHealthProbe) :
    handleCommand args command =
      if command = ipcCommandPanic then .ret (some .failure) else .ret none := by
  unfold handleCommand
  rw [if_neg h]
  rfl

theorem parentMessage_eq : parentMessage args =
    .call (.select args.pipes.read ipcTimeout) fun selected => match selected with
      | .error => .ret none
      | .timeout => .call (.uninitialized []) fun stale => handleCommand args stale.toUInt32
      | .ready => .call (.read args.pipes.read) fun got => match got with
          | none => .ret none
          | some bytes => received fmCalls bytes >>= fun msg =>
              if ipcIsCommand msg then handleCommand args msg.toUInt32 else .ret none := by
  refine congrArg (Program.call (FmSys.select args.pipes.read ipcTimeout)) (funext fun selected => ?_)
  rcases selected with _ | _ | _
  · rfl
  · rfl
  refine congrArg (Program.call (FmSys.read args.pipes.read)) (funext fun got => ?_)
  rcases got with _ | bytes
  · rfl
  have hrest : ∀ msg, ((if ¬ ipcIsCommand msg then Program.ret (0, none)
      else Program.ret (1, some msg.toUInt32) : FmProg (ℤ × Option UInt32)) >>= fun r =>
        if r.1 = 0 then .ret none else match r.2 with
          | some command => handleCommand args command
          | none => fmCalls.uninitialized [] >>= fun stale => handleCommand args stale.toUInt32) =
      if ipcIsCommand msg then handleCommand args msg.toUInt32 else .ret none := by
    intro msg
    by_cases hc : ipcIsCommand msg = true
    · rw [if_neg (by simp [hc]), if_pos hc]
      rfl
    · rw [if_pos (by simp [hc]), if_neg hc]
      rfl
  refine (bind_assoc (received fmCalls bytes) _ _).trans ?_
  exact congrArg (received fmCalls bytes >>= ·) (funext hrest)

theorem fmRound_eq (count : ℕ) : fmRound args count =
    .call (.poll count) fun answer => match answer with
      | .error _ => .ret (some .failure)
      | .ok revents => checkParent args revents >>= fun left =>
          left.elim (if revents.signal then signalMessage else .ret none) (.ret ∘ some) := by
  refine congrArg (Program.call (FmSys.poll count)) (funext fun answer => ?_)
  cases answer with
  | error => rfl
  | ok revents => exact congrArg (_ >>= ·) (funext fun left => by cases left <;> rfl)

end Equations

section Runs

variable {args : FmArgs} {signalFd : ℤ} {sched : ℕ → FmChoice} {s : List TransferMethod}

def AllHarmless (calls : FmHistory) : Prop := ∀ e ∈ calls, Harmless e.op e.res

theorem AllHarmless.append {h : FmHistory} (hh : AllHarmless h)
    {e : Event FmSys FmSys.Res (List TransferMethod)} (he : Harmless e.op e.res) :
    AllHarmless (h ++ [e]) := by
  intro e' he'
  rcases List.mem_append.mp he' with he' | he'
  · exact hh e' he'
  · rw [List.mem_singleton.mp he']
    exact he

/-- Where a round stands: it goes on after harmless calls, or the loop has ended and rightly so
exactly if the last call was harmless. -/
inductive Stands : Option (Option Exit) → FmHistory → Prop
  | goesOn (calls : FmHistory) (h : AllHarmless calls) : Stands (some none) calls
  | left (exit : Exit) (h : FmHistory) (e : Event FmSys FmSys.Res (List TransferMethod))
      (hh : AllHarmless h) (he : Justifies e.op e.res ↔ Harmless e.op e.res) :
      Stands (some (some exit)) (h ++ [e])
  | killed (h : FmHistory) (e : Event FmSys FmSys.Res (List TransferMethod))
      (he : ¬ Harmless e.op e.res) : Stands none (h ++ [e])

theorem Stands.survives_iff {result : Option (Option Exit)} {calls : FmHistory}
    (h : Stands result calls) : Survives result calls ↔ AllHarmless calls := by
  cases h with
  | goesOn _ hall => exact ⟨fun _ => hall, fun _ => .inl rfl⟩
  | left exit h e hh he =>
    constructor
    · rintro (hnone | ⟨exit', before, e', -, hsplit, hj⟩)
      · cases hnone
      · obtain ⟨-, hlast⟩ := List.append_inj' hsplit rfl
        rw [← List.head_eq_of_cons_eq hlast] at hj
        exact hh.append (he.mp hj)
    · exact fun hall => .inr ⟨exit, h, e, rfl, rfl, he.mpr (hall e (by simp))⟩
  | killed h e he =>
    constructor
    · rintro (hnone | ⟨exit, _, _, hsome, _⟩)
      · cases hnone
      · cases hsome
    · exact fun hall => absurd (hall e (by simp)) he

/-- A command is acted on: `e` is the call that has brought it. -/
theorem handleCommand_scripted {command : UInt32} {h : FmHistory}
    {e : Event FmSys FmSys.Res (List TransferMethod)} (hh : AllHarmless h)
    (hpanic : command = ipcCommandPanic → (Justifies e.op e.res ↔ Harmless e.op e.res))
    (hother : command ≠ ipcCommandPanic → Harmless e.op e.res) :
    (scripted (fmExec signalFd) sched).Meets (fun o s => Stands o s.2) (handleCommand args command)
      (s, h ++ [e]) := by
  by_cases hprobe : command = ipcCommandHealthProbe
  · subst hprobe
    have hh' := hh.append (hother (by decide))
    rw [handleCommand_probe]
    split_ifs
    · exact scripted_ret (.goesOn _ hh')
    refine scripted_each fun (r : WriteResult) s' _ => ?_
    cases r with
    | broken => exact scripted_halt (.killed _ _ (by simp [Harmless]))
    | written => exact scripted_ret (.goesOn _ (hh'.append (by simp [Harmless])))
    | failed => exact scripted_ret (.goesOn _ (hh'.append (by simp [Harmless])))
  · rw [handleCommand_other args hprobe]
    split_ifs with hp
    · exact scripted_ret (.left _ h e hh (hpanic hp))
    · exact scripted_ret (.goesOn _ (hh.append (hother hp)))

/-- What an unset variable makes of a round. -/
theorem stale_scripted {w : UInt64} {h : FmHistory} {known : List UInt8} {s' : List TransferMethod}
    (hh : AllHarmless h) :
    (scripted (fmExec signalFd) sched).Meets (fun o s => Stands o s.2)
      (handleCommand args w.toUInt32) (s', h ++ [⟨.uninitialized known, w, s, s'⟩]) := by
  refine handleCommand_scripted hh (fun hp => ?_) fun hp => hp
  exact ⟨fun hj => hj.elim, fun hn => absurd hp hn⟩

theorem parentMessage_scripted {h : FmHistory} (hh : AllHarmless h) :
    (scripted (fmExec signalFd) sched).Meets (fun o s => Stands o s.2) (parentMessage args) (s, h) := by
  rw [parentMessage_eq]
  refine scripted_each fun (selected : SelectResult) s₁ _ => ?_
  have hh₁ : AllHarmless (h ++ [⟨.select args.pipes.read ipcTimeout, selected, s, s₁⟩]) :=
    hh.append trivial
  cases selected with
  | error => exact scripted_ret (.goesOn _ hh₁)
  | timeout => exact scripted_each fun w s₂ _ => stale_scripted hh₁
  | ready =>
    refine scripted_each fun (got : Option (List UInt8)) s₂ _ => ?_
    rcases got with _ | bytes
    · exact scripted_ret (.goesOn _ (hh₁.append trivial))
    have hread : Harmless (.read args.pipes.read) (some bytes) := trivial
    dsimp only
    unfold received
    by_cases hwhole : bytes.length = 8
    · rw [if_pos hwhole]
      by_cases hc : ipcIsCommand (wordOf bytes).toUInt64 = true
      · refine Terms.Meets.bind (scripted_ret ?_)
        rw [Terms.enters_some, if_pos hc]
        refine handleCommand_scripted hh₁ (fun hp => ?_) fun _ => hread
        exact ⟨fun _ => hread, fun _ => ⟨bytes, rfl, hwhole, hp⟩⟩
      · refine Terms.Meets.bind (scripted_ret ?_)
        rw [Terms.enters_some, if_neg hc]
        exact scripted_ret (.goesOn _ (hh₁.append hread))
    · rw [if_neg hwhole]
      refine scripted_each fun (w : UInt64) s₃ _ => ?_
      have hh₂ := hh₁.append (e := ⟨.read args.pipes.read, some bytes, s₁, s₂⟩) hread
      refine Terms.Meets.bind (scripted_ret ?_)
      rw [Terms.enters_some]
      by_cases hc : ipcIsCommand w = true
      · rw [if_pos hc]
        exact stale_scripted hh₂
      · rw [if_neg hc]
        refine scripted_ret (.goesOn _ (hh₂.append fun hp => ?_))
        exact hc (ipcIsCommand_of_panic hp)

theorem signalMessage_scripted {h : FmHistory} (hh : AllHarmless h) :
    (scripted (fmExec signalFd) sched).Meets (fun o s => Stands o s.2) signalMessage (s, h) := by
  refine scripted_each fun (r : SignalRead) s₁ _ => ?_
  cases r with
  | error errno =>
    refine scripted_ret (.left _ h _ hh ?_)
    cases errno <;> simp [Justifies, Harmless]
  | short => exact scripted_ret (.left _ h _ hh (by simp [Justifies, Harmless]))
  | signal signo =>
    have hread : Harmless .readSignal (.signal signo) := by simp [Harmless]
    dsimp only [Program.bind]
    by_cases hend : signo = sigint ∨ signo = sigterm
    · rw [if_pos hend]
      refine scripted_ret (.left _ h _ hh ⟨fun _ => hread, fun _ => ?_⟩)
      exact .inr (.inr ⟨signo, rfl, hend⟩)
    · rw [if_neg hend]
      exact scripted_ret (.goesOn _ (hh.append hread))

/-- One round, entered after harmless calls. -/
theorem fmRound_scripted (count : ℕ) {h : FmHistory} (hh : AllHarmless h) :
    (scripted (fmExec signalFd) sched).Meets (fun o s => Stands o s.2) (fmRound args count) (s, h) := by
  refine scripted_each fun (r : Except Errno Revents) s₁ _ => ?_
  rcases r with errno | revents
  · refine scripted_ret (.left _ h _ hh ?_)
    cases errno <;> simp [Justifies, Harmless]
  have hh₁ : AllHarmless (h ++ [⟨.poll count, .ok revents, s, s₁⟩]) :=
    hh.append (e := ⟨.poll count, .ok revents, s, s₁⟩) (by simp [Harmless])
  have hmessage : (scripted (fmExec signalFd) sched).Meets (fun o s => Stands o s.2)
      (checkParent args revents) (s₁, h ++ [⟨.poll count, .ok revents, s, s₁⟩]) := by
    unfold checkParent
    split_ifs
    · exact parentMessage_scripted hh₁
    · exact scripted_ret (.goesOn _ hh₁)
  refine Terms.Meets.bind (p := checkParent args revents) (hmessage.mono ?_)
  rintro o ⟨s₂, h₂⟩ ho
  cases ho with
  | goesOn _ hall =>
    rw [Terms.enters_some]
    dsimp only
    split_ifs
    · exact signalMessage_scripted hall
    · exact scripted_ret (.goesOn _ hall)
  | left exit h e hh he =>
    rw [Terms.enters_some]
    exact scripted_ret (Stands.left exit h e hh he)
  | killed h e he => exact .killed h e he

theorem fmLoop_scripted (count rounds : ℕ) {h : FmHistory} (hh : AllHarmless h) :
    (scripted (fmExec signalFd) sched).Meets (fun o s => Stands o s.2) (fmLoop args count rounds)
      (s, h) := by
  induction rounds generalizing s h with
  | zero => exact scripted_ret (.goesOn _ hh)
  | succ rounds ih =>
    refine Terms.Meets.bind ((fmRound_scripted count hh).mono ?_)
    rintro o ⟨s₁, h₁⟩ ho
    dsimp only at ho
    cases ho with
    | goesOn _ hall => exact ih hall
    | left exit h e hh he =>
      rw [Terms.enters_some]
      exact scripted_ret (Stands.left exit h e hh he)
    | killed h e he => exact .killed h e he

end Runs

/-- An idle loop, and the signal of the backup timer. -/
def idle : FmChoice where
  timer := some .backup
  waiting := true
  fails := false
  revents := ⟨false, false⟩
  ready := false
  bytes := []
  broken := false
  short := false
  signo := 0
  garbage := 0

end Reportman.FmLoop
