import Mathlib
import Reportman.Daemon
import Reportman.MonLoop

/-!
# Whether a poll loop spins

One round of each of the three loops, for everything that `poll` may report. A round makes progress if
it takes something from a descriptor that is ready, or if the loop is left; no descriptor is ever
taken out of a polled array.
-/
namespace Reportman.Spin
open Resumable Ipc Daemon MonLoop FmLoop

section Rounds

variable {Op : Type} {Res : Op → Type} {α β : Type}

def respond (env : (op : Op) → Res op) (op : Op) (_ : Unit) : Res op × Unit := (env op, ())

/-- `goesOn` are the results with which the loop polls again. -/
structure Loop (Op : Type) (Res : Op → Type) (α : Type) where
  takes : (op : Op) → Res op → Prop
  goesOn : α → Prop

variable (L : Loop Op Res α) (sched : ℕ → (op : Op) → Res op)

def Advances (p : Program Op Res α) (t : ℕ) : Prop :=
  (∃ e ∈ trace respond sched p t (), L.takes e.op e.res) ∨
    ∀ a, (run respond sched p t ()).result = some a → ¬ L.goesOn a

theorem advances_ret (a : α) (t : ℕ) : Advances L sched (.ret a) t ↔ ¬ L.goesOn a := by
  simp [Advances, trace, run]

theorem advances_halt (t : ℕ) : Advances L sched .halt t := .inr (by simp [run])

theorem advances_call (op : Op) (next : Res op → Program Op Res α) (t : ℕ) :
    Advances L sched (.call op next) t ↔
      L.takes op (sched t op) ∨ Advances L sched (next (sched t op)) (t + 1) := by
  simp only [Advances, trace, run, respond, List.mem_cons, exists_eq_or_imp, or_assoc]

end Rounds

section Daemon

/-- A signal, a connection, the expiration of the timer, and whatever a pipe has to give. -/
def daemonTakes : (op : DaemonSys) → op.Res → Prop
  | .readSignal, _ => True
  | .accept, r => r ≠ none
  | .settime, _ => True
  | .read _ _, _ => True
  | _, _ => False

def daemonLoop : Loop DaemonSys DaemonSys.Res (Option DaemonState) :=
  ⟨daemonTakes, fun _ => True⟩

variable (sched : ℕ → Environment) (dSocket : ℤ) (fds : PollFds) (d : DaemonState)

theorem cleanClose_advances {α : Type} (code : Exit) (k : α → DaemonProg (Option DaemonState)) (t : ℕ) :
    Advances daemonLoop sched (cleanClose dSocket fds d code >>= k) t := by
  simp [cleanClose, killChildren, exitWith, sys, advances_call, advances_halt]

/-- A child's message is read if `select` finds one; without it the last command is looked at again. -/
theorem childMessage_advances (site : Site) (c : ChildName) (secs : ℕ)
    (k : DaemonState → DaemonProg (Option DaemonState)) (t : ℕ) :
    Advances daemonLoop sched (childMessage dSocket fds d site c secs >>= k) t ↔
      (sched t (.select site (d.child c).pipes.read secs) = .ready ∨ d.command = ipcCommandPanic) ∨
        Advances daemonLoop sched (k d) (t + 1) := by
  have hrest : Advances daemonLoop sched ((if d.command = ipcCommandPanic then
      cleanClose dSocket fds d .failure else .ret d) >>= k) (t + 1) ↔
        d.command = ipcCommandPanic ∨ Advances daemonLoop sched (k d) (t + 1) := by
    split_ifs with hpanic
    · exact iff_of_true (cleanClose_advances sched dSocket fds d .failure k (t + 1)) (.inl hpanic)
    · simp [hpanic]
  have htakes : ¬ daemonLoop.takes (.select site (d.child c).pipes.read secs)
      (sched t (.select site (d.child c).pipes.read secs)) := id
  unfold childMessage
  rw [getCommand_eq, Program.call_bind, Program.call_bind, advances_call, or_iff_right htakes]
  cases hselected : sched t (.select site (d.child c).pipes.read secs) with
  | error => simpa using hrest
  | timeout => simpa using hrest
  | ready =>
    refine iff_of_true ?_ (.inl (.inl rfl))
    exact (advances_call _ _ _ _ _).mpr (.inl trivial)

/-- One of the `if`s for a child's descriptor. -/
theorem handled_advances (pollin : Bool) (c : ChildName)
    (k : DaemonState → DaemonProg (Option DaemonState)) (t : ℕ)
    {selected : SelectResult} (hselected : ∀ t, sched t (.select (.loop c) (d.child c).pipes.read 5) = selected)
    {P : Prop} (hk : ∀ t, Advances daemonLoop sched (k d) t ↔ P) :
    Advances daemonLoop sched (handled pollin d (childMessage dSocket fds d (.loop c) c 5) >>= k) t ↔
      (pollin ∧ (selected = .ready ∨ d.command = ipcCommandPanic)) ∨ P := by
  cases pollin with
  | false => simpa [handled] using hk t
  | true =>
    refine (childMessage_advances sched dSocket fds d (.loop c) c 5 k t).trans ?_
    rw [hselected, hk]
    simp

theorem healthRound_advances (k : DaemonState → DaemonProg (Option DaemonState)) (t : ℕ) :
    Advances daemonLoop sched (healthRound dSocket fds d >>= k) t :=
  (advances_call _ _ _ _ _).mpr (.inl trivial)

theorem signalMessage_advances (k : Unit → DaemonProg (Option DaemonState)) (t : ℕ) :
    Advances daemonLoop sched (signalMessage dSocket fds d >>= k) t :=
  (advances_call _ _ _ _ _).mpr (.inl trivial)

/-- A connection that cannot be accepted ends the round. -/
theorem clientMessage_advances (exchanges : ℕ) (k : DaemonState → DaemonProg (Option DaemonState)) (t : ℕ) :
    Advances daemonLoop sched (clientMessage dSocket fds d exchanges >>= fun served => match served with
      | .again => .ret (some d)
      | .serving => .ret none
      | .done d => k d) t ↔ sched t .accept ≠ none := by
  rw [clientMessage_eq, Program.call_bind, advances_call]
  cases haccept : sched t .accept with
  | none =>
    have hagain : ¬ Advances daemonLoop sched (.ret (some d)) (t + 1) :=
      fun h => (advances_ret _ _ _ _).mp h trivial
    simpa [daemonLoop, daemonTakes] using hagain
  | some fd => simp [daemonLoop, daemonTakes]

theorem childrenHandled_advances (revents : DaemonRevents) (selected : ChildName → SelectResult)
    (hselected : ∀ t c, sched t (.select (.loop c) (d.child c).pipes.read 5) = selected c) (t : ℕ) :
    Advances daemonLoop sched (some <$> childrenHandled dSocket fds d revents) t ↔
      (revents.fm.pollin ∧ (selected .fm = .ready ∨ d.command = ipcCommandPanic)) ∨
      (revents.mon.pollin ∧ (selected .mon = .ready ∨ d.command = ipcCommandPanic)) ∨
      revents.health.pollin := by
  have hhealth : ∀ t, Advances daemonLoop sched
      (handled revents.health.pollin d (healthRound dSocket fds d) >>= fun d => .ret (some d)) t ↔
        revents.health.pollin := by
    intro t
    cases hin : revents.health.pollin with
    | true => simpa [handled] using healthRound_advances sched dSocket fds d _ t
    | false => simp [handled, advances_ret, daemonLoop]
  have hsplit : some <$> childrenHandled dSocket fds d revents =
      handled revents.fm.pollin d (childMessage dSocket fds d (.loop .fm) .fm 5) >>= fun d =>
        handled revents.mon.pollin d (childMessage dSocket fds d (.loop .mon) .mon 5) >>= fun d =>
          handled revents.health.pollin d (healthRound dSocket fds d) >>= fun d => .ret (some d) := by
    rw [map_eq_pure_bind, childrenHandled, bind_assoc]
    refine congrArg (_ >>= ·) (funext fun d => ?_)
    rw [bind_assoc]
    rfl
  rw [hsplit]
  refine handled_advances sched dSocket fds d _ .fm _ t (fun t => hselected t .fm) fun t => ?_
  exact handled_advances sched dSocket fds d _ .mon _ t (fun t => hselected t .mon) hhealth

/-- What the daemon gets on with in a round. -/
theorem daemonRound_advances (exchanges : ℕ) {revents : DaemonRevents}
    (hpoll : sched 0 (.poll fds) = .ok revents) (selected : ChildName → SelectResult)
    (hselected : ∀ t c, sched t (.select (.loop c) (d.child c).pipes.read 5) = selected c) :
    Advances daemonLoop sched (daemonRound dSocket fds exchanges d) 0 ↔
      revents.signal.pollin ∨ if revents.client.pollin then sched 1 .accept ≠ none else
        (revents.fm.pollin ∧ (selected .fm = .ready ∨ d.command = ipcCommandPanic)) ∨
        (revents.mon.pollin ∧ (selected .mon = .ready ∨ d.command = ipcCommandPanic)) ∨
        revents.health.pollin := by
  refine (advances_call daemonLoop sched _ _ 0).trans ?_
  rw [hpoll]
  refine (or_iff_right (id : ¬ False)).trans ?_
  have hclient : Advances daemonLoop sched
      (clientHandled dSocket fds d exchanges revents.client.pollin >>= fun served => match served with
        | .again => .ret (some d)
        | .serving => .ret none
        | .done d => some <$> childrenHandled dSocket fds d revents) 1 ↔
      if revents.client.pollin then sched 1 .accept ≠ none else
        (revents.fm.pollin ∧ (selected .fm = .ready ∨ d.command = ipcCommandPanic)) ∨
        (revents.mon.pollin ∧ (selected .mon = .ready ∨ d.command = ipcCommandPanic)) ∨
        revents.health.pollin := by
    unfold clientHandled
    split_ifs
    · exact clientMessage_advances sched dSocket fds d exchanges _ 1
    · exact childrenHandled_advances sched dSocket fds d revents selected hselected 1
  change Advances daemonLoop sched (signalHandled dSocket fds d revents.signal.pollin >>= fun _ =>
    clientHandled dSocket fds d exchanges revents.client.pollin >>= fun served => match served with
      | .again => .ret (some d)
      | .serving => .ret none
      | .done d => some <$> childrenHandled dSocket fds d revents) 1 ↔ _
  cases hsignal : revents.signal.pollin with
  | true => exact iff_of_true (signalMessage_advances sched dSocket fds d _ 1) (.inl rfl)
  | false => simpa [signalHandled] using hclient

end Daemon

section Children

def fmTakes : (op : FmSys) → op.Res → Prop
  | .readSignal, _ => True
  | .read _, _ => True
  | _, _ => False

def fmRoundLoop : Loop FmSys FmSys.Res (Option Exit) := ⟨fmTakes, (· = none)⟩

def monTakes : (op : MonSys) → op.Res → Prop
  | .readSignal, _ => True
  | .readInotify, _ => True
  | .read _, _ => True
  | _, _ => False

def monRoundLoop : Loop MonSys MonSys.Res (Option Exit) := ⟨monTakes, (· = none)⟩

/-- What `poll` reports of the descriptors of `reportman_fm`. -/
structure FmEvents where
  signal : PollEvents
  parent : PollEvents

def FmEvents.revents (events : FmEvents) : Revents := ⟨events.signal.pollin, events.parent.pollin⟩

structure MonEvents where
  signal : PollEvents
  inotify : PollEvents
  parent : PollEvents

def MonEvents.revents (events : MonEvents) : MonRevents :=
  ⟨events.signal.pollin, events.inotify.pollin, events.parent.pollin⟩

theorem fmRound_advances (sched : ℕ → (op : FmSys) → op.Res) (args : FmArgs) (count : ℕ)
    (events : FmEvents) (hpoll : sched 0 (.poll count) = .ok events.revents)
    (hready : events.parent.pollin → sched 1 (.select args.pipes.read ipcTimeout) ≠ .timeout) :
    Advances fmRoundLoop sched (fmRound args count) 0 ↔ events.signal.pollin ∨
      (args.debug = false ∧ events.parent.pollin ∧
        sched 1 (.select args.pipes.read ipcTimeout) = .ready) := by
  let rest : Option Exit → FmProg (Option Exit) := fun left =>
    left.elim (if events.revents.signal then FmLoop.signalMessage else .ret none) (.ret ∘ some)
  have hrest : ∀ t, Advances fmRoundLoop sched (rest none) t ↔ events.signal.pollin := by
    intro t
    cases hsignal : events.signal.pollin with
    | true =>
      refine iff_of_true ?_ rfl
      simp only [rest, Option.elim_none, FmEvents.revents, hsignal, if_true]
      exact (advances_call _ _ _ _ _).mpr (.inl trivial)
    | false => simp [rest, FmEvents.revents, hsignal, advances_ret, fmRoundLoop]
  rw [fmRound_eq]
  refine (advances_call fmRoundLoop sched _ _ 0).trans ?_
  rw [hpoll]
  refine (or_iff_right (id : ¬ False)).trans ?_
  change Advances fmRoundLoop sched (checkParent args events.revents >>= rest) 1 ↔ _
  by_cases hparent : args.debug = false ∧ events.parent.pollin = true
  · obtain ⟨hdebug, hin⟩ := hparent
    have hmessage : checkParent args events.revents = FmLoop.parentMessage args := by
      simp [checkParent, FmEvents.revents, hdebug, hin]
    rw [hmessage, parentMessage_eq, Program.call_bind, advances_call]
    cases hselected : sched 1 (.select args.pipes.read ipcTimeout) with
    | error => simpa [fmRoundLoop, fmTakes] using hrest 2
    | timeout => exact absurd hselected (hready hin)
    | ready =>
      refine iff_of_true (.inr ?_) (.inr ⟨hdebug, hin, rfl⟩)
      exact (advances_call _ _ _ _ _).mpr (.inl trivial)
  · have hskipped : checkParent args events.revents = .ret none := by
      unfold checkParent
      rw [if_neg (by simpa [FmEvents.revents] using hparent)]
      rfl
    rw [hskipped, Program.ret_bind, hrest]
    exact ⟨.inl, fun h => h.elim id fun h => absurd ⟨h.1, h.2.1⟩ hparent⟩

theorem monParentMessage_advances (sched : ℕ → (op : MonSys) → op.Res) (pipes : IpcPipes)
    (hready : sched 1 (.select pipes.read ipcTimeout) ≠ .timeout)
    (k : Option Exit → MonProg (Option Exit)) :
    Advances monRoundLoop sched (monParentMessage pipes >>= k) 1 ↔
      sched 1 (.select pipes.read ipcTimeout) = .ready ∨ Advances monRoundLoop sched (k none) 2 := by
  refine (advances_call monRoundLoop sched (.select pipes.read ipcTimeout) _ 1).trans ?_
  cases hselected : sched 1 (.select pipes.read ipcTimeout) with
  | error => exact (or_iff_right (id : ¬ False)).trans (or_iff_right (by simp)).symm
  | timeout => exact absurd hselected hready
  | ready => exact iff_of_true (.inr ((advances_call _ _ _ _ _).mpr (.inl trivial))) (.inl rfl)

theorem monRound_advances (sched : ℕ → (op : MonSys) → op.Res) (pipes : IpcPipes) (count : ℕ)
    (events : MonEvents) (hpoll : sched 0 (.poll count) = .ok events.revents)
    (hready : events.parent.pollin → sched 1 (.select pipes.read ipcTimeout) ≠ .timeout) :
    Advances monRoundLoop sched (monRound pipes count) 0 ↔ events.signal.pollin ∨
      events.inotify.pollin ∨
      (events.parent.pollin ∧ sched 1 (.select pipes.read ipcTimeout) = .ready) := by
  let rest : Option Exit → MonProg (Option Exit) := fun left =>
    left.elim (if events.revents.signal then monSignalMessage else .ret none) (.ret ∘ some)
  have hrest : ∀ t, Advances monRoundLoop sched (rest none) t ↔ events.signal.pollin := by
    intro t
    cases hsignal : events.signal.pollin with
    | true =>
      refine iff_of_true ?_ rfl
      simp only [rest, Option.elim_none, MonEvents.revents, hsignal, if_true]
      exact (advances_call _ _ _ _ _).mpr (.inl trivial)
    | false => simp [rest, MonEvents.revents, hsignal, advances_ret, monRoundLoop]
  rw [monRound_eq]
  refine (advances_call monRoundLoop sched _ _ 0).trans ?_
  rw [hpoll]
  refine (or_iff_right (id : ¬ False)).trans ?_
  change Advances monRoundLoop sched (monCheckInotify events.revents >>= fun _ =>
    monCheckParent pipes events.revents >>= rest) 1 ↔ _
  cases hinotify : events.inotify.pollin with
  | true =>
    refine iff_of_true ?_ (.inr (.inl rfl))
    simp only [monCheckInotify, MonEvents.revents, hinotify, if_true]
    exact (advances_call _ _ _ _ _).mpr (.inl trivial)
  | false =>
    have hnone : monCheckInotify events.revents = .ret () := by
      simp [monCheckInotify, MonEvents.revents, hinotify]
    rw [hnone, Program.ret_bind]
    cases hparent : events.parent.pollin with
    | true =>
      simp only [monCheckParent, MonEvents.revents, hparent, if_true]
      rw [monParentMessage_advances sched pipes (hready hparent), hrest]
      simp [or_comm]
    | false =>
      simp only [monCheckParent, MonEvents.revents, hparent, Bool.false_eq_true, if_false]
      refine (hrest 1).trans ?_
      simp

end Children

section Results

variable (dSocket : ℤ) (fds : PollFds) (d : DaemonState) (exchanges : ℕ) (args : FmArgs) (pipes : IpcPipes)
  (fmCount monCount : ℕ) (daemonSched : ℕ → Environment) (fmSched : ℕ → (op : FmSys) → op.Res)
  (monSched : ℕ → (op : MonSys) → op.Res)

/-- Only POLLIN moves the loops, and not everywhere: the daemon gets stuck at a connection it cannot
accept and at a child's descriptor that is no longer the one it reads from, `reportman_fm` in debug
mode never looks at its pipe. -/
theorem rounds_advance_iff {revents : DaemonRevents} (hdaemon : daemonSched 0 (.poll fds) = .ok revents)
    (selected : ChildName → SelectResult)
    (hselected : ∀ t c, daemonSched t (.select (.loop c) (d.child c).pipes.read 5) = selected c)
    (fmEvents : FmEvents) (hfm : fmSched 0 (.poll fmCount) = .ok fmEvents.revents)
    (hfmReady : fmEvents.parent.pollin → fmSched 1 (.select args.pipes.read ipcTimeout) ≠ .timeout)
    (monEvents : MonEvents) (hmon : monSched 0 (.poll monCount) = .ok monEvents.revents)
    (hmonReady : monEvents.parent.pollin → monSched 1 (.select pipes.read ipcTimeout) ≠ .timeout) :
    (Advances daemonLoop daemonSched (daemonRound dSocket fds exchanges d) 0 ↔
      revents.signal.pollin ∨ if revents.client.pollin then daemonSched 1 .accept ≠ none else
        (revents.fm.pollin ∧ (selected .fm = .ready ∨ d.command = ipcCommandPanic)) ∨
        (revents.mon.pollin ∧ (selected .mon = .ready ∨ d.command = ipcCommandPanic)) ∨
        revents.health.pollin) ∧
    (Advances fmRoundLoop fmSched (fmRound args fmCount) 0 ↔ fmEvents.signal.pollin ∨
      (args.debug = false ∧ fmEvents.parent.pollin ∧
        fmSched 1 (.select args.pipes.read ipcTimeout) = .ready)) ∧
    (Advances monRoundLoop monSched (monRound pipes monCount) 0 ↔ monEvents.signal.pollin ∨
      monEvents.inotify.pollin ∨
      (monEvents.parent.pollin ∧ monSched 1 (.select pipes.read ipcTimeout) = .ready)) :=
  ⟨daemonRound_advances daemonSched dSocket fds d exchanges hdaemon selected hselected,
    fmRound_advances fmSched args fmCount fmEvents hfm hfmReady,
    monRound_advances monSched pipes monCount monEvents hmon hmonReady⟩

def silent : PollEvents := ⟨false, false, false, false⟩

/-- The peer has exited and has left nothing to read. -/
def hangup : PollEvents := ⟨false, true, false, false⟩

def readable : PollEvents := ⟨true, false, false, false⟩

def daemonFinds (events : PollEvents) : Environment
  | .poll _ => .ok ⟨silent, silent, events, silent, silent⟩
  | op => answering [] 0 0 op

def fmFinds (events : PollEvents) : (op : FmSys) → op.Res
  | .poll _ => .ok ⟨false, events.pollin⟩
  | .select _ _ => .ready
  | .read _ => some ackBytes
  | .write _ _ => .written
  | .readSignal => .short
  | .uninitialized _ => 0

def monFinds (events : PollEvents) : (op : MonSys) → op.Res
  | .poll _ => .ok ⟨false, false, events.pollin⟩
  | .readInotify => (fun _ => 0, 0)
  | .eventProcess _ _ => ()
  | .select _ _ => .ready
  | .read _ => some ackBytes
  | .write _ _ => .written
  | .readSignal => .short
  | .uninitialized _ => 0

def pipesSample : IpcPipes := ⟨8, 7⟩

def fdsSample : PollFds := ⟨6, 4, 10, 14, 5⟩

/-- All three loops with a message on one descriptor. -/
theorem rounds_advance_iff_message :
    Advances daemonLoop (fun _ => daemonFinds readable)
      (daemonRound 4 fdsSample 0 (initially fun _ => 3)) 0 ∧
    Advances fmRoundLoop (fun _ => fmFinds readable) (fmRound ⟨false, pipesSample⟩ 2) 0 ∧
    Advances monRoundLoop (fun _ => monFinds readable) (monRound pipesSample 3) 0 := by
  obtain ⟨hdaemon, hfm, hmon⟩ := rounds_advance_iff 4 fdsSample (initially fun _ => 3) 0
    ⟨false, pipesSample⟩ pipesSample 2 3 (fun _ => daemonFinds readable) (fun _ => fmFinds readable)
    (fun _ => monFinds readable) rfl (fun _ => .ready) (fun _ _ => rfl)
    ⟨silent, readable⟩ rfl nofun ⟨silent, silent, readable⟩ rfl nofun
  exact ⟨hdaemon.mpr (.inr (.inl ⟨rfl, .inl rfl⟩)), hfm.mpr (.inr ⟨rfl, rfl, rfl⟩),
    hmon.mpr (.inr (.inr ⟨rfl, rfl⟩))⟩

/-- Each loop goes back to `poll` when all it is told is that the peer has hung up. -/
theorem not_advances_hangup :
    ¬ Advances daemonLoop (fun _ => daemonFinds hangup)
      (daemonRound 4 fdsSample 0 (initially fun _ => 3)) 0 ∧
    ¬ Advances fmRoundLoop (fun _ => fmFinds hangup) (fmRound ⟨false, pipesSample⟩ 2) 0 ∧
    ¬ Advances monRoundLoop (fun _ => monFinds hangup) (monRound pipesSample 3) 0 := by
  refine ⟨fun h => ?_, fun h => ?_, fun h => ?_⟩
  · have := (daemonRound_advances (fun _ => daemonFinds hangup) 4 fdsSample (initially fun _ => 3) 0
      rfl (fun _ => .ready) (fun _ _ => rfl)).mp h
    simp [silent, hangup] at this
  · have := (fmRound_advances (fun _ => fmFinds hangup) ⟨false, pipesSample⟩ 2
      ⟨silent, hangup⟩ rfl nofun).mp h
    simp [silent, hangup] at this
  · have := (monRound_advances (fun _ => monFinds hangup) pipesSample 3
      ⟨silent, silent, hangup⟩ rfl nofun).mp h
    simp [silent, hangup] at this

end Results

end Reportman.Spin
