import Mathlib
import Reportman.Daemon

/-!
# What becomes of a PANIC

A child that panics writes a word that the daemon may read at any of the places where it reads from
that child. Read by the handshake, by the poll loop or before the probes it makes the daemon shut
down; taken for a timer or for the answer to a probe it is lost.
-/
namespace Reportman.Panic
open Resumable Ipc Daemon
open FmLoop (WriteResult Exit)

/-- A read that brings a whole PANIC word. -/
def PanicRead : (op : DaemonSys) → op.Res → Prop
  | .read _ _, r => ∃ bytes, r = some bytes ∧ bytes.length = 8 ∧
      (wordOf bytes).toUInt64 = ipcCommandPanic.toUInt64
  | _, _ => False

instance (op : DaemonSys) (r : op.Res) : Decidable (PanicRead op r) := by
  cases op
  case read site fd =>
    exact match r with
      | none => isFalse (by rintro ⟨bytes, h, -⟩; cases h)
      | some bytes => decidable_of_iff (bytes.length = 8 ∧
          (wordOf bytes).toUInt64 = ipcCommandPanic.toUInt64)
          ⟨fun h => ⟨bytes, rfl, h⟩, fun ⟨_, hb, h⟩ => Option.some.inj hb ▸ h⟩
  all_goals exact isFalse id

/-- The reads that take whatever they get for what they want. -/
def Swallows : DaemonSys → Prop
  | .read .timers _ => True
  | .read (.probe _) _ => True
  | _ => False

instance (op : DaemonSys) : Decidable (Swallows op) := by
  cases op
  case read site fd => cases site <;> first | exact isTrue trivial | exact isFalse id
  all_goals exact isFalse id

/-- The calls of a shutdown. -/
def ShuttingDown : DaemonSys → Prop
  | .close _ => True
  | .timerDelete => True
  | .killGroup _ => True
  | .waitpid _ => True
  | _ => False

section Programs

variable {α β : Type}

/-- The program exits with a failure after closing up. -/
def ShutsDown : DaemonProg α → Prop
  | .ret _ => False
  | .halt => False
  | .call op next => (ShuttingDown op ∧ ∀ r, ShutsDown (next r)) ∨
      (op = .exit .failure ∧ ∀ r, next r = .halt)

/-- Every PANIC that is read makes the program shut down, unless it was swallowed. -/
def Heeds : DaemonProg α → Prop
  | .ret _ => True
  | .halt => True
  | .call op next => ∀ r, (¬ PanicRead op r → Heeds (next r)) ∧
      (PanicRead op r → ¬ Swallows op → ShutsDown (next r))

theorem ShutsDown.bind {p : DaemonProg α} (h : ShutsDown p) (f : α → DaemonProg β) :
    ShutsDown (p >>= f) := by
  induction p with
  | ret a => exact h.elim
  | halt => exact h.elim
  | call op next ih =>
    rcases h with ⟨hop, hnext⟩ | ⟨hop, hnext⟩
    · exact .inl ⟨hop, fun r => ih r (hnext r)⟩
    · refine .inr ⟨hop, fun r => ?_⟩
      change (next r >>= f) = .halt
      rw [hnext r]
      rfl

theorem Heeds.bind {p : DaemonProg α} {f : α → DaemonProg β} (hp : Heeds p) (hf : ∀ a, Heeds (f a)) :
    Heeds (p >>= f) := by
  induction p with
  | ret a => exact hf a
  | halt => trivial
  | call op next ih =>
    intro r
    exact ⟨fun h => ih r ((hp r).1 h), fun h hs => ((hp r).2 h hs).bind f⟩

/-- A call that reads nothing. -/
theorem Heeds.call {op : DaemonSys} {next : op.Res → DaemonProg α} (hop : ∀ r, ¬ PanicRead op r)
    (h : ∀ r, Heeds (next r)) : Heeds (.call op next) :=
  fun r => ⟨fun _ => h r, fun hr => absurd hr (hop r)⟩

theorem Heeds.elsewhere {Q : α → Prop} {p : DaemonProg α} (h : p.Always (fun op _ => Elsewhere op) Q) :
    Heeds p := by
  induction p with
  | ret a => trivial
  | halt => trivial
  | call op next ih =>
    refine Heeds.call (fun r hr => ?_) fun r => ih r (h r).2
    cases op <;> first | exact hr | exact (h r).1

theorem shutsDown_exitWith : ShutsDown (exitWith .failure : DaemonProg α) :=
  .inr ⟨rfl, fun _ => rfl⟩

theorem shutsDown_cleanClose (dSocket : ℤ) (fds : PollFds) (d : DaemonState) :
    ShutsDown (cleanClose dSocket fds d .failure : DaemonProg α) := by
  simp [cleanClose, killChildren, exitWith, sys, ShutsDown, ShuttingDown]

/-- What follows a message that is no PANIC. -/
theorem Heeds.received {d : DaemonState} {site : Site} {bytes : List UInt8} {k : UInt64 → DaemonProg α}
    (h : ∀ msg, Heeds (k msg)) : Heeds (Ipc.received (daemonCalls d site) bytes >>= k) := by
  rw [received_bind]
  split_ifs
  · exact h _
  · exact Heeds.call (fun _ hr => hr) h

theorem Heeds.written {d : DaemonState} {r : WriteResult} {k : Bool → DaemonProg α}
    (h : ∀ sent, Heeds (k sent)) : Heeds (Daemon.written d r >>= k) :=
  (Heeds.elsewhere (written_elsewhere d r)).bind h

end Programs

section Functions

variable (dSocket : ℤ) (fds : PollFds) (d : DaemonState)

theorem childMessage_heeds (site : Site) (c : ChildName) (timeoutSecs : ℕ) :
    Heeds (childMessage dSocket fds d site c timeoutSecs) := by
  have hrest : ∀ d' : DaemonState, Heeds (if d'.command = ipcCommandPanic then
      cleanClose dSocket fds d' .failure else .ret d') := by
    intro d'
    split_ifs
    · exact Heeds.elsewhere (cleanClose_elsewhere dSocket fds d' .failure fun _ => True)
    · trivial
  unfold childMessage
  rw [getCommand_eq]
  refine Heeds.call (fun _ hr => hr) ?_
  rintro (_ | _ | _)
  · exact hrest d
  · exact hrest d
  intro got
  constructor
  · intro _
    rcases got with _ | bytes
    · exact hrest d
    change Heeds ((received (daemonCalls d site) bytes >>= _) >>= _)
    rw [bind_assoc]
    refine Heeds.received fun msg => ?_
    by_cases hc : ipcIsCommand msg = true
    · rw [if_pos hc]
      exact hrest _
    · rw [if_neg hc]
      exact hrest d
  · rintro ⟨bytes, rfl, hlen, hpanic⟩ -
    have hc : ipcIsCommand ipcCommandPanic.toUInt64 = true := by decide
    change ShutsDown ((received (daemonCalls d site) bytes >>= _) >>= _)
    rw [received_bind, if_pos hlen, hpanic, if_pos hc]
    exact shutsDown_cleanClose dSocket fds _

theorem acknowledgeClient_heeds (c : ChildName) : Heeds (acknowledgeClient d c) := by
  have hexit : Heeds (exitWith .failure : DaemonProg Unit) :=
    Heeds.elsewhere (exitWith_elsewhere .failure fun _ => True)
  rw [acknowledgeClient_eq]
  refine Heeds.call (fun _ hr => hr) ?_
  rintro (_ | _ | _)
  · exact hexit
  · exact hexit
  change Heeds (ipcGetAck (daemonCalls d (.acknowledge c)) (d.child c).pipes >>= _)
  rw [ipcGetAck_bind]
  intro got
  constructor
  · intro _
    rcases got with _ | bytes
    · exact hexit
    refine Heeds.received fun msg => ?_
    cases ipcIsAck msg with
    | false => exact hexit
    | true =>
      change Heeds ((daemonCalls d (.acknowledge c)).write _ _ >>= _)
      rw [ipcSend_bind]
      refine Heeds.call (fun _ hr => hr) fun r => Heeds.written fun sent => ?_
      cases sent with
      | false => exact hexit
      | true => trivial
  · rintro ⟨bytes, rfl, hlen, hpanic⟩ -
    have hack : ipcIsAck ipcCommandPanic.toUInt64 = false := by decide
    change ShutsDown (received (daemonCalls d (.acknowledge c)) bytes >>= _)
    rw [received_bind, if_pos hlen, hpanic, hack]
    exact shutsDown_exitWith

/-- A PANIC is a number to this reader. -/
theorem ipcGetUlong_heeds {α : Type} {k : UInt64 → DaemonProg α} (h : ∀ value, Heeds (k value)) :
    Heeds (ipcGetUlong (daemonCalls d .timers) d.fm.pipes >>= k) := by
  rw [ipcGetUlong_bind]
  intro got
  refine ⟨fun _ => ?_, fun _ hs => absurd trivial hs⟩
  rcases got with _ | bytes
  · exact h _
  refine Heeds.received fun msg => ?_
  split_ifs
  · exact h _
  · exact h _

theorem reportmanFmGetTimers_heeds : Heeds (reportmanFmGetTimers d) := by
  have hexit : Heeds (exitWith .failure : DaemonProg DaemonState) :=
    Heeds.elsewhere (exitWith_elsewhere .failure fun _ => True)
  rw [reportmanFmGetTimers_eq]
  refine Heeds.call (fun _ hr => hr) ?_
  rintro (_ | _ | _)
  · exact hexit
  · exact hexit
  refine ipcGetUlong_heeds d fun backup => ?_
  split_ifs
  · exact hexit
  refine ipcGetUlong_heeds d fun transfer => ?_
  split_ifs
  · exact hexit
  · trivial

theorem startChildProcess_heeds (p : ChildProcess) (c : ChildName) (extraArgs : List String) :
    Heeds (startChildProcess dSocket p c extraArgs) := by
  refine Heeds.call (fun _ hr => hr) ?_
  rintro (_ | ⟨childRead, childWrite⟩)
  · trivial
  refine Heeds.call (fun _ hr => hr) ?_
  rintro (_ | ⟨parentRead, parentWrite⟩)
  · trivial
  refine Heeds.call (fun _ hr => hr) ?_
  rintro (_ | pid)
  · exact Heeds.elsewhere (exitWith_elsewhere .failure fun _ => True)
  · exact Heeds.call (fun _ hr => hr) fun _ => Heeds.call (fun _ hr => hr) fun _ => trivial

theorem childSpawn_heeds (c : ChildName) (extraArgs : List String) :
    Heeds (childSpawn dSocket d c extraArgs) :=
  (startChildProcess_heeds dSocket (d.child c) c extraArgs).bind fun _ =>
    (acknowledgeClient_heeds _ c).bind fun _ => trivial

theorem answersProbe_heeds {α : Type} (c : ChildName) {k : Bool → DaemonProg α}
    (h : ∀ b, Heeds (k b)) : Heeds (answersProbe d c >>= k) := by
  rw [answersProbe_bind rfl]
  refine Heeds.call (fun _ hr => hr) fun r => Heeds.written fun _ => Heeds.call (fun _ hr => hr) ?_
  rintro (_ | _ | _)
  · exact h false
  · exact h false
  intro got
  refine ⟨fun _ => ?_, fun _ hs => absurd trivial hs⟩
  rcases got with _ | bytes
  · exact h false
  · exact Heeds.received fun msg => h _

variable {post : DaemonState → DaemonProg DaemonState} (hpost : ∀ d, Heeds (post d))
include hpost

theorem restartChild_heeds (c : ChildName) : Heeds (restartChild dSocket d c post) := by
  unfold restartChild
  dsimp only
  split_ifs
  · exact Heeds.elsewhere (exitWith_elsewhere .failure fun _ => True)
  · exact (childSpawn_heeds dSocket _ c []).bind fun d' => (hpost d').bind fun _ => trivial

theorem healthProbeChildProcess_heeds (c : ChildName) :
    Heeds (healthProbeChildProcess dSocket d c post) := by
  refine Heeds.call (fun _ hr => hr) fun isAlive => ?_
  cases isAlive with
  | false => exact restartChild_heeds dSocket _ hpost c
  | true =>
    refine answersProbe_heeds _ c fun answered => ?_
    cases answered with
    | true => trivial
    | false =>
      exact Heeds.call (fun _ hr => hr) fun _ => Heeds.call (fun _ hr => hr) fun _ =>
        restartChild_heeds dSocket _ hpost c

omit hpost

theorem healthRound_heeds : Heeds (healthRound dSocket fds d) := by
  refine Heeds.call (fun _ hr => hr) fun armed => ?_
  cases armed with
  | false => exact Heeds.elsewhere (exitWith_elsewhere .failure fun _ => True)
  | true =>
    refine (childMessage_heeds dSocket fds d (.drain .fm) .fm 1).bind fun d₁ => ?_
    refine (childMessage_heeds dSocket fds d₁ (.drain .mon) .mon 1).bind fun d₂ => ?_
    refine (healthProbeChildProcess_heeds dSocket d₂ reportmanFmGetTimers_heeds .fm).bind fun d₃ => ?_
    exact healthProbeChildProcess_heeds dSocket d₃ (show ∀ d, Heeds (pure d) from fun _ => trivial) .mon

theorem handled_heeds (pollin : Bool) {handler : DaemonProg DaemonState} (h : Heeds handler) :
    Heeds (handled pollin d handler) := by
  unfold handled
  split_ifs
  · exact h
  · trivial

theorem childrenHandled_heeds (revents : DaemonRevents) :
    Heeds (childrenHandled dSocket fds d revents) :=
  (handled_heeds d _ (childMessage_heeds dSocket fds d (.loop .fm) .fm 5)).bind fun d₁ =>
    (handled_heeds d₁ _ (childMessage_heeds dSocket fds d₁ (.loop .mon) .mon 5)).bind fun d₂ =>
      handled_heeds d₂ _ (healthRound_heeds dSocket fds d₂)

theorem daemonRound_heeds (exchanges : ℕ) : Heeds (daemonRound dSocket fds exchanges d) := by
  refine Heeds.call (fun _ hr => hr) ?_
  rintro ((_ | _) | revents)
  · trivial
  · exact (Heeds.elsewhere killChildren_elsewhere).bind fun _ =>
      Heeds.elsewhere (exitWith_elsewhere .failure fun _ => True)
  have hsignal : Heeds (signalHandled dSocket fds d revents.signal.pollin) := by
    unfold signalHandled
    split_ifs
    · exact Heeds.elsewhere (signalMessage_elsewhere dSocket fds d)
    · trivial
  have hclient : Heeds (clientHandled dSocket fds d exchanges revents.client.pollin) := by
    unfold clientHandled
    split_ifs
    · exact Heeds.elsewhere (clientMessage_elsewhere dSocket fds d exchanges)
    · trivial
  refine hsignal.bind fun _ => hclient.bind ?_
  rintro (_ | _ | d')
  · trivial
  · trivial
  · exact (childrenHandled_heeds dSocket fds d' revents).bind fun _ => trivial

theorem pollLoop_heeds (exchanges rounds : ℕ) : Heeds (pollLoop dSocket fds exchanges rounds d) := by
  induction rounds generalizing d with
  | zero => trivial
  | succ rounds ih =>
    refine (daemonRound_heeds dSocket fds d exchanges).bind ?_
    rintro (_ | d')
    · trivial
    · exact ih d'

theorem prepare_heeds : Heeds (prepare dSocket d) := by
  obtain ⟨next, hprepare, hnext⟩ := prepare_elsewhere dSocket d
  rw [hprepare]
  exact Heeds.call (fun _ hr => hr) fun command => Heeds.elsewhere (hnext command)

theorem daemonMain_heeds (directories : List String) (exchanges rounds : ℕ) :
    Heeds (daemonMain dSocket directories exchanges rounds d) := by
  have hstart : Heeds (startUp dSocket directories d) :=
    (childSpawn_heeds dSocket d .fm []).bind fun d₁ => (reportmanFmGetTimers_heeds d₁).bind fun d₂ =>
      (childSpawn_heeds dSocket d₂ .mon directories).bind fun d₃ => prepare_heeds dSocket d₃
  exact hstart.bind fun ⟨fds, d'⟩ => (pollLoop_heeds dSocket fds d' exchanges rounds).bind fun _ => trivial

end Functions

section Runs

variable {α : Type} {sched : ℕ → Environment} {t : ℕ}

/-- Closing calls only, and then the process has exited with a failure. -/
def HasShutDown (result : Option α) (calls : DaemonHistory) : Prop :=
  result = none ∧ ∃ closing last, calls = closing ++ [last] ∧ (∀ e ∈ closing, ShuttingDown e.op) ∧
    last.op = .exit .failure

/-- The daemon shuts down after each PANIC that it has read, at once. -/
def Heeded (result : Option α) (calls : DaemonHistory) : Prop :=
  ∀ before e after, calls = before ++ e :: after → PanicRead e.op e.res → HasShutDown result after

theorem HasShutDown.cons {result : Option α} {calls : DaemonHistory}
    {e : Event DaemonSys DaemonSys.Res Unit} (h : HasShutDown result calls) (he : ShuttingDown e.op) :
    HasShutDown result (e :: calls) := by
  obtain ⟨hresult, closing, last, rfl, hclosing, hlast⟩ := h
  refine ⟨hresult, e :: closing, last, rfl, ?_, hlast⟩
  rintro e' (_ | ⟨_, he'⟩)
  · exact he
  · exact hclosing e' he'

theorem ShutsDown.run {p : DaemonProg α} (h : ShutsDown p) :
    HasShutDown (Resumable.run answer sched p t ()).result (trace answer sched p t ()) := by
  induction p generalizing t with
  | ret a => exact h.elim
  | halt => exact h.elim
  | call op next ih =>
    rcases h with ⟨hop, hnext⟩ | ⟨rfl, hnext⟩
    · exact (ih _ (hnext _)).cons hop
    · simp only [Resumable.run, trace, hnext]
      exact ⟨rfl, [], _, rfl, by simp, rfl⟩

theorem HasShutDown.not_panicRead {result : Option α} {calls : DaemonHistory}
    (h : HasShutDown result calls) : ∀ e ∈ calls, ¬ PanicRead e.op e.res := by
  obtain ⟨-, closing, ⟨lastOp, lastRes, s₀, s₁⟩, rfl, hclosing, hlast⟩ := h
  dsimp only at hlast
  subst hlast
  rintro ⟨op, res, s, s'⟩ he hpanic
  rcases List.mem_append.mp he with he | he
  · have hop := hclosing _ he
    cases op <;> first | exact hop | exact hpanic
  · cases List.mem_singleton.mp he
    exact hpanic

theorem Heeds.run {p : DaemonProg α} (h : Heeds p)
    (hswallow : ∀ e ∈ trace answer sched p t (), PanicRead e.op e.res → ¬ Swallows e.op) :
    Heeded (Resumable.run answer sched p t ()).result (trace answer sched p t ()) := by
  induction p generalizing t with
  | ret a =>
    intro before e after hsplit
    simp [trace] at hsplit
  | halt =>
    intro before e after hsplit
    simp [trace] at hsplit
  | call op next ih =>
    intro before e after hsplit hpanic
    simp only [trace] at hsplit hswallow
    cases before with
    | nil =>
      obtain ⟨rfl, rfl⟩ := List.cons.inj hsplit
      exact ((h _).2 hpanic (hswallow _ (List.mem_cons_self ..) hpanic)).run
    | cons first before =>
      obtain ⟨rfl, htail⟩ := List.cons.inj hsplit
      by_cases hfirst : PanicRead op (answer (sched t) op ()).1
      · have hdown : HasShutDown (Resumable.run answer sched (next (answer (sched t) op ()).1) (t + 1) ()).result
            (trace answer sched (next (answer (sched t) op ()).1) (t + 1) ()) :=
          ((h _).2 hfirst (hswallow _ (List.mem_cons_self ..) hfirst)).run
        have he : e ∈ trace answer sched (next (answer (sched t) op ()).1) (t + 1) () := by
          exact htail ▸ List.mem_append_right before (List.mem_cons_self ..)
        exact absurd hpanic (hdown.not_panicRead e he)
      · exact ih _ ((h _).1 hfirst) (fun e he => hswallow e (List.mem_cons_of_mem _ he)) before e after
          htail hpanic

end Runs

/-- In a run in which no PANIC is swallowed, none is lost. -/
theorem daemonMain_heeded (dSocket : ℤ) (directories : List String) (exchanges rounds : ℕ)
    (d : DaemonState) (sched : ℕ → Environment) :
    let p := daemonMain dSocket directories exchanges rounds d
    (∀ e ∈ trace answer sched p 0 (), PanicRead e.op e.res → ¬ Swallows e.op) →
      Heeded (run answer sched p 0 ()).result (trace answer sched p 0 ()) :=
  fun hswallow => (daemonMain_heeds dSocket d directories exchanges rounds).run hswallow

def panicBytes : List UInt8 := [0xAC, 0xFF, 0xAC, 0xFF, 0, 0, 0, 0]

/-- `reportman_fm` sends a PANIC. -/
def panicking (t : ℕ) : Environment
  | .poll _ => .ok ⟨⟨false, false, false, false⟩, ⟨false, false, false, false⟩,
      ⟨true, false, false, false⟩, ⟨false, false, false, false⟩, ⟨false, false, false, false⟩⟩
  | .read (.loop _) _ => some panicBytes
  | op => answering ackBytes 0 t op

/-- It is read in the poll loop, and the daemon exits. -/
theorem daemonMain_heeded_panicking :
    let p := daemonMain 4 [] 1 1 (initially fun _ => 3)
    (∃ e ∈ trace answer panicking p 0 (), PanicRead e.op e.res) ∧
      Heeded (run answer panicking p 0 ()).result (trace answer panicking p 0 ()) := by
  have hread : (trace answer panicking (daemonMain 4 [] 1 1 (initially fun _ => 3)) 0 ())[27]? =
      some ⟨.read (.loop .fm) 10, some panicBytes, (), ()⟩ := rfl
  exact ⟨⟨_, List.mem_of_getElem? hread, panicBytes, rfl, rfl, by decide⟩,
    daemonMain_heeded 4 [] 1 1 (initially fun _ => 3) panicking (by decide +kernel)⟩

/-- A PANIC that comes after the probe has been sent counts as the answer. -/
theorem not_heeded_probe :
    ¬ Heeded (run answer (answering panicBytes 0) sample 0 ()).result
      (trace answer (answering panicBytes 0) sample 0 ()) := by
  intro h
  have hread : (trace answer (answering panicBytes 0) sample 0 ())[36]? =
      some ⟨.read (.probe .mon) 32, some panicBytes, (), ()⟩ := rfl
  have hgoes : (run answer (answering panicBytes 0) sample 0 ()).result.isSome = true := rfl
  obtain ⟨before, after, hsplit⟩ := List.append_of_mem (List.mem_of_getElem? hread)
  have hdown := h before _ after hsplit ⟨panicBytes, rfl, rfl, by decide⟩
  rw [hdown.1] at hgoes
  cases hgoes

end Reportman.Panic
