import Mathlib
import Reportman.Watching

/-!
# After a close command

The daemon leaves its poll loop once the client that has sent a close command is gone. Until then it goes
on serving that client.
-/
namespace Reportman.CloseFinal
open Resumable Ipc Daemon Watching EntryPoints
open FmLoop (Exit sigint sigterm)

/-- What has been seen: that a close command has been executed, and that it came over the connection
accepted last. -/
structure Sight where
  closed : Bool
  here : Bool
  deriving DecidableEq, Repr

def observe : (op : DaemonSys) → op.Res → Sight → Sight
  | .execute command, _, g => if (parseCommand command).1 = .close then ⟨true, true⟩ else g
  | .accept, _, g => { g with here := false }
  | _, _, g => g

def silentAfterClose : (op : DaemonSys) → op.Res → Sight → Bool
  | .readClient _, some (_ :: _), g => !g.here
  | _, _, _ => true

/-- A client that has sent a close command sends nothing more. -/
def SilentAfterClose (op : DaemonSys) (r : op.Res) (g : Sight) : Prop := silentAfterClose op r g = true

instance (op : DaemonSys) (r : op.Res) (g : Sight) : Decidable (SilentAfterClose op r g) :=
  inferInstanceAs (Decidable (_ = true))

/-- No command is executed after a close command. -/
def Final : (op : DaemonSys) → op.Res → Sight → Prop
  | .execute _, _, g => g.closed = false
  | _, _, _ => True

/-- The calls that execute no command. -/
def Idle : DaemonSys → Prop
  | .execute _ => False
  | _ => True

/-- Nobody has asked to close. -/
def Open (_ : DaemonState) (g : Sight) : Prop := g.closed = false ∧ g.here = false

section Programs

variable {α : Type} (dSocket : ℤ) (fds : PollFds) (d : DaemonState)

theorem idle_of_tends {Q : α → Prop} {p : DaemonProg α} (h : p.Always (fun op _ => Tends op) Q) :
    p.Always (fun op _ => Idle op) Q :=
  h.mono (fun op _ hop => by cases op <;> trivial) fun _ hq => hq

theorem idle_of_quits {Q : α → Prop} {p : DaemonProg α} (h : p.Always (fun op _ => Quits op) Q) :
    p.Always (fun op _ => Idle op) Q :=
  h.mono (fun op _ hop => by cases op <;> trivial) fun _ hq => hq

theorem childMessage_idle (site : Site) (c : ChildName) (secs : ℕ) :
    (childMessage dSocket fds d site c secs).Always (fun op _ => Idle op) fun _ => True := by
  have hcommand : (getCommand d site c secs).Always (fun op _ => Idle op) fun _ => True :=
    (getCommand_reads d site c secs).mono (fun op _ hop => by cases op <;> trivial) fun _ _ => trivial
  refine hcommand.bind fun d' _ => ?_
  split_ifs
  · exact idle_of_quits (cleanClose_quits dSocket fds d' .failure _)
  · trivial

/-- As long as no command is executed, nobody asks to close. -/
theorem idle_upheld {P : α → Sight → Prop} {Q : α → Prop} {p : DaemonProg α} {g : Sight}
    (h : p.Always (fun op _ => Idle op) Q) (hP : ∀ a g, Q a → Open d g → P a g) (hg : Open d g) :
    Upheld observe SilentAfterClose Final (fun _ => True) P p g := by
  refine (upheld_of_always h ?_ (fun _ _ => trivial) hg).mono fun a g' h' => hP a g' h'.1 h'.2
  intro op r g' hop _ hopen
  cases op
  case execute command => exact hop.elim
  case accept => exact ⟨trivial, hopen.1, rfl⟩
  all_goals exact ⟨trivial, hopen⟩

/-- While a client is served: a close that has been executed came from him and has been noted. -/
def Noted (d : DaemonState) (g : Sight) : Prop := g.here = g.closed ∧ (g.closed = true → d.closeRequested = true)

theorem writeClient_noted (fd : ℤ) (text : FileSystem.Bytes) {g : Sight} (hg : Noted d g) :
    Upheld observe SilentAfterClose Final (fun _ => True) (fun _ g' => Noted d g') (writeClient d fd text) g := by
  refine upheld_call fun r _ => ⟨trivial, ?_⟩
  cases r with
  | written => exact hg
  | failed => exact hg
  | broken =>
    change Upheld _ _ _ _ _ (brokenPipe d >>= fun _ => .ret ()) g
    unfold brokenPipe
    split_ifs
    · exact hg
    · trivial

theorem conversing_noted (fd : ℤ) : Conversing observe SilentAfterClose Final (fun _ => True) Noted
    (fun d g => Noted d g ∧ g.closed = false) fd where
  select := fun _ _ _ h _ => ⟨trivial, h⟩
  read := by
    rintro d g got h hsilent
    refine ⟨trivial, ?_⟩
    split_ifs with hgot
    · exact h
    refine ⟨h, h.1 ▸ ?_⟩
    rcases got with _ | _ | ⟨b, bs⟩
    · exact absurd rfl hgot
    · exact absurd rfl hgot
    · simpa [SilentAfterClose, silentAfterClose] using hsilent
  execute := by
    rintro d g command response ⟨h, hclosed⟩ -
    refine ⟨hclosed, ?_⟩
    unfold observe noteClose
    dsimp only
    split_ifs with hclose
    · exact ⟨rfl, fun _ => Bool.or_eq_true_iff.mpr (.inr (decide_eq_true hclose))⟩
    · exact ⟨h.1, fun hc => absurd (hclosed.symm.trans hc) Bool.false_ne_true⟩
  write := fun d _ text h => writeClient_noted d fd text h

theorem clientMessage_open (exchanges : ℕ) {g : Sight} (hg : Open d g) :
    Upheld observe SilentAfterClose Final (fun _ => True)
      (fun served g' => (served = .again → Open d g') ∧ ∀ d', served = .done d' → Open d' g')
      (clientMessage dSocket fds d exchanges) g := by
  have hstart : Noted d (observe .accept none g) :=
    ⟨hg.1.symm, fun h => absurd (hg.1.symm.trans h) Bool.false_ne_true⟩
  refine clientMessage_upheld exchanges (fun _ => ⟨trivial, hg.1, rfl⟩)
    (fun fd _ => ⟨trivial, hstart, conversing_noted fd⟩) fun fd d₁ g₁ hnoted _ => ⟨trivial, ?_⟩
  split_ifs with hclose
  · refine (upheld_of_always (J := fun _ => True) (idle_of_quits (cleanClose_quits dSocket fds d₁ .success
      fun _ => False)) ?_ (fun _ _ => trivial) trivial).mono fun _ _ h => h.1.elim
    intro op r g' hop _ _
    cases op <;> first | exact hop.elim | exact ⟨trivial, trivial⟩
  · have hclosed : g₁.closed = false := by
      by_contra hne
      exact hclose (hnoted.2 (by simpa using hne))
    exact ⟨hclosed, hnoted.1.trans hclosed⟩

theorem parts : Parts observe SilentAfterClose Final (fun _ => True) dSocket fds Open where
  poll := fun _ _ _ h _ => ⟨trivial, h⟩
  giveUp := fun d _ h => idle_upheld d (idle_of_quits (killChildren_exit_quits .failure fun _ => False))
    (fun _ _ hnever _ => hnever) h
  signal := fun d _ h => idle_upheld d (idle_of_quits (signalMessage_quits dSocket fds d)) (fun _ _ _ h' => h') h
  client := fun d _ exchanges h => clientMessage_open dSocket fds d exchanges h
  message := fun d _ c site secs _ h =>
    idle_upheld d (childMessage_idle dSocket fds d site c secs) (fun _ _ _ h' => h') h
  rearm := fun d _ _ h _ => ⟨trivial, fun _ => h, fun _ =>
    idle_upheld d (idle_of_quits (exitWith_quits .failure fun _ => False)) (fun _ _ hnever _ => hnever) h⟩
  probeFm := fun d _ h => idle_upheld d (idle_of_tends (healthProbeChildProcess_tends dSocket d .fm
    reportmanFmGetTimers_tends)) (fun _ _ _ h' => h') h
  probeMon := fun d _ h => idle_upheld d (idle_of_tends (healthProbeChildProcess_tends dSocket d .mon
    fun _ => trivial)) (fun _ _ _ h' => h') h

end Programs

/-- A run in which a client that has sent a close command sends nothing more. -/
theorem daemonMain_close_final (dSocket : ℤ) (directories : List String) (exchanges rounds : ℕ)
    (d : DaemonState) (sched : ℕ → Environment) :
    let p := daemonMain dSocket directories exchanges rounds d
    (∀ e ∈ trace (watch observe) sched p 0 ⟨false, false⟩, SilentAfterClose e.op e.res e.before) →
      ∀ e ∈ trace (watch observe) sched p 0 ⟨false, false⟩, Final e.op e.res e.before := by
  intro p hsilent
  have hmain : Upheld observe SilentAfterClose Final (fun _ => True) (fun _ _ => True) p ⟨false, false⟩ := by
    refine (idle_upheld (P := fun r g => Open r.2 g) d (idle_of_tends (startUp_tends dSocket d directories))
      (fun _ _ _ h => h) ⟨rfl, rfl⟩).bind fun r g hg => ?_
    exact ((parts dSocket r.1).pollLoop exchanges rounds hg).bind fun _ _ _ => trivial
  exact (Program.Upholds.run hmain sched hsilent).1

/-- A client that sends a close command and closes its connection when it has the answer. -/
def leaving (t : ℕ) : Environment
  | .poll _ => .ok ⟨⟨false, false, false, false⟩, ⟨true, false, false, false⟩,
      ⟨false, false, false, false⟩, ⟨false, false, false, false⟩, ⟨false, false, false, false⟩⟩
  | .accept => some 7
  | .selectClient _ => .ready
  | .readClient _ => some (if t = 28 then FileSystem.bytes "close" else [])
  | op => answering ackBytes 0 t op

/-- Its connection is read to the end after the close command, and the daemon exits. -/
theorem daemonMain_close_final_leaving :
    let p := daemonMain 4 [] 2 1 (initially fun _ => 3)
    (run (watch observe) leaving p 0 ⟨false, false⟩).result = none ∧
      (∃ e ∈ trace (watch observe) leaving p 0 ⟨false, false⟩, e.op = .readClient 7 ∧ e.before.closed = true) ∧
      ∀ e ∈ trace (watch observe) leaving p 0 ⟨false, false⟩, Final e.op e.res e.before := by
  have hread : (trace (watch observe) leaving (daemonMain 4 [] 2 1 (initially fun _ => 3)) 0
      ⟨false, false⟩)[32]? = some ⟨.readClient 7, some [], ⟨true, true⟩, ⟨true, true⟩⟩ := rfl
  exact ⟨rfl, ⟨_, List.mem_of_getElem? hread, rfl, rfl⟩,
    daemonMain_close_final 4 [] 2 1 _ leaving (by decide +kernel)⟩

/-- A client that sends a close command and then a backup command. -/
def lingering (t : ℕ) : Environment
  | .poll _ => .ok ⟨⟨false, false, false, false⟩, ⟨true, false, false, false⟩,
      ⟨false, false, false, false⟩, ⟨false, false, false, false⟩, ⟨false, false, false, false⟩⟩
  | .accept => some 7
  | .selectClient _ => .ready
  | .readClient _ => some (if t = 28 then FileSystem.bytes "close" else FileSystem.bytes "backup")
  | op => answering ackBytes 0 t op

/-- The backup is made. -/
theorem not_close_final_lingering :
    ¬ ∀ e ∈ trace (watch observe) lingering (daemonMain 4 [] 2 1 (initially fun _ => 3)) 0 ⟨false, false⟩,
      Final e.op e.res e.before := by
  intro h
  have hbackup : (trace (watch observe) lingering (daemonMain 4 [] 2 1 (initially fun _ => 3)) 0
      ⟨false, false⟩)[33]? = some ⟨.execute (FileSystem.bytes "backup"),
        responding (FileSystem.bytes "backup"), ⟨true, true⟩, ⟨true, true⟩⟩ := rfl
  have hclosed : true = false := h _ (List.mem_of_getElem? hbackup)
  cases hclosed

end Reportman.CloseFinal
