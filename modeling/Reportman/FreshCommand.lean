import Mathlib
import Reportman.Panic
import Reportman.Watching

/-!
# What the decisions on a PANIC are made on

One variable takes the commands of both children, and `ipc_get_command` leaves it as it was on a timeout, on
an error, at the end of the file and on a word that is no command. It is compared with PANIC all the same.
-/
namespace Reportman.FreshCommand
open Resumable Ipc Daemon Panic Watching
open FmLoop (Exit WriteResult)

/-- How far the last `ipc_get_command` of the poll loop has come, until the call behind it. -/
inductive Sight
  | idle
  | asked
  | stored (word : UInt32)
  | nothing
  deriving DecidableEq, Repr

/-- All eight bytes of a command. -/
def wholeCommand (bytes : List UInt8) : Bool := bytes.length = 8 && ipcIsCommand (wordOf bytes).toUInt64

def observe : (op : DaemonSys) → op.Res → Sight → Sight
  | .select site _ _, selected, _ =>
      if listens site then if selected = .ready then .asked else .nothing else .idle
  | .read site _, none, _ => if listens site then .nothing else .idle
  | .read site _, some bytes, _ =>
      if listens site then
        if wholeCommand bytes then .stored (wordOf bytes).toUInt64.toUInt32 else .nothing
      else .idle
  | .uninitialized (some site) _, _, g => if listens site then g else .idle
  | _, _, _ => .idle

def delivers : (op : DaemonSys) → op.Res → Bool
  | .select site _ _, selected => !listens site || decide (selected = .ready)
  | .read site _, none => !listens site
  | .read site _, some bytes => !listens site || wholeCommand bytes
  | _, _ => true

/-- Where the loop looks for a command there is one. -/
def Delivers (op : DaemonSys) (r : op.Res) (_ : Sight) : Prop := delivers op r = true

instance (op : DaemonSys) (r : op.Res) (g : Sight) : Decidable (Delivers op r g) :=
  inferInstanceAs (Decidable (_ = true))

def closes : DaemonSys → Bool
  | .close _ => true
  | _ => false

/-- The call behind an `ipc_get_command`: it has stored a word, and the daemon closes if this is PANIC. -/
def Justified (op : DaemonSys) (_ : op.Res) : Sight → Prop
  | .idle => True
  | .asked => ∃ site fd, op = .read site fd ∧ listens site = true
  | .stored word => closes op = true ↔ word = ipcCommandPanic
  | .nothing => False

/-- Not a call of an `ipc_get_command` of the poll loop. -/
def Rests : DaemonSys → Prop
  | .select site _ _ => listens site = false
  | .read site _ => listens site = false
  | .uninitialized (some site) _ => listens site = false
  | _ => True

/-- Nothing has been read that the daemon would have to close for. -/
def Calm (_ : DaemonState) (g : Sight) : Prop := ∀ op r, closes op = false → Justified op r g

theorem Rests.observe {op : DaemonSys} (h : Rests op) (r : op.Res) (g : Sight) :
    FreshCommand.observe op r g = .idle := by
  cases op
  case select site fd secs => exact if_neg (by rw [h]; decide)
  case read site fd => cases r <;> exact if_neg (by rw [h]; decide)
  case uninitialized site known =>
    cases site with
    | none => rfl
    | some site => exact if_neg (by rw [h]; decide)
  all_goals rfl

section Programs

variable {α : Type} (dSocket : ℤ) (fds : PollFds) (d : DaemonState)

theorem rests_of_elsewhere {Q : α → Prop} {p : DaemonProg α} (h : p.Always (fun op _ => Elsewhere op) Q) :
    p.Always (fun op _ => Rests op) Q :=
  h.mono (fun op _ hop => by cases op <;> trivial) fun _ hq => hq

theorem rests_of_tends {Q : α → Prop} {p : DaemonProg α} (h : p.Always (fun op _ => Tends op) Q) :
    p.Always (fun op _ => Rests op) Q := by
  refine h.mono (fun op r hop => ?_) fun _ hq => hq
  cases op
  case uninitialized site known => cases site <;> exact hop
  all_goals trivial

/-- From the first call on that is no `ipc_get_command`. -/
theorem rests_upheld {P : α → Sight → Prop} {Q : α → Prop} {p : DaemonProg α}
    (h : p.Always (fun op _ => Rests op) Q) (hP : ∀ a, Q a → P a .idle) :
    Upheld observe Delivers Justified (fun _ => True) P p .idle := by
  refine (upheld_of_always (J := fun g => g = .idle) h ?_ (fun _ _ => trivial) rfl).mono ?_
  · rintro op r g hop - rfl
    exact ⟨trivial, hop.observe r .idle⟩
  · rintro a _ ⟨hq, rfl⟩
    exact hP a hq

/-- A part of a round that begins with another call. -/
theorem part_upheld {P : α → Sight → Prop} {Q : α → Prop} {op : DaemonSys} {next : op.Res → DaemonProg α}
    {g : Sight} (hg : Calm d g) (hop : Rests op) (hclose : closes op = false)
    (h : ∀ r, (next r).Always (fun op _ => Rests op) Q) (hP : ∀ a, Q a → P a .idle) :
    Upheld observe Delivers Justified (fun _ => True) P (.call op next) g := by
  refine upheld_call fun r _ => ⟨hg op r hclose, ?_⟩
  rw [hop.observe r g]
  exact rests_upheld (h r) hP

theorem calm_idle : Calm d .idle := fun _ _ _ => trivial

/-- The decision on what has just been stored. -/
theorem childMessage_upheld {site : Site} (hsite : listens site = true) (c : ChildName) (secs : ℕ) {g : Sight}
    (hg : Calm d g) :
    Upheld observe Delivers Justified (fun _ => True) (fun d' g' => Calm d' g')
      (childMessage dSocket fds d site c secs) g := by
  unfold childMessage
  rw [getCommand_eq]
  refine upheld_call fun selected hselected => ⟨hg _ _ rfl, ?_⟩
  have hready : selected = .ready := by simpa [Delivers, delivers, hsite] using hselected
  subst hready
  have hasked : observe (.select site (d.child c).pipes.read secs) .ready g = .asked := by
    simp [observe, hsite]
  rw [hasked]
  refine upheld_call fun got hgot => ⟨⟨site, _, rfl, hsite⟩, ?_⟩
  cases got with
  | none => simp [Delivers, delivers, hsite] at hgot
  | some bytes =>
    have hwhole : wholeCommand bytes = true := by simpa [Delivers, delivers, hsite] using hgot
    have hstored : observe (.read site (d.child c).pipes.read) (some bytes) .asked =
        .stored (wordOf bytes).toUInt64.toUInt32 := by
      simp [observe, hsite, hwhole]
    obtain ⟨hlength, hcommand⟩ : bytes.length = 8 ∧ ipcIsCommand (wordOf bytes).toUInt64 = true := by
      simpa [wholeCommand] using hwhole
    rw [hstored]
    change Upheld _ _ _ _ _ ((received (daemonCalls d site) bytes >>= _) >>= _) _
    rw [bind_assoc, received_bind, if_pos hlength, if_pos hcommand, Program.ret_bind]
    dsimp only
    by_cases hpanic : (wordOf bytes).toUInt64.toUInt32 = ipcCommandPanic
    · rw [if_pos hpanic]
      refine upheld_call fun closed _ => ⟨⟨fun _ => hpanic, fun _ => rfl⟩, ?_⟩
      have hquits := cleanClose_quits (α := DaemonState) dSocket fds
        { d with command := (wordOf bytes).toUInt64.toUInt32 } .failure fun _ => False
      exact rests_upheld (rests_of_elsewhere (elsewhere_of_quits (hquits closed).2)) fun _ hnever => hnever.elim
    · rw [if_neg hpanic]
      exact fun op r hclose => iff_of_false (by simp [hclose]) hpanic

theorem parts : Parts observe Delivers Justified (fun _ => True) dSocket fds Calm where
  poll := fun d s r h _ => ⟨h _ _ rfl, calm_idle d⟩
  giveUp := fun d s h => part_upheld d h trivial rfl
    (fun r => ((rests_of_elsewhere (elsewhere_of_quits (killChildren_exit_quits .failure fun _ => False))) r).2)
    fun _ hnever => hnever.elim
  signal := fun d s h => part_upheld d h trivial rfl
    (fun r => ((rests_of_elsewhere (signalMessage_elsewhere dSocket fds d)) r).2) fun _ _ => calm_idle d
  client := fun d s exchanges h => by
    rw [clientMessage_eq]
    refine part_upheld d h trivial rfl (Q := fun _ => True) ?_ fun served _ =>
      ⟨fun _ => calm_idle d, fun d' _ => calm_idle d'⟩
    intro r
    have helsewhere := clientMessage_elsewhere dSocket fds d exchanges
    rw [clientMessage_eq] at helsewhere
    exact ((rests_of_elsewhere helsewhere) r).2.mono (fun _ _ hop => hop) fun _ _ => trivial
  message := fun d s c site secs hsite h => childMessage_upheld dSocket fds d
    (by rcases hsite with rfl | rfl <;> rfl) c secs h
  rearm := fun d s r h _ => ⟨h _ _ rfl, fun _ => calm_idle d, fun _ =>
    rests_upheld (rests_of_elsewhere (exitWith_elsewhere .failure fun _ => False)) fun _ hnever => hnever⟩
  probeFm := fun d s h => by
    have hprobe := rests_of_tends (healthProbeChildProcess_tends dSocket d .fm reportmanFmGetTimers_tends)
    rw [healthProbeChildProcess_eq] at hprobe ⊢
    exact part_upheld d h trivial rfl (fun r => (hprobe r).2) fun d' _ => calm_idle d'
  probeMon := fun d s h => by
    have hprobe : (healthProbeChildProcess dSocket d .mon pure).Always (fun op _ => Rests op) fun _ => True :=
      rests_of_tends (healthProbeChildProcess_tends dSocket d .mon fun _ => trivial)
    rw [healthProbeChildProcess_eq] at hprobe ⊢
    exact part_upheld d h trivial rfl (fun r => (hprobe r).2) fun d' _ => calm_idle d'

end Programs

/-- A run in which there is a command wherever the poll loop looks for one. -/
theorem daemonMain_justified (dSocket : ℤ) (directories : List String) (exchanges rounds : ℕ)
    (d : DaemonState) (sched : ℕ → Environment) :
    let p := daemonMain dSocket directories exchanges rounds d
    (∀ e ∈ trace (watch observe) sched p 0 .idle, Delivers e.op e.res e.before) →
      ∀ e ∈ trace (watch observe) sched p 0 .idle, Justified e.op e.res e.before := by
  intro p hdelivers
  have hmain : Upheld observe Delivers Justified (fun _ => True) (fun _ _ => True) p .idle := by
    refine (rests_upheld (P := fun r g => Calm r.2 g) (rests_of_tends (startUp_tends dSocket d directories))
      fun r _ => calm_idle r.2).bind fun r g hg => ?_
    exact ((parts dSocket r.1).pollLoop exchanges rounds hg).bind fun _ _ _ => trivial
  exact (Program.Upholds.run hmain sched hdelivers).1

/-- Up to the closing of the timer. -/
theorem daemonMain_justified_panicking :
    ∃ e ∈ trace (watch observe) panicking (daemonMain 4 [] 1 1 (initially fun _ => 3)) 0 .idle,
      e.op = .close 5 ∧ Justified e.op e.res e.before := by
  have hclose : (trace (watch observe) panicking (daemonMain 4 [] 1 1 (initially fun _ => 3)) 0 .idle)[28]? =
    some ⟨.close 5, (), .stored ipcCommandPanic, .idle⟩ := rfl
  exact ⟨_, List.mem_of_getElem? hclose, rfl, daemonMain_justified 4 [] 1 1 _ panicking (by decide +kernel) _
    (List.mem_of_getElem? hclose)⟩

/-- The health timer expires, the children have sent nothing, and the variable happens to hold a PANIC. -/
def stalePanic (t : ℕ) : Environment := answering [] ipcCommandPanic.toUInt64 t

/-- The daemon closes after a timeout. -/
theorem not_justified_stalePanic :
    ¬ ∀ e ∈ trace (watch observe) stalePanic (daemonMain 4 [] 1 1 (initially fun _ => 3)) 0 .idle,
      Justified e.op e.res e.before := by
  intro h
  have hclose : (trace (watch observe) stalePanic (daemonMain 4 [] 1 1 (initially fun _ => 3)) 0 .idle)[28]? =
    some ⟨.close 5, (), .nothing, .idle⟩ := rfl
  exact h _ (List.mem_of_getElem? hclose)

end Reportman.FreshCommand
