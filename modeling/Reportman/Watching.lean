import Mathlib
import Reportman.Assuming
import Reportman.Daemon

/-!
# Watching the daemon

An observer of the calls of the daemon. What holds of his notes and of the variables of the daemon between
any two parts of a round holds in the whole run, once it has been shown of each part.
-/
namespace Reportman.Watching
open Resumable Daemon
open FmLoop (Exit)

variable {σ α β : Type}

/-- The environment answers, and the observer notes the answer. -/
def watch (observe : (op : DaemonSys) → op.Res → σ → σ) (env : Environment) (op : DaemonSys) (s : σ) :
    op.Res × σ := (env op, observe op (env op) s)

/-- `P` of what is returned; `D` when the process ends. -/
def ending (P : α → σ → Prop) (D : σ → Prop) : Option α → σ → Prop
  | some a, s => P a s
  | none, s => D s

variable (observe : (op : DaemonSys) → op.Res → σ → σ)
  (assumed guarantee : (op : DaemonSys) → op.Res → σ → Prop) (D : σ → Prop)

def Upheld (P : α → σ → Prop) (p : DaemonProg α) (s : σ) : Prop :=
  p.Upholds (watch observe) assumed guarantee (ending P D) s

variable {observe assumed guarantee D} {P : α → σ → Prop} {s : σ}

theorem upheld_call {op : DaemonSys} {next : op.Res → DaemonProg α}
    (h : ∀ r, assumed op r s → guarantee op r s ∧
      Upheld observe assumed guarantee D P (next r) (observe op r s)) :
    Upheld observe assumed guarantee D P (.call op next) s :=
  fun env => h (env op)

theorem Upheld.mono {P' : α → σ → Prop} {p : DaemonProg α} (h : Upheld observe assumed guarantee D P p s)
    (hP : ∀ a s, P a s → P' a s) : Upheld observe assumed guarantee D P' p s := by
  refine Program.Upholds.mono h fun o s' ho => ?_
  cases o with
  | none => exact ho
  | some a => exact hP a s' ho

theorem Upheld.bind {P' : β → σ → Prop} {p : DaemonProg α} {f : α → DaemonProg β}
    (h : Upheld observe assumed guarantee D P p s)
    (hf : ∀ a s', P a s' → Upheld observe assumed guarantee D P' (f a) s') :
    Upheld observe assumed guarantee D P' (p >>= f) s :=
  Program.Upholds.bind h hf fun _ hs => hs

/-- Calls of one kind, each of which keeps `J`. -/
theorem upheld_of_always {A : (op : DaemonSys) → op.Res → Prop} {Q : α → Prop} {J : σ → Prop}
    {p : DaemonProg α} (h : p.Always A Q) (hA : ∀ op r s, A op r → assumed op r s → J s →
      guarantee op r s ∧ J (observe op r s)) (hJ : ∀ s, J s → D s) (hs : J s) :
    Upheld observe assumed guarantee D (fun a s' => Q a ∧ J s') p s := by
  refine (h.upholds (fun env op s => hA op (env op) s) hs).mono fun o s' ho => ?_
  cases o with
  | none => exact hJ s' ho.2
  | some a => exact ⟨ho.1 a rfl, ho.2⟩

section Children

variable {J : σ → Prop} {site : Site} {d : DaemonState}

/-- A word that has come from a child, whole or not. -/
theorem received_upheld {bytes : List UInt8} {k : UInt64 → DaemonProg α}
    (hunset : ∀ msg s, J s → assumed (.uninitialized (some site) bytes) msg s →
      guarantee (.uninitialized (some site) bytes) msg s ∧ J (observe (.uninitialized (some site) bytes) msg s))
    (hk : ∀ msg s, J s → Upheld observe assumed guarantee D P (k msg) s) (hs : J s) :
    Upheld observe assumed guarantee D P (Ipc.received (daemonCalls d site) bytes >>= k) s := by
  rw [received_bind]
  split_ifs
  · exact hk _ s hs
  · refine upheld_call fun msg hmsg => ?_
    obtain ⟨hg, hJ⟩ := hunset msg s hs hmsg
    exact ⟨hg, hk msg _ hJ⟩

/-- The reads of `ipc_get_command` never end the process. -/
theorem getCommand_upheld {c : ChildName} (secs : ℕ) (hJ : ∀ op r s, Reads site (d.child c).pipes.read op → J s →
      assumed op r s → guarantee op r s ∧ J (observe op r s)) (hs : J s) :
    Upheld observe assumed guarantee D (fun d' s' => (∃ command, d' = { d with command := command }) ∧ J s')
      (getCommand d site c secs) s := by
  have hsame : ∃ command, d = { d with command := command } := ⟨d.command, rfl⟩
  rw [getCommand_eq]
  refine upheld_call fun selected hselected => ?_
  obtain ⟨hg, h₁⟩ := hJ _ selected s ⟨rfl, rfl⟩ hs hselected
  refine ⟨hg, ?_⟩
  rcases selected with _ | _ | _
  · exact ⟨hsame, h₁⟩
  · exact ⟨hsame, h₁⟩
  refine upheld_call fun got hgot => ?_
  obtain ⟨hg, h₂⟩ := hJ _ got _ ⟨rfl, rfl⟩ h₁ hgot
  refine ⟨hg, ?_⟩
  rcases got with _ | bytes
  · exact ⟨hsame, h₂⟩
  refine received_upheld (fun msg s => hJ _ msg s rfl) (fun msg s h₃ => ?_) h₂
  split_ifs
  · exact ⟨⟨_, rfl⟩, h₃⟩
  · exact ⟨hsame, h₃⟩

/-- `J` from the `select` on. -/
theorem awaitAnswer_upheld {c : ChildName} {pipes : Ipc.IpcPipes} {k : Bool → DaemonProg α}
    (hselect : ∀ r, assumed (.select (.probe c) pipes.read Ipc.ipcTimeout) r s →
      guarantee (.select (.probe c) pipes.read Ipc.ipcTimeout) r s ∧
        J (observe (.select (.probe c) pipes.read Ipc.ipcTimeout) r s))
    (hJ : ∀ op r s, Reads (.probe c) pipes.read op → J s → assumed op r s → guarantee op r s ∧ J (observe op r s))
    (hk : ∀ answered s, J s → Upheld observe assumed guarantee D P (k answered) s) :
    Upheld observe assumed guarantee D P (awaitAnswer d c pipes k) s := by
  refine upheld_call fun selected hselected => ?_
  obtain ⟨hg, h₁⟩ := hselect selected hselected
  refine ⟨hg, ?_⟩
  rcases selected with _ | _ | _
  · exact hk false _ h₁
  · exact hk false _ h₁
  refine upheld_call fun got hgot => ?_
  obtain ⟨hg, h₂⟩ := hJ _ got _ ⟨rfl, rfl⟩ h₁ hgot
  refine ⟨hg, ?_⟩
  rcases got with _ | bytes
  · exact hk false _ h₂
  · exact received_upheld (fun msg s => hJ _ msg s rfl) (fun msg s h₃ => hk _ s h₃) h₂

end Children

section Clients

variable (observe assumed guarantee D) (R Asked : DaemonState → σ → Prop)

/-- What a conversation keeps: `R` between two exchanges, and `Asked` from a command on until it is executed. -/
structure Conversing (fd : ℤ) : Prop where
  select : ∀ d s r, R d s → assumed (.selectClient fd) r s →
    guarantee (.selectClient fd) r s ∧ R d (observe (.selectClient fd) r s)
  read : ∀ d s r, R d s → assumed (.readClient fd) r s → guarantee (.readClient fd) r s ∧
    if r.elim true List.isEmpty then R d (observe (.readClient fd) r s) else Asked d (observe (.readClient fd) r s)
  execute : ∀ d s command r, Asked d s → assumed (.execute command) r s →
    guarantee (.execute command) r s ∧ R (noteClose d command) (observe (.execute command) r s)
  write : ∀ d s text, R d s →
    Upheld observe assumed guarantee D (fun _ s' => R d s') (writeClient d fd text) s

variable {observe assumed guarantee D R Asked} {fd : ℤ} {d : DaemonState}

theorem Conversing.farewell (h : Conversing observe assumed guarantee D R Asked fd) (selected : Ipc.SelectResult)
    (hs : R d s) : Upheld observe assumed guarantee D (fun o s' => ∀ d', o = some d' → R d' s')
      (farewell fd d selected) s := by
  have hsome : ∀ s', R d s' → ∀ d', some d = some d' → R d' s' := by
    rintro s' h' _ ⟨⟩
    exact h'
  unfold Daemon.farewell
  split_ifs
  · exact hsome s hs
  · exact (h.write d s timeoutMsg hs).bind fun _ s' h' => hsome s' h'

theorem Conversing.session (h : Conversing observe assumed guarantee D R Asked fd) (exchanges : ℕ) (hs : R d s) :
    Upheld observe assumed guarantee D (fun o s' => ∀ d', o = some d' → R d' s') (session fd d exchanges) s := by
  induction exchanges generalizing d s with
  | zero =>
    rintro _ ⟨⟩
  | succ exchanges ih =>
    refine upheld_call fun selected hselected => ?_
    obtain ⟨hg, h₁⟩ := h.select d s selected hs hselected
    refine ⟨hg, ?_⟩
    change Upheld _ _ _ _ _ (if selected = .timeout then Daemon.farewell fd d selected else _) _
    split_ifs
    · exact h.farewell selected h₁
    refine upheld_call fun got hgot => ?_
    obtain ⟨hg, h₂⟩ := h.read d _ got h₁ hgot
    refine ⟨hg, ?_⟩
    rcases got with _ | _ | ⟨b, bs⟩
    · exact ih h₂
    · exact h.farewell selected h₂
    refine upheld_call fun response hexecute => ?_
    obtain ⟨hg, h₃⟩ := h.execute d _ _ response h₂ hexecute
    exact ⟨hg, (h.write _ _ response h₃).bind fun _ s' h' => ih h'⟩

/-- `R'` from one client to the next, `R` while one is served. -/
theorem clientMessage_upheld {R' : DaemonState → σ → Prop} {dSocket : ℤ} {fds : PollFds} (exchanges : ℕ)
    (hnone : assumed .accept none s → guarantee .accept none s ∧ R' d (observe .accept none s))
    (haccept : ∀ fd, assumed .accept (some fd) s → guarantee .accept (some fd) s ∧
      R d (observe .accept (some fd) s) ∧ Conversing observe assumed guarantee D R Asked fd)
    (hclose : ∀ fd d s, R d s → assumed (.close fd) () s → guarantee (.close fd) () s ∧
      if d.closeRequested = true then Upheld observe assumed guarantee D (fun _ _ => False)
        (cleanClose dSocket fds d .success : DaemonProg Served) (observe (.close fd) () s)
      else R' d (observe (.close fd) () s)) :
    Upheld observe assumed guarantee D
      (fun served s' => (served = .again → R' d s') ∧ ∀ d', served = .done d' → R' d' s')
      (clientMessage dSocket fds d exchanges) s := by
  rw [clientMessage_eq]
  refine upheld_call fun client hclient => ?_
  cases client with
  | none =>
    obtain ⟨hg, h₁⟩ := hnone hclient
    refine ⟨hg, fun _ => h₁, ?_⟩
    rintro _ ⟨⟩
  | some fd =>
    obtain ⟨hg, h₁, hconversing⟩ := haccept fd hclient
    refine ⟨hg, (hconversing.session exchanges h₁).bind fun o s₂ h₂ => ?_⟩
    cases o with
    | none =>
      refine ⟨nofun, ?_⟩
      rintro _ ⟨⟩
    | some d₂ =>
      refine upheld_call fun _ hclosed => ?_
      obtain ⟨hg, h₃⟩ := hclose fd d₂ s₂ (h₂ d₂ rfl) hclosed
      refine ⟨hg, ?_⟩
      split_ifs at h₃ ⊢
      · exact h₃.mono fun _ _ hnever => hnever.elim
      · refine ⟨nofun, ?_⟩
        rintro _ ⟨⟩
        exact h₃

end Clients

variable (observe assumed guarantee D) (dSocket : ℤ) (fds : PollFds) (R : DaemonState → σ → Prop)

/-- Each part of a round keeps `R`. -/
structure Parts : Prop where
  poll : ∀ d s r, R d s → assumed (.poll fds) r s →
    guarantee (.poll fds) r s ∧ R d (observe (.poll fds) r s)
  giveUp : ∀ d s, R d s → Upheld observe assumed guarantee D (fun _ _ => False)
    (killChildren >>= fun _ => exitWith .failure : DaemonProg (Option DaemonState)) s
  signal : ∀ d s, R d s →
    Upheld observe assumed guarantee D (fun _ s' => R d s') (signalMessage dSocket fds d) s
  client : ∀ d s exchanges, R d s → Upheld observe assumed guarantee D
    (fun served s' => (served = .again → R d s') ∧ ∀ d', served = .done d' → R d' s')
    (clientMessage dSocket fds d exchanges) s
  message : ∀ d s c site secs, (site = .loop c ∨ site = .drain c) → R d s →
    Upheld observe assumed guarantee D (fun d' s' => R d' s') (childMessage dSocket fds d site c secs) s
  rearm : ∀ d s r, R d s → assumed .settime r s → guarantee .settime r s ∧
    (r = true → R d (observe .settime r s)) ∧ (r = false → Upheld observe assumed guarantee D
      (fun _ _ => False) (exitWith .failure : DaemonProg DaemonState) (observe .settime r s))
  probeFm : ∀ d s, R d s → Upheld observe assumed guarantee D (fun d' s' => R d' s')
    (healthProbeChildProcess dSocket d .fm reportmanFmGetTimers) s
  probeMon : ∀ d s, R d s → Upheld observe assumed guarantee D (fun d' s' => R d' s')
    (healthProbeChildProcess dSocket d .mon pure) s

variable {observe assumed guarantee D dSocket fds R} {d : DaemonState}
  (h : Parts observe assumed guarantee D dSocket fds R)
include h

theorem Parts.healthRound (hs : R d s) :
    Upheld observe assumed guarantee D (fun d' s' => R d' s') (healthRound dSocket fds d) s := by
  refine upheld_call fun armed harmed => ?_
  obtain ⟨hg, hgoes, hfails⟩ := h.rearm d s armed hs harmed
  refine ⟨hg, ?_⟩
  cases armed with
  | false => exact (hfails rfl).mono fun _ _ hnever => hnever.elim
  | true =>
    refine (h.message d _ .fm (.drain .fm) 1 (.inr rfl) (hgoes rfl)).bind fun d₁ s₁ h₁ => ?_
    refine (h.message d₁ s₁ .mon (.drain .mon) 1 (.inr rfl) h₁).bind fun d₂ s₂ h₂ => ?_
    exact (h.probeFm d₂ s₂ h₂).bind fun d₃ s₃ h₃ => h.probeMon d₃ s₃ h₃

omit h in
theorem handled_upheld (pollin : Bool) {handler : DaemonProg DaemonState} (hs : R d s)
    (hhandler : Upheld observe assumed guarantee D (fun d' s' => R d' s') handler s) :
    Upheld observe assumed guarantee D (fun d' s' => R d' s') (handled pollin d handler) s := by
  unfold handled
  split_ifs
  · exact hhandler
  · exact hs

theorem Parts.childrenHandled (revents : DaemonRevents) (hs : R d s) :
    Upheld observe assumed guarantee D (fun d' s' => R d' s') (childrenHandled dSocket fds d revents) s := by
  refine (handled_upheld revents.fm.pollin hs (h.message d s .fm (.loop .fm) 5 (.inl rfl) hs)).bind
    fun d₁ s₁ h₁ => ?_
  refine (handled_upheld revents.mon.pollin h₁ (h.message d₁ s₁ .mon (.loop .mon) 5 (.inl rfl) h₁)).bind
    fun d₂ s₂ h₂ => ?_
  exact handled_upheld revents.health.pollin h₂ (h.healthRound h₂)

theorem Parts.daemonRound (exchanges : ℕ) (hs : R d s) :
    Upheld observe assumed guarantee D (fun o s' => ∀ d', o = some d' → R d' s')
      (daemonRound dSocket fds exchanges d) s := by
  have hsome : ∀ d' s', R d' s' → ∀ d'', some d' = some d'' → R d'' s' := by
    intro d' s' h' d'' heq
    exact Option.some.inj heq ▸ h'
  refine upheld_call fun polled hpolled => ?_
  obtain ⟨hg, hR⟩ := h.poll d s polled hs hpolled
  refine ⟨hg, ?_⟩
  rcases polled with (_ | _) | revents
  · exact hsome d _ hR
  · exact (h.giveUp d _ hR).mono fun _ _ hnever => hnever.elim
  have hsignal : Upheld observe assumed guarantee D (fun _ s' => R d s')
      (signalHandled dSocket fds d revents.signal.pollin) (observe (.poll fds) (.ok revents) s) := by
    unfold signalHandled
    split_ifs
    · exact h.signal d _ hR
    · exact hR
  refine hsignal.bind fun _ s₁ h₁ => ?_
  have hclient : Upheld observe assumed guarantee D
      (fun served s' => (served = .again → R d s') ∧ ∀ d', served = .done d' → R d' s')
      (clientHandled dSocket fds d exchanges revents.client.pollin) s₁ := by
    unfold clientHandled
    split_ifs
    · exact h.client d s₁ exchanges h₁
    · refine ⟨nofun, ?_⟩
      rintro _ ⟨⟩
      exact h₁
  refine hclient.bind fun served s₂ h₂ => ?_
  cases served with
  | again => exact hsome d s₂ (h₂.1 rfl)
  | serving =>
    rintro _ ⟨⟩
  | done d₂ => exact (h.childrenHandled revents (h₂.2 d₂ rfl)).bind fun d₃ s₃ h₃ => hsome d₃ s₃ h₃

theorem Parts.pollLoop (exchanges rounds : ℕ) (hs : R d s) :
    Upheld observe assumed guarantee D (fun o s' => ∀ d', o = some d' → R d' s')
      (pollLoop dSocket fds exchanges rounds d) s := by
  induction rounds generalizing d s with
  | zero =>
    rintro _ ⟨⟩
    exact hs
  | succ rounds ih =>
    refine (h.daemonRound exchanges hs).bind fun o s₁ h₁ => ?_
    cases o with
    | none =>
      rintro _ ⟨⟩
    | some d₁ => exact ih (h₁ d₁ rfl)

end Reportman.Watching
