import Mathlib
import Reportman.Probes
import Reportman.Watching

/-!
# The name that the handler of SIGPIPE logs

`__current_process` is set by each probe, and cleared when the probe has ended with a restart. A client is
served with whatever the last probe has left there.
-/
namespace Reportman.Sigpipe
open Resumable Ipc Daemon Watching
open FmLoop (WriteResult Exit SignalRead sigint sigterm)
open Probes (siteChild)

/-- What has been seen: that the handler has been installed; the child named by `__current_process`; that a
child has been started since its probe began, which clears the variable before the next `poll`; that there
has been a probe and no child has been started since; and that the last call was a write into a broken pipe
that has raised the handler. -/
structure Sight where
  handles : Bool
  current : Option ChildName
  restarted : Bool
  probed : Bool
  raised : Bool
  deriving DecidableEq, Repr

/-- Nothing has been seen. -/
def Sight.start : Sight := ⟨false, none, false, false, false⟩

/-- The variable once the restart that may have begun is over. -/
def Sight.settled (g : Sight) : Option ChildName := if g.restarted then none else g.current

def observe : (op : DaemonSys) → op.Res → Sight → Sight
  | .sigaction, r, g => { g with handles := g.handles || r, raised := false }
  | .kill c _ signo, _, g =>
      if signo = 0 then { g with current := some c, restarted := false, probed := true, raised := false }
      else { g with raised := false }
  | .pipe, _, g => { g with restarted := true, probed := false, raised := false }
  | .poll _, _, g => { g with current := g.settled, restarted := false, raised := false }
  | .write _ _ _, r, g => { g with raised := g.handles && r = .broken }
  | .writeClient _ _, r, g => { g with raised := g.handles && r = .broken }
  | _, _, g => { g with raised := false }

def probedBefore : (op : DaemonSys) → op.Res → Sight → Bool
  | .writeClient _ _, _, g => g.probed
  | _, _, _ => true

/-- A client is written to only when there has been a probe and no child has been started since. -/
def ProbedBefore (op : DaemonSys) (r : op.Res) (g : Sight) : Prop := probedBefore op r g = true

instance (op : DaemonSys) (r : op.Res) (g : Sight) : Decidable (ProbedBefore op r g) :=
  inferInstanceAs (Decidable (_ = true))

/-- The handler finds a process to name, and for the pipe of a child that child. -/
def Named : (op : DaemonSys) → op.Res → Sight → Prop
  | .writeClient _ _, _, g => g.handles = true → g.current ≠ none
  | .write site _ _, _, g => g.handles = true → g.current = some (siteChild site)
  | _, _, _ => True

/-- The process does not end in the handler. -/
def Unhurt (g : Sight) : Prop := g.raised = false

/-- The calls that leave the variable as it is. -/
def Plain : DaemonSys → Prop
  | .sigaction => False
  | .kill _ _ _ => False
  | .pipe => False
  | .poll _ => False
  | .write _ _ _ => False
  | .writeClient _ _ => False
  | _ => True

/-- Between the parts of a round. -/
structure Settled (d : DaemonState) (g : Sight) : Prop where
  handles : d.handlesSigpipe = g.handles
  current : d.current = g.settled
  probed : g.probed = true → g.settled ≠ none

def Rest (d : DaemonState) (g : Sight) : Prop := Settled d g ∧ g.raised = false

/-- While the daemon is busy with a child. -/
structure Busy (c : ChildName) (d : DaemonState) (g : Sight) : Prop where
  handles : d.handlesSigpipe = g.handles
  current : d.current = g.current
  named : g.handles = true → g.current = some c

section Steps

variable {α : Type} {op : DaemonSys} {r : op.Res} {d d' : DaemonState} {g : Sight} {c : ChildName}

theorem observe_plain (h : Plain op) : observe op r g = { g with raised := false } := by
  cases op <;> first | exact h.elim | rfl

theorem Settled.plain (h : Settled d g) (hop : Plain op) : Settled d (observe op r g) := by
  rw [observe_plain hop]
  exact ⟨h.handles, h.current, h.probed⟩

theorem Busy.plain (h : Busy c d g) (hop : Plain op) : Busy c d (observe op r g) := by
  rw [observe_plain hop]
  exact ⟨h.handles, h.current, h.named⟩

/-- Other variables may change. -/
theorem Settled.same (h : Settled d g) (hh : d'.handlesSigpipe = d.handlesSigpipe)
    (hc : d'.current = d.current) : Settled d' g :=
  ⟨hh.trans h.handles, hc.trans h.current, h.probed⟩

theorem Busy.same (h : Busy c d g) (hh : d'.handlesSigpipe = d.handlesSigpipe) (hc : d'.current = d.current) :
    Busy c d' g :=
  ⟨hh.trans h.handles, hc.trans h.current, h.named⟩

/-- Calls that leave everything as it is. -/
theorem plain_upheld {P : α → Sight → Prop} {J : Sight → Prop} {Q : α → Prop} {p : DaemonProg α}
    (h : p.Always (fun op _ => Plain op) Q) (hJ : ∀ op (r : op.Res) g, Plain op → J g → J (observe op r g))
    (hP : ∀ a g, Q a → J g → g.raised = false → P a g) (hg : J g) (hraised : g.raised = false) :
    Upheld observe ProbedBefore Named Unhurt P p g := by
  refine (upheld_of_always (J := fun g => J g ∧ g.raised = false) h ?_ (fun _ h' => h'.2)
    ⟨hg, hraised⟩).mono fun a g' h' => hP a g' h'.1 h'.2.1 h'.2.2
  intro op r g' hop _ h'
  have hraised' : (observe op r g').raised = false := by rw [observe_plain hop]
  refine ⟨?_, hJ op r g' hop h'.1, hraised'⟩
  cases op <;> first | exact hop.elim | trivial

theorem Rest.upheld {P : α → Sight → Prop} {Q : α → Prop} {p : DaemonProg α} (h : Rest d g)
    (hp : p.Always (fun op _ => Plain op) Q) (hP : ∀ a g, Q a → Rest d g → P a g) :
    Upheld observe ProbedBefore Named Unhurt P p g :=
  plain_upheld hp (fun _ _ _ hop hg => hg.plain hop) (fun a g' hQ hg hraised => hP a g' hQ ⟨hg, hraised⟩) h.1 h.2

/-- A broken pipe does no harm to a process that can be named. -/
theorem written_upheld {P : Bool → Sight → Prop} {r : WriteResult}
    (hP : ∀ sent, (sent = true → r = .written) → P sent g) (hhandles : d.handlesSigpipe = g.handles)
    (hraised : g.raised = (g.handles && decide (r = .broken))) (hcurrent : g.handles = true → d.current ≠ none) :
    Upheld observe ProbedBefore Named Unhurt P (written d r) g := by
  cases r with
  | written => exact hP true fun _ => rfl
  | failed => exact hP false nofun
  | broken =>
    change Upheld _ _ _ _ _ (brokenPipe d) g
    unfold brokenPipe
    split_ifs with h
    · exact hP false nofun
    · change g.raised = false
      rw [hraised]
      by_contra hne
      have hgh : g.handles = true := by simpa using hne
      exact h ⟨hhandles.trans hgh, hcurrent hgh⟩

theorem Busy.write (h : Busy c d g) {site : Site} {fd : ℤ} {word : UInt64}
    (hsite : siteChild site = c) {k : Bool → DaemonProg α} {P : α → Sight → Prop}
    (hk : ∀ sent raised, (sent = true → raised = false) →
      Upheld observe ProbedBefore Named Unhurt P (k sent) { g with raised := raised }) :
    Upheld observe ProbedBefore Named Unhurt P ((daemonCalls d site).write fd word >>= k) g := by
  rw [ipcSend_bind]
  refine upheld_call fun r _ => ⟨fun hh => hsite ▸ h.named hh, ?_⟩
  have hnamed : g.handles = true → d.current ≠ none := by
    intro hh
    rw [h.current, h.named hh]
    exact Option.some_ne_none c
  refine (written_upheld (g := observe (.write site fd word) r g) (P := fun sent g' =>
    g' = observe (.write site fd word) r g ∧ (sent = true → r = .written)) (fun _ hsent => ⟨rfl, hsent⟩)
    h.handles rfl hnamed).bind ?_
  rintro sent _ ⟨rfl, hsent⟩
  refine hk sent _ fun h => ?_
  rw [hsent h]
  simp

end Steps

section Functions

variable {α : Type} (dSocket : ℤ) (fds : PollFds) {d : DaemonState} {g : Sight} {c : ChildName}

theorem always_plain {Q : α → Prop} {p : DaemonProg α} (h : p.Always (fun op _ => Quits op) Q) :
    p.Always (fun op _ => Plain op) Q :=
  h.mono (fun op _ hop => by cases op <;> first | exact hop.elim | trivial) fun _ hq => hq

theorem exitWith_plain (code : Exit) (Q : α → Prop) :
    (exitWith code : DaemonProg α).Always (fun op _ => Plain op) Q := always_plain (exitWith_quits code Q)

theorem cleanClose_plain (d : DaemonState) (code : Exit) (Q : α → Prop) :
    (cleanClose dSocket fds d code : DaemonProg α).Always (fun op _ => Plain op) Q :=
  always_plain (cleanClose_quits dSocket fds d code Q)

theorem reads_plain {site : Site} {fd : ℤ} {op : DaemonSys} (h : Reads site fd op) : Plain op := by
  cases op <;> first | exact h.elim | trivial

/-- What plain calls keep, they keep with the handler at rest. -/
theorem plain_rests {J : Sight → Prop} (hJ : ∀ op (r : op.Res) g, Plain op → J g → J (observe op r g))
    {op : DaemonSys} (r : op.Res) (hop : Plain op) (hg : J g) :
    Named op r g ∧ J (observe op r g) ∧ (observe op r g).raised = false := by
  refine ⟨?_, hJ op r g hop hg, by rw [observe_plain hop]⟩
  cases op <;> first | exact hop.elim | trivial

/-- Neither the handler nor the variable is touched. -/
def SameHandling (d d' : DaemonState) : Prop := d'.handlesSigpipe = d.handlesSigpipe ∧ d'.current = d.current

theorem childMessage_plain (d : DaemonState) (site : Site) (c : ChildName) (secs : ℕ) :
    (childMessage dSocket fds d site c secs).Always (fun op _ => Plain op) (SameHandling d) := by
  have hcommand : (getCommand d site c secs).Always (fun op _ => Plain op) (SameHandling d) := by
    refine (getCommand_reads d site c secs).mono (fun _ _ hop => reads_plain hop) ?_
    rintro _ ⟨command, rfl⟩
    exact ⟨rfl, rfl⟩
  refine hcommand.bind fun d' h' => ?_
  split_ifs
  · exact cleanClose_plain _ _ _ _ _
  · exact h'

theorem reportmanFmGetTimers_plain (d : DaemonState) :
    (reportmanFmGetTimers d).Always (fun op _ => Plain op) (SameHandling d) := by
  refine (reportmanFmGetTimers_reads d).mono ?_ ?_
  · rintro op _ (hop | rfl)
    · exact reads_plain hop
    · trivial
  · rintro _ ⟨backup, transfer, rfl⟩
    exact ⟨rfl, rfl⟩

/-- A child has been started in the place of the one that the daemon is busy with. -/
structure Started (c : ChildName) (d : DaemonState) (g : Sight) : Prop extends Busy c d g where
  restarted : g.restarted = true
  probed : g.probed = false

theorem Started.plain {op : DaemonSys} {r : op.Res} (h : Started c d g) (hop : Plain op) :
    Started c d (observe op r g) := by
  refine ⟨h.toBusy.plain hop, ?_, ?_⟩
  · rw [observe_plain hop]
    exact h.restarted
  · rw [observe_plain hop]
    exact h.probed

theorem Started.same {d' : DaemonState} (h : Started c d g) (hd : SameHandling d d') : Started c d' g :=
  ⟨h.toBusy.same hd.1 hd.2, h.restarted, h.probed⟩

theorem Started.upheld {P : α → Sight → Prop} {Q : α → Prop} {p : DaemonProg α} (h : Started c d g)
    (hraised : g.raised = false) (hp : p.Always (fun op _ => Plain op) Q)
    (hP : ∀ a g, Q a → Started c d g → g.raised = false → P a g) :
    Upheld observe ProbedBefore Named Unhurt P p g :=
  plain_upheld hp (fun _ _ _ hop hg => hg.plain hop) hP h hraised

theorem startChildProcess_started (p : ChildProcess) (extraArgs : List String) (h : Busy c d g) :
    Upheld observe ProbedBefore Named Unhurt (fun _ g' => Started c d g' ∧ g'.raised = false)
      (startChildProcess dSocket p c extraArgs) g := by
  refine upheld_call fun made _ => ⟨trivial, ?_⟩
  have hstarted : Started c d (observe .pipe made g) := ⟨⟨h.handles, h.current, h.named⟩, rfl, rfl⟩
  rcases made with _ | ⟨childRead, childWrite⟩
  · exact ⟨hstarted, rfl⟩
  refine upheld_call fun made' _ => ⟨trivial, ?_⟩
  have hstarted' : Started c d (observe .pipe made' (observe .pipe (some (childRead, childWrite)) g)) :=
    ⟨⟨h.handles, h.current, h.named⟩, rfl, rfl⟩
  rcases made' with _ | ⟨parentRead, parentWrite⟩
  · exact ⟨hstarted', rfl⟩
  refine hstarted'.upheld rfl (Q := fun _ => True) ?_ fun _ _ _ h₁ h₂ => ⟨h₁, h₂⟩
  rintro (_ | pid)
  · exact ⟨trivial, exitWith_plain _ _⟩
  · exact ⟨trivial, fun _ => ⟨trivial, fun _ => ⟨trivial, trivial⟩⟩⟩

theorem acknowledgeClient_started (h : Started c d g) :
    Upheld observe ProbedBefore Named Unhurt (fun _ g' => Started c d g' ∧ g'.raised = false)
      (acknowledgeClient d c) g := by
  have hexit : ∀ g', Started c d g' → Upheld observe ProbedBefore Named Unhurt
      (fun (_ : Unit) g' => Started c d g' ∧ g'.raised = false) (exitWith .failure) g' :=
    fun g' _ => upheld_call fun _ _ => ⟨trivial, rfl⟩
  rw [acknowledgeClient_eq]
  refine upheld_call fun selected _ => ⟨trivial, ?_⟩
  have h₁ : Started c d (observe (.select (.acknowledge c) (d.child c).pipes.read 10) selected g) := h.plain trivial
  rcases selected with _ | _ | _
  · exact hexit _ h₁
  · exact hexit _ h₁
  dsimp only
  rw [ipcGetAck_bind]
  refine upheld_call fun got _ => ⟨trivial, ?_⟩
  have h₂ := h₁.plain (r := got) (show Plain (.read (.acknowledge c) (d.child c).pipes.read) from trivial)
  rcases got with _ | bytes
  · exact hexit _ h₂
  refine received_upheld (J := Started c d) (fun msg g' h' _ => ⟨trivial, h'.plain trivial⟩) (fun msg g' h' => ?_) h₂
  split_ifs
  · refine h'.toBusy.write rfl fun sent raised hsent => ?_
    have h'' : Started c d { g' with raised := raised } :=
      ⟨⟨h'.handles, h'.current, h'.named⟩, h'.restarted, h'.probed⟩
    cases sent with
    | false => exact hexit _ h''
    | true => exact ⟨h'', hsent rfl⟩
  · exact hexit g' h'

theorem childSpawn_started (extraArgs : List String) (h : Busy c d g) :
    Upheld observe ProbedBefore Named Unhurt (fun d' g' => Started c d' g' ∧ SameHandling d d' ∧ g'.raised = false)
      (childSpawn dSocket d c extraArgs) g := by
  refine (startChildProcess_started dSocket (d.child c) extraArgs h).bind fun p g₁ h₁ => ?_
  have hsame : SameHandling d (d.setChild c p) :=
    ⟨DaemonState.setChild_handlesSigpipe d c p, DaemonState.setChild_current d c p⟩
  exact (acknowledgeClient_started (h₁.1.same hsame)).bind fun _ g₂ h₂ => ⟨h₂.1, hsame, h₂.2⟩

variable {post : DaemonState → DaemonProg DaemonState}
  (hpost : ∀ d, (post d).Always (fun op _ => Plain op) (SameHandling d))
include hpost

theorem restartChild_rest (h : Busy c d g) :
    Upheld observe ProbedBefore Named Unhurt (fun d' g' => Rest d' g') (restartChild dSocket d c post) g := by
  have hend : ∀ d' g', Started c d' g' → g'.raised = false → Rest { d' with current := none } g' := by
    intro d' g' h' hraised
    refine ⟨⟨h'.handles, ?_, ?_⟩, hraised⟩
    · rw [Sight.settled, if_pos h'.restarted]
    · intro hprobed
      rw [h'.probed] at hprobed
      cases hprobed
  unfold restartChild
  dsimp only
  split_ifs
  · exact upheld_call fun _ _ => ⟨trivial, rfl⟩
  refine (childSpawn_started dSocket [] (h.same (DaemonState.setChild_handlesSigpipe d c _)
    (DaemonState.setChild_current d c _))).bind fun d₁ g₁ h₁ => ?_
  refine Upheld.bind (P := fun d₂ g₂ => Started c d₂ g₂ ∧ g₂.raised = false) ?_ fun d₂ g₂ h₂ => hend d₂ g₂ h₂.1 h₂.2
  exact h₁.1.upheld h₁.2.2 (hpost d₁) fun d₂ g₂ hsame hstarted hraised => ⟨hstarted.same hsame, hraised⟩

/-- The child is being probed. -/
structure Asked (c : ChildName) (d : DaemonState) (g : Sight) : Prop extends Busy c d g where
  restarted : g.restarted = false
  current_eq : g.current = some c

omit hpost in
theorem Asked.plain {op : DaemonSys} {r : op.Res} (h : Asked c d g) (hop : Plain op) :
    Asked c d (observe op r g) := by
  refine ⟨h.toBusy.plain hop, ?_, ?_⟩
  · rw [observe_plain hop]
    exact h.restarted
  · rw [observe_plain hop]
    exact h.current_eq

omit hpost in
/-- A child that has answered stays the one that is named. -/
theorem Asked.settled (h : Asked c d g) : Settled d g := by
  have hsettled : g.settled = some c := by
    rw [Sight.settled, if_neg (by rw [h.restarted]; exact Bool.false_ne_true), h.current_eq]
  refine ⟨h.handles, ?_, fun _ => ?_⟩
  · rw [h.current, h.current_eq, hsettled]
  · rw [hsettled]
    exact Option.some_ne_none c

theorem healthProbeChildProcess_rest (h : Rest d g) :
    Upheld observe ProbedBefore Named Unhurt (fun d' g' => Rest d' g')
      (healthProbeChildProcess dSocket d c post) g := by
  have hasked : ∀ (p : ChildProcess) (isAlive : Bool),
      Asked c (({ d with current := some c } : DaemonState).setChild c p)
        (observe (.kill c (d.child c).pid 0) isAlive g) := by
    intro p isAlive
    refine ⟨⟨?_, ?_, fun _ => rfl⟩, rfl, rfl⟩
    · rw [DaemonState.setChild_handlesSigpipe]
      exact h.1.handles
    · rw [DaemonState.setChild_current]
      rfl
  rw [healthProbeChildProcess_eq]
  refine upheld_call fun isAlive _ => ⟨trivial, ?_⟩
  cases isAlive with
  | false => exact restartChild_rest dSocket hpost (hasked _ false).toBusy
  | true =>
  have h₁ := hasked { d.child c with isAlive := true } true
  change Upheld _ _ _ _ _ (answersProbe _ c >>= _) _
  rw [answersProbe_bind rfl, ← ipcSend_bind]
  refine h₁.toBusy.write rfl fun _ raised _ => ?_
  have hplain : ∀ op (r : op.Res) g, Plain op → Asked c (({ d with current := some c } : DaemonState).setChild c
      { d.child c with isAlive := true }) g → Asked c _ (observe op r g) := fun _ _ _ hop h => h.plain hop
  refine awaitAnswer_upheld (J := fun g => Asked c _ g ∧ g.raised = false)
    (fun selected _ => plain_rests hplain selected trivial
      ⟨⟨h₁.handles, h₁.current, h₁.named⟩, h₁.restarted, h₁.current_eq⟩)
    (fun op r g hop hg _ => plain_rests hplain r (reads_plain hop) hg.1) fun answered g₂ hg₂ => ?_
  obtain ⟨h₂, hraised⟩ := hg₂
  cases answered with
  | true => exact ⟨h₂.settled, hraised⟩
  | false =>
    refine upheld_call fun _ _ => ⟨trivial, upheld_call fun _ _ => ⟨trivial, ?_⟩⟩
    refine restartChild_rest dSocket hpost ⟨?_, ?_, h₂.named⟩
    · rw [DaemonState.setChild_handlesSigpipe]
      exact h₂.handles
    · rw [DaemonState.setChild_current]
      exact h₂.current

omit hpost

theorem writeClient_settled (fd : ℤ) (text : FileSystem.Bytes) (h : Settled d g) :
    Upheld observe ProbedBefore Named Unhurt (fun _ g' => Settled d g') (writeClient d fd text) g := by
  refine upheld_call fun r hprobed => ?_
  have hcurrent : d.current ≠ none := by
    rw [h.current]
    exact h.probed hprobed
  refine ⟨fun _ hnone => h.probed hprobed ?_, ?_⟩
  · rw [Sight.settled, hnone, ite_self]
  · refine (written_upheld (g := observe (.writeClient fd text) r g) (P := fun _ g' => Settled d g')
      (fun _ _ => ⟨h.handles, h.current, h.probed⟩) h.handles rfl fun _ => hcurrent).bind ?_
    exact fun _ g' h' => h'

theorem conversing_settled (fd : ℤ) : Conversing observe ProbedBefore Named Unhurt Settled Settled fd where
  select := fun _ _ _ h _ => ⟨trivial, h.plain trivial⟩
  read := fun _ _ _ h _ => ⟨trivial, by split_ifs <;> exact h.plain trivial⟩
  execute := fun _ _ command _ h _ => ⟨trivial, (h.plain (show Plain (.execute command) from trivial)).same rfl rfl⟩
  write := fun _ _ text h => writeClient_settled fd text h

theorem clientMessage_rest (exchanges : ℕ) (h : Rest d g) :
    Upheld observe ProbedBefore Named Unhurt
      (fun served g' => (served = .again → Rest d g') ∧ ∀ d', served = .done d' → Rest d' g')
      (clientMessage dSocket fds d exchanges) g := by
  refine clientMessage_upheld exchanges (fun _ => ⟨trivial, h.1.plain trivial, rfl⟩)
    (fun fd _ => ⟨trivial, h.1.plain trivial, conversing_settled fd⟩) fun fd d₁ g₁ h₁ _ => ⟨trivial, ?_⟩
  have h₂ : Rest d₁ (observe (.close fd) () g₁) := ⟨h₁.plain trivial, rfl⟩
  split_ifs
  · exact h₂.upheld (cleanClose_plain dSocket fds d₁ .success fun _ => False) fun _ _ hnever _ => hnever.elim
  · exact h₂

theorem parts : Parts observe ProbedBefore Named Unhurt dSocket fds Rest where
  poll := fun _ _ _ h _ => ⟨trivial, ⟨h.1.handles, h.1.current, h.1.probed⟩, rfl⟩
  giveUp := fun _ _ h => h.upheld (always_plain (killChildren_exit_quits .failure fun _ => False))
    fun _ _ hnever _ => hnever
  signal := fun d _ h => h.upheld (always_plain (signalMessage_quits dSocket fds d)) fun _ _ _ h' => h'
  client := fun _ _ exchanges h => clientMessage_rest dSocket fds exchanges h
  message := fun d _ c site secs _ h => h.upheld (childMessage_plain dSocket fds d site c secs)
    fun _ _ hsame h' => ⟨h'.1.same hsame.1 hsame.2, h'.2⟩
  rearm := fun _ _ _ h _ => ⟨trivial, fun _ => ⟨h.1.plain trivial, rfl⟩, fun _ =>
    upheld_call fun _ _ => ⟨trivial, rfl⟩⟩
  probeFm := fun _ _ h => healthProbeChildProcess_rest dSocket reportmanFmGetTimers_plain h
  probeMon := fun _ _ h => healthProbeChildProcess_rest dSocket (fun _ => ⟨rfl, rfl⟩) h

/-- After the start of both children. -/
theorem prepare_rest (h : Started c d g) (hcurrent : d.current = none) :
    Upheld observe ProbedBefore Named Unhurt (fun r g' => Rest r.2 g') (prepare dSocket d) g := by
  have hexit : ∀ g', Upheld observe ProbedBefore Named Unhurt (fun (r : PollFds × DaemonState) g' => Rest r.2 g')
      (exitWith .failure) g' := fun g' => upheld_call fun _ _ => ⟨trivial, rfl⟩
  refine upheld_call fun command _ => ⟨trivial, upheld_call fun created _ => ⟨trivial, ?_⟩⟩
  cases created with
  | false => exact hexit _
  | true =>
  refine upheld_call fun timerfd _ => ⟨trivial, ?_⟩
  rcases timerfd with _ | timerfd
  · exact hexit _
  refine upheld_call fun armed _ => ⟨trivial, ?_⟩
  cases armed with
  | false => exact hexit _
  | true =>
  refine upheld_call fun installed _ => ⟨trivial, ?_⟩
  cases installed with
  | false => exact hexit _
  | true =>
  refine upheld_call fun signalFd _ => ⟨trivial, ?_⟩
  rcases signalFd with _ | signalFd
  · exact hexit _
  · refine ⟨⟨?_, ?_, ?_⟩, rfl⟩
    · exact (Bool.or_true _).symm
    · exact hcurrent.trans (if_pos h.restarted).symm
    · intro hprobed
      exact absurd (h.probed.symm.trans hprobed) Bool.false_ne_true

theorem startUp_rest (directories : List String) (hcurrent : d.current = none) (hhandles : d.handlesSigpipe = false)
    (h : Busy .fm d g) :
    Upheld observe ProbedBefore Named Unhurt (fun r g' => Rest r.2 g') (startUp dSocket directories d) g := by
  refine (childSpawn_started dSocket [] h).bind fun d₁ g₁ h₁ => ?_
  refine Upheld.bind (P := fun d₂ g₂ => Started .fm d₂ g₂ ∧ SameHandling d₁ d₂) ?_ fun d₂ g₂ h₂ => ?_
  · exact h₁.1.upheld h₁.2.2 (reportmanFmGetTimers_plain d₁) fun d₂ g₂ hsame hstarted _ =>
      ⟨hstarted.same hsame, hsame⟩
  have hhandles₂ : d₂.handlesSigpipe = false := (h₂.2.1.trans h₁.2.1.1).trans hhandles
  have hcurrent₂ : d₂.current = none := (h₂.2.2.trans h₁.2.1.2).trans hcurrent
  have hbusy : Busy .mon d₂ g₂ := ⟨h₂.1.handles, h₂.1.current, fun hh =>
    absurd ((hhandles₂.symm.trans h₂.1.handles).trans hh) Bool.false_ne_true⟩
  refine (childSpawn_started dSocket directories hbusy).bind fun d₃ g₃ h₃ => ?_
  exact prepare_rest dSocket h₃.1 (h₃.2.1.2.trans hcurrent₂)

end Functions

/-- In a run in which clients are written to only after a probe, with no child started since, the handler
never lacks a name, and what it names is the child whose pipe is broken. -/
theorem daemonMain_named (dSocket : ℤ) (directories : List String) (exchanges rounds : ℕ)
    (maxRetries : ChildName → UInt16) (sched : ℕ → Environment) :
    let p := daemonMain dSocket directories exchanges rounds (initially maxRetries)
    (∀ e ∈ trace (watch observe) sched p 0 .start, ProbedBefore e.op e.res e.before) →
      (∀ e ∈ trace (watch observe) sched p 0 .start, Named e.op e.res e.before) ∧
        ((run (watch observe) sched p 0 .start).result = none →
          Unhurt (run (watch observe) sched p 0 .start).state) := by
  intro p hprobed
  have hstart : Busy .fm (initially maxRetries) .start := ⟨rfl, rfl, fun h => absurd h Bool.false_ne_true⟩
  have hmain : Upheld observe ProbedBefore Named Unhurt (fun _ _ => True) p .start := by
    refine (startUp_rest dSocket directories rfl rfl hstart).bind fun r g hg => ?_
    exact ((parts dSocket r.1).pollLoop exchanges rounds hg).bind fun _ _ _ => trivial
  obtain ⟨hnamed, hend⟩ := Program.Upholds.run hmain sched hprobed
  refine ⟨hnamed, fun hnone => ?_⟩
  rw [hnone] at hend
  exact hend

/-- The children are probed, and then a client sends a command and does not wait for the answer. -/
def visited (t : ℕ) : Environment
  | .poll _ => .ok ⟨⟨false, false, false, false⟩, ⟨30 < t, false, false, false⟩,
      ⟨false, false, false, false⟩, ⟨false, false, false, false⟩, ⟨t < 30, false, false, false⟩⟩
  | .accept => some 7
  | .selectClient _ => .ready
  | .readClient _ => some (FileSystem.bytes "get_timers")
  | .writeClient _ _ => .broken
  | op => answering ackBytes 0 t op

/-- The handler names the child that has been probed last. -/
theorem daemonMain_named_visited :
    ∃ e ∈ trace (watch observe) visited (daemonMain 4 [] 1 2 (initially fun _ => 3)) 0 .start,
      e.op = .writeClient 7 (responding (FileSystem.bytes "get_timers")) ∧ e.after.raised = true ∧
        e.before.current = some .mon ∧ Named e.op e.res e.before := by
  have hwrite : (trace (watch observe) visited (daemonMain 4 [] 1 2 (initially fun _ => 3)) 0 .start)[42]? =
      some ⟨.writeClient 7 (responding (FileSystem.bytes "get_timers")), .broken, ⟨true, some .mon, false, true, false⟩,
        ⟨true, some .mon, false, true, true⟩⟩ := rfl
  have hnamed := (daemonMain_named 4 [] 1 2 (fun _ => 3) visited (by decide +kernel)).1
  exact ⟨_, List.mem_of_getElem? hwrite, rfl, rfl, rfl, hnamed _ (List.mem_of_getElem? hwrite)⟩

/-- A client that sends a command before the first probe and does not wait for the answer. -/
def vanished (t : ℕ) : Environment
  | .poll _ => .ok ⟨⟨false, false, false, false⟩, ⟨true, false, false, false⟩,
      ⟨false, false, false, false⟩, ⟨false, false, false, false⟩, ⟨false, false, false, false⟩⟩
  | .accept => some 7
  | .selectClient _ => .ready
  | .readClient _ => some (FileSystem.bytes "get_timers")
  | .writeClient _ _ => .broken
  | op => answering ackBytes 0 t op

/-- The handler looks for the name of no process. -/
theorem not_named_vanished :
    (run (watch observe) vanished (daemonMain 4 [] 1 1 (initially fun _ => 3)) 0 .start).state.raised = true ∧
      ¬ ∀ e ∈ trace (watch observe) vanished (daemonMain 4 [] 1 1 (initially fun _ => 3)) 0 .start,
        Named e.op e.res e.before := by
  refine ⟨rfl, fun h => ?_⟩
  have hwrite : (trace (watch observe) vanished (daemonMain 4 [] 1 1 (initially fun _ => 3)) 0 .start)[30]? =
      some ⟨.writeClient 7 (responding (FileSystem.bytes "get_timers")), .broken, ⟨true, none, false, false, false⟩,
        ⟨true, none, false, false, true⟩⟩ := rfl
  exact h _ (List.mem_of_getElem? hwrite) rfl rfl

end Reportman.Sigpipe
