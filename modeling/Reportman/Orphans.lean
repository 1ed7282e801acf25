import Mathlib
import Reportman.Messages
import Reportman.Sigpipe

/-!
# Children that outlive the daemon

The daemon exits in the middle of a handshake, of its preparations or of a restart when a call fails
there, and only the exits of the poll loop itself send a signal to the children first. A broken pipe ends it
too, unless there is a child that the handler can name.
-/
namespace Reportman.Orphans
open Resumable Ipc Daemon Watching
open FmLoop (WriteResult Exit sigint sigterm)
open Sigpipe (SameHandling)

/-- What has been seen: the number of calls, the children that have been started and since then neither
sent a termination signal nor found to be gone, how often a probe of each child has failed, and what there is to
be seen of the handler of SIGPIPE. -/
structure Sight where
  tick : ℕ
  unsignalled : List ℤ
  failures : ChildName → ℕ
  handling : Sigpipe.Sight

def Sight.start : Sight := ⟨0, [], fun _ => 0, .start⟩

/-- A broken pipe ends the process: there is no handler, or no child that it could name. -/
def Sight.defenceless (g : Sight) : Bool := !g.handling.handles || g.handling.settled = none

/-- A call that ends a probe of the child: its process is gone or is sent a termination signal. -/
def ends (signo : ℕ) (r : Bool) : Bool := signo = sigterm || !r

def leaves : (op : DaemonSys) → op.Res → List ℤ → List ℤ
  | .fork _ _ _, some pid, unsignalled => pid :: unsignalled
  | .kill _ pid signo, r, unsignalled => if ends signo r then unsignalled.filter (· ≠ pid) else unsignalled
  | .waitpid pid, _, unsignalled => unsignalled.filter (· ≠ pid)
  | .killGroup _, _, _ => []
  | _, _, unsignalled => unsignalled

def fails : (op : DaemonSys) → op.Res → (ChildName → ℕ) → ChildName → ℕ
  | .kill c _ signo, r, failures => if ends signo r then Function.update failures c (failures c + 1) else failures
  | _, _, failures => failures

def observe (op : DaemonSys) (r : op.Res) (g : Sight) : Sight where
  tick := g.tick + 1
  unsignalled := leaves op r g.unsignalled
  failures := fails op r g.failures
  handling := Sigpipe.observe op r g.handling

def fatal (maxRetries : ChildName → UInt16) : (op : DaemonSys) → op.Res → Sight → Bool
  | .select (.acknowledge _) _ _, r, _ => r ≠ .ready
  | .select .timers _ _, r, _ => r ≠ .ready
  | .read (.acknowledge _) _, none, _ => true
  | .read (.acknowledge _) _, some bytes, _ => bytes.length = 8 ∧ ipcIsAck (wordOf bytes).toUInt64 = false
  | .read .timers _, none, _ => true
  | .read .timers _, some bytes, _ => bytes.length = 8 ∧ ipcIsUlong (wordOf bytes).toUInt64 = false
  | .uninitialized (some (.acknowledge _)) _, r, _ => ipcIsAck r = false
  | .uninitialized (some .timers) _, r, _ => ipcIsUlong r = false
  | .write (.acknowledge _) _ _, r, _ => r ≠ .written
  | .write (.probe _) _ _, r, g => r = .broken && g.defenceless
  | .writeClient _ _, r, g => r = .broken && g.defenceless
  | .fork _ _ _, r, _ => r.isNone
  | .timerCreate, r, _ => r = false
  | .timerfdCreate, r, _ => r.isNone
  | .settime, r, _ => r = false
  | .sigaction, r, _ => r = false
  | .initializeSignals, r, _ => r.isNone
  | .kill c _ signo, r, g => ends signo r = true ∧ (maxRetries c).toNat < g.failures c
  | _, _, _ => false

/-- An answer upon which the daemon ends at once: a child does not answer the handshake or sends something
else than is due, a system call fails, a probe of a child fails once too often, or a pipe is broken and SIGPIPE
ends the process. -/
def Fatal (maxRetries : ChildName → UInt16) (op : DaemonSys) (r : op.Res) (g : Sight) : Prop :=
  fatal maxRetries op r g = true

instance (maxRetries : ChildName → UInt16) (op : DaemonSys) (r : op.Res) (g : Sight) :
    Decidable (Fatal maxRetries op r g) :=
  inferInstanceAs (Decidable (_ = true))

section Alive

-- When each process dies by itself, if it does.
variable (dies : ℤ → Option ℕ)

/-- No child lives that has not been sent a termination signal. -/
def NoneLeft (g : Sight) : Prop := ∀ pid ∈ g.unsignalled, ∃ n ∈ dies pid, n ≤ g.tick

instance (g : Sight) : Decidable (NoneLeft dies g) :=
  inferInstanceAs (Decidable (∀ pid ∈ g.unsignalled, ∃ n ∈ dies pid, n ≤ g.tick))

/-- The daemon is made to end at once only when no other child lives. -/
def AloneWhenFatal (maxRetries : ChildName → UInt16) (op : DaemonSys) (r : op.Res) (g : Sight) : Prop :=
  Fatal maxRetries op r g → NoneLeft dies (observe op r g)

instance (maxRetries : ChildName → UInt16) (op : DaemonSys) (r : op.Res) (g : Sight) :
    Decidable (AloneWhenFatal dies maxRetries op r g) :=
  inferInstanceAs (Decidable (_ → _))

/-- An exit leaves no living child without a termination signal. -/
def NoOrphans : (op : DaemonSys) → op.Res → Sight → Prop
  | .exit _, _, g => NoneLeft dies g
  | _, _, _ => True

/-- What has been seen of the probes, beside the counters. -/
def Counted (maxRetries : ChildName → UInt16) (d : DaemonState) (g : Sight) : Prop :=
  ∀ c, (d.child c).maxRetries = maxRetries c ∧ (d.child c).retries.toNat ≤ g.failures c

/-- Between the parts of a round. -/
structure Known (maxRetries : ChildName → UInt16) (d : DaemonState) (g : Sight) : Prop where
  counted : Counted maxRetries d g
  settled : Sigpipe.Settled d g.handling

/-- The program leaves no orphan, however it ends. -/
abbrev Tidy {α : Type} (maxRetries : ChildName → UInt16) (P : α → Sight → Prop) (p : DaemonProg α) (g : Sight) :
    Prop :=
  Upheld observe (AloneWhenFatal dies maxRetries) (NoOrphans dies) (NoneLeft dies) P p g

end Alive

section Steps

variable {dies : ℤ → Option ℕ} {maxRetries : ChildName → UInt16} {α : Type} {P : α → Sight → Prop}
  {d d' : DaemonState} {g : Sight} {c : ChildName}

/-- The calls that tell nothing of the processes and leave the handler as it is, and after which the daemon does
not exit. -/
def Plain : DaemonSys → Prop
  | .fork _ _ _ => False
  | .kill _ _ _ => False
  | .waitpid _ => False
  | .killGroup _ => False
  | .exit _ => False
  | .sigaction => False
  | .pipe => False
  | .poll _ => False
  | _ => True

/-- What plain calls do not change. -/
def Kept (I : Sight → Prop) : Prop := ∀ op (r : op.Res) g, Plain op → I g → I (observe op r g)

theorem observe_plain {op : DaemonSys} {r : op.Res} (h : Plain op) : ∃ raised,
    observe op r g = ⟨g.tick + 1, g.unsignalled, g.failures, { g.handling with raised := raised }⟩ := by
  cases op <;> first | exact h.elim | exact ⟨_, rfl⟩

theorem counted_kept (maxRetries : ChildName → UInt16) (d : DaemonState) : Kept (Counted maxRetries d) := by
  intro op r g hop h
  obtain ⟨raised, heq⟩ := observe_plain (r := r) (g := g) hop
  rw [heq]
  exact h

theorem settled_kept (d : DaemonState) : Kept fun g => Sigpipe.Settled d g.handling := by
  intro op r g hop h
  obtain ⟨raised, heq⟩ := observe_plain (r := r) (g := g) hop
  rw [heq]
  exact ⟨h.handles, h.current, h.probed⟩

theorem asked_kept (c : ChildName) (d : DaemonState) : Kept fun g => Sigpipe.Asked c d g.handling := by
  intro op r g hop h
  obtain ⟨raised, heq⟩ := observe_plain (r := r) (g := g) hop
  rw [heq]
  exact ⟨⟨h.handles, h.current, h.named⟩, h.restarted, h.current_eq⟩

theorem started_kept (c : ChildName) (d : DaemonState) : Kept fun g => Sigpipe.Started c d g.handling := by
  intro op r g hop h
  obtain ⟨raised, heq⟩ := observe_plain (r := r) (g := g) hop
  rw [heq]
  exact ⟨⟨h.handles, h.current, h.named⟩, h.restarted, h.probed⟩

theorem Kept.and {I J : Sight → Prop} (hI : Kept I) (hJ : Kept J) : Kept fun g => I g ∧ J g :=
  fun op r g hop h => ⟨hI op r g hop h.1, hJ op r g hop h.2⟩

theorem known_kept (maxRetries : ChildName → UInt16) (d : DaemonState) : Kept (Known maxRetries d) :=
  fun op r g hop h => ⟨counted_kept maxRetries d op r g hop h.counted, settled_kept d op r g hop h.settled⟩

theorem NoneLeft.later (h : NoneLeft dies g) {g' : Sight} (hpids : ∀ pid ∈ g'.unsignalled, pid ∈ g.unsignalled)
    (htick : g.tick ≤ g'.tick) : NoneLeft dies g' := by
  intro pid hpid
  obtain ⟨n, hn, hle⟩ := h pid (hpids pid hpid)
  exact ⟨n, hn, hle.trans htick⟩

theorem noneLeft_nil (h : g.unsignalled = []) : NoneLeft dies g := by
  intro pid hpid
  rw [h] at hpid
  exact absurd hpid List.not_mem_nil

theorem exitWith_upheld (code : Exit) (h : NoneLeft dies g) :
    Tidy dies maxRetries P (exitWith code) g :=
  upheld_call fun _ _ => ⟨h, h.later (fun _ hpid => hpid) (Nat.le_succ _)⟩

theorem killChildren_upheld {k : Unit → DaemonProg α} (hk : ∀ g', g'.unsignalled = [] →
      Tidy dies maxRetries P (k ()) g') :
    Tidy dies maxRetries P (killChildren >>= k) g :=
  upheld_call fun _ _ => ⟨trivial, upheld_call fun _ _ => ⟨trivial, hk _ rfl⟩⟩

theorem cleanClose_upheld (dSocket : ℤ) (fds : PollFds) (d : DaemonState) (code : Exit) :
    Tidy dies maxRetries P
      (cleanClose dSocket fds d code) g := by
  refine upheld_call fun _ _ => ⟨trivial, upheld_call fun _ _ => ⟨trivial, upheld_call fun _ _ => ⟨trivial,
    upheld_call fun _ _ => ⟨trivial, ?_⟩⟩⟩⟩
  refine killChildren_upheld fun g' hnone => ?_
  refine upheld_call fun _ _ => ⟨trivial, upheld_call fun _ _ => ⟨trivial, ?_⟩⟩
  exact exitWith_upheld code (noneLeft_nil hnone)

/-- Neither counter has changed. -/
def SameCounters (d d' : DaemonState) : Prop :=
  ∀ c, (d'.child c).maxRetries = (d.child c).maxRetries ∧ (d'.child c).retries = (d.child c).retries

theorem Counted.same (h : Counted maxRetries d g) (hd : SameCounters d d') : Counted maxRetries d' g := by
  intro c
  rw [(hd c).1, (hd c).2]
  exact h c

theorem Known.same (h : Known maxRetries d g) (hd : SameCounters d d') (hhandling : SameHandling d d') :
    Known maxRetries d' g :=
  ⟨h.counted.same hd, h.settled.same hhandling.1 hhandling.2⟩

/-- A call whose failure ends the daemon. -/
theorem fatal_call {op : DaemonSys} {next : op.Res → DaemonProg α} (hop : ∀ r, NoOrphans dies op r g)
    (hfatal : ∀ r, Fatal maxRetries op r g → NoneLeft dies (observe op r g) →
      Tidy dies maxRetries P (next r) (observe op r g))
    (hgoes : ∀ r, ¬ Fatal maxRetries op r g →
      Tidy dies maxRetries P (next r) (observe op r g)) :
    Tidy dies maxRetries P (.call op next) g := by
  refine upheld_call fun r halone => ⟨hop r, ?_⟩
  by_cases hf : Fatal maxRetries op r g
  · exact hfatal r hf (halone hf)
  · exact hgoes r hf

/-- A pipe that turns out to be broken. -/
theorem written_tidy {P : Bool → Sight → Prop} {r : WriteResult} (hsettled : Sigpipe.Settled d g.handling)
    (halone : (decide (r = .broken) && g.defenceless) = true → NoneLeft dies g) (hP : ∀ sent, P sent g) :
    Tidy dies maxRetries P (written d r) g := by
  cases r with
  | written => exact hP true
  | failed => exact hP false
  | broken =>
    change Tidy _ _ _ (brokenPipe d) g
    unfold brokenPipe
    split_ifs with hnamed
    · exact hP false
    · refine halone ?_
      rw [hsettled.handles, hsettled.current, not_and_or, not_not] at hnamed
      simpa [Sight.defenceless] using hnamed

end Steps

section Functions

variable {dies : ℤ → Option ℕ} {maxRetries : ChildName → UInt16} {α : Type} (dSocket : ℤ) (fds : PollFds)
  {d : DaemonState} {g : Sight} {c : ChildName} {I : Sight → Prop}

theorem SameCounters.setChild {p : ChildProcess} (hmax : p.maxRetries = (d.child c).maxRetries)
    (hretries : p.retries = (d.child c).retries) : SameCounters d (d.setChild c p) := by
  intro c'
  by_cases hc : c' = c
  · subst hc
    rw [DaemonState.child_setChild]
    exact ⟨hmax, hretries⟩
  · rw [DaemonState.child_setChild_ne d hc]
    exact ⟨rfl, rfl⟩

/-- A word that is read in a handshake: the daemon exits unless it is what is due. -/
theorem message_tidy {P : α → Sight → Prop} (site : Site) (fd : ℤ) (due : UInt64 → Bool)
    {next : Option (List UInt8) → DaemonProg α} {k : UInt64 → DaemonProg α}
    (hsome : ∀ bytes, next (some bytes) = received (daemonCalls d site) bytes >>= k)
    (hI : Kept I) (h : I g) (hnone : ∀ g, Fatal maxRetries (.read site fd) none g)
    (hread : ∀ bytes g, bytes.length = 8 → due (wordOf bytes).toUInt64 = false →
      Fatal maxRetries (.read site fd) (some bytes) g)
    (hunset : ∀ known r g, due r = false → Fatal maxRetries (.uninitialized (some site) known) r g)
    (hfails : ∀ g', NoneLeft dies g' → Tidy dies maxRetries P (next none) g')
    (hbad : ∀ msg g', NoneLeft dies g' → due msg = false → Tidy dies maxRetries P (k msg) g')
    (hdue : ∀ msg g', I g' → due msg = true → Tidy dies maxRetries P (k msg) g') :
    Tidy dies maxRetries P (.call (.read site fd) next) g := by
  refine upheld_call fun got halone => ⟨trivial, ?_⟩
  have h₁ : I (observe (.read site fd) got g) := hI _ got g trivial h
  cases got with
  | none => exact hfails _ (halone (hnone _))
  | some bytes =>
    rw [hsome, received_bind]
    by_cases hlen : bytes.length = 8
    · rw [if_pos hlen]
      cases hmsg : due (wordOf bytes).toUInt64 with
      | false => exact hbad _ _ (halone (hread bytes _ hlen hmsg)) hmsg
      | true => exact hdue _ _ h₁ hmsg
    · rw [if_neg hlen]
      refine upheld_call fun msg halone' => ⟨trivial, ?_⟩
      cases hmsg : due msg with
      | false => exact hbad _ _ (halone' (hunset bytes msg _ hmsg)) hmsg
      | true => exact hdue _ _ (hI _ msg _ trivial h₁) hmsg

/-- A `select` for an answer without which the daemon ends. -/
theorem awaited_call {P : α → Sight → Prop} {site : Site} {fd : ℤ} {secs : ℕ} {next : SelectResult → DaemonProg α}
    (hfatal : ∀ r, fatal maxRetries (.select site fd secs) r g = decide (r ≠ .ready)) (hI : Kept I) (h : I g)
    (hends : ∀ r, r ≠ .ready → ∀ g', NoneLeft dies g' → Tidy dies maxRetries P (next r) g')
    (hready : ∀ g', I g' → Tidy dies maxRetries P (next .ready) g') :
    Tidy dies maxRetries P (.call (.select site fd secs) next) g := by
  refine fatal_call (fun _ => trivial) (fun selected hf hnone => ?_) fun selected hgoes => ?_
  · have hnot : selected ≠ .ready := by simpa [Fatal, hfatal] using hf
    exact hends selected hnot _ hnone
  · obtain rfl : selected = .ready := by simpa [Fatal, hfatal] using hgoes
    exact hready _ (hI (.select site fd secs) _ g trivial h)

theorem acknowledgeClient_tidy (d : DaemonState) (c : ChildName) (hI : Kept I) (h : I g) :
    Tidy dies maxRetries (fun _ g' => I g') (acknowledgeClient d c) g := by
  have hexit : ∀ g', NoneLeft dies g' → Tidy dies maxRetries (fun _ g' => I g')
      (exitWith .failure : DaemonProg Unit) g' := fun g' hnone => exitWith_upheld _ hnone
  rw [acknowledgeClient_eq]
  refine awaited_call (fun _ => rfl) hI h ?_ fun g₁ h₁ => ?_
  · rintro (_ | _ | _) hnot g' hnone
    · exact hexit g' hnone
    · exact hexit g' hnone
    · exact absurd rfl hnot
  dsimp only
  rw [ipcGetAck_bind]
  refine message_tidy (.acknowledge c) _ ipcIsAck (fun _ => rfl) hI h₁ (fun _ => rfl)
    (fun _ _ hlen hack => decide_eq_true ⟨hlen, hack⟩) (fun _ _ _ hack => decide_eq_true hack) hexit
    (fun msg g' hnone hack => ?_) (fun msg g' h' hack => ?_)
  · rw [if_neg (by rw [hack]; exact Bool.false_ne_true)]
    exact hexit g' hnone
  rw [if_pos hack, ipcSend_bind]
  refine fatal_call (fun _ => trivial) (fun r hfatal hnone => ?_) fun r hwritten => ?_
  · cases r with
    | written => exact absurd hfatal Bool.false_ne_true
    | failed => exact hexit _ hnone
    | broken =>
      change Tidy _ _ _ (brokenPipe d >>= _) _
      unfold brokenPipe
      split_ifs
      · exact hexit _ hnone
      · exact hnone
  · obtain rfl : r = .written := by simpa [Fatal, fatal] using hwritten
    exact hI (.write (.acknowledge c) _ _) _ g' trivial h'

theorem reportmanFmGetTimers_tidy (d : DaemonState) (hI : Kept I) (h : I g) :
    Tidy dies maxRetries (fun d' g' => (∃ backup transfer,
      d' = { d with backupTimer := backup, transferTimer := transfer }) ∧ I g') (reportmanFmGetTimers d) g := by
  have hexit : ∀ {P : DaemonState → Sight → Prop} g', NoneLeft dies g' → Tidy dies maxRetries P
      (exitWith .failure : DaemonProg DaemonState) g' := fun g' hnone => exitWith_upheld _ hnone
  have hflag : ∀ msg : UInt64, msg &&& (~~~ipcValueUintFlag).toUInt64 ≠ ipcValueUintFlag.toUInt64 := by
    intro msg
    exact Messages.kept_ne_flag msg
  -- one of the two timers, of which the rest of the program makes `k`
  have htimer : ∀ {P : DaemonState → Sight → Prop} {k : UInt64 → DaemonProg DaemonState} {g : Sight},
      (∀ value g', I g' → Tidy dies maxRetries P (k value) g') → I g → Tidy dies maxRetries P
        (ipcGetUlong (daemonCalls d .timers) d.fm.pipes >>= fun value =>
          if value = ipcValueUintFlag.toUInt64 then exitWith .failure else k value) g := by
    intro P k g hk h
    rw [ipcGetUlong_bind]
    refine message_tidy .timers _ ipcIsUlong (fun _ => rfl) hI h (fun _ => rfl)
      (fun _ _ hlen hulong => decide_eq_true ⟨hlen, hulong⟩) (fun _ _ _ hulong => decide_eq_true hulong)
      (fun g' hnone => ?_) (fun msg g' hnone hulong => ?_) (fun msg g' h' hulong => ?_)
    · rw [if_pos rfl]
      exact hexit g' hnone
    · rw [if_neg (by rw [hulong]; exact Bool.false_ne_true), if_pos rfl]
      exact hexit g' hnone
    · rw [if_pos hulong, if_neg (hflag msg)]
      exact hk _ g' h'
  rw [reportmanFmGetTimers_eq]
  refine awaited_call (fun _ => rfl) hI h ?_ fun g₁ h₁ => ?_
  · rintro (_ | _ | _) hnot g' hnone
    · exact hexit g' hnone
    · exact hexit g' hnone
    · exact absurd rfl hnot
  exact htimer (fun backup g' h' => htimer (fun transfer g'' h'' => ⟨⟨backup, transfer, rfl⟩, h''⟩) h') h₁

theorem startChildProcess_tidy (p : ChildProcess) (extraArgs : List String) (h : Counted maxRetries d g)
    (hbusy : Sigpipe.Busy c d g.handling) : Tidy dies maxRetries (fun p' g' => (Counted maxRetries d g' ∧
      Sigpipe.Started c d g'.handling) ∧ p'.maxRetries = p.maxRetries ∧ p'.retries = p.retries)
      (startChildProcess dSocket p c extraArgs) g := by
  refine upheld_call fun made _ => ⟨trivial, ?_⟩
  rcases made with _ | ⟨childRead, childWrite⟩
  · exact ⟨⟨h, ⟨hbusy.handles, hbusy.current, hbusy.named⟩, rfl, rfl⟩, rfl, rfl⟩
  refine upheld_call fun made _ => ⟨trivial, ?_⟩
  rcases made with _ | ⟨parentRead, parentWrite⟩
  · exact ⟨⟨h, ⟨hbusy.handles, hbusy.current, hbusy.named⟩, rfl, rfl⟩, rfl, rfl⟩
  refine fatal_call (fun _ => trivial) (fun pid hfatal hnone => ?_) fun pid hgoes => ?_
  · obtain rfl : pid = none := Option.isNone_iff_eq_none.mp hfatal
    exact exitWith_upheld _ hnone
  · obtain ⟨pid, rfl⟩ := Option.ne_none_iff_exists'.mp fun h => hgoes (Option.isNone_iff_eq_none.mpr h)
    refine upheld_call fun _ _ => ⟨trivial, upheld_call fun _ _ => ⟨trivial, ⟨h, ?_⟩, rfl, rfl⟩⟩
    exact ⟨⟨hbusy.handles, hbusy.current, hbusy.named⟩, rfl, rfl⟩

theorem childSpawn_tidy (extraArgs : List String) (h : Counted maxRetries d g)
    (hbusy : Sigpipe.Busy c d g.handling) : Tidy dies maxRetries (fun d' g' => (Counted maxRetries d' g' ∧
      Sigpipe.Started c d' g'.handling) ∧ SameHandling d d') (childSpawn dSocket d c extraArgs) g := by
  refine (startChildProcess_tidy dSocket (d.child c) extraArgs h hbusy).bind fun p g₁ h₁ => ?_
  have hsame : SameHandling d (d.setChild c p) :=
    ⟨DaemonState.setChild_handlesSigpipe d c p, DaemonState.setChild_current d c p⟩
  have hkept := (counted_kept maxRetries (d.setChild c p)).and (started_kept c (d.setChild c p))
  refine (acknowledgeClient_tidy _ c hkept ⟨h₁.1.1.same (.setChild h₁.2.1 h₁.2.2), h₁.1.2.same hsame⟩).bind
    fun _ g₂ h₂ => ⟨h₂, hsame⟩

/-- The pipe of the child that is being probed may be broken. -/
theorem answersProbe_tidy {P : α → Sight → Prop} {k : Bool → DaemonProg α} (hI : Kept I)
    (hasked : ∀ g, I g → Sigpipe.Asked c d g.handling) (h : I g)
    (hk : ∀ answered g', I g' → Tidy dies maxRetries P (k answered) g') :
    Tidy dies maxRetries P (answersProbe d c >>= k) g := by
  rw [answersProbe_bind rfl]
  refine upheld_call fun r halone => ⟨trivial, ?_⟩
  have h₁ := hI (.write (.probe c) _ _) r _ trivial h
  refine (written_tidy (P := fun _ => I) (hasked _ h₁).settled halone fun _ => h₁).bind fun _ g₂ h₂ => ?_
  refine awaitAnswer_upheld (fun selected _ => ⟨trivial, hI _ selected g₂ trivial h₂⟩)
    (fun op r g hop hg _ => ?_) hk
  have hplain : Plain op := by cases op <;> first | exact hop.elim | trivial
  refine ⟨?_, hI op r g hplain hg⟩
  cases op <;> first | exact hop.elim | trivial

/-- What is done once a child has been restarted. -/
def Follows (dies : ℤ → Option ℕ) (maxRetries : ChildName → UInt16) (post : DaemonState → DaemonProg DaemonState) :
    Prop :=
  ∀ (I : Sight → Prop) d g, Kept I → I g →
    Tidy dies maxRetries (fun d' g' => (SameCounters d d' ∧ SameHandling d d') ∧ I g') (post d) g

theorem reportmanFmGetTimers_follows : Follows dies maxRetries reportmanFmGetTimers := by
  intro I d g hI h
  refine (reportmanFmGetTimers_tidy d hI h).mono ?_
  rintro _ g' ⟨⟨backup, transfer, rfl⟩, h'⟩
  exact ⟨⟨fun c => by cases c <;> exact ⟨rfl, rfl⟩, rfl, rfl⟩, h'⟩

theorem pure_follows : Follows dies maxRetries pure := fun _ _ _ _ h => ⟨⟨fun _ => ⟨rfl, rfl⟩, rfl, rfl⟩, h⟩

variable {post : DaemonState → DaemonProg DaemonState} (hpost : Follows dies maxRetries post)
include hpost

theorem restartChild_tidy (hbusy : Sigpipe.Busy c d g.handling)
    (hothers : ∀ c', c' ≠ c → (d.child c').maxRetries = maxRetries c' ∧ (d.child c').retries.toNat ≤ g.failures c')
    (hmax : (d.child c).maxRetries = maxRetries c) (hretries : (d.child c).retries.toNat < g.failures c)
    (hlast : (maxRetries c).toNat < (d.child c).retries.toNat → NoneLeft dies g) :
    Tidy dies maxRetries (fun d' g' => Known maxRetries d' g') (restartChild dSocket d c post) g := by
  unfold restartChild
  dsimp only
  split_ifs with hmore
  · refine exitWith_upheld _ (hlast ?_)
    rw [← hmax]
    exact UInt16.lt_iff_toNat_lt.mp hmore
  have hcounted : Counted maxRetries (d.setChild c { d.child c with retries := (d.child c).retries + 1 }) g := by
    intro c'
    by_cases hc : c' = c
    · subst hc
      rw [DaemonState.child_setChild]
      refine ⟨hmax, ?_⟩
      have hadd : ((d.child c').retries + 1).toNat ≤ (d.child c').retries.toNat + 1 := by
        rw [UInt16.toNat_add]
        exact Nat.mod_le _ _
      exact hadd.trans hretries
    · rw [DaemonState.child_setChild_ne d hc]
      exact hothers c' hc
  refine (childSpawn_tidy dSocket [] hcounted (hbusy.same (DaemonState.setChild_handlesSigpipe d c _)
    (DaemonState.setChild_current d c _))).bind fun d₁ g₁ h₁ => ?_
  refine (hpost _ d₁ g₁ ((counted_kept maxRetries d₁).and (started_kept c d₁)) h₁.1).bind fun d₂ g₂ h₂ => ?_
  obtain ⟨⟨hcounters, hhandling⟩, hcounted₂, hstarted⟩ := h₂
  -- the variable is cleared, as the observer knows of every restart that is over
  refine ⟨(hcounted₂.same hcounters).same fun c' => by cases c' <;> exact ⟨rfl, rfl⟩, ?_, ?_, ?_⟩
  · exact hhandling.1.trans hstarted.handles
  · rw [Sigpipe.Sight.settled, if_pos hstarted.restarted]
  · intro hprobed
    rw [hstarted.probed] at hprobed
    cases hprobed

/-- A probe that fails, once too often if that is the last. -/
theorem failure_tidy (h : Counted maxRetries d g)
    {pid : ℤ} {signo : ℕ} {r : Bool} (hends : ends signo r = true) {g' : Sight}
    (hlater : ∀ pid' ∈ g'.unsignalled, pid' ∈ (observe (.kill c pid signo) r g).unsignalled)
    (htick : g.tick < g'.tick) (hfailures : g'.failures = Function.update g.failures c (g.failures c + 1))
    (halone : AloneWhenFatal dies maxRetries (.kill c pid signo) r g) {d' : DaemonState} (hd : SameCounters d d')
    (hbusy : Sigpipe.Busy c d' g'.handling) :
    Tidy dies maxRetries (fun d' g' => Known maxRetries d' g') (restartChild dSocket d' c post) g' := by
  obtain ⟨hmax, hretries⟩ := h c
  refine restartChild_tidy dSocket hpost hbusy (fun c' hc => ?_) ?_ ?_ fun hmore => ?_
  · rw [hfailures, Function.update_of_ne hc, (hd c').1, (hd c').2]
    exact h c'
  · exact (hd c).1.trans hmax
  · rw [hfailures, Function.update_self, (hd c).2]
    exact Nat.lt_succ_of_le hretries
  · rw [(hd c).2] at hmore
    have hnone := halone (decide_eq_true ⟨hends, hmore.trans_le hretries⟩)
    exact hnone.later hlater htick

theorem healthProbeChildProcess_tidy (h : Known maxRetries d g) :
    Tidy dies maxRetries (fun d' g' => Known maxRetries d' g') (healthProbeChildProcess dSocket d c post) g := by
  have hcurrent : SameCounters d { d with current := some c } := fun c' => by cases c' <;> exact ⟨rfl, rfl⟩
  have hsame : ∀ isAlive, SameCounters d (({ d with current := some c } : DaemonState).setChild c
      { d.child c with isAlive := isAlive }) := by
    intro isAlive c'
    have hset : SameCounters { d with current := some c } (({ d with current := some c } : DaemonState).setChild c
        { d.child c with isAlive := isAlive }) := .setChild (hcurrent c).1.symm (hcurrent c).2.symm
    exact ⟨(hset c').1.trans (hcurrent c').1, (hset c').2.trans (hcurrent c').2⟩
  have hasked : ∀ (p : ChildProcess) (isAlive : Bool),
      Sigpipe.Asked c (({ d with current := some c } : DaemonState).setChild c p)
        (observe (.kill c (d.child c).pid 0) isAlive g).handling := by
    intro p isAlive
    refine ⟨⟨?_, ?_, fun _ => rfl⟩, rfl, rfl⟩
    · rw [DaemonState.setChild_handlesSigpipe]
      exact h.settled.handles
    · rw [DaemonState.setChild_current]
      rfl
  rw [healthProbeChildProcess_eq]
  refine upheld_call fun isAlive halone => ⟨trivial, ?_⟩
  cases isAlive with
  | false =>
    exact failure_tidy dSocket hpost h.counted (show ends 0 false = true from rfl) (fun _ hpid => hpid)
      (Nat.lt_succ_self _) rfl halone (hsame false) (hasked _ false).toBusy
  | true =>
  have h₁ : Counted maxRetries (({ d with current := some c } : DaemonState).setChild c
      { d.child c with isAlive := true }) (observe (.kill c (d.child c).pid 0) true g) := h.counted.same (hsame true)
  refine answersProbe_tidy ((counted_kept maxRetries _).and (asked_kept c _)) (fun _ h => h.2) ⟨h₁, hasked _ true⟩
    fun answered g₄ h₄ => ?_
  cases answered with
  | true => exact ⟨h₄.1, h₄.2.settled⟩
  | false =>
    refine upheld_call fun r halone' => ⟨trivial, upheld_call fun _ _ => ⟨trivial, ?_⟩⟩
    refine failure_tidy dSocket hpost h₄.1 (show ends sigterm r = true from rfl) ?_ ?_ ?_ halone' ?_ ?_
    · intro pid hpid
      exact (List.mem_filter.mp hpid).1
    · exact Nat.lt_succ_of_lt (Nat.lt_succ_self _)
    · rfl
    · rw [DaemonState.setChild_setChild]
      intro c'
      exact ⟨(hsame false c').1.trans (hsame true c').1.symm, (hsame false c').2.trans (hsame true c').2.symm⟩
    · refine Sigpipe.Busy.same ⟨h₄.2.handles, h₄.2.current, h₄.2.named⟩ ?_ ?_
      · exact DaemonState.setChild_handlesSigpipe _ c _
      · exact DaemonState.setChild_current _ c _

omit hpost

theorem childMessage_tidy (site : Site) (secs : ℕ) (h : Known maxRetries d g) :
    Tidy dies maxRetries (fun d' g' => Known maxRetries d' g') (childMessage dSocket fds d site c secs) g := by
  refine (getCommand_upheld (J := Known maxRetries d) secs (fun op r g hop hg _ => ?_) h).bind ?_
  · have hplain : Plain op := by cases op <;> first | exact hop.elim | trivial
    refine ⟨?_, known_kept maxRetries d op r g hplain hg⟩
    cases op <;> first | exact hop.elim | trivial
  rintro _ g₁ ⟨⟨command, rfl⟩, h₁⟩
  split_ifs
  · exact cleanClose_upheld dSocket fds _ _
  · exact h₁.same (fun c' => by cases c' <;> exact ⟨rfl, rfl⟩) ⟨rfl, rfl⟩

theorem signalMessage_tidy (h : Known maxRetries d g) :
    Tidy dies maxRetries (fun _ g' => Known maxRetries d g') (signalMessage dSocket fds d) g := by
  refine upheld_call fun read _ => ⟨trivial, ?_⟩
  have hexit : ∀ g', Tidy dies maxRetries (fun (_ : Unit) g' => Known maxRetries d g')
      (killChildren >>= fun _ => exitWith .failure) g' :=
    fun g' => killChildren_upheld fun _ hnone => exitWith_upheld _ (noneLeft_nil hnone)
  rcases read with _ | _ | signo
  · exact hexit _
  · exact hexit _
  change Tidy _ _ _ (if signo = sigint ∨ signo = sigterm then killChildren >>= fun _ =>
    cleanClose dSocket fds { d with closeRequested := true } .success else .ret ()) _
  split_ifs
  · exact killChildren_upheld fun _ _ => cleanClose_upheld dSocket fds _ _
  · exact known_kept maxRetries d .readSignal _ g trivial h

theorem writeClient_tidy (fd : ℤ) (text : FileSystem.Bytes) (h : Known maxRetries d g) :
    Tidy dies maxRetries (fun _ g' => Known maxRetries d g') (writeClient d fd text) g := by
  refine upheld_call fun r halone => ⟨trivial, ?_⟩
  have h₁ := known_kept maxRetries d (.writeClient fd text) r g trivial h
  exact (written_tidy h₁.settled halone fun _ => h₁).bind fun _ _ h₂ => h₂

theorem conversing_known (fd : ℤ) : Conversing observe (AloneWhenFatal dies maxRetries) (NoOrphans dies)
    (NoneLeft dies) (Known maxRetries) (Known maxRetries) fd where
  select := fun d g r h _ => ⟨trivial, known_kept maxRetries d (.selectClient fd) r g trivial h⟩
  read := fun d g r h _ => ⟨trivial, by split_ifs <;> exact known_kept maxRetries d (.readClient fd) r g trivial h⟩
  execute := fun d g command r h _ => ⟨trivial, (known_kept maxRetries d (.execute command) r g trivial h).same
    (fun c => by cases c <;> exact ⟨rfl, rfl⟩) ⟨rfl, rfl⟩⟩
  write := fun _ _ text h => writeClient_tidy fd text h

theorem clientMessage_tidy (exchanges : ℕ) (h : Known maxRetries d g) :
    Tidy dies maxRetries (fun served g' => (served = .again → Known maxRetries d g') ∧
      ∀ d', served = .done d' → Known maxRetries d' g') (clientMessage dSocket fds d exchanges) g := by
  refine clientMessage_upheld exchanges (fun _ => ⟨trivial, known_kept maxRetries d .accept none g trivial h⟩)
    (fun fd _ => ⟨trivial, known_kept maxRetries d .accept (some fd) g trivial h, conversing_known fd⟩)
    fun fd d₁ g₁ h₁ _ => ⟨trivial, ?_⟩
  split_ifs
  · exact cleanClose_upheld dSocket fds d₁ _
  · exact known_kept maxRetries d₁ (.close fd) () g₁ trivial h₁

theorem parts : Parts observe (AloneWhenFatal dies maxRetries) (NoOrphans dies) (NoneLeft dies) dSocket fds
    (Known maxRetries) where
  poll := fun _ _ _ h _ => ⟨trivial, h.counted, h.settled.handles, h.settled.current, h.settled.probed⟩
  giveUp := fun _ _ _ => killChildren_upheld fun _ hnone => exitWith_upheld _ (noneLeft_nil hnone)
  signal := fun _ _ h => signalMessage_tidy dSocket fds h
  client := fun _ _ exchanges h => clientMessage_tidy dSocket fds exchanges h
  message := fun _ _ _ site secs _ h => childMessage_tidy dSocket fds site secs h
  rearm := fun d g armed h halone => ⟨trivial, fun _ => known_kept maxRetries d .settime armed g trivial h,
    fun hr => exitWith_upheld _ (halone (decide_eq_true hr))⟩
  probeFm := fun _ _ h => healthProbeChildProcess_tidy dSocket reportmanFmGetTimers_follows h
  probeMon := fun _ _ h => healthProbeChildProcess_tidy dSocket pure_follows h

theorem prepare_tidy (h : Counted maxRetries d g) (hstarted : Sigpipe.Started c d g.handling)
    (hcurrent : d.current = none) :
    Tidy dies maxRetries (fun r g' => Known maxRetries r.2 g') (prepare dSocket d) g := by
  have hexit : ∀ g', NoneLeft dies g' → Tidy dies maxRetries (fun (r : PollFds × DaemonState) g' =>
      Known maxRetries r.2 g') (exitWith .failure) g' := fun g' hnone => exitWith_upheld _ hnone
  refine upheld_call fun command _ => ⟨trivial, upheld_call fun created halone => ⟨trivial, ?_⟩⟩
  cases created with
  | false => exact hexit _ (halone rfl)
  | true =>
  refine upheld_call fun timerfd halone => ⟨trivial, ?_⟩
  rcases timerfd with _ | timerfd
  · exact hexit _ (halone rfl)
  refine upheld_call fun armed halone => ⟨trivial, ?_⟩
  cases armed with
  | false => exact hexit _ (halone rfl)
  | true =>
  refine upheld_call fun installed halone => ⟨trivial, ?_⟩
  cases installed with
  | false => exact hexit _ (halone rfl)
  | true =>
  refine upheld_call fun signalFd halone => ⟨trivial, ?_⟩
  rcases signalFd with _ | signalFd
  · exact hexit _ (halone rfl)
  refine ⟨h.same fun c => by cases c <;> exact ⟨rfl, rfl⟩, ?_, ?_, ?_⟩
  · exact (Bool.or_true _).symm
  · exact hcurrent.trans (if_pos hstarted.restarted).symm
  · intro hprobed
    exact absurd (hstarted.probed.symm.trans hprobed) Bool.false_ne_true

/-- At the start no pipe can do harm to the daemon's variables. -/
theorem startUp_tidy (directories : List String) : Tidy dies maxRetries (fun r g => Known maxRetries r.2 g)
    (startUp dSocket directories (initially maxRetries)) .start := by
  have hcounted : Counted maxRetries (initially maxRetries) .start := fun c => by cases c <;> exact ⟨rfl, le_rfl⟩
  have hbusy : Sigpipe.Busy .fm (initially maxRetries) Sight.start.handling :=
    ⟨rfl, rfl, fun h => absurd h Bool.false_ne_true⟩
  refine (childSpawn_tidy dSocket [] hcounted hbusy).bind fun d₁ g₁ h₁ => ?_
  obtain ⟨⟨hcounted₁, hstarted₁⟩, hsame₁⟩ := h₁
  have hkept := (counted_kept maxRetries d₁).and (started_kept .fm d₁)
  refine (reportmanFmGetTimers_follows _ d₁ g₁ hkept ⟨hcounted₁, hstarted₁⟩).bind fun d₂ g₂ h₂ => ?_
  obtain ⟨⟨hcounters, hsame₂⟩, hcounted₂, hstarted₂⟩ := h₂
  have hhandles : d₂.handlesSigpipe = false := hsame₂.1.trans hsame₁.1
  have hcurrent : d₂.current = none := hsame₂.2.trans hsame₁.2
  have hbusy₂ : Sigpipe.Busy .mon d₂ g₂.handling :=
    ⟨hsame₂.1.trans hstarted₂.handles, hsame₂.2.trans hstarted₂.current, fun hh =>
      absurd ((hhandles.symm.trans (hsame₂.1.trans hstarted₂.handles)).trans hh) Bool.false_ne_true⟩
  refine (childSpawn_tidy dSocket directories (hcounted₂.same hcounters) hbusy₂).bind fun d₃ g₃ h₃ => ?_
  exact prepare_tidy dSocket h₃.1.1 h₃.1.2 (h₃.2.2.trans hcurrent)

end Functions

/-- `timer_create` fails. -/
def timerless (t : ℕ) : Environment
  | .timerCreate => false
  | op => answering ackBytes 0 t op

end Reportman.Orphans
