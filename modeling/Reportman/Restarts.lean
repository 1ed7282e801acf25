import Mathlib
import Reportman.Daemon

/-!
# How often a child is restarted

Each failed probe adds one to the child's counter, and the daemon gives up when the counter was above
the limit before that. So it gives up one failure too late, and never when the limit is the largest
value that the counter can have.
-/
namespace Reportman.Restarts
open Resumable Ipc Daemon
open FmLoop (sigterm)

/-- The call decides that a probe of the child fails: the process is gone, the answer does not come in
time or cannot be read, or it is no command. -/
def fails (c : ChildName) : (op : DaemonSys) → op.Res → Bool
  | .kill c' _ signo, r => c' = c && signo = 0 && !r
  | .select (.probe c') _ _, r => c' = c && r ≠ .ready
  | .read (.probe c') _, none => c' = c
  | .read (.probe c') _, some bytes =>
      c' = c && bytes.length = 8 && !ipcIsCommand (wordOf bytes).toUInt64
  | .uninitialized (some (.probe c')) _, r => c' = c && !ipcIsCommand r
  | _, _ => false

/-- The call starts the child's process. -/
def forks (c : ChildName) : (op : DaemonSys) → op.Res → Bool
  | .fork c' _ _, some _ => c' = c
  | _, _ => false

def failures (c : ChildName) (calls : DaemonHistory) : ℕ := calls.countP fun e => fails c e.op e.res

/-- The child's process has been started once before any restart. -/
def restarts (c : ChildName) (calls : DaemonHistory) : ℕ :=
  (calls.countP fun e => forks c e.op e.res) - 1

/-- Nothing but the end of the child and of the daemon. -/
def Ends (calls : DaemonHistory) : Prop :=
  ∀ e ∈ calls, match e.op with
    | .kill _ _ _ => True
    | .waitpid _ => True
    | .exit _ => True
    | _ => False

/-- The child is restarted at most `limit` times, and the next failure after that ends the daemon. -/
def Bounded (limit : ℕ) (c : ChildName) (calls : DaemonHistory) : Prop :=
  restarts c calls ≤ limit ∧ ∀ before e after, calls = before ++ e :: after →
    fails c e.op e.res = true → failures c before = limit → Ends after

/-- A call that does not count for the child. -/
def Neutral (c : ChildName) (op : DaemonSys) (r : op.Res) : Prop :=
  fails c op r = false ∧ forks c op r = false

section Neutral

variable {α : Type} {c : ChildName} (dSocket : ℤ) (fds : PollFds) (d : DaemonState)

theorem neutral_of_elsewhere {op : DaemonSys} {r : op.Res} (h : Elsewhere op) : Neutral c op r := by
  cases op <;> first | exact h.elim | exact ⟨rfl, rfl⟩

theorem always_neutral {Q : α → Prop} {p : DaemonProg α} (h : p.Always (fun op _ => Elsewhere op) Q) :
    p.Always (Neutral c) Q :=
  h.mono (fun _ _ hop => neutral_of_elsewhere hop) fun _ hq => hq

theorem written_neutral {Q : α → Prop} {r : FmLoop.WriteResult} {k : Bool → DaemonProg α}
    (hk : ∀ sent, (k sent).Always (Neutral c) Q) : (written d r >>= k).Always (Neutral c) Q :=
  (always_neutral (written_elsewhere d r)).bind fun sent _ => hk sent

theorem neutral_of_talks {site : Site} {pipes : IpcPipes} (hsite : ∀ c', site ≠ .probe c') {op : DaemonSys}
    {r : op.Res} (h : Talks site pipes op) : Neutral c op r := by
  cases op
  case select s _ _ =>
    obtain rfl : s = site := h.1
    cases s <;> first | exact ⟨rfl, rfl⟩ | exact absurd rfl (hsite _)
  case read s _ =>
    obtain rfl : s = site := h.1
    cases s <;> first | exact ⟨rfl, rfl⟩ | exact absurd rfl (hsite _)
  case uninitialized s _ =>
    obtain rfl : s = some site := h
    cases site <;> first | exact ⟨rfl, rfl⟩ | exact absurd rfl (hsite _)
  case write => exact ⟨rfl, rfl⟩
  case exit => exact ⟨rfl, rfl⟩
  all_goals exact h.elim

theorem acknowledgeClient_neutral (c' : ChildName) :
    (acknowledgeClient d c').Always (Neutral c) fun _ => True :=
  (acknowledgeClient_talks d c').mono (fun _ _ hop => neutral_of_talks (by rintro _ ⟨⟩) hop) fun _ h => h

theorem reportmanFmGetTimers_neutral :
    (reportmanFmGetTimers d).Always (Neutral c) fun d' => d'.child c = d.child c := by
  refine (reportmanFmGetTimers_reads d).mono ?_ ?_
  · rintro op _ (hop | rfl)
    · exact neutral_of_talks (by rintro _ ⟨⟩) hop.talks
    · exact ⟨rfl, rfl⟩
  · rintro _ ⟨backup, transfer, rfl⟩
    cases c <;> rfl

/-- The reads of the poll loop. -/
theorem childMessage_neutral {site : Site} (c' : ChildName) (timeoutSecs : ℕ)
    (hsite : ∀ c'', site ≠ .probe c'') :
    (childMessage dSocket fds d site c' timeoutSecs).Always (Neutral c)
      fun d' => d'.child c = d.child c := by
  refine Program.Always.bind ((getCommand_reads d site c' timeoutSecs).mono
    (fun _ _ hop => neutral_of_talks hsite hop.talks) fun _ h => h) ?_
  rintro _ ⟨command, rfl⟩
  split_ifs
  · exact always_neutral (cleanClose_elsewhere _ _ _ _ _)
  · cases c <;> rfl

theorem startChildProcess_neutral {c' : ChildName} (hne : c' ≠ c) (p : ChildProcess)
    (extraArgs : List String) :
    (startChildProcess dSocket p c' extraArgs).Always (Neutral c) fun _ => True := by
  rintro (_ | ⟨childRead, childWrite⟩)
  · exact ⟨⟨rfl, rfl⟩, trivial⟩
  refine ⟨⟨rfl, rfl⟩, ?_⟩
  rintro (_ | ⟨parentRead, parentWrite⟩)
  · exact ⟨⟨rfl, rfl⟩, trivial⟩
  refine ⟨⟨rfl, rfl⟩, ?_⟩
  rintro (_ | pid)
  · exact ⟨⟨rfl, rfl⟩, always_neutral (exitWith_elsewhere _ _)⟩
  · exact ⟨⟨rfl, by simp [forks, hne]⟩, fun _ => ⟨⟨rfl, rfl⟩, fun _ => ⟨⟨rfl, rfl⟩, trivial⟩⟩⟩

theorem childSpawn_neutral {c' : ChildName} (hne : c' ≠ c) (extraArgs : List String) :
    (childSpawn dSocket d c' extraArgs).Always (Neutral c) fun d' => d'.child c = d.child c :=
  (startChildProcess_neutral dSocket hne (d.child c') extraArgs).bind fun _ _ =>
    (acknowledgeClient_neutral _ c').bind fun _ _ => DaemonState.child_setChild_ne d hne.symm _

theorem prepare_neutral : (prepare dSocket d).Always (Neutral c) fun r => r.2.child c = d.child c := by
  obtain ⟨next, hprepare, hnext⟩ := prepare_prepares dSocket d
  rw [hprepare]
  exact fun command => ⟨⟨rfl, rfl⟩,
    (hnext command).mono (fun _ _ hop => neutral_of_elsewhere hop.elsewhere) fun _ hsame => hsame c⟩

variable {post : DaemonState → DaemonProg DaemonState}
  (hpost : ∀ d : DaemonState, (post d).Always (Neutral c) fun d' => d'.child c = d.child c)
include hpost

theorem restartChild_neutral {c' : ChildName} (hne : c' ≠ c) :
    (restartChild dSocket d c' post).Always (Neutral c) fun d' => d'.child c = d.child c := by
  unfold restartChild
  dsimp only
  split_ifs
  · exact always_neutral (exitWith_elsewhere _ _)
  · refine (childSpawn_neutral dSocket _ hne []).bind fun d₁ h₁ => (hpost d₁).bind fun d₂ h₂ => ?_
    have hsame : d₂.child c = d.child c := by
      rw [h₂, h₁, DaemonState.child_setChild_ne d hne.symm]
    cases c <;> exact hsame

theorem healthProbeChildProcess_neutral {c' : ChildName} (hne : c' ≠ c) :
    (healthProbeChildProcess dSocket d c' post).Always (Neutral c) fun d' => d'.child c = d.child c := by
  have hsame : ∀ p, (({ d with current := some c' } : DaemonState).setChild c' p).child c = d.child c := by
    intro p
    rw [DaemonState.child_setChild_ne _ hne.symm]
    cases c <;> rfl
  have hrestart : ∀ d₁ : DaemonState, d₁.child c = d.child c →
      (restartChild dSocket d₁ c' post).Always (Neutral c) fun d' => d'.child c = d.child c :=
    fun d₁ h₁ => (restartChild_neutral dSocket d₁ hpost hne).mono (fun _ _ h => h) fun d' h' => h'.trans h₁
  rw [healthProbeChildProcess_eq]
  intro isAlive
  refine ⟨⟨by simp [fails, hne], rfl⟩, ?_⟩
  cases isAlive with
  | false => exact hrestart _ (hsame _)
  | true =>
  have hgiveUp : ∀ d₁ : DaemonState, d₁.child c = d.child c →
      (Program.call (.kill c' (d.child c').pid sigterm) fun _ => .call (.waitpid (d.child c').pid) fun _ =>
        restartChild dSocket d₁ c' post : DaemonProg DaemonState).Always (Neutral c)
        fun d' => d'.child c = d.child c :=
    fun d₁ h₁ _ => ⟨⟨by simp [fails, hne], rfl⟩, fun _ => ⟨⟨rfl, rfl⟩, hrestart d₁ h₁⟩⟩
  change (answersProbe _ c' >>= _).Always _ _
  rw [answersProbe_bind rfl]
  refine fun r => ⟨⟨rfl, rfl⟩, written_neutral _ fun _ => ?_⟩
  rintro (_ | _ | _)
  · exact ⟨⟨by simp [fails, hne], rfl⟩, hgiveUp _ (by rw [DaemonState.setChild_setChild, hsame])⟩
  · exact ⟨⟨by simp [fails, hne], rfl⟩, hgiveUp _ (by rw [DaemonState.setChild_setChild, hsame])⟩
  refine ⟨⟨by simp [fails, hne], rfl⟩, ?_⟩
  rintro (_ | bytes)
  · exact ⟨⟨by simp [fails, hne], rfl⟩, hgiveUp _ (by rw [DaemonState.setChild_setChild, hsame])⟩
  refine ⟨⟨by simp [fails, hne], rfl⟩, received_always _ _ (fun _ => ⟨by simp [fails, hne], rfl⟩) fun msg => ?_⟩
  cases ipcIsCommand msg with
  | false => exact hgiveUp _ (by rw [DaemonState.setChild_setChild, hsame])
  | true => exact hsame _

end Neutral

section Tally

variable {c : ChildName} {limit : UInt16} {k : ℕ} {h : DaemonHistory} {d : DaemonState}

def forkCount (c : ChildName) (calls : DaemonHistory) : ℕ := calls.countP fun e => forks c e.op e.res

def Piped (calls : DaemonHistory) : Prop := ∃ e ∈ calls, e.op = .pipe

/-- Each failure up to the limit, and the next one, is followed by a restart. -/
def Spent (c : ChildName) (limit : UInt16) (h : DaemonHistory) : Prop :=
  ∀ before e after, h = before ++ e :: after → fails c e.op e.res = true →
    failures c before ≤ limit.toNat → Piped after

/-- Between two probes of the child: its counter has counted all failures. -/
structure Tally (c : ChildName) (limit : UInt16) (k : ℕ) (h : DaemonHistory) (d : DaemonState) : Prop where
  counted : (d.child c).retries.toNat = failures c h % 65536
  limited : (d.child c).maxRetries = limit
  started : forkCount c h ≤ failures c h + k
  spent : Spent c limit h

/-- After a failure that has not been counted yet. -/
structure Failed (c : ChildName) (limit : UInt16) (h : DaemonHistory) (d : DaemonState) : Prop where
  some_failure : 0 < failures c h
  counted : (d.child c).retries.toNat = (failures c h - 1) % 65536
  limited : (d.child c).maxRetries = limit
  started : forkCount c h ≤ failures c h
  spent : ∀ before e after, h = before ++ e :: after → fails c e.op e.res = true →
    failures c before ≤ limit.toNat → Piped after ∨ failures c h = failures c before + 1

theorem failures_append (c : ChildName) (h h' : DaemonHistory) :
    failures c (h ++ h') = failures c h + failures c h' := List.countP_append

theorem forkCount_append (c : ChildName) (h h' : DaemonHistory) :
    forkCount c (h ++ h') = forkCount c h + forkCount c h' := List.countP_append

theorem failures_eq_zero {ext : DaemonHistory} (hext : ∀ e ∈ ext, fails c e.op e.res = false) :
    failures c ext = 0 := by
  rw [failures, List.countP_eq_zero]
  intro e he
  simp [hext e he]

theorem forkCount_eq_zero {ext : DaemonHistory} (hext : ∀ e ∈ ext, forks c e.op e.res = false) :
    forkCount c ext = 0 := by
  rw [forkCount, List.countP_eq_zero]
  intro e he
  simp [hext e he]

/-- A failure in an extended history that is none of the extension. -/
theorem split_before {ext before after : DaemonHistory} {e : Event DaemonSys DaemonSys.Res Unit}
    (hsplit : h ++ ext = before ++ e :: after) (he : e ∉ ext) :
    ∃ mid, h = before ++ e :: mid ∧ after = mid ++ ext := by
  rcases List.append_eq_append_iff.mp hsplit with ⟨l, hbefore, hext⟩ | ⟨l, hh, hrest⟩
  · exact absurd (hext ▸ List.mem_append_right l (List.mem_cons_self ..)) he
  · cases l with
    | nil =>
      rw [List.nil_append] at hrest
      exact absurd (hrest ▸ List.mem_cons_self ..) he
    | cons e' mid =>
      obtain ⟨rfl, rfl⟩ := List.cons.inj hrest
      exact ⟨mid, hh, rfl⟩

theorem Piped.append {after : DaemonHistory} (ha : Piped after) (ext : DaemonHistory) :
    Piped (after ++ ext) := by
  obtain ⟨e, he, hop⟩ := ha
  exact ⟨e, List.mem_append_left ext he, hop⟩

/-- No failure among these calls. -/
def Harmless (c : ChildName) (ext : DaemonHistory) : Prop := ∀ e ∈ ext, fails c e.op e.res = false

theorem Spent.append (hs : Spent c limit h) {ext : DaemonHistory} (hext : Harmless c ext) :
    Spent c limit (h ++ ext) := by
  intro before e after hsplit hfails hlimit
  have he : e ∉ ext := fun he => by simp [hext e he] at hfails
  obtain ⟨mid, hh, rfl⟩ := split_before hsplit he
  exact (hs before e mid hh hfails hlimit).append ext

/-- The two states agree in what the tally is about. -/
def SameCounts (c : ChildName) (d d' : DaemonState) : Prop :=
  (d'.child c).retries = (d.child c).retries ∧ (d'.child c).maxRetries = (d.child c).maxRetries

theorem SameCounts.refl : SameCounts c d d := ⟨rfl, rfl⟩

theorem SameCounts.of_eq {d' : DaemonState} (h : d'.child c = d.child c) : SameCounts c d d' := by
  rw [SameCounts, h]
  exact ⟨rfl, rfl⟩

theorem Tally.append (ht : Tally c limit k h d) {ext : DaemonHistory}
    (hext : ∀ e ∈ ext, Neutral c e.op e.res) {d' : DaemonState} (hd : SameCounts c d d') :
    Tally c limit k (h ++ ext) d' := by
  have hfails : Harmless c ext := fun e he => (hext e he).1
  have hzero := failures_eq_zero hfails
  have hforks := forkCount_eq_zero fun e he => (hext e he).2
  constructor
  · rw [hd.1, ht.counted, failures_append, hzero, Nat.add_zero]
  · rw [hd.2, ht.limited]
  · rw [forkCount_append, failures_append, hzero, hforks]
    exact ht.started
  · exact ht.spent.append hfails

theorem Failed.append (hf : Failed c limit h d) {ext : DaemonHistory}
    (hext : ∀ e ∈ ext, Neutral c e.op e.res) {d' : DaemonState} (hd : SameCounts c d d') :
    Failed c limit (h ++ ext) d' := by
  have hfails : Harmless c ext := fun e he => (hext e he).1
  have hzero := failures_eq_zero hfails
  have hforks := forkCount_eq_zero fun e he => (hext e he).2
  constructor
  · rw [failures_append]
    exact Nat.lt_of_lt_of_le hf.some_failure (Nat.le_add_right _ _)
  · rw [hd.1, hf.counted, failures_append, hzero, Nat.add_zero]
  · rw [hd.2, hf.limited]
  · rw [forkCount_append, failures_append, hzero, hforks]
    exact hf.started
  · intro before e after hsplit hfe hlimit
    have he : e ∉ ext := fun he => by simp [hfails e he] at hfe
    obtain ⟨mid, hh, rfl⟩ := split_before hsplit he
    rw [failures_append, hzero, Nat.add_zero]
    exact (hf.spent before e mid hh hfe hlimit).imp (fun hp => hp.append ext) id

theorem Tally.fail (ht : Tally c limit 1 h d) {e : Event DaemonSys DaemonSys.Res Unit}
    (he : fails c e.op e.res = true) (hforks : forks c e.op e.res = false) {d' : DaemonState}
    (hd : SameCounts c d d') : Failed c limit (h ++ [e]) d' := by
  have hone : failures c [e] = 1 := by simp [failures, he]
  have hzero : forkCount c [e] = 0 := forkCount_eq_zero (by simpa using hforks)
  constructor
  · rw [failures_append, hone]
    exact Nat.succ_pos _
  · rw [hd.1, ht.counted, failures_append, hone, Nat.add_sub_cancel]
  · rw [hd.2, ht.limited]
  · rw [forkCount_append, failures_append, hone, hzero]
    exact ht.started
  · intro before e' after hsplit hfe hlimit
    rcases List.append_eq_append_iff.mp hsplit with ⟨l, hbefore, hrest⟩ | ⟨l, hh, hrest⟩
    · cases l with
      | nil =>
        rw [List.append_nil] at hbefore
        right
        rw [hbefore, failures_append, hone]
      | cons a l =>
        have hlen := congrArg List.length hrest
        simp at hlen
    · cases l with
      | nil =>
        right
        rw [List.append_nil] at hh
        rw [hh, failures_append, hone]
      | cons a l =>
        obtain ⟨rfl, rfl⟩ := List.cons.inj hrest
        exact .inl ((ht.spent before _ l hh hfe hlimit).append [e])

/-- What holds of a history however the run has ended. -/
def Closed (c : ChildName) (limit : UInt16) (h : DaemonHistory) : Prop :=
  forkCount c h ≤ failures c h + 1 ∧ Spent c limit h

theorem Tally.closed (ht : Tally c limit 1 h d) : Closed c limit h := ⟨ht.started, ht.spent⟩

/-- The counter was above the limit, so the failure was not one up to the limit. -/
theorem Failed.closed (hf : Failed c limit h d) (hmax : (d.child c).retries > (d.child c).maxRetries) :
    Closed c limit h := by
  refine ⟨hf.started.trans (Nat.le_succ _), fun before e after hsplit hfe hlimit => ?_⟩
  rcases hf.spent before e after hsplit hfe hlimit with hp | hlast
  · exact hp
  · have hcounted := hf.counted
    have hlim := hf.limited
    rw [hlast, Nat.add_sub_cancel] at hcounted
    have hsmall : limit.toNat < 65536 := limit.toNat_lt
    rw [Nat.mod_eq_of_lt (by omega)] at hcounted
    rw [gt_iff_lt, UInt16.lt_iff_toNat_lt, hlim, hcounted] at hmax
    omega

/-- The calls with which a process is started, once if `n` is 1. -/
def Spawned (c : ChildName) (n : ℕ) (h h' : DaemonHistory) : Prop :=
  ∃ first ext, h' = h ++ first :: ext ∧ first.op = .pipe ∧ Harmless c (first :: ext) ∧
    forkCount c (first :: ext) ≤ n

/-- A restart pays for the failure. -/
theorem Failed.spawned (hf : Failed c limit h d) {h' : DaemonHistory} (hs : Spawned c 1 h h') :
    forkCount c h' ≤ failures c h' + 1 ∧ failures c h' = failures c h ∧ Spent c limit h' := by
  obtain ⟨first, ext, rfl, hpipe, hext, hforks⟩ := hs
  have hzero := failures_eq_zero hext
  refine ⟨?_, ?_, fun before e after hsplit hfe hlimit => ?_⟩
  · rw [forkCount_append, failures_append, hzero]
    have hstarted := hf.started
    omega
  · rw [failures_append, hzero, Nat.add_zero]
  · have he : e ∉ first :: ext := fun he => by simp [hext e he] at hfe
    obtain ⟨mid, hh, rfl⟩ := split_before hsplit he
    exact ⟨first, List.mem_append_right mid (List.mem_cons_self ..), hpipe⟩

theorem spawned_first {e : Event DaemonSys DaemonSys.Res Unit} (hop : e.op = .pipe)
    (he : Neutral c e.op e.res) : Spawned c 0 h (h ++ [e]) :=
  ⟨e, [], rfl, hop, by simpa [Harmless] using he.1, by simpa [forkCount] using he.2⟩

theorem Spawned.fork {h' : DaemonHistory} {n : ℕ} (hs : Spawned c n h h')
    {e : Event DaemonSys DaemonSys.Res Unit} (he : fails c e.op e.res = false) :
    Spawned c (n + 1) h (h' ++ [e]) := by
  obtain ⟨first, rest, rfl, hpipe, hrest, hforks⟩ := hs
  refine ⟨first, rest ++ [e], by simp, hpipe, ?_, ?_⟩
  · intro e' he'
    rcases List.mem_append.mp (List.cons_append ▸ he' : e' ∈ (first :: rest) ++ [e]) with he' | he'
    · exact hrest e' he'
    · rw [List.mem_singleton.mp he']
      exact he
  · rw [← List.cons_append, forkCount_append]
    exact Nat.add_le_add hforks List.countP_le_length

theorem Spawned.append {h' : DaemonHistory} {n : ℕ} (hs : Spawned c n h h') {ext : DaemonHistory}
    (hext : ∀ e ∈ ext, Neutral c e.op e.res) : Spawned c n h (h' ++ ext) := by
  obtain ⟨first, rest, rfl, hpipe, hrest, hforks⟩ := hs
  refine ⟨first, rest ++ ext, by simp, hpipe, ?_, ?_⟩
  · intro e he
    rcases List.mem_append.mp (List.cons_append ▸ he : e ∈ (first :: rest) ++ ext) with he | he
    · exact hrest e he
    · exact (hext e he).1
  · rw [← List.cons_append, forkCount_append, forkCount_eq_zero fun e he => (hext e he).2]
    exact hforks

end Tally

section Runs

variable {α β : Type} {c : ChildName} {limit : UInt16} {h : DaemonHistory} {d : DaemonState}
  {sched : ℕ → Environment} {dSocket : ℤ} {fds : PollFds}

/-- How a function of the daemon leaves the tally. -/
def Kept (c : ChildName) (limit : UInt16) (o : Option DaemonState) (s : Unit × DaemonHistory) : Prop :=
  match o with
  | some d => Tally c limit 1 s.2 d
  | none => Closed c limit s.2

/-- A first part that does not count. -/
theorem neutral_bind {Q : α → Prop} {p : DaemonProg α} {f : α → DaemonProg β}
    {post : Option β → Unit × DaemonHistory → Prop} (hp : p.Always (Neutral c) Q)
    (hf : ∀ a ext, Q a → (∀ e ∈ ext, Neutral c e.op e.res) →
      (scripted answer sched).Meets post (f a) ((), h ++ ext))
    (hend : ∀ ext, (∀ e ∈ ext, Neutral c e.op e.res) → post none ((), h ++ ext)) :
    (scripted answer sched).Meets post (p >>= f) ((), h) := by
  refine Terms.Meets.bind (hp.scripted.mono ?_)
  rintro o ⟨⟨⟩, h'⟩ ⟨hQ, ext, rfl, hext⟩
  cases o with
  | none => exact hend ext hext
  | some a => exact hf a ext (hQ a rfl) hext

theorem neutral_kept {p : DaemonProg DaemonState} (ht : Tally c limit 1 h d)
    (hp : p.Always (Neutral c) fun d' => d'.child c = d.child c) :
    (scripted answer sched).Meets (Kept c limit) p ((), h) := by
  refine hp.scripted.mono ?_
  rintro o ⟨⟨⟩, h'⟩ ⟨hQ, ext, rfl, hext⟩
  cases o with
  | none => exact (ht.append hext .refl).closed
  | some d' => exact ht.append hext (.of_eq (hQ d' rfl))

/-- One more call that does not count. -/
theorem Spawned.snoc {h' : DaemonHistory} {n : ℕ} (hs : Spawned c n h h')
    {e : Event DaemonSys DaemonSys.Res Unit} (he : Neutral c e.op e.res) : Spawned c n h (h' ++ [e]) :=
  hs.append (by simpa using he)

theorem Spawned.mono {h' : DaemonHistory} {n : ℕ} (hs : Spawned c n h h') (hn : n ≤ 1) :
    Spawned c 1 h h' := by
  obtain ⟨first, rest, heq, hpipe, hrest, hforks⟩ := hs
  exact ⟨first, rest, heq, hpipe, hrest, hforks.trans hn⟩

theorem startChildProcess_spawned (p : ChildProcess) (extraArgs : List String) :
    (scripted answer sched).Meets (fun o s => (∀ p', o = some p' → p'.retries = p.retries ∧
      p'.maxRetries = p.maxRetries) ∧ Spawned c 1 h s.2)
      (startChildProcess dSocket p c extraArgs) ((), h) := by
  have hsame : ∀ p', some p = some p' → p'.retries = p.retries ∧ p'.maxRetries = p.maxRetries := by
    rintro _ ⟨⟩
    exact ⟨rfl, rfl⟩
  refine scripted_each fun (first : Option (ℤ × ℤ)) _ _ => ?_
  have hfirst : Spawned c 0 h (h ++ [⟨.pipe, first, (), ()⟩]) := spawned_first rfl ⟨rfl, rfl⟩
  rcases first with _ | ⟨childRead, childWrite⟩
  · exact scripted_ret ⟨hsame, hfirst.mono (Nat.zero_le 1)⟩
  refine scripted_each fun (second : Option (ℤ × ℤ)) _ _ => ?_
  have hsecond := hfirst.snoc (e := ⟨.pipe, second, (), ()⟩) ⟨rfl, rfl⟩
  rcases second with _ | ⟨parentRead, parentWrite⟩
  · exact scripted_ret ⟨hsame, hsecond.mono (Nat.zero_le 1)⟩
  refine scripted_each fun (pid : Option ℤ) _ _ => ?_
  have hfork := hsecond.fork (e := ⟨.fork c [dSocket, parentWrite, childRead]
    (childArgs c parentRead childWrite extraArgs), pid, (), ()⟩) rfl
  rcases pid with _ | pid
  · exact scripted_each fun _ _ _ => scripted_halt ⟨by simp, hfork.snoc ⟨rfl, rfl⟩⟩
  · refine scripted_each fun _ _ _ => scripted_each fun _ _ _ => scripted_ret ⟨?_, ?_⟩
    · rintro _ ⟨⟩
      exact ⟨rfl, rfl⟩
    · exact (hfork.snoc ⟨rfl, rfl⟩).snoc ⟨rfl, rfl⟩

theorem childSpawn_spawned (extraArgs : List String) :
    (scripted answer sched).Meets (fun o s => (∀ d', o = some d' →
      (d'.child c).retries = (d.child c).retries ∧ (d'.child c).maxRetries = (d.child c).maxRetries) ∧
      Spawned c 1 h s.2) (childSpawn dSocket d c extraArgs) ((), h) := by
  refine Terms.Meets.bind ((startChildProcess_spawned (d.child c) extraArgs).mono ?_)
  rintro o ⟨⟨⟩, h'⟩ ⟨hsame, hspawned⟩
  cases o with
  | none => exact ⟨by simp, hspawned⟩
  | some p =>
    refine neutral_bind (c := c) (acknowledgeClient_neutral _ c) (fun _ ext _ hext => ?_) fun ext hext => ?_
    · refine scripted_ret ⟨?_, hspawned.append hext⟩
      rintro _ ⟨⟩
      rw [DaemonState.child_setChild]
      exact hsame p rfl
    · exact ⟨by simp, hspawned.append hext⟩

theorem Tally.snoc (ht : Tally c limit 1 h d) {e : Event DaemonSys DaemonSys.Res Unit}
    (he : Neutral c e.op e.res) {d' : DaemonState} (hd : SameCounts c d d') :
    Tally c limit 1 (h ++ [e]) d' :=
  ht.append (by simpa using he) hd

section Post

variable {post : DaemonState → DaemonProg DaemonState}
  (hpost : ∀ d : DaemonState, (post d).Always (Neutral c) fun d' => d'.child c = d.child c)
include hpost

theorem restartChild_kept (hf : Failed c limit h d) :
    (scripted answer sched).Meets (Kept c limit) (restartChild dSocket d c post) ((), h) := by
  unfold restartChild
  dsimp only
  split_ifs with hmax
  · refine scripted_each fun r _ _ => scripted_halt ?_
    have hexit : ∀ e ∈ [(⟨.exit .failure, r, (), ()⟩ : Event DaemonSys DaemonSys.Res Unit)],
        Neutral c e.op e.res := by
      simp [Neutral, fails, forks]
    exact (hf.append hexit .refl).closed hmax
  · refine Terms.Meets.bind ((childSpawn_spawned []).mono ?_)
    rintro o ⟨⟨⟩, h'⟩ ⟨hsame, hspawned⟩
    obtain ⟨hforks, hfailures, hspent⟩ := hf.spawned hspawned
    cases o with
    | none => exact ⟨hforks, hspent⟩
    | some d₁ =>
      obtain ⟨hretries, hmaxRetries⟩ := hsame d₁ rfl
      rw [DaemonState.child_setChild] at hretries hmaxRetries
      have ht : Tally c limit 1 h' d₁ := by
        refine ⟨?_, hmaxRetries.trans hf.limited, hforks, hspent⟩
        have hcounted := hf.counted
        have hsome := hf.some_failure
        rw [hretries, hfailures, UInt16.toNat_add, hcounted]
        simp only [UInt16.toNat_one]
        omega
      refine neutral_bind (hpost d₁) (fun d₂ ext hd₂ hext => ?_) fun ext hext => ?_
      · refine scripted_ret (ht.append hext (.of_eq ?_))
        cases c <;> exact hd₂
      · exact (ht.append hext .refl).closed

theorem giveUp_kept (hf : Failed c limit h d) (pid : ℤ) :
    (scripted answer sched).Meets (Kept c limit) (.call (.kill c pid sigterm) fun _ =>
      .call (.waitpid pid) fun _ => restartChild dSocket d c post) ((), h) := by
  refine scripted_each fun r₁ _ _ => scripted_each fun r₂ _ _ => ?_
  rw [List.append_assoc]
  refine restartChild_kept hpost (hf.append ?_ .refl)
  simp [Neutral, fails, forks, sigterm]

/-- The wait for the answer; `d₂` is the state for giving up. -/
theorem awaitAnswer_kept {d₂ : DaemonState} {pipes : IpcPipes} {pid : ℤ} (ht : Tally c limit 1 h d)
    (hd : SameCounts c d d₂) :
    (scripted answer sched).Meets (Kept c limit) (awaitAnswer d c pipes fun answered =>
      if answered then .ret d else .call (.kill c pid sigterm) fun _ => .call (.waitpid pid) fun _ =>
        restartChild dSocket d₂ c post) ((), h) := by
  refine scripted_each fun (selected : SelectResult) _ _ => ?_
  have hselect : ∀ r : SelectResult, r ≠ .ready →
      Failed c limit (h ++ [⟨.select (.probe c) pipes.read ipcTimeout, r, (), ()⟩]) d₂ :=
    fun r hr => ht.fail (by simp [fails, hr]) rfl hd
  cases selected with
  | error => exact giveUp_kept hpost (hselect .error nofun) pid
  | timeout => exact giveUp_kept hpost (hselect .timeout nofun) pid
  | ready =>
  have ht₁ := ht.snoc (e := ⟨.select (.probe c) pipes.read ipcTimeout, .ready, (), ()⟩)
    ⟨by simp [fails], rfl⟩ .refl
  refine scripted_each fun (got : Option (List UInt8)) _ _ => ?_
  rcases got with _ | bytes
  · exact giveUp_kept hpost (ht₁.fail (by simp [fails]) rfl hd) pid
  dsimp only
  rw [received_bind]
  split_ifs with hlen hcommand
  · exact scripted_ret (ht₁.snoc ⟨by simp [fails, hcommand], rfl⟩ .refl)
  · exact giveUp_kept hpost (ht₁.fail (by simp [fails, hlen, hcommand]) rfl hd) pid
  · have ht₂ := ht₁.snoc (e := ⟨.read (.probe c) pipes.read, some bytes, (), ()⟩)
      ⟨by simp [fails, hlen], rfl⟩ .refl
    refine scripted_each fun (msg : UInt64) _ _ => ?_
    by_cases hcommand : ipcIsCommand msg = true
    · rw [if_pos hcommand]
      exact scripted_ret (ht₂.snoc ⟨by simp [fails, hcommand], rfl⟩ .refl)
    · rw [if_neg hcommand]
      exact giveUp_kept hpost (ht₂.fail (by simp [fails, hcommand]) rfl hd) pid

theorem healthProbeChildProcess_own (ht : Tally c limit 1 h d) :
    (scripted answer sched).Meets (Kept c limit) (healthProbeChildProcess dSocket d c post) ((), h) := by
  have hsame : ∀ isAlive, SameCounts c d (({ d with current := some c } : DaemonState).setChild c
      { d.child c with isAlive := isAlive }) := by
    intro isAlive
    rw [SameCounts, DaemonState.child_setChild]
    exact ⟨rfl, rfl⟩
  rw [healthProbeChildProcess_eq]
  refine scripted_each fun (isAlive : Bool) _ _ => ?_
  cases isAlive with
  | false => exact restartChild_kept hpost (ht.fail (by simp [fails]) rfl (hsame false))
  | true =>
  have ht₁ := ht.snoc (e := ⟨.kill c (d.child c).pid 0, true, (), ()⟩) ⟨by simp [fails], rfl⟩ (hsame true)
  change (scripted answer sched).Meets (Kept c limit) (answersProbe _ c >>= _) _
  rw [answersProbe_bind rfl]
  refine scripted_each fun r _ _ => ?_
  have ht₂ := ht₁.snoc (e := ⟨.write (.probe c) (((({ d with current := some c } : DaemonState).setChild c
    { d.child c with isAlive := true }).child c).pipes.write) ipcCommandHealthProbe.toUInt64, r, (), ()⟩)
    ⟨rfl, rfl⟩ .refl
  refine neutral_bind (c := c) (always_neutral (written_elsewhere _ r)) (fun sent ext _ hext => ?_)
    fun ext hext => (ht₂.append hext .refl).closed
  refine awaitAnswer_kept hpost (ht₂.append hext .refl) ?_
  rw [DaemonState.setChild_setChild, SameCounts, DaemonState.child_setChild, DaemonState.child_setChild]
  exact ⟨rfl, rfl⟩

theorem healthProbeChildProcess_kept (ht : Tally c limit 1 h d) (c' : ChildName) :
    (scripted answer sched).Meets (Kept c limit) (healthProbeChildProcess dSocket d c' post) ((), h) := by
  by_cases hne : c' = c
  · subst hne
    exact healthProbeChildProcess_own hpost ht
  · exact neutral_kept ht (healthProbeChildProcess_neutral dSocket d hpost hne)

end Post

variable (dSocket fds)

theorem healthRound_kept (ht : Tally c limit 1 h d) :
    (scripted answer sched).Meets (Kept c limit) (healthRound dSocket fds d) ((), h) := by
  refine scripted_each fun (armed : Bool) _ _ => ?_
  have ht₁ := ht.snoc (e := ⟨.settime, armed, (), ()⟩) ⟨rfl, rfl⟩ .refl
  cases armed with
  | false => exact neutral_kept ht₁ (always_neutral (exitWith_elsewhere _ _))
  | true =>
  refine neutral_bind (c := c) (p := childMessage dSocket fds d (.drain .fm) .fm 1)
    (childMessage_neutral dSocket fds d .fm 1 nofun)
    (fun d₁ ext₁ hd₁ hext₁ => ?_) fun ext hext => (ht₁.append hext .refl).closed
  have ht₂ := ht₁.append hext₁ (.of_eq hd₁)
  refine neutral_bind (c := c) (p := childMessage dSocket fds d₁ (.drain .mon) .mon 1)
    (childMessage_neutral dSocket fds d₁ .mon 1 nofun)
    (fun d₂ ext₂ hd₂ hext₂ => ?_) fun ext hext => (ht₂.append hext .refl).closed
  have ht₃ := ht₂.append hext₂ (.of_eq hd₂)
  refine Terms.Meets.bind ((healthProbeChildProcess_kept reportmanFmGetTimers_neutral ht₃ .fm).mono ?_)
  rintro o ⟨⟨⟩, h'⟩ ho
  cases o with
  | none => exact ho
  | some d₃ => exact healthProbeChildProcess_kept (show ∀ d : DaemonState, (pure d : DaemonProg DaemonState).Always
      (Neutral c) fun d' => d'.child c = d.child c from fun _ => rfl) ho .mon

/-- What a round leaves, also when a client is still being served. -/
def RoundKept (c : ChildName) (limit : UInt16) (o : Option (Option DaemonState))
    (s : Unit × DaemonHistory) : Prop :=
  match o with
  | some (some d) => Tally c limit 1 s.2 d
  | _ => Closed c limit s.2

theorem handled_neutral {pollin : Bool} {handler : DaemonProg DaemonState}
    (hp : handler.Always (Neutral c) fun d' => d'.child c = d.child c) :
    (handled pollin d handler).Always (Neutral c) fun d' => d'.child c = d.child c := by
  unfold handled
  split_ifs
  · exact hp
  · exact rfl

theorem childrenHandled_kept (ht : Tally c limit 1 h d) (revents : DaemonRevents) :
    (scripted answer sched).Meets (Kept c limit) (childrenHandled dSocket fds d revents) ((), h) := by
  refine neutral_bind (c := c) (p := handled revents.fm.pollin d
    (childMessage dSocket fds d (.loop .fm) .fm 5)) (handled_neutral
    (childMessage_neutral dSocket fds d .fm 5 nofun))
    (fun d₁ ext₁ hd₁ hext₁ => ?_) fun ext hext => (ht.append hext .refl).closed
  have ht₁ := ht.append hext₁ (.of_eq hd₁)
  refine neutral_bind (c := c) (p := handled revents.mon.pollin d₁
    (childMessage dSocket fds d₁ (.loop .mon) .mon 5)) (handled_neutral
    (childMessage_neutral dSocket fds d₁ .mon 5 nofun))
    (fun d₂ ext₂ hd₂ hext₂ => ?_) fun ext hext => (ht₁.append hext .refl).closed
  have ht₂ := ht₁.append hext₂ (.of_eq hd₂)
  unfold handled
  split_ifs
  · exact healthRound_kept dSocket fds ht₂
  · exact scripted_ret ht₂

theorem daemonRound_kept (ht : Tally c limit 1 h d) (exchanges : ℕ) :
    (scripted answer sched).Meets (RoundKept c limit) (daemonRound dSocket fds exchanges d) ((), h) := by
  refine scripted_each fun (r : Except FmLoop.Errno DaemonRevents) _ _ => ?_
  have ht₁ := ht.snoc (e := ⟨.poll fds, r, (), ()⟩) ⟨rfl, rfl⟩ .refl
  rcases r with (_ | _) | revents
  · exact scripted_ret ht₁
  · refine neutral_bind (c := c) (p := killChildren) (always_neutral killChildren_elsewhere)
      (fun _ ext _ hext => ?_) fun ext hext => (ht₁.append hext .refl).closed
    exact scripted_each fun _ _ _ => scripted_halt
      ((ht₁.append hext .refl).snoc (e := ⟨.exit .failure, _, (), ()⟩) ⟨rfl, rfl⟩ .refl).closed
  have hsignal : (signalHandled dSocket fds d revents.signal.pollin).Always (Neutral c) fun _ => True := by
    unfold signalHandled
    split_ifs
    · exact always_neutral (signalMessage_elsewhere dSocket fds d)
    · trivial
  refine neutral_bind (p := signalHandled dSocket fds d revents.signal.pollin) hsignal (fun _ ext₁ _ hext₁ => ?_)
    fun ext hext => (ht₁.append hext .refl).closed
  have ht₂ := ht₁.append hext₁ .refl
  have hclient : (clientHandled dSocket fds d exchanges revents.client.pollin).Always (Neutral c)
      fun o => ∀ d', o = .done d' → Closing d d' := by
    unfold clientHandled
    split_ifs
    · exact always_neutral (clientMessage_elsewhere dSocket fds d exchanges)
    · rintro _ ⟨⟩
      exact ⟨d.closeRequested, rfl⟩
  refine neutral_bind (p := clientHandled dSocket fds d exchanges revents.client.pollin) hclient
    (fun served ext₂ hserved hext₂ => ?_) fun ext hext => (ht₂.append hext .refl).closed
  have ht₃ := ht₂.append hext₂ .refl
  cases served with
  | again => exact scripted_ret ht₃
  | serving => exact scripted_ret ht₃.closed
  | done d' =>
    obtain ⟨b, rfl⟩ := hserved d' rfl
    have ht₄ : Tally c limit 1 (h ++ [⟨.poll fds, .ok revents, (), ()⟩] ++ ext₁ ++ ext₂)
        { d with closeRequested := b } := by
      refine ht₂.append hext₂ (.of_eq ?_)
      cases c <;> rfl
    refine Terms.Meets.bind ((childrenHandled_kept dSocket fds ht₄ revents).mono ?_)
    rintro (_ | d₅) ⟨⟨⟩, h₅⟩ h₅'
    · exact h₅'
    · exact scripted_ret h₅'

theorem pollLoop_kept (exchanges rounds : ℕ) (ht : Tally c limit 1 h d) :
    (scripted answer sched).Meets (RoundKept c limit) (pollLoop dSocket fds exchanges rounds d)
      ((), h) := by
  induction rounds generalizing h d with
  | zero => exact scripted_ret ht
  | succ rounds ih =>
    refine Terms.Meets.bind ((daemonRound_kept dSocket fds ht exchanges).mono ?_)
    rintro (_ | _ | d') ⟨⟨⟩, h'⟩ h₁
    · exact h₁
    · exact scripted_ret h₁
    · exact ih h₁

theorem Tally.first (ht : Tally c limit 0 h d) : Tally c limit 1 h d :=
  ⟨ht.counted, ht.limited, ht.started.trans (Nat.le_succ _), ht.spent⟩

/-- The first start of the child. -/
theorem childSpawn_kept (ht : Tally c limit 0 h d) (extraArgs : List String) :
    (scripted answer sched).Meets (Kept c limit) (childSpawn dSocket d c extraArgs) ((), h) := by
  refine (childSpawn_spawned extraArgs).mono ?_
  rintro o ⟨⟨⟩, h'⟩ ⟨hsame, first, ext, rfl, -, hext, hforks⟩
  have hzero := failures_eq_zero hext
  have hstarted : forkCount c (h ++ first :: ext) ≤ failures c (h ++ first :: ext) + 1 := by
    rw [forkCount_append, failures_append, hzero]
    have hbefore := ht.started
    omega
  cases o with
  | none => exact ⟨hstarted, ht.spent.append hext⟩
  | some d' =>
    obtain ⟨hretries, hmaxRetries⟩ := hsame d' rfl
    refine ⟨?_, hmaxRetries.trans ht.limited, hstarted, ht.spent.append hext⟩
    rw [hretries, ht.counted, failures_append, hzero, Nat.add_zero]

theorem startUp_kept (ht : Tally c limit 0 h d) (directories : List String) :
    (scripted answer sched).Meets (fun o s => match o with
      | some r => Tally c limit 1 s.2 r.2
      | none => Closed c limit s.2) (startUp dSocket directories d) ((), h) := by
  have hprepare : ∀ (d₁ : DaemonState) (h₁ : DaemonHistory), Tally c limit 1 h₁ d₁ →
      (scripted answer sched).Meets (fun o s => match o with
        | some r => Tally c limit 1 s.2 r.2
        | none => Closed c limit s.2) (prepare dSocket d₁) ((), h₁) := by
    intro d₁ h₁ ht₁
    refine (prepare_neutral (c := c) dSocket d₁).scripted.mono ?_
    rintro (_ | r) ⟨⟨⟩, h₂⟩ ⟨hQ, ext, rfl, hext⟩
    · exact (ht₁.append hext .refl).closed
    · exact ht₁.append hext (.of_eq (hQ r rfl))
  cases c with
  | fm =>
    refine Terms.Meets.bind ((childSpawn_kept dSocket ht []).mono ?_)
    rintro (_ | d₁) ⟨⟨⟩, h₁⟩ ht₁
    · exact ht₁
    refine neutral_bind (reportmanFmGetTimers_neutral d₁) (fun d₂ ext₂ hd₂ hext₂ => ?_)
      fun ext hext => (Tally.append ht₁ hext .refl).closed
    have ht₂ := Tally.append ht₁ hext₂ (.of_eq hd₂)
    refine neutral_bind (childSpawn_neutral dSocket d₂ (nofun : ChildName.mon ≠ .fm) directories)
      (fun d₃ ext₃ hd₃ hext₃ => ?_) fun ext hext => (ht₂.append hext .refl).closed
    exact hprepare d₃ _ (ht₂.append hext₃ (.of_eq hd₃))
  | mon =>
    refine neutral_bind (childSpawn_neutral dSocket d (nofun : ChildName.fm ≠ .mon) [])
      (fun d₁ ext₁ hd₁ hext₁ => ?_) fun ext hext => (ht.append hext .refl).first.closed
    have ht₁ := ht.append hext₁ (.of_eq hd₁)
    refine neutral_bind (reportmanFmGetTimers_neutral d₁) (fun d₂ ext₂ hd₂ hext₂ => ?_)
      fun ext hext => (ht₁.append hext .refl).first.closed
    have ht₂ := ht₁.append hext₂ (.of_eq hd₂)
    refine Terms.Meets.bind ((childSpawn_kept dSocket ht₂ directories).mono ?_)
    rintro (_ | d₃) ⟨⟨⟩, h₃⟩ ht₃
    · exact ht₃
    · exact hprepare d₃ h₃ ht₃

theorem daemonMain_closed (ht : Tally c limit 0 h d) (directories : List String)
    (exchanges rounds : ℕ) :
    (scripted answer sched).Meets (fun _ s => Closed c limit s.2)
      (daemonMain dSocket directories exchanges rounds d) ((), h) := by
  refine Terms.Meets.bind ((startUp_kept dSocket ht directories).mono ?_)
  rintro (_ | ⟨fds, d₁⟩) ⟨⟨⟩, h₁⟩ ht₁
  · exact ht₁
  refine Terms.Meets.bind ((pollLoop_kept dSocket fds exchanges rounds ht₁).mono ?_)
  rintro (_ | _ | d₂) ⟨⟨⟩, h₂⟩ ht₂
  · exact ht₂
  · exact scripted_ret ht₂
  · rw [Terms.enters_some]
    exact scripted_ret (Tally.closed ht₂)

end Runs

section Bound

variable {c : ChildName} {limit : UInt16} {calls : DaemonHistory}

theorem failures_cons_of_pos {e : Event DaemonSys DaemonSys.Res Unit} (he : fails c e.op e.res = true) :
    failures c (e :: calls) = failures c calls + 1 := by
  simp [failures, he]

theorem failures_cons_of_neg {e : Event DaemonSys DaemonSys.Res Unit}
    (he : ¬ fails c e.op e.res = true) : failures c (e :: calls) = failures c calls := by
  simp [failures, he]

/-- The failure with a given number of failures before it. -/
theorem exists_failure {n : ℕ} (h : n < failures c calls) : ∃ before e after,
    calls = before ++ e :: after ∧ fails c e.op e.res = true ∧ failures c before = n := by
  induction calls generalizing n with
  | nil => simp [failures] at h
  | cons e calls ih =>
    by_cases he : fails c e.op e.res = true
    · cases n with
      | zero => exact ⟨[], e, calls, rfl, he, rfl⟩
      | succ n =>
        rw [failures_cons_of_pos he] at h
        have hn : n < failures c calls := by omega
        obtain ⟨before, e', after, rfl, he', hbefore⟩ := ih hn
        refine ⟨e :: before, e', after, rfl, he', ?_⟩
        rw [failures_cons_of_pos he, hbefore]
    · rw [failures_cons_of_neg he] at h
      obtain ⟨before, e', after, rfl, he', hbefore⟩ := ih h
      refine ⟨e :: before, e', after, rfl, he', ?_⟩
      rw [failures_cons_of_neg he, hbefore]

theorem Closed.bounded_iff (h : Closed c limit calls) :
    Bounded limit.toNat c calls ↔ failures c calls ≤ limit.toNat := by
  obtain ⟨hforks, hspent⟩ := h
  constructor
  · rintro ⟨-, hends⟩
    by_contra hmore
    obtain ⟨before, e, after, rfl, he, hbefore⟩ := exists_failure (Nat.lt_of_not_le hmore)
    obtain ⟨e', he', hop⟩ := hspent before e after rfl he hbefore.le
    have hend := hends before e after rfl he hbefore e' he'
    rw [hop] at hend
    exact hend
  · intro hfew
    refine ⟨?_, fun before e after hsplit he hbefore => ?_⟩
    · have hrestarts : forkCount c calls - 1 ≤ failures c calls := by omega
      exact hrestarts.trans hfew
    · rw [hsplit, failures_append, hbefore, failures_cons_of_pos he] at hfew
      omega

end Bound

/-- In a run of the daemon the restarts of a child are bounded exactly if its probes fail no more often
than the limit says. -/
theorem daemonMain_bounded_iff (dSocket : ℤ) (directories : List String) (exchanges rounds : ℕ)
    (maxRetries : ChildName → UInt16) (c : ChildName) (sched : ℕ → Environment) :
    let calls := trace answer sched
      (daemonMain dSocket directories exchanges rounds (initially maxRetries)) 0 ()
    Bounded (maxRetries c).toNat c calls ↔ failures c calls ≤ (maxRetries c).toNat := by
  intro calls
  have ht : Tally c (maxRetries c) 0 [] (initially maxRetries) := by
    refine ⟨?_, ?_, le_rfl, ?_⟩
    · cases c <;> rfl
    · cases c <;> rfl
    · intro before e after hsplit
      simp at hsplit
  have hclosed : Closed c (maxRetries c) ([] ++ calls) :=
    scripted_run (daemonMain_closed dSocket ht directories exchanges rounds)
  exact hclosed.bounded_iff

/-- With a limit of zero a child that does not answer is restarted all the same. -/
theorem not_bounded_zero :
    ¬ Bounded 0 .mon (trace answer (answering [0, 0, 0, 0, 0, 0, 0, 0] 0)
      (daemonMain 4 [] 0 1 (initially fun _ => 0)) 0 ()) :=
  fun h => absurd h.1 (by decide +kernel)

end Reportman.Restarts
