import Mathlib
import Reportman.Daemon

/-!
# What a health probe proves

A probe is taken as answered when a command word comes back in time. Who has written the words that
the daemon reads, and why, only the environment knows; `replies` says of each read which write of the
daemon the child was replying to, if any.
-/
namespace Reportman.HealthProbe
open Resumable Ipc Daemon
open FmLoop (WriteResult sigterm)

section Call

variable (dSocket : ℤ) (d : DaemonState) (c : ChildName) (post : DaemonState → DaemonProg DaemonState)
  (replies : ℕ → Option ℕ) (sched : ℕ → Environment) (t : ℕ)

/-- `start_child_process` has been called. -/
def Restarts (calls : DaemonHistory) : Prop := ∃ e ∈ calls, e.op = .pipe

/-- Among the calls from the `t`-th on a probe is written, and a whole acknowledgement read with which
the child replies to it. -/
def Answered (calls : DaemonHistory) : Prop :=
  ∃ i j fd fd' bytes,
    calls[i]? = some ⟨.write (.probe c) fd ipcCommandHealthProbe.toUInt64, .written, (), ()⟩ ∧
    calls[j]? = some ⟨.read (.probe c) fd', some bytes, (), ()⟩ ∧
    bytes.length = 8 ∧ (wordOf bytes).toUInt64 = ipcCommandAck.toUInt64 ∧
    replies (t + j) = some (t + i)

/-- A call of `__health_probe_child_process` that returns has set about restarting the child or has
been answered by it. -/
def Sound : Prop :=
  (run answer sched (healthProbeChildProcess dSocket d c post) t ()).result ≠ none →
    ¬ Restarts (trace answer sched (healthProbeChildProcess dSocket d c post) t ()) →
      Answered c replies t (trace answer sched (healthProbeChildProcess dSocket d c post) t ())

/-- What the read behind a probe finds looks like an answer and is none: a command other than the
acknowledgement of this probe, or the end of the pipe and a command in the unset variable. -/
def Misleads (bytes : List UInt8) : Prop :=
  (bytes.length = 8 ∧ ipcIsCommand (wordOf bytes).toUInt64 = true ∧
    ¬ ((wordOf bytes).toUInt64 = ipcCommandAck.toUInt64 ∧
      sched (t + 1) (.write (.probe c) (d.child c).pipes.write ipcCommandHealthProbe.toUInt64) =
        .written ∧
      replies (t + 3) = some (t + 1))) ∨
  (bytes.length ≠ 8 ∧
    ipcIsCommand (sched (t + 4) (.uninitialized (some (.probe c)) bytes)) = true)

/-- A call that is misled: the child's process exists, the probe has not ended the daemon, the pipe is
readable in time and what is read misleads. -/
def Misled : Prop :=
  sched t (.kill c (d.child c).pid 0) = true ∧
  (sched (t + 1) (.write (.probe c) (d.child c).pipes.write ipcCommandHealthProbe.toUInt64) =
    .broken → d.handlesSigpipe = true) ∧
  sched (t + 2) (.select (.probe c) (d.child c).pipes.read ipcTimeout) = .ready ∧
  ∃ bytes, sched (t + 3) (.read (.probe c) (d.child c).pipes.read) = some bytes ∧
    Misleads d c replies sched t bytes

end Call

section Soundness

variable {dSocket : ℤ} {d : DaemonState} {c : ChildName} {post : DaemonState → DaemonProg DaemonState}
  {replies : ℕ → Option ℕ} {sched : ℕ → Environment} {t : ℕ}

theorem Restarts.cons {calls : DaemonHistory} (e : Event DaemonSys DaemonSys.Res Unit)
    (h : Restarts calls) : Restarts (e :: calls) := by
  obtain ⟨e', he', hop⟩ := h
  exact ⟨e', List.mem_cons_of_mem e he', hop⟩

/-- The second half of a call restarts the child or ends the daemon. -/
theorem restartChild_restarts (h : (run answer sched (restartChild dSocket d c post) t ()).result ≠ none) :
    Restarts (trace answer sched (restartChild dSocket d c post) t ()) := by
  unfold restartChild at h ⊢
  dsimp only at h ⊢
  split_ifs at h ⊢
  · exact absurd rfl h
  · exact ⟨_, List.mem_cons_self .., rfl⟩

/-- The child of a daemon that has given up on it. -/
theorem giveUp_restarts {pid : ℤ}
    (h : (run answer sched (.call (.kill c pid sigterm) fun _ => .call (.waitpid pid) fun _ =>
      restartChild dSocket d c post) t ()).result ≠ none) :
    Restarts (trace answer sched (.call (.kill c pid sigterm) fun _ => .call (.waitpid pid) fun _ =>
      restartChild dSocket d c post) t ()) :=
  ((restartChild_restarts h).cons _).cons _

/-- `received`, with what the environment does. -/
theorem run_received {α : Type} (sched : ℕ → Environment) (t : ℕ) (d₁ : DaemonState) (site : Site)
    (bytes : List UInt8) (k : UInt64 → DaemonProg α) :
    (bytes.length = 8 ∧ run answer sched (received (daemonCalls d₁ site) bytes >>= k) t () =
        run answer sched (k (wordOf bytes).toUInt64) t () ∧
      trace answer sched (received (daemonCalls d₁ site) bytes >>= k) t () =
        trace answer sched (k (wordOf bytes).toUInt64) t ()) ∨
    (bytes.length ≠ 8 ∧ run answer sched (received (daemonCalls d₁ site) bytes >>= k) t () =
        run answer sched (k (sched t (.uninitialized (some site) bytes))) (t + 1) () ∧
      trace answer sched (received (daemonCalls d₁ site) bytes >>= k) t () =
        ⟨.uninitialized (some site) bytes, sched t (.uninitialized (some site) bytes), (), ()⟩ ::
          trace answer sched (k (sched t (.uninitialized (some site) bytes))) (t + 1) ()) := by
  rw [received_bind]
  split_ifs with hlen
  · exact .inl ⟨hlen, rfl, rfl⟩
  · exact .inr ⟨hlen, rfl, rfl⟩

/-- The calls of a probe that has read something: `rest` is the look at an unset variable, if any. -/
def probing (d : DaemonState) (c : ChildName) (w : WriteResult) (bytes : List UInt8)
    (rest : DaemonHistory) : DaemonHistory :=
  ⟨.kill c (d.child c).pid 0, true, (), ()⟩ ::
    ⟨.write (.probe c) (d.child c).pipes.write ipcCommandHealthProbe.toUInt64, w, (), ()⟩ ::
    ⟨.select (.probe c) (d.child c).pipes.read ipcTimeout, .ready, (), ()⟩ ::
    ⟨.read (.probe c) (d.child c).pipes.read, some bytes, (), ()⟩ :: rest

variable {w : WriteResult} {bytes : List UInt8} {rest : DaemonHistory}

theorem not_restarts_probing (hrest : ∀ e ∈ rest, ∃ site known, e.op = .uninitialized site known) :
    ¬ Restarts (probing d c w bytes rest) := by
  rintro ⟨e, he, hop⟩
  simp only [probing, List.mem_cons] at he
  rcases he with rfl | rfl | rfl | rfl | he
  · cases hop
  · cases hop
  · cases hop
  · cases hop
  · obtain ⟨site, known, hother⟩ := hrest e he
    rw [hop] at hother
    cases hother

theorem answered_probing (hrest : ∀ e ∈ rest, ∃ site known, e.op = .uninitialized site known) :
    Answered c replies t (probing d c w bytes rest) ↔ w = .written ∧ bytes.length = 8 ∧
      (wordOf bytes).toUInt64 = ipcCommandAck.toUInt64 ∧ replies (t + 3) = some (t + 1) := by
  constructor
  · rintro ⟨i, j, fd, fd', bytes', hwrite, hread, hlen, hack, hreplies⟩
    have hi : i = 1 ∧ w = .written := by
      rcases i with _ | _ | _ | _ | i
      · simp [probing] at hwrite
      · simp only [probing, List.getElem?_cons_succ, List.getElem?_cons_zero, Option.some.injEq,
          Event.mk.injEq] at hwrite
        exact ⟨rfl, eq_of_heq hwrite.2.1⟩
      · simp [probing] at hwrite
      · simp [probing] at hwrite
      · obtain ⟨site, known, hother⟩ := hrest _ (List.mem_of_getElem? hwrite)
        cases hother
    have hj : j = 3 ∧ bytes' = bytes := by
      rcases j with _ | _ | _ | _ | j
      · simp [probing] at hread
      · simp [probing] at hread
      · simp [probing] at hread
      · simp only [probing, List.getElem?_cons_succ, List.getElem?_cons_zero, Option.some.injEq,
          Event.mk.injEq] at hread
        exact ⟨rfl, (Option.some.inj (eq_of_heq hread.2.1)).symm⟩
      · obtain ⟨site, known, hother⟩ := hrest _ (List.mem_of_getElem? hread)
        cases hother
    obtain ⟨rfl, rfl⟩ := hi
    obtain ⟨rfl, rfl⟩ := hj
    exact ⟨rfl, hlen, hack, hreplies⟩
  · rintro ⟨rfl, hlen, hack, hreplies⟩
    exact ⟨1, 3, _, _, bytes, rfl, rfl, hlen, hack, hreplies⟩

/-- A verdict: `ret` after a command, and giving up otherwise. -/
theorem verdict_sound_iff (rest : DaemonHistory) {d₁ : DaemonState} {k : Bool → DaemonProg DaemonState}
    {t' : ℕ} {b : Bool} (hyes : k true = .ret d₁)
    (hno : ∀ t, (run answer sched (k false) t ()).result ≠ none →
      Restarts (trace answer sched (k false) t ()))
    (hrest : ∀ e ∈ rest, ∃ site known, e.op = .uninitialized site known) :
    ((run answer sched (k b) t' ()).result ≠ none →
      ¬ Restarts (probing d c w bytes (rest ++ trace answer sched (k b) t' ())) →
      Answered c replies t (probing d c w bytes (rest ++ trace answer sched (k b) t' ()))) ↔
      (b = true → w = .written ∧ bytes.length = 8 ∧
        (wordOf bytes).toUInt64 = ipcCommandAck.toUInt64 ∧ replies (t + 3) = some (t + 1)) := by
  cases b with
  | false =>
    refine iff_of_true (fun hret hnone => ?_) nofun
    obtain ⟨e, he, hop⟩ := hno t' hret
    exact absurd ⟨e, by simp [probing, he], hop⟩ hnone
  | true =>
    have htrace : rest ++ trace answer sched (k true) t' () = rest := by
      rw [hyes]
      exact List.append_nil rest
    rw [htrace, answered_probing hrest, hyes]
    exact ⟨fun h _ => h (by simp [run]) (not_restarts_probing hrest), fun h _ _ => h rfl⟩

/-- The calls from `select` on. -/
theorem awaitAnswer_sound_iff {d₁ : DaemonState} {k : Bool → DaemonProg DaemonState}
    (hyes : k true = .ret d₁)
    (hno : ∀ t, (run answer sched (k false) t ()).result ≠ none →
      Restarts (trace answer sched (k false) t ())) {calls : DaemonHistory}
    (hcalls : calls = ⟨.kill c (d.child c).pid 0, true, (), ()⟩ ::
      ⟨.write (.probe c) (d.child c).pipes.write ipcCommandHealthProbe.toUInt64, w, (), ()⟩ ::
      trace answer sched (awaitAnswer d₁ c (d.child c).pipes k) (t + 2) ())
    (hw : sched (t + 1) (.write (.probe c) (d.child c).pipes.write ipcCommandHealthProbe.toUInt64) = w) :
    ((run answer sched (awaitAnswer d₁ c (d.child c).pipes k) (t + 2) ()).result ≠ none →
      ¬ Restarts calls → Answered c replies t calls) ↔
      ¬ (sched (t + 2) (.select (.probe c) (d.child c).pipes.read ipcTimeout) = .ready ∧
        ∃ bytes, sched (t + 3) (.read (.probe c) (d.child c).pipes.read) = some bytes ∧
          Misleads d c replies sched t bytes) := by
  subst hcalls
  have hgiven : ∀ t' (before : DaemonHistory), (run answer sched (k false) t' ()).result ≠ none →
      Restarts (before ++ trace answer sched (k false) t' ()) := by
    intro t' before hret
    obtain ⟨e, he, hop⟩ := hno t' hret
    exact ⟨e, List.mem_append_right before he, hop⟩
  unfold awaitAnswer
  rw [run_answer, trace_answer]
  cases hs : sched (t + 2) (.select (.probe c) (d.child c).pipes.read ipcTimeout) with
  | error => exact iff_of_true (fun hret hnone => absurd (hgiven _ [_, _, _] hret) hnone) nofun
  | timeout => exact iff_of_true (fun hret hnone => absurd (hgiven _ [_, _, _] hret) hnone) nofun
  | ready =>
    dsimp only
    rw [run_answer, trace_answer]
    cases hr : sched (t + 3) (.read (.probe c) (d.child c).pipes.read) with
    | none =>
      refine iff_of_true (fun hret hnone => absurd (hgiven _ [_, _, _, _] hret) hnone) ?_
      rintro ⟨-, bytes, hbytes, -⟩
      cases hbytes
    | some bytes =>
      rcases run_received sched (t + 4) d₁ (.probe c) bytes
        (fun msg => k (ipcIsCommand msg)) with ⟨hlen, hrun, htrace⟩ | ⟨hlen, hrun, htrace⟩
      · dsimp only
        rw [show t + 2 + 1 + 1 = t + 4 from rfl, hrun, htrace]
        refine (verdict_sound_iff [] hyes hno (by simp)).trans ?_
        have hm : Misleads d c replies sched t bytes ↔ ipcIsCommand (wordOf bytes).toUInt64 = true ∧
            ¬ ((wordOf bytes).toUInt64 = ipcCommandAck.toUInt64 ∧ w = .written ∧
              replies (t + 3) = some (t + 1)) := by
          simp [Misleads, hlen, hw]
        simp only [Option.some.injEq, exists_eq_left', true_and, hm, hlen]
        tauto
      · dsimp only
        rw [show t + 2 + 1 + 1 = t + 4 from rfl, hrun, htrace]
        refine (verdict_sound_iff [_] hyes hno ?_).trans ?_
        · simp
        · simp [Misleads, hlen]

/-- The part of a call whose child exists: `k` is what follows the verdict. -/
theorem answersProbe_sound_iff {d₁ : DaemonState} {k : Bool → DaemonProg DaemonState}
    (halive : sched t (.kill c (d.child c).pid 0) = true)
    (hpipes : (d₁.child c).pipes = (d.child c).pipes) (hcurrent : d₁.current = some c)
    (hsigpipe : d₁.handlesSigpipe = d.handlesSigpipe) (hyes : k true = .ret d₁)
    (hno : ∀ t, (run answer sched (k false) t ()).result ≠ none →
      Restarts (trace answer sched (k false) t ())) :
    ((run answer sched (answersProbe d₁ c >>= k) (t + 1) ()).result ≠ none →
      ¬ Restarts (⟨.kill c (d.child c).pid 0, true, (), ()⟩ ::
        trace answer sched (answersProbe d₁ c >>= k) (t + 1) ()) →
      Answered c replies t (⟨.kill c (d.child c).pid 0, true, (), ()⟩ ::
        trace answer sched (answersProbe d₁ c >>= k) (t + 1) ())) ↔
      ¬ Misled d c replies sched t := by
  rw [answersProbe_bind hpipes, run_answer, trace_answer, Misled]
  cases hw : sched (t + 1) (.write (.probe c) (d.child c).pipes.write ipcCommandHealthProbe.toUInt64) with
  | written => exact (awaitAnswer_sound_iff hyes hno rfl hw).trans (by simp [halive])
  | failed => exact (awaitAnswer_sound_iff hyes hno rfl hw).trans (by simp [halive])
  | broken =>
    by_cases hh : d.handlesSigpipe = true
    · have hbroken : written d₁ .broken = .ret false := by
        rw [written, brokenPipe, if_pos ⟨hsigpipe.trans hh, by simp [hcurrent]⟩]
        rfl
      rw [hbroken]
      exact (awaitAnswer_sound_iff hyes hno rfl hw).trans (by simp [halive, hh])
    · have hbroken : written d₁ .broken = .halt := by
        rw [written, brokenPipe, if_neg (by simp [hsigpipe, hh])]
      rw [hbroken]
      exact iff_of_true (fun hret => absurd rfl hret) (by simp [hh])

theorem sound_iff : Sound dSocket d c post replies sched t ↔ ¬ Misled d c replies sched t := by
  unfold Sound
  rw [healthProbeChildProcess_eq]
  dsimp only
  cases halive : sched t (.kill c (d.child c).pid 0) with
  | false =>
    refine iff_of_true (fun hret hno => ?_) fun hm => ?_
    · simp only [run_answer, trace_answer, halive, Bool.false_eq_true, if_false] at hret hno
      exact absurd ((restartChild_restarts hret).cons _) hno
    · rw [hm.1] at halive
      cases halive
  | true =>
    simp only [run_answer, trace_answer, halive, if_true]
    exact answersProbe_sound_iff halive (by simp) (by simp) (by simp) rfl fun _ h => giveUp_restarts h

end Soundness

section Runs

variable (dSocket : ℤ) (p : DaemonProg (Option (PollFds × DaemonState))) (sched : ℕ → Environment)

/-- In a run of `p` the daemon comes to probe the child, as the call number `t`. -/
def Probes (d : DaemonState) (c : ChildName) (post : DaemonState → DaemonProg DaemonState) (t : ℕ) :
    Prop :=
  ∃ k, Reaches answer sched p 0 () (healthProbeChildProcess dSocket d c post >>= k) t ()

end Runs

/-- In a run of the daemon every probe is sound exactly if none is misled. -/
theorem probes_sound_iff (dSocket : ℤ) (directories : List String) (exchanges rounds : ℕ)
    (d₀ : DaemonState) (replies : ℕ → Option ℕ) (sched : ℕ → Environment) :
    let p := daemonMain dSocket directories exchanges rounds d₀
    (∀ d c post t, Probes dSocket p sched d c post t → Sound dSocket d c post replies sched t) ↔
      ∀ d c post t, Probes dSocket p sched d c post t → ¬ Misled d c replies sched t := by
  intro p
  constructor
  · exact fun h d c post t hp => sound_iff.mp (h d c post t hp)
  · exact fun h d c post t hp => sound_iff.mpr (h d c post t hp)

/-- The array that `sample` polls, and its state when it comes to probe `reportman_mon`. -/
def sampleFds : PollFds := ⟨6, 4, 10, 32, 5⟩

def sampleState (current : Option ChildName) : DaemonState where
  fm := ⟨102, ⟨13, 10⟩, 3, 0, true⟩
  mon := ⟨113, ⟨35, 32⟩, 3, 0, true⟩
  current := current
  closeRequested := false
  backupTimer := 0
  transferTimer := 0
  command := ipcCommandAck
  handlesSigpipe := true

/-- An environment in which `reportman_mon` has died unnoticed: its pipe has ended, and the variable
still holds an acknowledgement. -/
def orphaned (t : ℕ) : Environment := answering [] ipcCommandAck.toUInt64 t

theorem probes_orphaned :
    Probes 4 sample orphaned (sampleState (some .fm)) .mon pure 33 := by
  have hstart : run answer orphaned (startUp 4 [] (initially fun _ => 3)) 0 () =
      ⟨some (sampleFds, sampleState none), 25, ()⟩ := rfl
  have hround : Reaches answer orphaned (healthRound 4 sampleFds (sampleState none)) 26 ()
      (healthProbeChildProcess 4 (sampleState (some .fm)) .mon pure) 33 () := by
    apply Reaches.call
    apply Reaches.after (a := true) rfl
    apply Reaches.after (a := sampleState none) rfl
    apply Reaches.after (a := sampleState none) rfl
    apply Reaches.after (a := sampleState (some .fm)) rfl
    exact .here _ _ _
  have hchildren : Reaches answer orphaned
      (daemonRound 4 sampleFds 0 (sampleState none)) 25 ()
      (healthProbeChildProcess 4 (sampleState (some .fm)) .mon pure >>= fun d => pure (some d)) 33 () := by
    apply Reaches.call
    apply Reaches.after (a := ()) rfl
    apply Reaches.after (a := Served.done (sampleState none)) rfl
    refine Reaches.bind (f := fun d => pure (some d)) ?_
    apply Reaches.after (a := sampleState none) rfl
    apply Reaches.after (a := sampleState none) rfl
    exact hround
  have hpoll : pollLoop 4 sampleFds 0 1 (sampleState none) = daemonRound 4 sampleFds 0 (sampleState none) >>=
      fun o => o.elim (pure none) (pollLoop 4 sampleFds 0 0) :=
    congrArg (_ >>= ·) (funext fun o => by cases o <;> rfl)
  have hloop := (hchildren.bind fun o => o.elim (pure none) (pollLoop 4 sampleFds 0 0)).bind
    fun o => pure (o.map (sampleFds, ·))
  rw [← hpoll] at hloop
  rw [bind_assoc (healthProbeChildProcess 4 (sampleState (some .fm)) .mon pure),
    bind_assoc (healthProbeChildProcess 4 (sampleState (some .fm)) .mon pure)] at hloop
  exact ⟨_, Reaches.after hstart hloop⟩

/-- The dead child is not restarted. -/
theorem not_sound_orphaned : ∃ d t, Probes 4 sample orphaned d .mon pure t ∧
    ¬ Sound 4 d .mon pure (fun _ => none) orphaned t := by
  refine ⟨_, _, probes_orphaned, fun h => sound_iff.mp h ?_⟩
  exact ⟨rfl, fun _ => rfl, rfl, [], rfl, .inr ⟨by decide, by decide⟩⟩

end Reportman.HealthProbe
