import Mathlib
import Reportman.Daemon

/-!
# The descriptors of the daemon

The daemon over its descriptor table. The poll array is filled once, before the loop; a restart gives a
child new pipes, of which neither the array nor the old ends take notice.
-/
namespace Reportman.Descriptors
open Resumable Ipc Daemon
open FmLoop (WriteResult Exit)

inductive Descriptor
  | other
  | readEnd
  | writeEnd
  deriving DecidableEq, Repr

/-- What is open, under its number. -/
abbrev Table := ℤ → Option Descriptor

/-- `made` counts the pipes that have been made. -/
structure World where
  table : Table
  made : ℕ

def Table.Free (T : Table) (fd : ℤ) : Prop := 0 ≤ fd ∧ T fd = none

instance (T : Table) (fd : ℤ) : Decidable (T.Free fd) := inferInstanceAs (Decidable (_ ∧ _))

/-- A call that gives a new descriptor gives one that is not in use, if any. -/
def opens (given : Option ℤ) (w : World) : Option ℤ × World :=
  match given with
  | none => (none, w)
  | some fd =>
      if w.table.Free fd then (some fd, { w with table := Function.update w.table fd (some .other) })
      else (none, w)

def Table.withPipe (T : Table) (r wr : ℤ) : Table :=
  Function.update (Function.update T r (some .readEnd)) wr (some .writeEnd)

/-- Nothing is ever ready under a negative number. -/
def descExec (env : Environment) : (op : DaemonSys) → World → op.Res × World
  | .pipe, w => match env .pipe with
      | none => (none, w)
      | some (r, wr) =>
          if w.table.Free r ∧ w.table.Free wr ∧ r ≠ wr then (some (r, wr), ⟨w.table.withPipe r wr, w.made + 1⟩)
          else (none, w)
  | .accept, w => opens (env .accept) w
  | .timerfdCreate, w => opens (env .timerfdCreate) w
  | .initializeSignals, w => opens (env .initializeSignals) w
  | .close fd, w => ((), { w with table := Function.update w.table fd none })
  | .select site fd secs, w => (if fd < 0 then .error else env (.select site fd secs), w)
  | op, w => (env op, w)

/-- The array watches the pipes of the children there are, and the daemon holds one end of each of
their four pipes and no other. -/
structure Current (T : Table) (fds : PollFds) (d : DaemonState) : Prop where
  polled_fm : fds.fm = d.fm.pipes.read
  polled_mon : fds.mon = d.mon.pipes.read
  reads_ne : d.fm.pipes.read ≠ d.mon.pipes.read
  writes_ne : d.fm.pipes.write ≠ d.mon.pipes.write
  reads : ∀ fd, T fd = some .readEnd ↔ fd = d.fm.pipes.read ∨ fd = d.mon.pipes.read
  writes : ∀ fd, T fd = some .writeEnd ↔ fd = d.fm.pipes.write ∨ fd = d.mon.pipes.write

/-- The calls that leave the table as it is. -/
def Plain : DaemonSys → Prop
  | .pipe => False
  | .accept => False
  | .timerfdCreate => False
  | .initializeSignals => False
  | .close _ => False
  | _ => True

theorem plain_table (env : Environment) (op : DaemonSys) (w : World) (h : Plain op) :
    (descExec env op w).2 = w := by
  cases op <;> first | rfl | exact h.elim

theorem Talks.plain {site : Site} {pipes : IpcPipes} {op : DaemonSys} (h : Talks site pipes op) : Plain op := by
  cases op <;> first | exact trivial | exact h.elim

theorem Converses.plain {fd : ℤ} {op : DaemonSys} (h : Converses fd op) : Plain op := by
  cases op <;> first | exact trivial | exact h.elim

section Spawn

variable (dSocket : ℤ)

/-- What becomes of a child's pipes and of the table: nothing, as there was no pipe to be had, or a
read end and a write end stay open. -/
def Spawned (pipes : IpcPipes) (w : World) (pipes' : IpcPipes) (w' : World) : Prop :=
  (pipes' = pipes ∧ w' = w) ∨ ∃ r wr, w.table.Free r ∧ w.table.Free wr ∧ r ≠ wr ∧
    w'.table = w.table.withPipe r wr ∧ w.made < w'.made ∧
      (pipes' = pipes ∨ (pipes' = ⟨wr, r⟩ ∧ w'.made = w.made + 2))

theorem Table.Free.of_withPipe {T : Table} {r wr fd : ℤ} (hne : r ≠ wr)
    (h : (T.withPipe r wr).Free fd) : fd ≠ r ∧ fd ≠ wr ∧ T.Free fd := by
  obtain ⟨hpos, hfree⟩ := h
  have hr : fd ≠ r := by
    rintro rfl
    simp [Table.withPipe, Function.update_of_ne hne] at hfree
  have hw : fd ≠ wr := by
    rintro rfl
    simp [Table.withPipe] at hfree
  exact ⟨hr, hw, hpos, by simpa [Table.withPipe, Function.update_of_ne hw, Function.update_of_ne hr] using hfree⟩

/-- Of two pipes, the other two ends have been closed. -/
theorem withPipe_closed {T : Table} {childRead childWrite parentRead parentWrite : ℤ}
    (hcw : T.Free childWrite) (hchild : childRead ≠ childWrite)
    (hpr : (T.withPipe childRead childWrite).Free parentRead)
    (hpw : (T.withPipe childRead childWrite).Free parentWrite) (hparent : parentRead ≠ parentWrite) :
    Function.update (Function.update ((T.withPipe childRead childWrite).withPipe parentRead parentWrite)
      parentRead none) childWrite none = T.withPipe childRead parentWrite := by
  obtain ⟨hprcr, hprcw, -, hprT⟩ := hpr.of_withPipe hchild
  obtain ⟨hpwcr, hpwcw, -, hpwT⟩ := hpw.of_withPipe hchild
  funext fd
  by_cases h₁ : fd = childWrite
  · subst h₁
    simp [Table.withPipe, Function.update_of_ne hchild.symm, Function.update_of_ne hpwcw.symm, hcw.2]
  by_cases h₂ : fd = parentRead
  · subst h₂
    simp [Table.withPipe, Function.update_of_ne h₁, Function.update_of_ne hparent,
      Function.update_of_ne hprcr, hprT]
  by_cases h₃ : fd = parentWrite
  · subst h₃
    simp [Table.withPipe, Function.update_of_ne h₁, Function.update_of_ne h₂]
  · simp [Table.withPipe, Function.update_of_ne h₁, Function.update_of_ne h₂, Function.update_of_ne h₃]

theorem startChildProcess_yields (p : ChildProcess) (c : ChildName) (extraArgs : List String) (w : World) :
    (startChildProcess dSocket p c extraArgs).Yields descExec
      (fun p' w' => Spawned p.pipes w p'.pipes w') w := by
  intro env
  rcases hpipe : env .pipe with _ | ⟨childRead, childWrite⟩
  · simp only [descExec, hpipe]
    exact .inl ⟨rfl, rfl⟩
  by_cases hchild : w.table.Free childRead ∧ w.table.Free childWrite ∧ childRead ≠ childWrite
  swap
  · simp only [descExec, hpipe, if_neg hchild]
    exact .inl ⟨rfl, rfl⟩
  simp only [descExec, hpipe, if_pos hchild]
  intro env'
  have hleft : Spawned p.pipes w p.pipes ⟨w.table.withPipe childRead childWrite, w.made + 1⟩ :=
    .inr ⟨childRead, childWrite, hchild.1, hchild.2.1, hchild.2.2, rfl, Nat.lt_succ_self _, .inl rfl⟩
  rcases hpipe' : env' .pipe with _ | ⟨parentRead, parentWrite⟩
  · simp only [descExec, hpipe']
    exact hleft
  by_cases hparent : (w.table.withPipe childRead childWrite).Free parentRead ∧
      (w.table.withPipe childRead childWrite).Free parentWrite ∧ parentRead ≠ parentWrite
  swap
  · simp only [descExec, hpipe', if_neg hparent]
    exact hleft
  simp only [descExec, hpipe', if_pos hparent]
  intro env''
  rcases hfork : env'' (.fork c [dSocket, parentWrite, childRead]
    (childArgs c parentRead childWrite extraArgs)) with _ | pid
  · simp only [descExec, hfork]
    exact fun _ => trivial
  simp only [descExec, hfork]
  intro _ _
  obtain ⟨hpwcr, -, hpw⟩ := hparent.2.1.of_withPipe hchild.2.2
  exact .inr ⟨childRead, parentWrite, hchild.1, hpw, hpwcr.symm,
    withPipe_closed hchild.2.1 hchild.2.2 hparent.1 hparent.2.1 hparent.2.2,
    Nat.lt_add_of_pos_right Nat.two_pos, .inr ⟨rfl, rfl⟩⟩

variable (d : DaemonState)

theorem Plain.yields {α : Type} {p : DaemonProg α} {Q : α → Prop} (h : p.Always (fun op _ => Plain op) Q)
    (w : World) : p.Yields descExec (fun a w' => Q a ∧ w' = w) w :=
  h.yields (fun env op w' hop hw' => (plain_table env op w' hop).trans hw') rfl

theorem Talks.yields {α : Type} {site : Site} {pipes : IpcPipes} {p : DaemonProg α} {Q : α → Prop}
    (h : p.Always (fun op _ => Talks site pipes op) Q) (w : World) : p.Yields descExec (fun a w' => Q a ∧ w' = w) w :=
  Plain.yields (h.mono (fun _ _ hop => Talks.plain hop) fun _ hQ => hQ) w

theorem childSpawn_yields (c : ChildName) (extraArgs : List String) (w : World) :
    (childSpawn dSocket d c extraArgs).Yields descExec (fun d' w' => ∃ p : ChildProcess,
      d' = d.setChild c p ∧ Spawned (d.child c).pipes w p.pipes w') w := by
  refine (startChildProcess_yields dSocket (d.child c) c extraArgs w).bind fun p w' hp => ?_
  refine (Talks.yields (acknowledgeClient_talks (d.setChild c p) c) w').bind ?_
  rintro _ _ ⟨-, rfl⟩
  exact ⟨p, rfl, hp⟩

/-- Without its pipes a first child is not waited for. -/
theorem childSpawn_first (c : ChildName) (extraArgs : List String) (w : World)
    (hnone : (d.child c).pipes = ⟨-1, -1⟩) :
    (childSpawn dSocket d c extraArgs).Yields descExec (fun d' w' => ∃ p : ChildProcess, ∃ r wr,
      d' = d.setChild c p ∧ w.table.Free r ∧ w.table.Free wr ∧ r ≠ wr ∧
        w' = ⟨w.table.withPipe r wr, w.made + 2⟩ ∧ p.pipes = ⟨wr, r⟩) w := by
  have hexit : ∀ (p : ChildProcess) w', p.pipes = ⟨-1, -1⟩ → ∀ P : DaemonState → World → Prop,
      (acknowledgeClient (d.setChild c p) c >>= fun _ => pure (d.setChild c p)).Yields descExec P w' := by
    intro p w' hp P env
    rw [show descExec env (.select (.acknowledge c) ((d.setChild c p).child c).pipes.read 10) w' =
      (.error, w') by simp [descExec, hp]]
    exact fun _ => trivial
  refine (startChildProcess_yields dSocket (d.child c) c extraArgs w).bind ?_
  rintro p ⟨T', made'⟩ (⟨hp, -⟩ | ⟨r, wr, hr, hwr, hne, hT, -, hp | ⟨hp, hmade⟩⟩)
  · exact hexit p _ (hp.trans hnone) _
  · exact hexit p _ (hp.trans hnone) _
  · refine (Talks.yields (acknowledgeClient_talks (d.setChild c p) c) _).bind ?_
    rintro _ _ ⟨-, rfl⟩
    obtain rfl : T' = _ := hT
    obtain rfl : made' = _ := hmade
    exact ⟨p, r, wr, rfl, hr, hwr, hne, rfl, hp⟩

end Spawn

section Heads

/-- The pipe ends that are open are the same. -/
def SameEnds (T T' : Table) : Prop := ∀ fd k, k ≠ .other → (T' fd = some k ↔ T fd = some k)

theorem SameEnds.refl (T : Table) : SameEnds T T := fun _ _ _ => Iff.rfl

theorem SameEnds.trans {T T' T'' : Table} (h : SameEnds T T') (h' : SameEnds T' T'') : SameEnds T T'' :=
  fun fd k hk => (h' fd k hk).trans (h fd k hk)

theorem opens_kept (given : Option ℤ) (w : World) :
    SameEnds w.table (opens given w).2.table ∧ (opens given w).2.made = w.made := by
  rcases given with _ | fd
  · exact ⟨.refl _, rfl⟩
  unfold opens
  dsimp only
  split_ifs with hfree
  · refine ⟨fun x k hk => ?_, rfl⟩
    by_cases hx : x = fd
    · subst hx
      simp [hfree.2, hk.symm]
    · simp only [Function.update_of_ne hx]
  · exact ⟨.refl _, rfl⟩

theorem withPipe_read {T : Table} {r wr : ℤ} (hwr : T.Free wr) (hne : r ≠ wr) (fd : ℤ) :
    T.withPipe r wr fd = some .readEnd ↔ fd = r ∨ T fd = some .readEnd := by
  by_cases h₁ : fd = wr
  · subst h₁
    simp [Table.withPipe, hne.symm, hwr.2]
  by_cases h₂ : fd = r
  · subst h₂
    simp [Table.withPipe, Function.update_of_ne hne]
  · simp [Table.withPipe, Function.update_of_ne h₁, h₂]

theorem withPipe_write {T : Table} {r wr : ℤ} (hr : T.Free r) (hne : r ≠ wr) (fd : ℤ) :
    T.withPipe r wr fd = some .writeEnd ↔ fd = wr ∨ T fd = some .writeEnd := by
  by_cases h₁ : fd = wr
  · subst h₁
    simp [Table.withPipe]
  by_cases h₂ : fd = r
  · subst h₂
    simp [Table.withPipe, hne, hr.2]
  · simp [Table.withPipe, Function.update_of_ne h₂, h₁]

/-- A read end is open that nothing watches. -/
def Stale (T : Table) (fds : PollFds) : Prop :=
  T fds.fm = some .readEnd ∧ T fds.mon = some .readEnd ∧
    ∃ fd, fd ≠ fds.fm ∧ fd ≠ fds.mon ∧ T fd = some .readEnd

/-- At the head of the loop, `made` pipes having been made before it. -/
def Head (fds : PollFds) (made : ℕ) (d : DaemonState) (w : World) : Prop :=
  (w.made = made ∧ Current w.table fds d) ∨ (made < w.made ∧ Stale w.table fds)

variable {fds : PollFds} {made : ℕ} {d : DaemonState} {w : World}

theorem Current.not_stale {T : Table} (h : Current T fds d) : ¬ Stale T fds := by
  rintro ⟨-, -, fd, hfm, hmon, hopen⟩
  rw [h.polled_fm] at hfm
  rw [h.polled_mon] at hmon
  exact ((h.reads fd).mp hopen).elim hfm hmon

theorem Head.current_iff (h : Head fds made d w) : Current w.table fds d ↔ w.made = made := by
  rcases h with ⟨hmade, hcurrent⟩ | ⟨hmade, hstale⟩
  · exact iff_of_true hcurrent hmade
  · exact iff_of_false (fun hcurrent => hcurrent.not_stale hstale) (by omega)

theorem Head.polled (h : Head fds made d w) :
    w.table fds.fm = some .readEnd ∧ w.table fds.mon = some .readEnd := by
  rcases h with ⟨-, hcurrent⟩ | ⟨-, hfm, hmon, -⟩
  · rw [hcurrent.polled_fm, hcurrent.polled_mon]
    exact ⟨(hcurrent.reads _).mpr (.inl rfl), (hcurrent.reads _).mpr (.inr rfl)⟩
  · exact ⟨hfm, hmon⟩

theorem Head.same (h : Head fds made d w) {d' : DaemonState} {w' : World} (hpipes : SamePipes d d')
    (hends : SameEnds w.table w'.table) (hmade : w'.made = w.made) : Head fds made d' w' := by
  have hread : ∀ fd, w'.table fd = some .readEnd ↔ w.table fd = some .readEnd :=
    fun fd => hends fd .readEnd nofun
  have hwrite : ∀ fd, w'.table fd = some .writeEnd ↔ w.table fd = some .writeEnd :=
    fun fd => hends fd .writeEnd nofun
  obtain ⟨hfm, hmon⟩ := hpipes
  rcases h with ⟨hmade', hcurrent⟩ | ⟨hmade', hstale⟩
  · refine .inl ⟨hmade.trans hmade', ?_⟩
    constructor
    · rw [hfm]
      exact hcurrent.polled_fm
    · rw [hmon]
      exact hcurrent.polled_mon
    · rw [hfm, hmon]
      exact hcurrent.reads_ne
    · rw [hfm, hmon]
      exact hcurrent.writes_ne
    · intro fd
      rw [hfm, hmon, hread]
      exact hcurrent.reads fd
    · intro fd
      rw [hfm, hmon, hwrite]
      exact hcurrent.writes fd
  · refine .inr ⟨by omega, ?_⟩
    simpa only [Stale, hread] using hstale

theorem Head.plain (h : Head fds made d w) {d' : DaemonState} (hpipes : SamePipes d d') :
    Head fds made d' w := h.same hpipes (.refl _) rfl

theorem samePipes_setChild (d : DaemonState) {c : ChildName} {p : ChildProcess}
    (h : p.pipes = (d.child c).pipes) : SamePipes d (d.setChild c p) := by
  cases c with
  | fm => exact ⟨h, rfl⟩
  | mon => exact ⟨rfl, h⟩

/-- A new pipe leaves a read end that nothing watches, whichever child it is for. -/
theorem Head.spawned (h : Head fds made d w) {c : ChildName} {p : ChildProcess} {w' : World}
    (hs : Spawned (d.child c).pipes w p.pipes w') : Head fds made (d.setChild c p) w' := by
  rcases hs with ⟨hpipes, rfl⟩ | ⟨r, wr, hr, hwr, hne, hT, hmade, -⟩
  · exact h.plain (samePipes_setChild d hpipes)
  obtain ⟨hfm, hmon⟩ := h.polled
  have hle : made ≤ w.made := by
    rcases h with ⟨h, -⟩ | ⟨h, -⟩ <;> omega
  have hread := withPipe_read hwr hne
  have hused : ∀ fd, w.table fd = some .readEnd → r ≠ fd := by
    rintro fd hfd rfl
    rw [hr.2] at hfd
    cases hfd
  refine .inr ⟨by omega, ?_⟩
  rw [hT]
  exact ⟨(hread _).mpr (.inr hfm), (hread _).mpr (.inr hmon), r, hused _ hfm, hused _ hmon,
    (hread _).mpr (.inl rfl)⟩

end Heads

section Loop

variable (dSocket : ℤ) {fds : PollFds} {made : ℕ} {d : DaemonState} {w : World}

theorem cleanClose_never {α : Type} (d : DaemonState) (code : Exit) (P : α → World → Prop) :
    (cleanClose dSocket fds d code).Yields descExec P w :=
  (cleanClose_elsewhere dSocket fds d code fun _ => False).never

theorem childMessage_head (h : Head fds made d w) (site : Site) (c : ChildName) (timeoutSecs : ℕ) :
    (childMessage dSocket fds d site c timeoutSecs).Yields descExec (Head fds made) w := by
  refine (Talks.yields (getCommand_talks d site c timeoutSecs) w).bind ?_
  rintro d' _ ⟨hd', rfl⟩
  split_ifs
  · exact cleanClose_never dSocket d' .failure _
  · exact h.plain hd'

theorem restartChild_head (h : Head fds made d w) (c : ChildName)
    {post : DaemonState → DaemonProg DaemonState}
    (hpost : ∀ d, (post d).Always (fun op _ => Plain op) (SamePipes d)) :
    (restartChild dSocket d c post).Yields descExec (Head fds made) w := by
  unfold restartChild
  dsimp only
  split_ifs
  · exact fun _ => trivial
  have h₁ := h.plain (samePipes_setChild d
    (show ({ d.child c with retries := (d.child c).retries + 1 } : ChildProcess).pipes = _ from rfl))
  refine (childSpawn_yields dSocket _ c [] w).bind ?_
  rintro _ w' ⟨p, rfl, hp⟩
  refine (Plain.yields (hpost _) w').bind ?_
  rintro d' _ ⟨hd', rfl⟩
  exact ((h₁.spawned hp).plain hd').plain ⟨rfl, rfl⟩

theorem healthProbeChildProcess_head (h : Head fds made d w) (c : ChildName)
    {post : DaemonState → DaemonProg DaemonState}
    (hpost : ∀ d, (post d).Always (fun op _ => Plain op) (SamePipes d)) :
    (healthProbeChildProcess dSocket d c post).Yields descExec (Head fds made) w := by
  have hcurrent : Head fds made { d with current := some c } w := h.plain ⟨rfl, rfl⟩
  have hset : ∀ isAlive, Head fds made (({ d with current := some c } : DaemonState).setChild c
      { d.child c with isAlive := isAlive }) w := by
    intro isAlive
    refine hcurrent.plain (samePipes_setChild _ ?_)
    cases c <;> rfl
  rw [healthProbeChildProcess_eq]
  intro env
  change Program.Yields descExec _ (if env (.kill c (d.child c).pid 0) = true then _ else _) w
  split_ifs
  · refine (Talks.yields (answersProbe_talks _ c) w).bind ?_
    rintro answered _ ⟨-, rfl⟩
    split_ifs
    · exact hset true
    · rw [DaemonState.setChild_setChild]
      exact fun _ _ => restartChild_head dSocket (hset false) c hpost
  · exact restartChild_head dSocket (hset false) c hpost

theorem healthRound_head (h : Head fds made d w) :
    (healthRound dSocket fds d).Yields descExec (Head fds made) w := by
  intro env
  change Program.Yields descExec _ (if ¬ env .settime = true then _ else _) w
  split_ifs
  · refine (childMessage_head dSocket h (.drain .fm) .fm 1).bind fun d₁ w₁ h₁ => ?_
    refine (childMessage_head dSocket h₁ (.drain .mon) .mon 1).bind fun d₂ w₂ h₂ => ?_
    refine (healthProbeChildProcess_head dSocket h₂ .fm fun d => (reportmanFmGetTimers_talks d).mono
      (fun _ _ h => Talks.plain h) fun _ h => h).bind fun d₃ w₃ h₃ => ?_
    exact healthProbeChildProcess_head dSocket h₃ .mon fun d => ⟨rfl, rfl⟩
  · exact fun _ => trivial

theorem signalHandled_head (h : Head fds made d w) (pollin : Bool) :
    (signalHandled dSocket fds d pollin).Yields descExec (fun _ w' => Head fds made d w') w := by
  have hkill : ∀ {α : Type} (k : Unit → DaemonProg α) (P : α → World → Prop),
      (∀ u, (k u).Yields descExec P w) → (killChildren >>= k).Yields descExec P w :=
    fun k P hk _ _ => hk ()
  unfold signalHandled
  split_ifs
  · intro env
    rcases (descExec env .readSignal w).1 with _ | _ | signo
    · exact hkill _ _ fun _ _ => trivial
    · exact hkill _ _ fun _ _ => trivial
    change Program.Yields descExec _ (if signo = FmLoop.sigint ∨ signo = FmLoop.sigterm then
      killChildren >>= fun _ => cleanClose dSocket fds { d with closeRequested := true } .success
      else return ()) w
    split_ifs
    · exact hkill _ _ fun _ => cleanClose_never dSocket _ .success _
    · exact h
  · exact h

/-- What serving a client leaves when the round goes on. -/
def ServedHead (fds : PollFds) (made : ℕ) (d : DaemonState) (served : Served) (w : World) : Prop :=
  match served with
  | .again => Head fds made d w
  | .serving => True
  | .done d' => Head fds made d' w

theorem clientHandled_head (h : Head fds made d w) (exchanges : ℕ) (pollin : Bool) :
    (clientHandled dSocket fds d exchanges pollin).Yields descExec (ServedHead fds made d) w := by
  unfold clientHandled
  split_ifs
  swap
  · exact h
  rw [clientMessage_eq]
  intro env
  rcases haccept : env .accept with _ | fd
  · simp only [descExec, haccept, opens]
    exact h
  by_cases hfree : w.table.Free fd
  swap
  · simp only [descExec, haccept, opens, if_neg hfree]
    exact h
  simp only [descExec, haccept, opens, if_pos hfree]
  refine (Plain.yields ((session_converses fd d exchanges).mono (fun _ _ h => Converses.plain h)
    fun _ h => h) _).bind ?_
  rintro (_ | d') _ ⟨hd', rfl⟩
  · trivial
  obtain ⟨closing, rfl⟩ := hd' d' rfl
  intro env'
  dsimp only
  split_ifs
  · exact cleanClose_never dSocket _ .success _
  refine h.same ⟨rfl, rfl⟩ (fun x k _ => ?_) rfl
  by_cases hx : x = fd
  · subst hx
    simp [descExec, hfree.2]
  · simp [descExec, Function.update_of_ne hx]

theorem handled_head (h : Head fds made d w) (pollin : Bool) {handler : DaemonProg DaemonState}
    (hhandler : handler.Yields descExec (Head fds made) w) :
    (handled pollin d handler).Yields descExec (Head fds made) w := by
  unfold handled
  split_ifs
  · exact hhandler
  · exact h

theorem childrenHandled_head (h : Head fds made d w) (revents : DaemonRevents) :
    (childrenHandled dSocket fds d revents).Yields descExec (Head fds made) w := by
  refine (handled_head h _ (childMessage_head dSocket h (.loop .fm) .fm 5)).bind fun d₁ w₁ h₁ => ?_
  refine (handled_head h₁ _ (childMessage_head dSocket h₁ (.loop .mon) .mon 5)).bind fun d₂ w₂ h₂ => ?_
  exact handled_head h₂ _ (healthRound_head dSocket h₂)

/-- Unless a client is being served. -/
def RoundHead (fds : PollFds) (made : ℕ) (o : Option DaemonState) (w : World) : Prop :=
  ∀ d, o = some d → Head fds made d w

theorem daemonRound_head (h : Head fds made d w) (exchanges : ℕ) :
    (daemonRound dSocket fds exchanges d).Yields descExec (RoundHead fds made) w := by
  have hdone : ∀ d' w', Head fds made d' w' → RoundHead fds made (some d') w' := by
    rintro d' w' h' _ ⟨⟩
    exact h'
  intro env
  rcases (descExec env (.poll fds) w).1 with (_ | _) | revents
  · exact hdone d w h
  · exact fun _ _ _ => trivial
  refine (signalHandled_head dSocket h revents.signal.pollin).bind fun _ w₁ h₁ => ?_
  refine (clientHandled_head dSocket h₁ exchanges revents.client.pollin).bind ?_
  rintro (_ | _ | d₂) w₂ h₂
  · exact hdone d w₂ h₂
  · rintro _ ⟨⟩
  · exact (childrenHandled_head dSocket h₂ revents).bind hdone

theorem pollLoop_head (h : Head fds made d w) (exchanges rounds : ℕ) :
    (pollLoop dSocket fds exchanges rounds d).Yields descExec (RoundHead fds made) w := by
  induction rounds generalizing d w with
  | zero =>
    rintro _ ⟨⟩
    exact h
  | succ rounds ih =>
    refine (daemonRound_head dSocket h exchanges).bind ?_
    rintro (_ | d₁) w₁ h₁
    · rintro _ ⟨⟩
    · exact ih (h₁ d₁ rfl)

end Loop

section Main

variable (dSocket : ℤ) {w : World}

theorem prepare_head {d : DaemonState} (h : Current w.table ⟨0, dSocket, d.fm.pipes.read, d.mon.pipes.read, 0⟩ d) :
    (prepare dSocket d).Yields descExec (fun r w' => Head r.1 w.made r.2 w') w := by
  have hcurrent : ∀ signalFd timerfd w', SameEnds w.table w'.table → w'.made = w.made → ∀ command,
      Head ⟨signalFd, dSocket, d.fm.pipes.read, d.mon.pipes.read, timerfd⟩ w.made
        { d with command := command, handlesSigpipe := true } w' := by
    intro signalFd timerfd w' hends hmade command
    have h₀ : Head ⟨signalFd, dSocket, d.fm.pipes.read, d.mon.pipes.read, timerfd⟩ w.made d w :=
      .inl ⟨rfl, rfl, rfl, h.reads_ne, h.writes_ne, h.reads, h.writes⟩
    exact h₀.same ⟨rfl, rfl⟩ hends hmade
  intro env₀ env₁
  change Program.Yields descExec _ (if ¬ env₁ .timerCreate = true then _ else _) w
  split_ifs
  swap
  · exact fun _ => trivial
  intro env₂
  obtain ⟨hends, hmade⟩ := opens_kept (env₂ .timerfdCreate) w
  change Program.Yields descExec _ (match (opens (env₂ .timerfdCreate) w).1 with
    | none => _
    | some timerfd => _) (opens (env₂ .timerfdCreate) w).2
  generalize opens (env₂ .timerfdCreate) w = opened at hends hmade
  obtain ⟨_ | timerfd, w₂⟩ := opened
  · exact fun _ => trivial
  intro env₃
  change Program.Yields descExec _ (if ¬ env₃ .settime = true then _ else _) w₂
  split_ifs
  swap
  · exact fun _ => trivial
  intro env₄
  change Program.Yields descExec _ (if ¬ env₄ .sigaction = true then _ else _) w₂
  split_ifs
  swap
  · exact fun _ => trivial
  intro env₅
  obtain ⟨hends', hmade'⟩ := opens_kept (env₅ .initializeSignals) w₂
  change Program.Yields descExec _ (match (opens (env₅ .initializeSignals) w₂).1 with
    | none => _
    | some signalFd => _) (opens (env₅ .initializeSignals) w₂).2
  generalize opens (env₅ .initializeSignals) w₂ = opened' at hends' hmade'
  obtain ⟨_ | signalFd, w₃⟩ := opened'
  · exact fun _ => trivial
  · exact hcurrent signalFd timerfd w₃ (hends.trans hends') (hmade'.trans hmade) _

/-- The first two children get a pipe in each direction. -/
theorem startUp_head (directories : List String) (maxRetries : ChildName → UInt16)
    (hw : ∀ fd, w.table fd ≠ some .readEnd ∧ w.table fd ≠ some .writeEnd) :
    (startUp dSocket directories (initially maxRetries)).Yields descExec
      (fun r w' => Head r.1 (w.made + 4) r.2 w') w := by
  refine (childSpawn_first dSocket (initially maxRetries) .fm [] w rfl).bind ?_
  rintro _ _ ⟨p, r, wr, rfl, hr, hwr, hne, rfl, hp⟩
  refine (Talks.yields (reportmanFmGetTimers_talks _) _).bind ?_
  rintro d₁ _ ⟨⟨hfm, hmon⟩, rfl⟩
  have hnone : (d₁.child .mon).pipes = ⟨-1, -1⟩ := hmon
  refine (childSpawn_first dSocket d₁ .mon directories _ hnone).bind ?_
  rintro _ _ ⟨p', r', wr', rfl, hr', hwr', hne', rfl, hp'⟩
  have hfm' : d₁.fm.pipes = ⟨wr, r⟩ := hfm.trans hp
  obtain ⟨hrr, -, -⟩ := hr'.of_withPipe hne
  obtain ⟨-, hww, -⟩ := hwr'.of_withPipe hne
  refine prepare_head dSocket (w := ⟨(w.table.withPipe r wr).withPipe r' wr', w.made + 4⟩)
    ⟨rfl, rfl, ?_, ?_, fun fd => ?_, fun fd => ?_⟩
  · simpa [DaemonState.setChild, hfm', hp'] using hrr.symm
  · simpa [DaemonState.setChild, hfm', hp'] using hww.symm
  · simp only [DaemonState.setChild, hfm', hp', withPipe_read hwr' hne', withPipe_read hwr hne,
      (hw fd).1, or_false]
    exact or_comm
  · simp only [DaemonState.setChild, hfm', hp', withPipe_write hr' hne', withPipe_write hr hne,
      (hw fd).2, or_false]
    exact or_comm

theorem daemonMain_head (T : Table) (hT : ∀ fd, T fd ≠ some .readEnd ∧ T fd ≠ some .writeEnd)
    (directories : List String) (exchanges rounds : ℕ) (maxRetries : ChildName → UInt16) :
    (daemonMain dSocket directories exchanges rounds (initially maxRetries)).Yields descExec
      (fun o w => ∀ fds d, o = some (fds, d) → Head fds 4 d w) ⟨T, 0⟩ := by
  refine (startUp_head dSocket directories maxRetries hT).bind ?_
  rintro ⟨fds, d⟩ w h
  refine (pollLoop_head dSocket h exchanges rounds).bind ?_
  rintro (_ | d') w' h'
  · rintro _ _ ⟨⟩
  · rintro _ _ ⟨⟩
    exact h' d' rfl

/-- At the head of the loop the array and the table fit the children exactly as long as no restart has
got as far as a pipe. -/
theorem daemonMain_current_iff (T : Table) (hT : ∀ fd, T fd ≠ some .readEnd ∧ T fd ≠ some .writeEnd)
    (directories : List String) (exchanges rounds : ℕ) (maxRetries : ChildName → UInt16)
    (sched : ℕ → Environment) {fds : PollFds} {d : DaemonState}
    (hhead : (run descExec sched (daemonMain dSocket directories exchanges rounds (initially maxRetries))
      0 ⟨T, 0⟩).result = some (some (fds, d))) :
    Current (run descExec sched (daemonMain dSocket directories exchanges rounds (initially maxRetries))
      0 ⟨T, 0⟩).state.table fds d ↔
    (run descExec sched (daemonMain dSocket directories exchanges rounds (initially maxRetries))
      0 ⟨T, 0⟩).state.made = 4 :=
  ((daemonMain_head dSocket T hT directories exchanges rounds maxRetries).run sched hhead fds d rfl).current_iff

/-- The standard streams and the socket. -/
def tableSample : Table := fun fd => if 0 ≤ fd ∧ fd ≤ 4 then some .other else none

theorem tableSample_ends (fd : ℤ) :
    tableSample fd ≠ some .readEnd ∧ tableSample fd ≠ some .writeEnd := by
  unfold tableSample
  split_ifs <;> exact ⟨nofun, nofun⟩

/-- The first round of a daemon whose children both answer. -/
theorem daemonMain_current_iff_answered : ∃ fds d,
    (run descExec (answering ackBytes 0) sample 0 ⟨tableSample, 0⟩).result = some (some (fds, d)) ∧
    Current (run descExec (answering ackBytes 0) sample 0 ⟨tableSample, 0⟩).state.table fds d :=
  ⟨_, _, rfl, (daemonMain_current_iff 4 tableSample tableSample_ends [] 0 1 (fun _ => 3)
    (answering ackBytes 0) rfl).mpr (by decide +kernel)⟩

/-- `reportman_mon` does not answer and is replaced. -/
theorem not_current_replaced : ∃ fds d,
    (run descExec (answering [] 0) sample 0 ⟨tableSample, 0⟩).result = some (some (fds, d)) ∧
    ¬ Current (run descExec (answering [] 0) sample 0 ⟨tableSample, 0⟩).state.table fds d := by
  refine ⟨_, _, rfl, fun hcurrent => ?_⟩
  have hhead := (daemonMain_head 4 tableSample tableSample_ends [] 0 1 fun _ => 3).run (answering [] 0)
    (t := 0) rfl _ _ rfl
  exact absurd (hhead.current_iff.mp hcurrent) (by decide +kernel)

end Main

end Reportman.Descriptors
