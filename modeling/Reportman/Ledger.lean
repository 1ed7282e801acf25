import Mathlib
import Reportman.Watching

/-!
# The descriptors of the daemon

An account of what the daemon's start and its main loop have open: sockets, pipe ends, and the descriptors of the
timer and the signals. They use nothing that they have closed and close nothing twice, and however many clients are
served the account does not grow: only a restart of a child leaves two pipe ends behind, and the restarts are limited.
What is opened while a command is handled is not in the account, nor are the standard streams and syslog.
-/
namespace Reportman.Ledger
open Resumable Ipc Daemon Watching
open FmLoop (Exit sigint sigterm)

/-- What is open, and how many more pipes have been made than children started. -/
structure Sight where
  opened : Finset ℤ
  pairs : ℕ

/-- The daemon comes with its socket. -/
def Sight.start (dSocket : ℤ) : Sight := ⟨{dSocket}, 0⟩

def observe : (op : DaemonSys) → op.Res → Sight → Sight
  | .pipe, some (read, write), s => ⟨insert read (insert write s.opened), s.pairs + 1⟩
  | .fork _ _ _, some _, s => ⟨s.opened, s.pairs - 1⟩
  | .accept, some fd, s => ⟨insert fd s.opened, s.pairs⟩
  | .timerfdCreate, some fd, s => ⟨insert fd s.opened, s.pairs⟩
  | .initializeSignals, some fd, s => ⟨insert fd s.opened, s.pairs⟩
  | .close fd, _, s => ⟨s.opened.erase fd, s.pairs⟩
  | _, _, s => s

def Free (fd : ℤ) (s : Sight) : Prop := fd ≠ -1 ∧ fd ∉ s.opened

instance (fd : ℤ) (s : Sight) : Decidable (Free fd s) := inferInstanceAs (Decidable (_ ∧ _))

def grants : (op : DaemonSys) → op.Res → Sight → Bool
  | .pipe, some (read, write), s => Free read s ∧ Free write s ∧ read ≠ write
  | .accept, some fd, s => Free fd s
  | .timerfdCreate, some fd, s => Free fd s
  | .initializeSignals, some fd, s => Free fd s
  | _, _, _ => true

/-- The system gives out descriptors that are free. -/
def Grants (op : DaemonSys) (r : op.Res) (s : Sight) : Prop := grants op r s = true

instance (op : DaemonSys) (r : op.Res) (s : Sight) : Decidable (Grants op r s) :=
  inferInstanceAs (Decidable (_ = true))

/-- The descriptors that a call names. -/
def uses : DaemonSys → List ℤ
  | .poll fds => [fds.signal, fds.client, fds.fm, fds.mon, fds.health]
  | .selectClient fd => [fd]
  | .readClient fd => [fd]
  | .writeClient fd _ => [fd]
  | .select _ fd _ => [fd]
  | .read _ fd => [fd]
  | .write _ fd _ => [fd]
  | .close fd => [fd]
  | _ => []

/-- What is named is open, or a child's that has never been given any. -/
def Open (fds : List ℤ) (s : Sight) : Prop := ∀ fd ∈ fds, fd = -1 ∨ fd ∈ s.opened

/-- A call names only what is open, and no more than `limit` is. -/
def Sound (limit : ℕ) (op : DaemonSys) (_ : op.Res) (s : Sight) : Prop := s.opened.card ≤ limit ∧ Open (uses op) s

/-- The calls that leave the account as it is and name nothing but `fds`. -/
def Only (fds : List ℤ) : DaemonSys → Prop
  | .pipe => False
  | .fork _ _ _ => False
  | .accept => False
  | .timerfdCreate => False
  | .initializeSignals => False
  | .close _ => False
  | op => uses op ⊆ fds

abbrev Kept {α : Type} (limit : ℕ) (P : α → Sight → Prop) (p : DaemonProg α) (s : Sight) : Prop :=
  Upheld observe Grants (Sound limit) (fun _ => True) P p s

section Accounts

variable {s : Sight} {fds fds' : List ℤ} {fd : ℤ} {limit : ℕ}

theorem Open.mono (h : Open fds s) (hsub : fds' ⊆ fds) : Open fds' s := fun fd hfd => h fd (hsub hfd)

theorem Open.append (h : Open fds s) (h' : Open fds' s) : Open (fds ++ fds') s := by
  intro fd hfd
  exact (List.mem_append.1 hfd).elim (h fd) (h' fd)

theorem Open.later (h : Open fds s) {s' : Sight} (hsub : s.opened ⊆ s'.opened) : Open fds s' :=
  fun fd hfd => (h fd hfd).imp_right (hsub ·)

/-- No two of these are the same descriptor. -/
def Distinct (fds : List ℤ) : Prop := (fds.filter (· ≠ -1)).Nodup

theorem Distinct.sublist (h : Distinct fds) (hsub : fds'.Sublist fds) : Distinct fds' :=
  List.Nodup.sublist (hsub.filter _) h

theorem Distinct.perm (h : Distinct fds) (hperm : fds.Perm fds') : Distinct fds' :=
  (hperm.filter _).nodup_iff.1 h

/-- What the system gives out is none of what is there. -/
theorem Distinct.cons (h : Distinct fds) (hopen : Open fds s) (hfree : Free fd s) : Distinct (fd :: fds) := by
  unfold Distinct
  rw [List.filter_cons_of_pos (by simpa using hfree.1), List.nodup_cons]
  refine ⟨fun hmem => ?_, h⟩
  obtain ⟨hmem, -⟩ := List.mem_filter.1 hmem
  exact (hopen fd hmem).elim hfree.1 hfree.2

/-- After one has been closed the others are still open. -/
theorem Open.close (h : Open (fd :: fds) s) (hdistinct : Distinct (fd :: fds)) :
    Open fds ⟨s.opened.erase fd, s.pairs⟩ := by
  intro fd' hfd'
  rcases h fd' (List.mem_cons_of_mem _ hfd') with hnone | hopen
  · exact .inl hnone
  by_cases hminus : fd' = -1
  · exact .inl hminus
  refine .inr (Finset.mem_erase.2 ⟨?_, hopen⟩)
  rintro rfl
  unfold Distinct at hdistinct
  rw [List.filter_cons_of_pos (by simpa using hminus), List.nodup_cons] at hdistinct
  exact hdistinct.1 (List.mem_filter.2 ⟨hfd', by simpa using hminus⟩)

theorem only_uses {op : DaemonSys} (h : Only fds op) : uses op ⊆ fds := by
  cases op <;> first | exact h.elim | exact h

theorem only_observe {op : DaemonSys} (h : Only fds op) (r : op.Res) : observe op r s = s := by
  cases op <;> first | exact h.elim | rfl

theorem Only.mono {op : DaemonSys} (h : Only fds op) (hsub : fds ⊆ fds') : Only fds' op := by
  cases op <;> first | exact h.elim | exact fun fd hfd => hsub (h hfd)

theorem only_upheld {α : Type} {Q : α → Prop} {p : DaemonProg α} (hp : p.Always (fun op _ => Only fds op) Q)
    (hopen : Open fds s) (hcard : s.opened.card ≤ limit) : Kept limit (fun a s' => Q a ∧ s' = s) p s := by
  refine upheld_of_always (J := fun s' => s' = s) hp ?_ (fun _ _ => trivial) rfl
  rintro op r _ hop - rfl
  exact ⟨⟨hcard, hopen.mono (only_uses hop)⟩, only_observe hop r⟩

end Accounts

section Calls

variable (d : DaemonState)

def pipeEnds (d : DaemonState) : List ℤ := [d.fm.pipes.read, d.mon.pipes.read, d.fm.pipes.write, d.mon.pipes.write]

theorem read_mem (c : ChildName) : (d.child c).pipes.read ∈ pipeEnds d := by
  cases c <;> simp [pipeEnds, DaemonState.child]

theorem write_mem (c : ChildName) : (d.child c).pipes.write ∈ pipeEnds d := by
  cases c <;> simp [pipeEnds, DaemonState.child]

theorem only_of_talks {site : Site} {c : ChildName} {op : DaemonSys} (h : Talks site (d.child c).pipes op) :
    Only (pipeEnds d) op := by
  cases op
  case select s fd secs =>
    obtain rfl : fd = _ := h.2
    simpa [Only, uses] using read_mem d c
  case read s fd =>
    obtain rfl : fd = _ := h.2
    simpa [Only, uses] using read_mem d c
  case write s fd word =>
    obtain rfl : fd = _ := h.2
    simpa [Only, uses] using write_mem d c
  case uninitialized => exact List.nil_subset _
  case exit => exact List.nil_subset _
  all_goals exact h.elim

theorem only_of_converses {fd : ℤ} {op : DaemonSys} (h : Converses fd op) : Only [fd] op := by
  cases op
  case execute => exact List.nil_subset _
  case selectClient => exact fun _ hfd => (List.mem_singleton.1 hfd).trans h ▸ List.mem_singleton_self _
  case readClient => exact fun _ hfd => (List.mem_singleton.1 hfd).trans h ▸ List.mem_singleton_self _
  case writeClient => exact fun _ hfd => (List.mem_singleton.1 hfd).trans h ▸ List.mem_singleton_self _
  all_goals exact h.elim

theorem acknowledgeClient_only (c : ChildName) :
    (acknowledgeClient d c).Always (fun op _ => Only (pipeEnds d) op) fun _ => True :=
  (acknowledgeClient_talks d c).mono (fun _ _ hop => only_of_talks d hop) fun _ h => h

theorem answersProbe_only (c : ChildName) :
    (answersProbe d c).Always (fun op _ => Only (pipeEnds d) op) fun _ => True :=
  (answersProbe_talks d c).mono (fun _ _ hop => only_of_talks d hop) fun _ h => h

/-- Neither the pipes nor the counters of a child have changed. -/
def Same (d d' : DaemonState) : Prop := ∀ c, (d'.child c).pipes = (d.child c).pipes ∧
  (d'.child c).maxRetries = (d.child c).maxRetries ∧ (d'.child c).retries = (d.child c).retries

theorem reportmanFmGetTimers_only :
    (reportmanFmGetTimers d).Always (fun op _ => Only (pipeEnds d) op) (Same d) := by
  refine (reportmanFmGetTimers_reads d).mono ?_ ?_
  · rintro op _ (hop | rfl)
    · exact only_of_talks d (c := .fm) hop.talks
    · exact List.nil_subset _
  · rintro _ ⟨backup, transfer, rfl⟩ c
    cases c <;> exact ⟨rfl, rfl, rfl⟩

theorem getCommand_only (site : Site) (c : ChildName) (secs : ℕ) :
    (getCommand d site c secs).Always (fun op _ => Only (pipeEnds d) op) (Same d) := by
  refine (getCommand_reads d site c secs).mono (fun _ _ hop => only_of_talks d hop.talks) ?_
  rintro _ ⟨command, rfl⟩ c
  cases c <;> exact ⟨rfl, rfl, rfl⟩

theorem session_only (fd : ℤ) (exchanges : ℕ) :
    (session fd d exchanges).Always (fun op _ => Only [fd] op) fun o => ∀ d', o = some d' → Same d d' := by
  refine (session_converses fd d exchanges).mono (fun _ _ hop => only_of_converses hop) fun o ho d' hd' => ?_
  obtain ⟨b, rfl⟩ := ho d' hd'
  exact fun c => by cases c <;> exact ⟨rfl, rfl, rfl⟩

end Calls

section Books

/-- The ends that are closed in the end. -/
def reads (d : DaemonState) : List ℤ := [d.fm.pipes.read, d.mon.pipes.read]

/-- The account: `base` are the descriptors that are not pipes, `polled` those of the array that is polled, and
at most `limit` pairs of pipe ends have been left in the daemon. -/
structure Books (base polled : List ℤ) (pairs : ℕ) (d : DaemonState) (s : Sight) : Prop where
  distinct : Distinct (reads d ++ base)
  opened : Open (pipeEnds d ++ base) s
  polled : Open polled s
  count : s.opened.card = base.length + 2 * s.pairs
  pairs : s.pairs ≤ pairs

variable {base polled : List ℤ} {pairs limit : ℕ} {d d' : DaemonState} {s : Sight} {α : Type}

theorem Same.pipes (h : Same d d') : SamePipes d d' := ⟨(h .fm).1, (h .mon).1⟩

theorem Books.same (h : Books base polled pairs d s) (hd : SamePipes d d') : Books base polled pairs d' s := by
  have hends : pipeEnds d' = pipeEnds d := by simp [pipeEnds, hd.1, hd.2]
  have hreads : reads d' = reads d := by simp [reads, hd.1, hd.2]
  exact ⟨hreads ▸ h.distinct, hends ▸ h.opened, h.polled, h.count, h.pairs⟩

theorem Books.more (h : Books base polled pairs d s) : Books base polled (pairs + 1) d s :=
  ⟨h.distinct, h.opened, h.polled, h.count, Nat.le_succ_of_le h.pairs⟩

theorem reads_sub (d : DaemonState) : reads d ⊆ pipeEnds d := by
  intro fd hfd
  simp only [reads, pipeEnds, List.mem_cons] at hfd ⊢
  tauto

theorem Books.ends (h : Books base polled pairs d s) : Open (reads d ++ base) s := by
  refine h.opened.mono fun fd hfd => ?_
  rw [List.mem_append] at hfd ⊢
  exact hfd.imp_left (reads_sub d ·)

theorem Books.card_le (h : Books base polled pairs d s) (hlimit : base.length + 2 * pairs ≤ limit) :
    s.opened.card ≤ limit := by
  have hcount := h.count
  have hpairs := h.pairs
  omega

/-- A descriptor that stays. -/
theorem Books.add {fd : ℤ} (h : Books base polled pairs d s) (hfree : Free fd s) :
    Books (fd :: base) polled pairs d ⟨insert fd s.opened, s.pairs⟩ := by
  have hlater : ∀ {fds}, Open fds s → Open fds ⟨insert fd s.opened, s.pairs⟩ :=
    fun hopen => hopen.later (Finset.subset_insert ..)
  refine ⟨?_, ?_, hlater h.polled, ?_, h.pairs⟩
  · exact (h.distinct.cons h.ends hfree).perm List.perm_middle.symm
  · intro fd' hfd'
    have hcases : fd' = fd ∨ fd' ∈ pipeEnds d ++ base := by
      simp only [List.mem_append, List.mem_cons] at hfd' ⊢
      tauto
    rcases hcases with rfl | hold
    · exact .inr (Finset.mem_insert_self ..)
    · exact hlater h.opened fd' hold
  · rw [Finset.card_insert_of_notMem hfree.2, h.count, List.length_cons]
    dsimp only
    omega

/-- A pair of pipe ends that nobody will use. -/
theorem Books.wasted {read write : ℤ} (h : Books base polled pairs d s) (hread : Free read s) (hwrite : Free write s)
    (hne : read ≠ write) :
    Books base polled (pairs + 1) d ⟨insert read (insert write s.opened), s.pairs + 1⟩ := by
  have hsub : s.opened ⊆ insert read (insert write s.opened) :=
    (Finset.subset_insert ..).trans (Finset.subset_insert ..)
  refine ⟨h.distinct, h.opened.later hsub, h.polled.later hsub, ?_, Nat.succ_le_succ h.pairs⟩
  rw [Finset.card_insert_of_notMem (by simp [hne, hread.2]), Finset.card_insert_of_notMem hwrite.2, h.count]
  dsimp only
  omega

/-- A child gets new pipes; what it had is left open. -/
theorem Books.spawned (h : Books base polled pairs d s) {c : ChildName} {p : ChildProcess}
    (hread : Free p.pipes.read s) (hwrite : Free p.pipes.write s) (hne : p.pipes.read ≠ p.pipes.write) :
    Books base polled (pairs + 1) (d.setChild c p)
      ⟨insert p.pipes.read (insert p.pipes.write s.opened), s.pairs + 1⟩ := by
  have hwasted := h.wasted hread hwrite hne
  have hdistinct := h.distinct.cons h.ends hread
  refine ⟨?_, ?_, hwasted.polled, hwasted.count, hwasted.pairs⟩
  · cases c with
    | fm =>
      refine hdistinct.sublist ?_
      simp [reads, DaemonState.setChild]
    | mon =>
      have hends : Distinct (p.pipes.read :: d.fm.pipes.read :: base) := hdistinct.sublist (by simp [reads])
      exact hends.perm (List.Perm.swap ..)
  · intro fd hfd
    have hnew : fd ∈ [p.pipes.read, p.pipes.write] ∨ fd ∈ pipeEnds d ++ base := by
      cases c <;> simp only [pipeEnds, DaemonState.setChild, List.mem_append, List.mem_cons] at hfd ⊢ <;> tauto
    rcases hnew with hnew | hnew
    · simp only [List.mem_cons, List.not_mem_nil, or_false] at hnew
      rcases hnew with rfl | rfl <;> simp
    · exact hwasted.opened fd hnew

end Books

section Functions

variable {base polled : List ℤ} {pairs limit : ℕ} {d d' : DaemonState} {s : Sight} {α : Type}
  {P : α → Sight → Prop} (dSocket : ℤ)

theorem quiet_kept {op : DaemonSys} {next : op.Res → DaemonProg α} (hop : Only [] op)
    (hcard : s.opened.card ≤ limit) (hnext : ∀ r, Kept limit P (next r) s) : Kept limit P (.call op next) s := by
  refine upheld_call fun r _ => ⟨⟨hcard, fun fd hfd => absurd (only_uses hop hfd) List.not_mem_nil⟩, ?_⟩
  rw [only_observe hop]
  exact hnext r

theorem close_kept {fd : ℤ} {rest : List ℤ} {next : Unit → DaemonProg α} (hopen : Open (fd :: rest) s)
    (hdistinct : Distinct (fd :: rest)) (hcard : s.opened.card ≤ limit)
    (hnext : ∀ s', Open rest s' → s'.opened.card ≤ limit → Kept limit P (next ()) s') :
    Kept limit P (.call (.close fd) next) s := by
  refine upheld_call fun _ _ => ⟨⟨hcard, hopen.mono (by simp [uses])⟩, ?_⟩
  exact hnext _ (hopen.close hdistinct) ((Finset.card_le_card (Finset.erase_subset ..)).trans hcard)

theorem exitWith_kept (code : Exit) (hcard : s.opened.card ≤ limit) : Kept limit P (exitWith code) s :=
  quiet_kept (List.nil_subset _) hcard fun _ => trivial

/-- Each descriptor that is closed in the end has been open until then. -/
theorem cleanClose_kept {fds : PollFds} (h : Books [fds.signal, fds.health, dSocket] polled pairs d s)
    (hcard : s.opened.card ≤ limit) (code : Exit) : Kept limit P (cleanClose dSocket fds d code) s := by
  have hperm : (reads d ++ [fds.signal, fds.health, dSocket]).Perm
      (fds.health :: d.fm.pipes.read :: d.mon.pipes.read :: fds.signal :: [dSocket]) :=
    @List.perm_middle _ fds.health [d.fm.pipes.read, d.mon.pipes.read, fds.signal] [dSocket]
  have hdistinct := h.distinct.perm hperm
  have hopen := h.ends.mono hperm.symm.subset
  refine close_kept hopen hdistinct hcard fun s₁ hopen hcard => ?_
  have hdistinct := hdistinct.sublist (List.sublist_cons_self ..)
  refine close_kept hopen hdistinct hcard fun s₂ hopen hcard => ?_
  have hdistinct := hdistinct.sublist (List.sublist_cons_self ..)
  refine close_kept hopen hdistinct hcard fun s₃ hopen hcard => ?_
  have hdistinct := hdistinct.sublist (List.sublist_cons_self ..)
  refine quiet_kept (List.nil_subset _) hcard fun _ => quiet_kept (List.nil_subset _) hcard fun _ =>
    quiet_kept (List.nil_subset _) hcard fun _ => ?_
  refine close_kept hopen hdistinct hcard fun s₄ hopen hcard => ?_
  have hdistinct := hdistinct.sublist (List.sublist_cons_self ..)
  exact close_kept hopen hdistinct hcard fun s₅ _ hcard => exitWith_kept code hcard

theorem startChildProcess_kept (h : Books base polled pairs d s) (hlimit : base.length + 2 * pairs + 4 ≤ limit)
    (c : ChildName) (extraArgs : List String) :
    Kept limit (fun p s' => Books base polled (pairs + 1) (d.setChild c p) s' ∧
      p.maxRetries = (d.child c).maxRetries ∧ p.retries = (d.child c).retries)
      (startChildProcess dSocket (d.child c) c extraArgs) s := by
  have hself : ∀ {s'}, Books base polled (pairs + 1) d s' →
      Books base polled (pairs + 1) (d.setChild c (d.child c)) s' := by
    intro s' h'
    refine h'.same ?_
    cases c <;> exact ⟨rfl, rfl⟩
  have hcard : s.opened.card ≤ limit := h.card_le (by omega)
  have hnone : Open [] s := fun fd hfd => absurd hfd List.not_mem_nil
  refine upheld_call fun made hmade => ⟨⟨hcard, hnone⟩, ?_⟩
  rcases made with _ | ⟨childRead, childWrite⟩
  · exact ⟨hself h.more, rfl, rfl⟩
  obtain ⟨hcr, hcw, hcne⟩ := of_decide_eq_true hmade
  have h₁ := h.wasted hcr hcw hcne
  have hcard₁ := h₁.card_le (show base.length + 2 * (pairs + 1) ≤ limit by omega)
  refine upheld_call fun made hmade => ⟨⟨hcard₁, fun fd hfd => absurd hfd List.not_mem_nil⟩, ?_⟩
  rcases made with _ | ⟨parentRead, parentWrite⟩
  · exact ⟨hself h₁, rfl, rfl⟩
  obtain ⟨hpr, hpw, hpne⟩ := of_decide_eq_true hmade
  have h₂ := h₁.wasted hpr hpw hpne
  have hcard₂ := h₂.card_le (show base.length + 2 * (pairs + 2) ≤ limit by omega)
  refine upheld_call fun pid _ => ⟨⟨hcard₂, fun fd hfd => absurd hfd List.not_mem_nil⟩, ?_⟩
  rcases pid with _ | pid
  · exact exitWith_kept .failure hcard₂
  -- of the four ends the daemon keeps two
  have hpwNew : parentWrite ∉ insert childRead (insert childWrite s.opened) := hpw.2
  have hprNew : parentRead ∉ insert childRead (insert childWrite s.opened) := hpr.2
  simp only [Finset.mem_insert, not_or] at hpwNew hprNew
  have hspawned := h.spawned (c := c) (p := { d.child c with
    pid := pid, pipes := ⟨parentWrite, childRead⟩, isAlive := true }) hcr ⟨hpw.1, hpwNew.2.2⟩ (Ne.symm hpwNew.1)
  have hleft : ((insert parentRead (insert parentWrite (insert childRead (insert childWrite s.opened)))).erase
      parentRead).erase childWrite = insert childRead (insert parentWrite s.opened) := by
    have hfirst : parentRead ∉ insert parentWrite (insert childRead (insert childWrite s.opened)) := by
      simp only [Finset.mem_insert, not_or]
      exact ⟨hpne, hprNew⟩
    have hsecond : childWrite ∉ insert parentWrite (insert childRead s.opened) := by
      simp only [Finset.mem_insert, not_or]
      exact ⟨Ne.symm hpwNew.2.1, Ne.symm hcne, hcw.2⟩
    rw [Finset.erase_insert hfirst, Finset.insert_comm childRead childWrite,
      Finset.insert_comm parentWrite childWrite, Finset.erase_insert hsecond, Finset.insert_comm]
  refine upheld_call fun _ _ => ⟨⟨hcard₂, ?_⟩, upheld_call fun _ _ => ⟨⟨?_, ?_⟩, ?_⟩⟩
  · simp [Open, uses, observe]
  · exact (Finset.card_le_card (Finset.erase_subset ..)).trans hcard₂
  · simp [Open, uses, observe, Ne.symm hpwNew.2.1, Ne.symm hprNew.2.1]
  · refine ⟨?_, rfl, rfl⟩
    simp only [observe, hleft]
    exact hspawned

theorem childSpawn_kept (h : Books base polled pairs d s) (hlimit : base.length + 2 * pairs + 4 ≤ limit)
    (c : ChildName) (extraArgs : List String) :
    Kept limit (fun d' s' => Books base polled (pairs + 1) d' s' ∧ ∃ p, d' = d.setChild c p ∧
      p.maxRetries = (d.child c).maxRetries ∧ p.retries = (d.child c).retries)
      (childSpawn dSocket d c extraArgs) s := by
  refine (startChildProcess_kept dSocket h hlimit c extraArgs).bind fun p s₁ h₁ => ?_
  have hopen : Open (pipeEnds (d.setChild c p)) s₁ := h₁.1.opened.mono (List.subset_append_left ..)
  refine (only_upheld (acknowledgeClient_only _ c) hopen (h₁.1.card_le (by omega))).bind fun _ s₂ h₂ => ?_
  obtain ⟨-, rfl⟩ := h₂
  exact ⟨h₁.1, p, rfl, h₁.2⟩

end Functions

section Rounds

variable {base polled : List ℤ} {d d' : DaemonState} {s : Sight} {α : Type} {P : α → Sight → Prop} (dSocket : ℤ)
  {fds : PollFds} {maxRetries : ChildName → UInt16}

/-- How often children have been restarted. -/
def restarts (d : DaemonState) : ℕ := (d.child .fm).retries.toNat + (d.child .mon).retries.toNat

/-- As many descriptors as the daemon ever has open. -/
def most (maxRetries : ChildName → UInt16) : ℕ := 13 + 2 * ((maxRetries .fm).toNat + (maxRetries .mon).toNat)

def Tries (maxRetries : ChildName → UInt16) (d : DaemonState) : Prop :=
  ∀ c, (d.child c).maxRetries = maxRetries c ∧ (d.child c).retries.toNat ≤ (maxRetries c).toNat + 1

/-- Between the parts of a round. -/
structure Regular (maxRetries : ChildName → UInt16) (base polled : List ℤ) (d : DaemonState) (s : Sight) : Prop where
  books : Books base polled (2 + restarts d) d s
  tries : Tries maxRetries d

theorem restarts_same (h : Same d d') : restarts d' = restarts d := by
  simp only [restarts, (h _).2.2]

theorem Tries.same (h : Tries maxRetries d) (hd : Same d d') : Tries maxRetries d' := by
  intro c
  rw [(hd c).2.1, (hd c).2.2]
  exact h c

theorem Regular.same (h : Regular maxRetries base polled d s) (hd : Same d d') :
    Regular maxRetries base polled d' s :=
  ⟨restarts_same hd ▸ h.books.same hd.pipes, h.tries.same hd⟩

theorem Regular.card_le (h : Regular maxRetries base polled d s) (hbase : base.length ≤ 3) :
    s.opened.card + 2 ≤ most maxRetries := by
  have hcount := h.books.count
  have hpairs := h.books.pairs
  have hfm := (h.tries .fm).2
  have hmon := (h.tries .mon).2
  unfold restarts at hpairs
  unfold most
  omega

theorem Regular.open (h : Regular maxRetries base polled d s) : Open (pipeEnds d) s :=
  h.books.opened.mono (List.subset_append_left ..)

theorem only_regular {Q : α → Prop} {p : DaemonProg α} (hp : p.Always (fun op _ => Only (pipeEnds d) op) Q)
    (h : Regular maxRetries base polled d s) (hbase : base.length ≤ 3)
    (hP : ∀ a, Q a → P a s) : Kept (most maxRetries) P p s := by
  refine (only_upheld hp h.open ((Nat.le_add_right ..).trans (h.card_le hbase))).mono fun a s' h' => ?_
  obtain ⟨ha, rfl⟩ := h'
  exact hP a ha

theorem restarts_setChild {c : ChildName} {p : ChildProcess} (hp : p.retries.toNat = (d.child c).retries.toNat + 1) :
    restarts (d.setChild c p) = restarts d + 1 := by
  cases c with
  | fm =>
    have hp' : p.retries.toNat = d.fm.retries.toNat + 1 := hp
    simp only [restarts, DaemonState.setChild, DaemonState.child, hp']
    omega
  | mon =>
    have hp' : p.retries.toNat = d.mon.retries.toNat + 1 := hp
    simp only [restarts, DaemonState.setChild, DaemonState.child, hp']
    omega

/-- A restart costs a pair of pipe ends, and one of the tries. -/
theorem restartChild_kept {c : ChildName} (hmax : (maxRetries c).toNat < 65535) (hbase : base.length ≤ 3)
    {post : DaemonState → DaemonProg DaemonState}
    (hpost : ∀ d s, Regular maxRetries base polled d s →
      Kept (most maxRetries) (fun d' s' => Regular maxRetries base polled d' s') (post d) s)
    (h : Regular maxRetries base polled d s) :
    Kept (most maxRetries) (fun d' s' => Regular maxRetries base polled d' s') (restartChild dSocket d c post) s := by
  unfold restartChild
  dsimp only
  split_ifs with hmore
  · exact exitWith_kept .failure ((Nat.le_add_right ..).trans (h.card_le hbase))
  rw [gt_iff_lt, UInt16.lt_iff_toNat_lt, not_lt, (h.tries c).1] at hmore
  have hnext : ((d.child c).retries + 1).toNat = (d.child c).retries.toNat + 1 := by
    rw [UInt16.toNat_add]
    exact Nat.mod_eq_of_lt (by simpa using Nat.succ_lt_succ (hmore.trans_lt hmax))
  have hfew : restarts d ≤ (maxRetries .fm).toNat + (maxRetries .mon).toNat + 1 := by
    have hfm := (h.tries .fm).2
    have hmon := (h.tries .mon).2
    unfold restarts
    cases c with
    | fm => omega
    | mon => omega
  have hbooks : Books base polled (2 + restarts d)
      (d.setChild c { d.child c with retries := (d.child c).retries + 1 }) s := by
    refine h.books.same ?_
    cases c <;> exact ⟨rfl, rfl⟩
  refine (childSpawn_kept dSocket hbooks (by unfold most; omega) c []).bind fun d₁ s₁ h₁ => ?_
  obtain ⟨hbooks₁, p, rfl, hpmax, hpretries⟩ := h₁
  rw [DaemonState.setChild_setChild] at hbooks₁ ⊢
  rw [DaemonState.child_setChild] at hpmax hpretries
  have hp : p.retries.toNat = (d.child c).retries.toNat + 1 := by rw [hpretries, hnext]
  have hregular : Regular maxRetries base polled (d.setChild c p) s₁ := by
    refine ⟨?_, fun c' => ?_⟩
    · rw [restarts_setChild hp]
      exact hbooks₁
    by_cases hc : c' = c
    · subst hc
      rw [DaemonState.child_setChild]
      exact ⟨hpmax.trans (h.tries c').1, by omega⟩
    · rw [DaemonState.child_setChild_ne d hc]
      exact h.tries c'
  refine (hpost _ s₁ hregular).bind fun d₂ s₂ h₂ => ?_
  exact h₂.same fun c' => by cases c' <;> exact ⟨rfl, rfl, rfl⟩

theorem healthProbeChildProcess_kept {c : ChildName} (hmax : (maxRetries c).toNat < 65535) (hbase : base.length ≤ 3)
    {post : DaemonState → DaemonProg DaemonState}
    (hpost : ∀ d s, Regular maxRetries base polled d s →
      Kept (most maxRetries) (fun d' s' => Regular maxRetries base polled d' s') (post d) s)
    (h : Regular maxRetries base polled d s) :
    Kept (most maxRetries) (fun d' s' => Regular maxRetries base polled d' s')
      (healthProbeChildProcess dSocket d c post) s := by
  have hcard : ∀ {d s}, Regular maxRetries base polled d s → s.opened.card ≤ most maxRetries :=
    fun h => (Nat.le_add_right ..).trans (h.card_le hbase)
  have hsame : ∀ isAlive, Same d (({ d with current := some c } : DaemonState).setChild c
      { d.child c with isAlive := isAlive }) := by
    intro isAlive c'
    cases c <;> cases c' <;> exact ⟨rfl, rfl, rfl⟩
  rw [healthProbeChildProcess_eq]
  refine quiet_kept (List.nil_subset _) (hcard h) fun isAlive => ?_
  cases isAlive with
  | false => exact restartChild_kept dSocket hmax hbase hpost (h.same (hsame false))
  | true =>
  have h₁ := h.same (hsame true)
  refine Upheld.bind (P := fun _ s' => Regular maxRetries base polled _ s')
    (only_regular (answersProbe_only _ c) h₁ hbase fun _ _ => h₁) fun answered s₂ h₂ => ?_
  cases answered with
  | true => exact h₂
  | false =>
    refine quiet_kept (List.nil_subset _) (hcard h₂) fun _ => quiet_kept (List.nil_subset _) (hcard h₂) fun _ => ?_
    rw [DaemonState.setChild_setChild]
    refine restartChild_kept dSocket hmax hbase hpost (h₂.same fun c' => ?_)
    cases c <;> cases c' <;> exact ⟨rfl, rfl, rfl⟩

theorem reportmanFmGetTimers_kept (hbase : base.length ≤ 3) (h : Regular maxRetries base polled d s) :
    Kept (most maxRetries) (fun d' s' => Regular maxRetries base polled d' s') (reportmanFmGetTimers d) s :=
  only_regular (reportmanFmGetTimers_only d) h hbase fun _ hsame => h.same hsame

theorem childMessage_kept (h : Regular maxRetries [fds.signal, fds.health, dSocket] polled d s) (site : Site)
    (c : ChildName) (secs : ℕ) : Kept (most maxRetries)
      (fun d' s' => Regular maxRetries [fds.signal, fds.health, dSocket] polled d' s')
      (childMessage dSocket fds d site c secs) s := by
  refine (only_regular (getCommand_only d site c secs) h le_rfl fun _ hsame => h.same hsame).bind fun d₁ s₁ h₁ => ?_
  split_ifs
  · exact cleanClose_kept dSocket h₁.books ((Nat.le_add_right ..).trans (h₁.card_le le_rfl)) .failure
  · exact h₁

theorem giveUp_kept {code : Exit} (hcard : s.opened.card ≤ most maxRetries) :
    Kept (most maxRetries) P (killChildren >>= fun _ => exitWith code) s :=
  quiet_kept (List.nil_subset _) hcard fun _ => quiet_kept (List.nil_subset _) hcard fun _ => exitWith_kept code hcard

theorem signalMessage_kept (h : Regular maxRetries [fds.signal, fds.health, dSocket] polled d s) :
    Kept (most maxRetries) (fun _ s' => Regular maxRetries [fds.signal, fds.health, dSocket] polled d s')
      (signalMessage dSocket fds d) s := by
  have hcard : s.opened.card ≤ most maxRetries := (Nat.le_add_right ..).trans (h.card_le le_rfl)
  refine quiet_kept (List.nil_subset _) hcard fun read => ?_
  rcases read with _ | _ | signo
  · exact giveUp_kept hcard
  · exact giveUp_kept hcard
  change Kept _ _ (if signo = sigint ∨ signo = sigterm then killChildren >>= fun _ =>
    cleanClose dSocket fds { d with closeRequested := true } .success else .ret ()) _
  split_ifs
  · refine quiet_kept (List.nil_subset _) hcard fun _ => quiet_kept (List.nil_subset _) hcard fun _ => ?_
    exact cleanClose_kept dSocket (h.books.same ⟨rfl, rfl⟩) hcard .success
  · exact h

/-- A client that has been served leaves nothing open. -/
theorem clientMessage_kept (h : Regular maxRetries [fds.signal, fds.health, dSocket] polled d s) (exchanges : ℕ) :
    Kept (most maxRetries) (fun served s' =>
      (served = .again → Regular maxRetries [fds.signal, fds.health, dSocket] polled d s') ∧
        ∀ d', served = .done d' → Regular maxRetries [fds.signal, fds.health, dSocket] polled d' s')
      (clientMessage dSocket fds d exchanges) s := by
  have hcard := h.card_le le_rfl
  rw [clientMessage_eq]
  refine upheld_call fun client hgrant => ⟨⟨(Nat.le_add_right ..).trans hcard, nofun⟩, ?_⟩
  cases client with
  | none =>
    refine ⟨fun _ => h, ?_⟩
    rintro _ ⟨⟩
  | some fd =>
    have hfree : Free fd s := of_decide_eq_true hgrant
    have hcard' : (insert fd s.opened).card ≤ most maxRetries := by
      rw [Finset.card_insert_of_notMem hfree.2]
      omega
    have hopen : Open [fd] ⟨insert fd s.opened, s.pairs⟩ := by simp [Open]
    refine (only_upheld (session_only d fd exchanges) hopen hcard').bind fun o s₂ h₂ => ?_
    obtain ⟨hsame, rfl⟩ := h₂
    cases o with
    | none =>
      refine ⟨nofun, ?_⟩
      rintro _ ⟨⟩
    | some d₂ =>
      refine upheld_call fun _ _ => ⟨⟨hcard', hopen⟩, ?_⟩
      have hback : observe (.close fd) () ⟨insert fd s.opened, s.pairs⟩ = s := by
        simp only [observe, Finset.erase_insert hfree.2]
      rw [hback]
      have h₂ := h.same (hsame d₂ rfl)
      split_ifs
      · exact cleanClose_kept dSocket h₂.books ((Nat.le_add_right ..).trans hcard) .success
      · refine ⟨nofun, ?_⟩
        rintro _ ⟨⟩
        exact h₂

theorem parts (hmax : ∀ c, (maxRetries c).toNat < 65535) (hclient : fds.client = dSocket) :
    Parts observe Grants (Sound (most maxRetries)) (fun _ => True) dSocket fds
      (Regular maxRetries [fds.signal, fds.health, dSocket] [fds.fm, fds.mon]) where
  poll := by
    intro d s r h _
    refine ⟨⟨(Nat.le_add_right ..).trans (h.card_le le_rfl), ?_⟩, h⟩
    refine (h.books.opened.append h.books.polled).mono ?_
    intro fd hfd
    simp only [uses, hclient, List.mem_cons, List.mem_append] at hfd ⊢
    tauto
  giveUp := fun _ _ h => giveUp_kept ((Nat.le_add_right ..).trans (h.card_le le_rfl))
  signal := fun _ _ h => signalMessage_kept dSocket h
  client := fun _ _ exchanges h => clientMessage_kept dSocket h exchanges
  message := fun _ _ c site secs _ h => childMessage_kept dSocket h site c secs
  rearm := fun _ _ _ h _ =>
    have hcard := (Nat.le_add_right ..).trans (h.card_le le_rfl)
    ⟨⟨hcard, nofun⟩, fun _ => h, fun _ => exitWith_kept .failure hcard⟩
  probeFm := fun _ _ h => healthProbeChildProcess_kept dSocket (hmax .fm) le_rfl
    (fun _ _ h => reportmanFmGetTimers_kept le_rfl h) h
  probeMon := fun _ _ h => healthProbeChildProcess_kept dSocket (hmax .mon) le_rfl (fun _ _ h => h) h

/-- Two more descriptors, those of the timer and of the signals. -/
theorem prepare_kept (h : Regular maxRetries [dSocket] [] d s) : Kept (most maxRetries) (fun r s' =>
    r.1.client = dSocket ∧ Regular maxRetries [r.1.signal, r.1.health, dSocket] [r.1.fm, r.1.mon] r.2 s')
      (prepare dSocket d) s := by
  have hcard : ∀ {base : List ℤ} {s : Sight}, base.length ≤ 3 → Regular maxRetries base [] d s →
      s.opened.card ≤ most maxRetries := fun hbase h => (Nat.le_add_right ..).trans (h.card_le hbase)
  have hcard₀ := hcard (by simp) h
  refine quiet_kept (List.nil_subset _) hcard₀ fun command => quiet_kept (List.nil_subset _) hcard₀ fun created => ?_
  cases created with
  | false => exact exitWith_kept .failure hcard₀
  | true =>
  refine upheld_call fun timerfd hgrant => ⟨⟨hcard₀, nofun⟩, ?_⟩
  rcases timerfd with _ | timerfd
  · exact exitWith_kept .failure hcard₀
  have h₁ : Regular maxRetries [timerfd, dSocket] [] d ⟨insert timerfd s.opened, s.pairs⟩ :=
    ⟨h.books.add (of_decide_eq_true hgrant), h.tries⟩
  have hcard₁ := hcard (by simp) h₁
  refine quiet_kept (List.nil_subset _) hcard₁ fun armed => ?_
  cases armed with
  | false => exact exitWith_kept .failure hcard₁
  | true =>
  refine quiet_kept (List.nil_subset _) hcard₁ fun installed => ?_
  cases installed with
  | false => exact exitWith_kept .failure hcard₁
  | true =>
  refine upheld_call fun signalFd hgrant => ⟨⟨hcard₁, nofun⟩, ?_⟩
  rcases signalFd with _ | signalFd
  · exact exitWith_kept .failure hcard₁
  have h₂ : Regular maxRetries [signalFd, timerfd, dSocket] [] d
      ⟨insert signalFd (insert timerfd s.opened), s.pairs⟩ :=
    ⟨h₁.books.add (of_decide_eq_true hgrant), h.tries⟩
  have hpolled : Open [d.fm.pipes.read, d.mon.pipes.read] ⟨insert signalFd (insert timerfd s.opened), s.pairs⟩ :=
    h₂.books.opened.mono fun fd hfd => List.mem_append_left _ (reads_sub d hfd)
  have hregular : Regular maxRetries [signalFd, timerfd, dSocket] [d.fm.pipes.read, d.mon.pipes.read] d
      ⟨insert signalFd (insert timerfd s.opened), s.pairs⟩ :=
    ⟨⟨h₂.books.distinct, h₂.books.opened, hpolled, h₂.books.count, h₂.books.pairs⟩, h.tries⟩
  exact ⟨rfl, hregular.same fun c => by cases c <;> exact ⟨rfl, rfl, rfl⟩⟩

theorem initially_books : Books [dSocket] [] 0 (initially maxRetries) (.start dSocket) where
  distinct := (List.nodup_singleton dSocket).sublist (by simpa [reads, initially] using em (dSocket = -1))
  opened := by simp [Open, pipeEnds, initially, Sight.start]
  polled := nofun
  count := by simp [Sight.start]
  pairs := le_rfl

theorem startUp_kept (directories : List String) : Kept (most maxRetries) (fun r s' =>
    r.1.client = dSocket ∧ Regular maxRetries [r.1.signal, r.1.health, dSocket] [r.1.fm, r.1.mon] r.2 s')
      (startUp dSocket directories (initially maxRetries)) (.start dSocket) := by
  have hlimit : 13 ≤ most maxRetries := Nat.le_add_right ..
  have hbooks : Books [dSocket] [] 0 (initially maxRetries) (.start dSocket) := initially_books dSocket
  refine (childSpawn_kept dSocket hbooks (le_trans (by simp) hlimit) .fm []).bind fun d₁ s₁ h₁ => ?_
  obtain ⟨hbooks₁, p, rfl, hpmax, hpretries⟩ := h₁
  have hopen : Open (pipeEnds ((initially maxRetries).setChild .fm p)) s₁ :=
    hbooks₁.opened.mono (List.subset_append_left ..)
  refine (only_upheld (reportmanFmGetTimers_only _) hopen (hbooks₁.card_le (le_trans (by simp) hlimit))).bind
    fun d₂ s₂ h₂ => ?_
  obtain ⟨hsame, rfl⟩ := h₂
  refine (childSpawn_kept dSocket (hbooks₁.same hsame.pipes) (le_trans (by simp) hlimit) .mon directories).bind
    fun d₃ s₃ h₃ => ?_
  obtain ⟨hbooks₃, q, rfl, hqmax, hqretries⟩ := h₃
  have hfm : ((d₂.setChild .mon q).child .fm).maxRetries = maxRetries .fm ∧
      ((d₂.setChild .mon q).child .fm).retries = 0 :=
    ⟨(hsame .fm).2.1.trans hpmax, (hsame .fm).2.2.trans hpretries⟩
  have hmon : ((d₂.setChild .mon q).child .mon).maxRetries = maxRetries .mon ∧
      ((d₂.setChild .mon q).child .mon).retries = 0 :=
    ⟨hqmax.trans (hsame .mon).2.1, hqretries.trans (hsame .mon).2.2⟩
  have htries : Tries maxRetries (d₂.setChild .mon q) := by
    intro c
    cases c with
    | fm => exact ⟨hfm.1, by rw [hfm.2]; exact Nat.zero_le _⟩
    | mon => exact ⟨hmon.1, by rw [hmon.2]; exact Nat.zero_le _⟩
  have hnone : restarts (d₂.setChild .mon q) = 0 := by
    rw [restarts, hfm.2, hmon.2]
    rfl
  exact prepare_kept dSocket ⟨by rw [hnone]; exact hbooks₃, htries⟩

end Rounds

/-- In every run each call names only descriptors that are open, so none is used after it has been closed and none
is closed twice; and there are never more of them than the restarts allow, however long the run is. -/
theorem daemonMain_ledger (dSocket : ℤ) (directories : List String) (exchanges rounds : ℕ)
    (maxRetries : ChildName → UInt16) (hmax : ∀ c, (maxRetries c).toNat < 65535) (sched : ℕ → Environment) :
    let p := daemonMain dSocket directories exchanges rounds (initially maxRetries)
    (∀ e ∈ trace (watch observe) sched p 0 (.start dSocket), Grants e.op e.res e.before) →
      ∀ e ∈ trace (watch observe) sched p 0 (.start dSocket),
        e.before.opened.card ≤ 13 + 2 * ((maxRetries .fm).toNat + (maxRetries .mon).toNat) ∧
          ∀ fd ∈ uses e.op, fd = -1 ∨ fd ∈ e.before.opened := by
  intro p hgrants
  have hmain : Kept (most maxRetries) (fun _ _ => True) p (.start dSocket) := by
    refine (startUp_kept dSocket directories).bind fun r s h => ?_
    exact ((parts dSocket hmax h.1).pollLoop exchanges rounds h.2).bind fun _ _ _ => trivial
  exact (Program.Upholds.run hmain sched hgrants).1

/-- A client that says nothing. -/
def visited (t : ℕ) : Environment
  | .poll _ => .ok ⟨⟨false, false, false, false⟩, ⟨true, false, false, false⟩,
      ⟨false, false, false, false⟩, ⟨false, false, false, false⟩, ⟨false, false, false, false⟩⟩
  | .accept => some 7
  | op => answering ackBytes 0 t op

/-- His connection is closed once. -/
theorem daemonMain_ledger_visited :
    ∃ e ∈ trace (watch observe) visited (daemonMain 4 [] 1 1 (initially fun _ => 3)) 0 (.start 4),
      e.op = .close 7 ∧ 7 ∈ e.before.opened := by
  have hclose : ((trace (watch observe) visited (daemonMain 4 [] 1 1 (initially fun _ => 3)) 0 (.start 4))[29]?.map
      fun e => e.op) = some (.close 7) := rfl
  obtain ⟨e, he, hop⟩ := Option.map_eq_some_iff.mp hclose
  have hmem := List.mem_of_getElem? he
  have hsound := daemonMain_ledger 4 [] 1 1 (fun _ => 3) (fun _ => by decide) visited (by decide +kernel) e
    hmem
  refine ⟨e, hmem, hop, (hsound.2 7 ?_).resolve_left (by decide)⟩
  rw [hop]
  exact List.mem_singleton_self 7

end Reportman.Ledger
