import Mathlib
import Reportman.Daemon
import Reportman.Messages

/-!
# The handshake with `reportman_fm`

The daemon starts `reportman_fm`, is acknowledged and acknowledges, and is told the ids of the two
timers. The two programs run at the same time over two pipes; a `select` waits for a word, and so does a
`read`. Each word carries what it was written for.
-/
namespace Reportman.Handshake
open Resumable Ipc Daemon
open Messages (bytesOf kept)

/-- What `reportman_fm` writes a word for, and what it reads one for. -/
inductive Purpose
  | ack
  | backup
  | transfer
  deriving DecidableEq, Repr

inductive PeerSys
  | select (purpose : Purpose) (fd : ℤ) (timeoutSecs : ℕ)
  | read (purpose : Purpose) (fd : ℤ)
  | write (purpose : Purpose) (fd : ℤ) (word : UInt64)
  | uninitialized (known : List UInt8)

abbrev PeerSys.Res : PeerSys → Type
  | .select _ _ _ => SelectResult
  | .read _ _ => Option (List UInt8)
  | .write _ _ _ => Bool
  | .uninitialized _ => UInt64

abbrev PeerProg := Program PeerSys PeerSys.Res

section Source

def peerCalls (purpose : Purpose) : PipeCalls PeerProg where
  select fd timeoutSecs := Program.perform (PeerSys.select purpose fd timeoutSecs)
  read fd := Program.perform (PeerSys.read purpose fd)
  write fd word := Program.perform (PeerSys.write purpose fd word)
  uninitialized known := Program.perform (PeerSys.uninitialized known)

variable {Op : Type} {Res : Op → Type} (io : Purpose → PipeCalls (Program Op Res)) (pipes : IpcPipes)
  (backupTimer transferTimer : UInt64)

def reportToDaemon : Program Op Res Bool := do
  if ¬ (← ipcSendUlong (io .backup) pipes backupTimer) then return false
  else if ¬ (← ipcSendUlong (io .transfer) pipes transferTimer) then return false
  else return true

/-- `__started_from_daemon` of `reportman_fm` up to its loop, not in debug mode. -/
def startedFromDaemon : Program Op Res Unit := do
  let _ ← acknowledgeDaemon (io .ack) pipes
  let _ ← reportToDaemon io pipes backupTimer transferTimer
  return ()

/-- `main` from the first spawn to the second. -/
def launchFm (dSocket : ℤ) (d : DaemonState) : DaemonProg DaemonState := do
  let d ← childSpawn dSocket d .fm []
  reportmanFmGetTimers d

end Source

/-- The two programs and what is on the way between them; there is no child before the fork. The last
fields list the reads, each with what the word was written for. -/
structure Link where
  daemon : DaemonProg DaemonState
  child : Option (PeerProg Unit)
  toChild : List (Site × UInt64)
  toDaemon : List (Purpose × UInt64)
  daemonTook : List (Site × Purpose)
  childTook : List (Purpose × Site)

variable (backupTimer transferTimer : UInt64)

/-- One call of either side. A fork gives the child new pipes, whatever is in the old ones. -/
inductive Step : Link → Link → Prop
  | pipe {s : Link} {next} (h : s.daemon = .call .pipe next) (r wr : ℤ) :
      Step s { s with daemon := next (some (r, wr)) }
  | fork {s : Link} {c closed args next} (h : s.daemon = .call (.fork c closed args) next) (pid : ℤ)
      (pipes : IpcPipes) : Step s { s with
        daemon := next (some pid)
        child := some (startedFromDaemon peerCalls pipes backupTimer transferTimer)
        toChild := []
        toDaemon := [] }
  | close {s : Link} {fd next} (h : s.daemon = .call (.close fd) next) :
      Step s { s with daemon := next () }
  | select {s : Link} {site fd secs next} (h : s.daemon = .call (.select site fd secs) next)
      (hready : s.toDaemon ≠ []) : Step s { s with daemon := next .ready }
  | read {s : Link} {site fd next m rest} (h : s.daemon = .call (.read site fd) next)
      (hqueue : s.toDaemon = m :: rest) : Step s { s with
        daemon := next (some (bytesOf m.2))
        toDaemon := rest
        daemonTook := s.daemonTook ++ [(site, m.1)] }
  | write {s : Link} {site fd word next} (h : s.daemon = .call (.write site fd word) next) :
      Step s { s with daemon := next .written, toChild := s.toChild ++ [(site, word)] }
  | peerRead {s : Link} {purpose fd next m rest} (h : s.child = some (.call (.read purpose fd) next))
      (hqueue : s.toChild = m :: rest) : Step s { s with
        child := some (next (some (bytesOf m.2)))
        toChild := rest
        childTook := s.childTook ++ [(purpose, m.1)] }
  | peerWrite {s : Link} {purpose fd word next} (h : s.child = some (.call (.write purpose fd word) next)) :
      Step s { s with child := some (next true), toDaemon := s.toDaemon ++ [(purpose, word)] }

/-- Both sides have got through. -/
def Final (s : Link) : Prop := (∃ d, s.daemon = .ret d) ∧ s.child = some (.ret ())

/-- The daemon's half of the conversation, or the child's: `reader` is what a read is for. -/
inductive Act (ρ μ ν : Type)
  | take (reader : ρ) (m : μ)
  | give (m : ν)

section Acts

variable {ρ μ ν : Type}

def takes : List (Act ρ μ ν) → List μ
  | [] => []
  | .take _ m :: acts => m :: takes acts
  | .give _ :: acts => takes acts

def gives : List (Act ρ μ ν) → List ν
  | [] => []
  | .take _ _ :: acts => gives acts
  | .give m :: acts => m :: gives acts

/-- What the reads are for, with what their words were written for. -/
def readers {τ : Type} : List (Act ρ (τ × UInt64) ν) → List (ρ × τ)
  | [] => []
  | .take reader m :: acts => (reader, m.1) :: readers acts
  | .give _ :: acts => readers acts

end Acts

abbrev DaemonAct := Act Site (Purpose × UInt64) (Site × UInt64)
abbrev PeerAct := Act Purpose (Site × UInt64) (Purpose × UInt64)

/-- If it is given the words of `acts`, in that order, the program makes just these calls on the pipes
and ends with `P`. -/
def DaemonFollows {α : Type} (P : α → Prop) : DaemonProg α → List DaemonAct → Prop
  | .ret a, acts => acts = [] ∧ P a
  | .halt, _ => False
  | .call (.close _) next, acts => DaemonFollows P (next ()) acts
  | .call (.select _ _ _) next, acts =>
      (∃ site m rest, acts = .take site m :: rest) ∧ DaemonFollows P (next .ready) acts
  | .call (.read site _) next, acts =>
      ∃ m rest, acts = .take site m :: rest ∧ DaemonFollows P (next (some (bytesOf m.2))) rest
  | .call (.write site _ word) next, acts =>
      ∃ rest, acts = .give (site, word) :: rest ∧ DaemonFollows P (next .written) rest
  | .call _ _, _ => False

/-- The part before the fork. -/
def Launches {α : Type} (P : α → Prop) (acts : List DaemonAct) : DaemonProg α → Prop
  | .call .pipe next => ∀ r wr, Launches P acts (next (some (r, wr)))
  | .call (.fork _ _ _) next => ∀ pid, DaemonFollows P (next (some pid)) acts
  | _ => False

def PeerFollows : PeerProg Unit → List PeerAct → Prop
  | .ret _, acts => acts = []
  | .halt, _ => False
  | .call (.read purpose _) next, acts =>
      ∃ m rest, acts = .take purpose m :: rest ∧ PeerFollows (next (some (bytesOf m.2))) rest
  | .call (.write purpose _ word) next, acts =>
      ∃ rest, acts = .give (purpose, word) :: rest ∧ PeerFollows (next true) rest
  | .call _ _, _ => False

def daemonScript : List DaemonAct :=
  [.take (.acknowledge .fm) (.ack, ipcCommandAck.toUInt64),
    .give (.acknowledge .fm, ipcCommandAck.toUInt64),
    .take .timers (.backup, ipcValueUintFlag.toUInt64 ||| backupTimer),
    .take .timers (.transfer, ipcValueUintFlag.toUInt64 ||| transferTimer)]

def peerScript : List PeerAct :=
  [.give (.ack, ipcCommandAck.toUInt64), .take .ack (.acknowledge .fm, ipcCommandAck.toUInt64),
    .give (.backup, ipcValueUintFlag.toUInt64 ||| backupTimer),
    .give (.transfer, ipcValueUintFlag.toUInt64 ||| transferTimer)]

section Programs

variable {α : Type} (d : DaemonState)

/-- A word that comes whole. -/
theorem received_bytesOf (site : Site) (w : UInt64) (k : UInt64 → DaemonProg α) :
    received (daemonCalls d site) (bytesOf w) >>= k = k w := by
  rw [received_bind, if_pos (Messages.length_bytesOf w), Messages.wordOf_bytesOf]

theorem acknowledgeClient_follows {P : α → Prop} {acts : List DaemonAct} {k : Unit → DaemonProg α}
    (hk : DaemonFollows P (k ()) acts) : DaemonFollows P (acknowledgeClient d .fm >>= k)
      (.take (.acknowledge .fm) (.ack, ipcCommandAck.toUInt64) ::
        .give (.acknowledge .fm, ipcCommandAck.toUInt64) :: acts) := by
  rw [acknowledgeClient_eq]
  refine ⟨⟨_, _, _, rfl⟩, ?_⟩
  change DaemonFollows P ((ipcGetAck (daemonCalls d (.acknowledge .fm)) (d.child .fm).pipes >>= _) >>= k) _
  rw [bind_assoc, ipcGetAck_bind]
  refine ⟨_, _, rfl, ?_⟩
  dsimp only
  rw [received_bytesOf]
  exact ⟨_, rfl, hk⟩

theorem ipcGetUlong_follows {P : α → Prop} {acts : List DaemonAct} {k : UInt64 → DaemonProg α}
    (purpose : Purpose) {value : UInt64} (hk : DaemonFollows P (k (kept value)) acts) :
    DaemonFollows P (ipcGetUlong (daemonCalls d .timers) d.fm.pipes >>= k)
      (.take .timers (purpose, ipcValueUintFlag.toUInt64 ||| value) :: acts) := by
  have hflag : ipcIsUlong (ipcValueUintFlag.toUInt64 ||| value) = true := Messages.hasBits_or_left
  rw [ipcGetUlong_bind]
  refine ⟨_, _, rfl, ?_⟩
  dsimp only
  rw [received_bytesOf, if_pos hflag, Messages.masked_eq_kept]
  exact hk

theorem reportmanFmGetTimers_follows {P : α → Prop} {k : DaemonState → DaemonProg α}
    (hk : DaemonFollows P (k { d with backupTimer := kept backupTimer, transferTimer := kept transferTimer }) []) :
    DaemonFollows P (reportmanFmGetTimers d >>= k)
      [.take .timers (.backup, ipcValueUintFlag.toUInt64 ||| backupTimer),
        .take .timers (.transfer, ipcValueUintFlag.toUInt64 ||| transferTimer)] := by
  rw [reportmanFmGetTimers_eq]
  refine ⟨⟨_, _, _, rfl⟩, ?_⟩
  change DaemonFollows P ((ipcGetUlong (daemonCalls d .timers) d.fm.pipes >>= _) >>= k) _
  rw [bind_assoc]
  refine ipcGetUlong_follows d .backup ?_
  rw [if_neg (Messages.kept_ne_flag backupTimer), bind_assoc]
  refine ipcGetUlong_follows d .transfer ?_
  rw [if_neg (Messages.kept_ne_flag transferTimer)]
  exact hk

/-- The ids have arrived. -/
def HasTimers (d : DaemonState) : Prop :=
  d.backupTimer = kept backupTimer ∧ d.transferTimer = kept transferTimer

theorem launchFm_launches (dSocket : ℤ) {P : α → Prop} {k : DaemonState → DaemonProg α}
    (hk : ∀ d', HasTimers backupTimer transferTimer d' → DaemonFollows P (k d') []) :
    Launches P (daemonScript backupTimer transferTimer) (launchFm dSocket d >>= k) := by
  have hlaunch : launchFm dSocket d >>= k = startChildProcess dSocket (d.child .fm) .fm [] >>= fun p =>
      acknowledgeClient (d.setChild .fm p) .fm >>= fun _ => reportmanFmGetTimers (d.setChild .fm p) >>= k := by
    simp only [launchFm, childSpawn, bind_assoc, pure_bind]
  rw [hlaunch]
  intro childRead childWrite parentRead parentWrite pid
  change DaemonFollows P (acknowledgeClient (d.setChild .fm { d.child .fm with
    pid := pid, pipes := ⟨parentWrite, childRead⟩, isAlive := true }) .fm >>= _) _
  refine acknowledgeClient_follows _ ?_
  exact reportmanFmGetTimers_follows backupTimer transferTimer _ (hk _ ⟨rfl, rfl⟩)

/-- A restart is a launch like the first one. -/
theorem restartChild_launches (dSocket : ℤ) (hretries : d.fm.retries ≤ d.fm.maxRetries) :
    Launches (HasTimers backupTimer transferTimer) (daemonScript backupTimer transferTimer)
      (restartChild dSocket d .fm reportmanFmGetTimers) := by
  have hnot : ¬ (d.child .fm).retries > (d.child .fm).maxRetries := UInt16.not_lt.mpr hretries
  have hlaunch : restartChild dSocket d .fm reportmanFmGetTimers =
      launchFm dSocket (d.setChild .fm { d.child .fm with retries := (d.child .fm).retries + 1 }) >>=
        fun d => .ret { d with current := none } := by
    unfold restartChild
    dsimp only
    rw [if_neg hnot, launchFm, bind_assoc]
    rfl
  rw [hlaunch]
  exact launchFm_launches backupTimer transferTimer _ dSocket fun d' hd' => ⟨rfl, hd'⟩

theorem startedFromDaemon_follows (pipes : IpcPipes) (hbackup : backupTimer ≤ ipcValueUintMax.toUInt64)
    (htransfer : transferTimer ≤ ipcValueUintMax.toUInt64) :
    PeerFollows (startedFromDaemon peerCalls pipes backupTimer transferTimer)
      (peerScript backupTimer transferTimer) := by
  have hsend : ∀ (purpose : Purpose) {value : UInt64}, value ≤ ipcValueUintMax.toUInt64 →
      ipcSendUlong (peerCalls purpose) pipes value = .call (.write purpose pipes.write
        (ipcValueUintFlag.toUInt64 ||| value)) .ret := by
    intro purpose value hvalue
    rw [ipcSendUlong, if_neg (UInt64.not_lt.mpr hvalue)]
    rfl
  have hreport : PeerFollows (reportToDaemon peerCalls pipes backupTimer transferTimer >>= fun _ => .ret ())
      [.give (.backup, ipcValueUintFlag.toUInt64 ||| backupTimer),
        .give (.transfer, ipcValueUintFlag.toUInt64 ||| transferTimer)] := by
    rw [reportToDaemon, hsend .backup hbackup]
    refine ⟨_, rfl, ?_⟩
    change PeerFollows (((ipcSendUlong (peerCalls .transfer) pipes transferTimer) >>= _) >>= _) _
    rw [hsend .transfer htransfer]
    exact ⟨_, rfl, rfl⟩
  refine ⟨_, rfl, _, _, rfl, ?_⟩
  change PeerFollows ((received (peerCalls .ack) (bytesOf ipcCommandAck.toUInt64) >>=
    fun msg => .ret (ipcIsAck msg)) >>= fun _ =>
      reportToDaemon peerCalls pipes backupTimer transferTimer >>= fun _ => .ret ()) _
  rw [received, if_pos (Messages.length_bytesOf _)]
  exact hreport

end Programs

section Invariant

/-- Before the fork, and after it: what is on the way and what is still to be written is what is still
to be read. -/
inductive Agrees (P : DaemonState → Prop) (s : Link) : Prop
  | launching (hchild : s.child = none) (hdaemonTook : s.daemonTook = []) (hchildTook : s.childTook = [])
      (hdaemon : Launches P (daemonScript backupTimer transferTimer) s.daemon)
  | talking (peer : PeerProg Unit) (acts : List DaemonAct) (peerActs : List PeerAct)
      (hchild : s.child = some peer) (hsuffix : acts <:+ daemonScript backupTimer transferTimer)
      (hpeerSuffix : peerActs <:+ peerScript backupTimer transferTimer)
      (hdaemon : DaemonFollows P s.daemon acts) (hpeer : PeerFollows peer peerActs)
      (htoDaemon : s.toDaemon ++ gives peerActs = takes acts)
      (htoChild : s.toChild ++ gives acts = takes peerActs)
      (hdaemonTook : s.daemonTook ++ readers acts = readers (daemonScript backupTimer transferTimer))
      (hchildTook : s.childTook ++ readers peerActs = readers (peerScript backupTimer transferTimer))

variable {backupTimer transferTimer}

theorem Agrees.step (hbackup : backupTimer ≤ ipcValueUintMax.toUInt64)
    (htransfer : transferTimer ≤ ipcValueUintMax.toUInt64) {P : DaemonState → Prop} {s s' : Link}
    (h : Agrees backupTimer transferTimer P s) (hstep : Step backupTimer transferTimer s s') :
    Agrees backupTimer transferTimer P s' := by
  cases h with
  | launching hchild hdaemonTook hchildTook hdaemon =>
    cases hstep with
    | pipe h r wr =>
      rw [h] at hdaemon
      exact .launching hchild hdaemonTook hchildTook (hdaemon r wr)
    | fork h pid pipes =>
      rw [h] at hdaemon
      refine .talking _ (daemonScript backupTimer transferTimer) (peerScript backupTimer transferTimer) rfl
        (List.suffix_refl _) (List.suffix_refl _) (hdaemon pid)
        (startedFromDaemon_follows backupTimer transferTimer pipes hbackup htransfer) rfl rfl ?_ ?_
      · rw [hdaemonTook]
        rfl
      · rw [hchildTook]
        rfl
    | close h => exact (h ▸ hdaemon).elim
    | select h => exact (h ▸ hdaemon).elim
    | read h => exact (h ▸ hdaemon).elim
    | write h => exact (h ▸ hdaemon).elim
    | peerRead h => cases hchild.symm.trans h
    | peerWrite h => cases hchild.symm.trans h
  | talking peer acts peerActs hchild hsuffix hpeerSuffix hdaemon hpeer htoDaemon htoChild hdaemonTook hchildTook =>
    cases hstep with
    | pipe h => exact (h ▸ hdaemon).elim
    | fork h => exact (h ▸ hdaemon).elim
    | close h =>
      rw [h] at hdaemon
      exact .talking peer acts peerActs hchild hsuffix hpeerSuffix hdaemon hpeer htoDaemon htoChild
        hdaemonTook hchildTook
    | select h =>
      rw [h] at hdaemon
      exact .talking peer acts peerActs hchild hsuffix hpeerSuffix hdaemon.2 hpeer htoDaemon htoChild
        hdaemonTook hchildTook
    | read h hqueue =>
      rw [h] at hdaemon
      obtain ⟨m, rest, rfl, hdaemon⟩ := hdaemon
      rw [hqueue] at htoDaemon
      obtain ⟨rfl, hrest⟩ := List.cons.inj htoDaemon
      refine .talking peer rest peerActs hchild ((List.suffix_cons _ _).trans hsuffix) hpeerSuffix hdaemon hpeer
        hrest htoChild ?_ hchildTook
      rw [← hdaemonTook]
      exact List.append_assoc _ _ _
    | write h =>
      rw [h] at hdaemon
      obtain ⟨rest, rfl, hdaemon⟩ := hdaemon
      refine .talking peer rest peerActs hchild ((List.suffix_cons _ _).trans hsuffix) hpeerSuffix hdaemon hpeer
        htoDaemon ?_ hdaemonTook hchildTook
      rw [← htoChild]
      exact List.append_assoc _ _ _
    | peerRead h hqueue =>
      obtain rfl := Option.some.inj (hchild.symm.trans h)
      obtain ⟨m, rest, rfl, hpeer⟩ := hpeer
      rw [hqueue] at htoChild
      obtain ⟨rfl, hrest⟩ := List.cons.inj htoChild
      refine .talking _ acts rest rfl hsuffix ((List.suffix_cons _ _).trans hpeerSuffix) hdaemon hpeer
        htoDaemon hrest hdaemonTook ?_
      rw [← hchildTook]
      exact List.append_assoc _ _ _
    | peerWrite h =>
      obtain rfl := Option.some.inj (hchild.symm.trans h)
      obtain ⟨rest, rfl, hpeer⟩ := hpeer
      refine .talking _ acts rest rfl hsuffix ((List.suffix_cons _ _).trans hpeerSuffix) hdaemon hpeer
        ?_ htoChild hdaemonTook hchildTook
      rw [← htoDaemon]
      exact List.append_assoc _ _ _

/-- Neither side waits for a word that the other one waits to write. -/
theorem Agrees.enabled {P : DaemonState → Prop} {s : Link} (h : Agrees backupTimer transferTimer P s) :
    Final s ∨ ∃ s', Step backupTimer transferTimer s s' := by
  cases h with
  | launching hchild hdaemonTook hchildTook hdaemon =>
    refine .inr ?_
    rcases hd : s.daemon with _ | _ | ⟨op, next⟩
    · exact (hd ▸ hdaemon).elim
    · exact (hd ▸ hdaemon).elim
    cases op
    case pipe => exact ⟨_, .pipe hd 0 0⟩
    case fork => exact ⟨_, .fork hd 0 ⟨0, 0⟩⟩
    all_goals exact (hd ▸ hdaemon).elim
  | talking peer acts peerActs hchild hsuffix hpeerSuffix hdaemon hpeer htoDaemon htoChild hdaemonTook hchildTook =>
    -- what the child can do, whatever the daemon does
    have hpeerStep : (peerActs = [] ∧ peer = .ret ()) ∨ (∃ s', Step backupTimer transferTimer s s') ∨
        (s.toChild = [] ∧ ∃ purpose m rest, peerActs = .take purpose m :: rest) := by
      rcases peer with ⟨⟨⟩⟩ | _ | ⟨op, next⟩
      · exact .inl ⟨hpeer, rfl⟩
      · exact hpeer.elim
      cases op with
      | select => exact hpeer.elim
      | uninitialized => exact hpeer.elim
      | write purpose fd word => exact .inr (.inl ⟨_, .peerWrite hchild⟩)
      | read purpose fd =>
        obtain ⟨m, rest, rfl, -⟩ := hpeer
        cases hqueue : s.toChild with
        | nil => exact .inr (.inr ⟨rfl, purpose, m, rest, rfl⟩)
        | cons => exact .inr (.inl ⟨_, .peerRead hchild hqueue⟩)
    -- a daemon that waits, although nothing is on the way
    have hwaits : (∃ site m rest, acts = .take site m :: rest) → s.toDaemon = [] →
        ∃ s', Step backupTimer transferTimer s s' := by
      rintro ⟨site, m, rest, rfl⟩ hempty
      rcases hpeerStep with ⟨rfl, -⟩ | hstep | ⟨hempty', purpose, m', rest', rfl⟩
      · rw [hempty] at htoDaemon
        cases htoDaemon
      · exact hstep
      · rw [hempty, List.nil_append] at htoDaemon
        rw [hempty', List.nil_append] at htoChild
        simp only [daemonScript, List.suffix_cons_iff, List.suffix_nil, reduceCtorEq, List.cons.injEq,
          false_and, or_false, false_or] at hsuffix
        simp only [peerScript, List.suffix_cons_iff, List.suffix_nil, reduceCtorEq, List.cons.injEq,
          false_and, or_false, false_or] at hpeerSuffix
        obtain ⟨-, rfl⟩ := hpeerSuffix
        rcases hsuffix with ⟨-, rfl⟩ | ⟨-, rfl⟩ | ⟨-, rfl⟩ <;> simp [takes, gives] at htoDaemon htoChild
    rcases hd : s.daemon with d | _ | ⟨op, next⟩
    · rw [hd] at hdaemon
      obtain ⟨rfl, -⟩ := hdaemon
      rcases hpeerStep with ⟨-, rfl⟩ | hstep | ⟨hempty, purpose, m, rest, rfl⟩
      · exact .inl ⟨⟨d, hd⟩, hchild⟩
      · exact .inr hstep
      · rw [hempty] at htoChild
        cases htoChild
    · exact (hd ▸ hdaemon).elim
    refine .inr ?_
    cases op
    case select =>
      by_cases hempty : s.toDaemon = []
      · rw [hd] at hdaemon
        exact hwaits hdaemon.1 hempty
      · exact ⟨_, .select hd hempty⟩
    case read =>
      rw [hd] at hdaemon
      obtain ⟨m, rest, hacts, -⟩ := hdaemon
      cases hqueue : s.toDaemon with
      | nil => exact hwaits ⟨_, m, rest, hacts⟩ hqueue
      | cons => exact ⟨_, .read hd hqueue⟩
    case write => exact ⟨_, .write hd⟩
    case close => exact ⟨_, .close hd⟩
    all_goals exact (hd ▸ hdaemon).elim

/-- Every read gets the word that was written for it. -/
def Matched (s : Link) : Prop :=
  s.daemonTook <+: [(.acknowledge .fm, .ack), (.timers, .backup), (.timers, .transfer)] ∧
    s.childTook <+: [(.ack, .acknowledge .fm)]

theorem Agrees.matched {P : DaemonState → Prop} {s : Link} (h : Agrees backupTimer transferTimer P s) :
    Matched s := by
  cases h with
  | launching hchild hdaemonTook hchildTook hdaemon =>
    rw [Matched, hdaemonTook, hchildTook]
    exact ⟨List.nil_prefix, List.nil_prefix⟩
  | talking peer acts peerActs hchild hsuffix hpeerSuffix hdaemon hpeer htoDaemon htoChild hdaemonTook hchildTook =>
    exact ⟨⟨_, hdaemonTook⟩, ⟨_, hchildTook⟩⟩

theorem Agrees.result {P : DaemonState → Prop} {s : Link} (h : Agrees backupTimer transferTimer P s)
    {d : DaemonState} (hd : s.daemon = .ret d) : P d := by
  cases h with
  | launching hchild hdaemonTook hchildTook hdaemon => exact (hd ▸ hdaemon).elim
  | talking peer acts peerActs hchild hsuffix hpeerSuffix hdaemon hpeer htoDaemon htoChild hdaemonTook hchildTook =>
    exact (hd ▸ hdaemon).2

end Invariant

section Results

/-- Before the first fork, or before one that replaces a child: the old pipes may hold anything. -/
def before (daemon : DaemonProg DaemonState) (toChild : List (Site × UInt64))
    (toDaemon : List (Purpose × UInt64)) : Link :=
  ⟨daemon, none, toChild, toDaemon, [], []⟩

/-- The program is the first launch, or a restart. -/
inductive Handshakes (dSocket : ℤ) : DaemonProg DaemonState → Prop
  | first (d : DaemonState) : Handshakes dSocket (launchFm dSocket d)
  | restart (d : DaemonState) (hretries : d.fm.retries ≤ d.fm.maxRetries) :
      Handshakes dSocket (restartChild dSocket d .fm reportmanFmGetTimers)

variable {backupTimer transferTimer : UInt64}

theorem Handshakes.launches {dSocket : ℤ} {p : DaemonProg DaemonState} (h : Handshakes dSocket p) :
    Launches (HasTimers backupTimer transferTimer) (daemonScript backupTimer transferTimer) p := by
  cases h with
  | first d =>
    rw [← bind_pure (launchFm dSocket d)]
    exact launchFm_launches backupTimer transferTimer d dSocket fun d' hd' => ⟨rfl, hd'⟩
  | restart d hretries => exact restartChild_launches backupTimer transferTimer d dSocket hretries

theorem agrees_of_run {dSocket : ℤ} {p : DaemonProg DaemonState} (h : Handshakes dSocket p)
    (hbackup : backupTimer < 0x10000000) (htransfer : transferTimer < 0x10000000)
    {toChild : List (Site × UInt64)} {toDaemon : List (Purpose × UInt64)} {s : Link}
    (hrun : Relation.ReflTransGen (Step backupTimer transferTimer) (before p toChild toDaemon) s) :
    Agrees backupTimer transferTimer (HasTimers backupTimer transferTimer) s := by
  have hmax : ∀ {value : UInt64}, value < 0x10000000 → value ≤ ipcValueUintMax.toUInt64 := by
    intro value hvalue
    exact UInt64.le_of_lt (UInt64.lt_trans hvalue (by decide))
  induction hrun with
  | refl => exact .launching rfl rfl rfl h.launches
  | tail _ hstep ih => exact ih.step (hmax hbackup) (hmax htransfer) hstep

/-- In every interleaving each read gets the word that was written for it, nobody is ever stuck, and
the daemon ends with the two ids in their places. -/
theorem handshake_agrees {dSocket : ℤ} {p : DaemonProg DaemonState} (h : Handshakes dSocket p)
    (hbackup : backupTimer < 0x10000000) (htransfer : transferTimer < 0x10000000)
    {toChild : List (Site × UInt64)} {toDaemon : List (Purpose × UInt64)} {s : Link}
    (hrun : Relation.ReflTransGen (Step backupTimer transferTimer) (before p toChild toDaemon) s) :
    Matched s ∧ (Final s ∨ ∃ s', Step backupTimer transferTimer s s') ∧
      ∀ d, s.daemon = .ret d → d.backupTimer = backupTimer ∧ d.transferTimer = transferTimer := by
  have hagrees := agrees_of_run h hbackup htransfer hrun
  refine ⟨hagrees.matched, hagrees.enabled, fun d hd => ?_⟩
  have htimers := hagrees.result hd
  rw [HasTimers, Messages.kept_eq_iff.mpr hbackup, Messages.kept_eq_iff.mpr htransfer] at htimers
  exact htimers

/-- A first launch whose backup timer has the id that an acknowledgement would have: each side acts as
soon as it can. -/
theorem handshake_agrees_ack : ∃ s, Final s ∧ Matched s ∧
    ∀ d, s.daemon = .ret d → d.backupTimer = 0xF000002 ∧ d.transferTimer = 1 := by
  have hrun : ∃ s, Relation.ReflTransGen (Step 0xF000002 1)
      (before (launchFm 4 (initially fun _ => 3)) [] []) s ∧ Final s := by
    refine ⟨_, .head (.pipe rfl 10 11) <| .head (.pipe rfl 12 13) <| .head (.fork rfl 100 ⟨11, 12⟩) <|
      .head (.close rfl) <| .head (.close rfl) <| .head (.peerWrite rfl) <| .head (.select rfl nofun) <|
      .head (.read rfl rfl) <| .head (.write rfl) <| .head (.peerRead rfl rfl) <| .head (.peerWrite rfl) <|
      .head (.peerWrite rfl) <| .head (.select rfl nofun) <| .head (.read rfl rfl) <|
      .head (.read rfl rfl) .refl, ⟨_, rfl⟩, rfl⟩
  obtain ⟨s, hrun, hfinal⟩ := hrun
  obtain ⟨hmatched, -, htimers⟩ := handshake_agrees (.first (initially fun _ => 3)) (by decide) (by decide) hrun
  exact ⟨s, hfinal, hmatched, htimers⟩

end Results

end Reportman.Handshake
