import Mathlib
import Reportman.FmLoop

/-!
# Becoming a daemon

`become_daemon` forks twice with a `setsid` in between. The parents and the children take their steps in any
order, beside other processes of the system. One process goes on in the end, in a session of its own which it
does not lead, so that it can get no terminal again; all others are through.
-/
namespace Reportman.Daemonize
open Resumable
open FmLoop (Exit)

section Source

inductive DaemonizeSys
  | getpid
  | getpgid (pid : ℤ)
  | getsid (pid : ℤ)
  | fork
  | setsid
  | ignore (signo : ℕ)
  | umask (mode : ℕ)
  | chdir
  | sysconf
  | close (fd : ℤ)
  | exit (code : Exit)

abbrev DaemonizeSys.Res : DaemonizeSys → Type
  | .getpid => ℤ
  | .getpgid _ => ℤ
  | .getsid _ => ℤ
  | .fork => ℤ
  | .setsid => ℤ
  | .ignore _ => Unit
  | .umask _ => Unit
  | .chdir => Unit
  | .sysconf => ℤ
  | .close _ => Unit
  | .exit _ => Unit

abbrev DaemonizeProg := Program DaemonizeSys DaemonizeSys.Res

def sys (op : DaemonizeSys) : DaemonizeProg op.Res := Program.perform op

def quit (code : Exit) : DaemonizeProg Unit := .call (.exit code) fun _ => .halt

def sigchld : ℕ := 17
def sighup : ℕ := 1

/-- `switch (fork())`: the child goes on. -/
def switchFork (child : DaemonizeProg Unit) : DaemonizeProg Unit := do
  let pid ← sys .fork
  if pid = -1 then quit .failure else if pid = 0 then child else quit .success

/-- The loop over `n` descriptors from `fd` on. -/
def closeFrom (singletonSockFd : ℤ) : ℕ → ℤ → DaemonizeProg Unit
  | 0, _ => return ()
  | n + 1, fd =>
      if fd = singletonSockFd then closeFrom singletonSockFd n (fd + 1)
      else do
        sys (.close fd)
        closeFrom singletonSockFd n (fd + 1)

/-- `sysconf` may have nothing to say. -/
def maxfd (openMax : ℤ) : ℤ := if openMax = -1 then 8192 else openMax

/-- `D_NO_FILE_CLOSE` is the lowest bit of the flags, and a `bool` has no other. -/
def closeFiles (useFlags : Bool) (singletonSockFd : ℤ) : DaemonizeProg Unit :=
  if useFlags then return ()
  else do
    let openMax ← sys .sysconf
    closeFrom singletonSockFd (maxfd openMax - 3).toNat 3

def becomeDaemon (useFlags : Bool) (singletonSockFd : ℤ) : DaemonizeProg Unit :=
  switchFork do
    if (← sys .setsid) = -1 then quit .failure
    else do
      sys (.ignore sigchld)
      sys (.ignore sighup)
      switchFork do
        sys (.umask 0)
        sys .chdir
        closeFiles useFlags singletonSockFd

def isDaemon : DaemonizeProg Bool := do
  let pid ← sys .getpid
  let pgid ← sys (.getpgid pid)
  let sid ← sys (.getsid pid)
  return pgid = sid

/-- `__become_daemon`. -/
def daemonBecome (makeDaemon : Bool) (dSocket : ℤ) : DaemonizeProg Unit := do
  if makeDaemon then
    if ¬ (← isDaemon) then becomeDaemon false dSocket else return ()
  else return ()

end Source

section Processes

/-- A process as the kernel keeps it. -/
structure Process where
  pgid : ℕ
  sid : ℕ
  terminal : Bool
  ignored : List ℕ
  umask : ℕ
  atRoot : Bool
  opened : ℤ → Bool

/-- The processes alive, with what they have left to do. Those that do something else have `.halt`. `disturbed`
is set once a `fork` has failed or a process has been killed. -/
structure World where
  procs : ℕ → Option (Process × DaemonizeProg Unit)
  disturbed : Bool

variable (openMax : ℤ)

/-- The calls that concern nobody but the process itself. -/
def exec : (op : DaemonizeSys) → ℕ → Process → Option (op.Res × Process)
  | .getpid, p, a => some (p, a)
  | .getpgid pid, p, a => if pid = p then some (a.pgid, a) else none
  | .getsid pid, p, a => if pid = p then some (a.sid, a) else none
  | .ignore signo, _, a => some ((), { a with ignored := signo :: a.ignored })
  | .umask mode, _, a => some ((), { a with umask := mode })
  | .chdir, _, a => some ((), { a with atRoot := true })
  | .sysconf, _, a => some (openMax, a)
  | .close fd, _, a => some ((), { a with opened := Function.update a.opened fd false })
  | .fork, _, _ => none
  | .setsid, _, _ => none
  | .exit _, _, _ => none

theorem exec_pgid {openMax : ℤ} {op : DaemonizeSys} {p : ℕ} {a a' : Process} {r : op.Res}
    (h : exec openMax op p a = some (r, a')) : a'.pgid = a.pgid := by
  cases op
  case getpgid pid =>
    obtain ⟨-, hexec⟩ := Option.ite_none_right_eq_some.1 h
    rw [← (Prod.mk.inj (Option.some.inj hexec)).2]
  case getsid pid =>
    obtain ⟨-, hexec⟩ := Option.ite_none_right_eq_some.1 h
    rw [← (Prod.mk.inj (Option.some.inj hexec)).2]
  case fork => cases h
  case setsid => cases h
  case exit => cases h
  all_goals rw [← (Prod.mk.inj (Option.some.inj h)).2]

/-- A number that neither a process has nor a group or a session. -/
def Fresh (w : World) (q : ℕ) : Prop :=
  0 < q ∧ w.procs q = none ∧ ∀ r b, w.procs r = some b → b.1.pgid ≠ q ∧ b.1.sid ≠ q

/-- There is a process group of this number. -/
def Led (w : World) (p : ℕ) : Prop := ∃ r b, w.procs r = some b ∧ b.1.pgid = p

def World.set (w : World) (p : ℕ) (x : Option (Process × DaemonizeProg Unit)) : World :=
  { w with procs := Function.update w.procs p x }

def Process.lead (a : Process) (p : ℕ) : Process := { a with pgid := p, sid := p, terminal := false }

inductive Step : World → World → Prop
  | fork {w : World} {p q : ℕ} {a : Process} {next : ℤ → DaemonizeProg Unit}
      (hp : w.procs p = some (a, .call .fork next)) (hfresh : Fresh w q) :
      Step w ((w.set p (some (a, next q))).set q (some (a, next 0)))
  | forkFails {w : World} {p : ℕ} {a : Process} {next : ℤ → DaemonizeProg Unit}
      (hp : w.procs p = some (a, .call .fork next)) :
      Step w { w.set p (some (a, next (-1))) with disturbed := true }
  | setsid {w : World} {p : ℕ} {a : Process} {next : ℤ → DaemonizeProg Unit}
      (hp : w.procs p = some (a, .call .setsid next)) (hfree : ¬ Led w p) :
      Step w (w.set p (some (a.lead p, next p)))
  | setsidFails {w : World} {p : ℕ} {a : Process} {next : ℤ → DaemonizeProg Unit}
      (hp : w.procs p = some (a, .call .setsid next)) (hled : Led w p) : Step w (w.set p (some (a, next (-1))))
  | call {w : World} {p : ℕ} {a a' : Process} {op : DaemonizeSys} {r : op.Res}
      {next : op.Res → DaemonizeProg Unit} (hp : w.procs p = some (a, .call op next))
      (hexec : exec openMax op p a = some (r, a')) : Step w (w.set p (some (a', next r)))
  | exit {w : World} {p : ℕ} {a : Process} {code : Exit} {next : Unit → DaemonizeProg Unit}
      (hp : w.procs p = some (a, .call (.exit code) next)) : Step w (w.set p none)
  | kill {w : World} (p : ℕ) : Step w { w.set p none with disturbed := true }
  | other {w : World} {p : ℕ} (x : Option Process) (hp : ∀ b, w.procs p = some b → b.2 = .halt)
      (hgroup : ∀ b, x = some b → b.pgid = p ∨ Led w b.pgid) : Step w (w.set p (x.map (·, .halt)))

/-- A process that does nothing more but exit, if that. -/
def Doomed : DaemonizeProg Unit → Prop
  | .halt => True
  | .call (.exit _) _ => True
  | _ => False

end Processes

section Line

variable (openMax : ℤ)

/-- What is known of the process that goes on: `leads` tells whether there may be a group of its number. -/
structure Line where
  pid : ℕ
  process : Process
  leads : Bool

/-- How the line goes on over a call. A fork hands it to the child. -/
inductive Advance : (op : DaemonizeSys) → op.Res → Line → Line → Prop
  | fork {l : Line} {q : ℕ} (hpgid : l.process.pgid ≠ q) (hsid : l.process.sid ≠ q) :
      Advance .fork (0 : ℤ) l ⟨q, l.process, false⟩
  | setsid {l : Line} : Advance .setsid (l.pid : ℤ) l ⟨l.pid, l.process.lead l.pid, true⟩
  | setsidFails {l : Line} (hled : l.leads = true) : Advance .setsid (-1 : ℤ) l l
  | call {op : DaemonizeSys} {r : op.Res} {l : Line} {a' : Process}
      (hexec : exec openMax op l.pid l.process = some (r, a')) : Advance op r l { l with process := a' }

/-- What a process is given that the line leaves behind. -/
def Leaves : (op : DaemonizeSys) → op.Res → Prop
  | .fork, pid => pid ≠ 0
  | _, _ => False

/-- There is something the process can do. -/
def Enabled (op : DaemonizeSys) (l : Line) : Prop :=
  op = .fork ∨ op = .setsid ∨ ∃ r a', exec openMax op l.pid l.process = some (r, a')

/-- The line that begins at `l` never exits or gets stuck, and ends where `post` holds. -/
def Leads (post : Line → Prop) : DaemonizeProg Unit → Line → Prop
  | .ret _, l => post l
  | .halt, _ => False
  | .call op next, l => Enabled openMax op l ∧ (∀ r l', Advance openMax op r l l' → Leads post (next r) l') ∧
      ∀ r, Leaves op r → Doomed (next r)

variable {openMax} {post : Line → Prop} {l : Line}

theorem Leads.not_doomed {prog : DaemonizeProg Unit} (h : Leads openMax post prog l) : ¬ Doomed prog := by
  intro hdoomed
  cases prog with
  | ret => exact hdoomed
  | halt => exact h
  | call op next =>
    cases op
    case exit code =>
      rcases h.1 with hfork | hsetsid | ⟨r, a', hexec⟩
      · cases hfork
      · cases hsetsid
      · cases hexec
    all_goals exact hdoomed

/-- A call that concerns nobody else has one outcome. -/
theorem leads_call {op : DaemonizeSys} {r : op.Res} {a' : Process} {k : op.Res → DaemonizeProg Unit}
    (hexec : exec openMax op l.pid l.process = some (r, a'))
    (h : Leads openMax post (k r) { l with process := a' }) : Leads openMax post (.call op k) l := by
  refine ⟨.inr (.inr ⟨r, a', hexec⟩), fun r' l' hadvance => ?_, fun r' hleaves => ?_⟩
  · cases hadvance with
    | fork => cases hexec
    | setsid => cases hexec
    | setsidFails => cases hexec
    | call hexec' =>
      rw [hexec, Option.some.injEq, Prod.mk.injEq] at hexec'
      rwa [← hexec'.1, ← hexec'.2]
  · cases op
    case fork => cases hexec
    all_goals exact hleaves.elim

theorem leads_switchFork {child : DaemonizeProg Unit}
    (h : ∀ q, l.process.pgid ≠ q → l.process.sid ≠ q → Leads openMax post child ⟨q, l.process, false⟩) :
    Leads openMax post (switchFork child) l := by
  refine ⟨.inl rfl, fun r l' hadvance => ?_, fun r hleaves => ?_⟩
  · cases hadvance with
    | fork hpgid hsid => exact h _ hpgid hsid
    | call hexec => cases hexec
  · change Doomed (if r = -1 then quit .failure else if r = 0 then child else quit .success)
    by_cases hfailed : r = -1
    · rw [if_pos hfailed]
      trivial
    · rw [if_neg hfailed, if_neg hleaves]
      trivial

/-- A process that leads nothing yet always gets its session. -/
theorem leads_setsid {k : ℤ → DaemonizeProg Unit} (hleads : l.leads = false)
    (h : Leads openMax post (k l.pid) ⟨l.pid, l.process.lead l.pid, true⟩) :
    Leads openMax post (.call .setsid k) l := by
  refine ⟨.inr (.inl rfl), fun r l' hadvance => ?_, fun r hleaves => hleaves.elim⟩
  cases hadvance with
  | setsid => exact h
  | setsidFails hled => simp [hleads] at hled
  | call hexec => cases hexec

theorem leads_closeFrom (sock : ℤ) (n : ℕ) : ∀ (fd : ℤ) {l : Line},
    (∀ opened : ℤ → Bool, (∀ d, opened d = true ↔ l.process.opened d = true ∧ (d < fd ∨ fd + n ≤ d ∨ d = sock)) →
      post { l with process := { l.process with opened := opened } }) →
    Leads openMax post (closeFrom sock n fd) l := by
  induction n with
  | zero =>
    intro fd l h
    refine h l.process.opened fun d => ?_
    have hcover : d < fd ∨ fd + (0 : ℕ) ≤ d ∨ d = sock := by omega
    exact ⟨fun hopen => ⟨hopen, hcover⟩, And.left⟩
  | succ n ih =>
    intro fd l h
    unfold closeFrom
    by_cases hsock : fd = sock
    · rw [if_pos hsock]
      refine ih (fd + 1) fun opened hopened => h opened fun d => ?_
      rw [hopened]
      refine and_congr_right fun _ => ?_
      omega
    · rw [if_neg hsock]
      refine leads_call rfl (ih (fd + 1) fun opened hopened => h opened fun d => ?_)
      rw [hopened]
      change Function.update l.process.opened fd false d = true ∧ _ ↔ _
      by_cases hd : d = fd
      · subst hd
        rw [Function.update_self]
        refine ⟨fun hopen => absurd hopen.1 Bool.false_ne_true, fun hopen => ?_⟩
        omega
      · rw [Function.update_of_ne hd]
        refine and_congr_right fun _ => ?_
        omega

/-- A daemon that has come of a process with `a` for its state. -/
structure Daemonized (openMax dSocket : ℤ) (a : Process) (l : Line) : Prop where
  session : l.process.pgid = l.process.sid
  follows : l.process.sid ≠ l.pid
  terminal : l.process.terminal = false
  umask : l.process.umask = 0
  atRoot : l.process.atRoot = true
  ignored : sigchld ∈ l.process.ignored ∧ sighup ∈ l.process.ignored
  opened : ∀ fd, l.process.opened fd = true ↔ a.opened fd = true ∧ (fd < 3 ∨ maxfd openMax ≤ fd ∨ fd = dSocket)

theorem leads_becomeDaemon (dSocket : ℤ) :
    Leads openMax (Daemonized openMax dSocket l.process) (becomeDaemon false dSocket) l := by
  refine leads_switchFork fun q hpgid hsid => leads_setsid rfl ?_
  have hpid : ¬ ((q : ℕ) : ℤ) = -1 := by omega
  change Leads openMax _ (if (q : ℤ) = -1 then quit .failure else do
    sys (.ignore sigchld)
    sys (.ignore sighup)
    switchFork do
      sys (.umask 0)
      sys .chdir
      closeFiles false dSocket) _
  rw [if_neg hpid]
  refine leads_call rfl (leads_call rfl (leads_switchFork fun q' hpgid' hsid' => ?_))
  refine leads_call rfl (leads_call rfl (leads_call rfl (leads_closeFrom dSocket _ 3 fun opened hopened => ?_)))
  refine ⟨rfl, hsid', rfl, rfl, rfl, ⟨?_, ?_⟩, fun fd => ?_⟩
  · exact List.mem_cons_of_mem _ (List.mem_cons_self ..)
  · exact List.mem_cons_self ..
  · refine (hopened fd).trans (and_congr_right fun _ => ?_)
    omega

/-- What `__become_daemon` leaves of a process. -/
def Become (openMax : ℤ) (makeDaemon : Bool) (dSocket : ℤ) (p : ℕ) (a : Process) (l : Line) : Prop :=
  if makeDaemon = true ∧ a.pgid ≠ a.sid then Daemonized openMax dSocket a l else l.pid = p ∧ l.process = a

theorem leads_daemonBecome (makeDaemon : Bool) (dSocket : ℤ) :
    Leads openMax (Become openMax makeDaemon dSocket l.pid l.process) (daemonBecome makeDaemon dSocket) l := by
  cases makeDaemon with
  | false => exact ⟨rfl, rfl⟩
  | true =>
    have hself : ∀ a : Process, exec openMax (.getpgid l.pid) l.pid a = some ((a.pgid : ℤ), a) := fun _ => if_pos rfl
    have hself' : ∀ a : Process, exec openMax (.getsid l.pid) l.pid a = some ((a.sid : ℤ), a) := fun _ => if_pos rfl
    refine leads_call rfl (leads_call (hself _) (leads_call (hself' _) ?_))
    change Leads openMax _ (if ¬ decide ((l.process.pgid : ℤ) = l.process.sid) = true then becomeDaemon false dSocket
      else return ()) _
    by_cases hgroup : l.process.pgid = l.process.sid
    · rw [if_neg (by simp [hgroup])]
      exact (if_neg (by simp [hgroup])).mpr ⟨rfl, rfl⟩
    · rw [if_pos (by simpa using hgroup)]
      have hbecome : Become openMax true dSocket l.pid l.process = Daemonized openMax dSocket l.process := by
        funext l'
        exact if_pos ⟨rfl, hgroup⟩
      rw [hbecome]
      exact leads_becomeDaemon dSocket

end Line

section Worlds

variable {openMax : ℤ} {post : Line → Prop} {w w' : World}

theorem set_procs_self (p : ℕ) (x : Option (Process × DaemonizeProg Unit)) : (w.set p x).procs p = x :=
  Function.update_self ..

theorem set_procs_of_ne {p q : ℕ} (h : q ≠ p) (x : Option (Process × DaemonizeProg Unit)) :
    (w.set p x).procs q = w.procs q :=
  Function.update_of_ne h ..

/-- Nobody but the process that changes can bring a group about. -/
theorem led_set {p r : ℕ} {x : Option (Process × DaemonizeProg Unit)} (h : Led (w.set p x) r) :
    Led w r ∨ ∃ b, x = some b ∧ b.1.pgid = r := by
  obtain ⟨q, b, hb, hr⟩ := h
  by_cases hq : q = p
  · rw [hq, set_procs_self] at hb
    exact .inr ⟨b, hb, hr⟩
  · rw [set_procs_of_ne hq] at hb
    exact .inl ⟨q, b, hb, hr⟩

/-- Process `p` is where the line has come to, and everybody else is through. -/
structure At (openMax : ℤ) (post : Line → Prop) (w : World) (p : ℕ) (a : Process) (prog : DaemonizeProg Unit) :
    Prop where
  here : w.procs p = some (a, prog)
  leads : ∃ known, Leads openMax post prog ⟨p, a, known⟩ ∧ (Led w p → known = true)
  others : ∀ q x, q ≠ p → w.procs q = some x → Doomed x.2

def Carried (openMax : ℤ) (post : Line → Prop) (w : World) : Prop :=
  (∃ p a prog, At openMax post w p a prog) ∨ (w.disturbed = true ∧ ∀ q x, w.procs q = some x → Doomed x.2)

variable {p : ℕ} {a : Process} {prog : DaemonizeProg Unit}

theorem At.eq (h : At openMax post w p a prog) {q : ℕ} {x : Process × DaemonizeProg Unit}
    (hx : w.procs q = some x) (hnot : ¬ Doomed x.2) : q = p :=
  by_contra fun hq => hnot (h.others q x hq hx)

/-- Something happens to another process. -/
theorem At.elsewhere (h : At openMax post w p a prog) {q : ℕ} (hq : q ≠ p)
    {x : Option (Process × DaemonizeProg Unit)} (hdoomed : ∀ y, x = some y → Doomed y.2)
    (hgroup : ∀ y, x = some y → y.1.pgid = q ∨ Led w y.1.pgid) : At openMax post (w.set q x) p a prog := by
  obtain ⟨known, hleads, hknown⟩ := h.leads
  refine ⟨(set_procs_of_ne hq.symm x).trans h.here, ⟨known, hleads, fun hled => hknown ?_⟩, fun r y hr hy => ?_⟩
  · rcases led_set hled with hold | ⟨b, hb, hp⟩
    · exact hold
    · rcases hgroup b hb with hown | hjoined
      · exact absurd (hown.symm.trans hp) hq
      · exact hp ▸ hjoined
  · by_cases hrq : r = q
    · rw [hrq, set_procs_self] at hy
      exact hdoomed y hy
    · rw [set_procs_of_ne hrq] at hy
      exact h.others r y hr hy

/-- The process itself goes on. -/
theorem At.self (h : At openMax post w p a prog) {a' : Process} {prog' : DaemonizeProg Unit} {known : Bool}
    (hleads : Leads openMax post prog' ⟨p, a', known⟩) (hknown : Led w p ∨ a'.pgid = p → known = true) :
    At openMax post (w.set p (some (a', prog'))) p a' prog' := by
  refine ⟨set_procs_self p _, ⟨known, hleads, fun hled => hknown ?_⟩, fun q x hq hx => ?_⟩
  · rcases led_set hled with hold | ⟨b, hb, hp⟩
    · exact .inl hold
    · obtain rfl := Option.some.inj hb
      exact .inr hp
  · rw [set_procs_of_ne hq] at hx
    exact h.others q x hq hx

/-- A fork hands the line to the child. -/
theorem At.fork {next : ℤ → DaemonizeProg Unit} (h : At openMax post w p a (.call .fork next)) {q : ℕ}
    (hfresh : Fresh w q) :
    At openMax post ((w.set p (some (a, next q))).set q (some (a, next 0))) q a (next 0) := by
  obtain ⟨known, ⟨-, hadvance, hleaves⟩, -⟩ := h.leads
  obtain ⟨hpos, hnobody, hgroups⟩ := hfresh
  obtain ⟨hpgid, hsid⟩ := hgroups p _ h.here
  refine ⟨set_procs_self q _, ⟨false, hadvance _ _ (.fork hpgid hsid), fun hled => ?_⟩, fun r x hr hx => ?_⟩
  · exfalso
    rcases led_set hled with hold | ⟨b, hb, hq⟩
    · rcases led_set hold with ⟨r, b, hb, hq⟩ | ⟨b, hb, hq⟩
      · exact (hgroups r b hb).1 hq
      · obtain rfl := Option.some.inj hb
        exact hpgid hq
    · obtain rfl := Option.some.inj hb
      exact hpgid hq
  · rw [set_procs_of_ne hr] at hx
    by_cases hrp : r = p
    · rw [hrp, set_procs_self] at hx
      obtain rfl := Option.some.inj hx
      exact hleaves _ (by change (q : ℤ) ≠ 0; omega)
    · rw [set_procs_of_ne hrp] at hx
      exact h.others r x hrp hx

theorem At.setsid {next : ℤ → DaemonizeProg Unit} (h : At openMax post w p a (.call .setsid next)) :
    At openMax post (w.set p (some (a.lead p, next p))) p (a.lead p) (next p) := by
  obtain ⟨known, ⟨-, hadvance, -⟩, -⟩ := h.leads
  exact h.self (hadvance _ _ (@Advance.setsid _ ⟨p, a, known⟩)) fun _ => rfl

theorem At.setsidFails {next : ℤ → DaemonizeProg Unit} (h : At openMax post w p a (.call .setsid next))
    (hled : Led w p) : At openMax post (w.set p (some (a, next (-1)))) p a (next (-1)) := by
  obtain ⟨known, ⟨-, hadvance, -⟩, hknown⟩ := h.leads
  exact h.self (hadvance _ _ (.setsidFails (hknown hled))) fun _ => hknown hled

theorem At.call {op : DaemonizeSys} {r : op.Res} {next : op.Res → DaemonizeProg Unit} {a' : Process}
    (h : At openMax post w p a (.call op next)) (hexec : exec openMax op p a = some (r, a')) :
    At openMax post (w.set p (some (a', next r))) p a' (next r) := by
  obtain ⟨known, ⟨-, hadvance, -⟩, hknown⟩ := h.leads
  refine h.self (hadvance _ _ (.call hexec)) fun hled => hknown (hled.elim id fun hp => ?_)
  exact ⟨p, _, h.here, (exec_pgid hexec).symm.trans hp⟩

/-- What happens to the process where the line is while others only come, change and go. -/
theorem At.lost (h : At openMax post w p a prog) {x : Option (Process × DaemonizeProg Unit)}
    (hdoomed : ∀ y, x = some y → Doomed y.2) (q : ℕ) (y : Process × DaemonizeProg Unit)
    (hy : (w.set p x).procs q = some y) : Doomed y.2 := by
  by_cases hq : q = p
  · rw [hq, set_procs_self] at hy
    exact hdoomed y hy
  · rw [set_procs_of_ne hq] at hy
    exact h.others q y hq hy

theorem At.step (h : At openMax post w p a prog) (hstep : Step openMax w w') : Carried openMax post w' := by
  cases hstep with
  | fork hp hfresh =>
    obtain rfl := h.eq hp id
    obtain ⟨rfl, rfl⟩ := Prod.mk.inj (Option.some.inj (hp.symm.trans h.here))
    exact .inl ⟨_, _, _, h.fork hfresh⟩
  | forkFails hp =>
    obtain rfl := h.eq hp id
    obtain ⟨rfl, rfl⟩ := Prod.mk.inj (Option.some.inj (hp.symm.trans h.here))
    obtain ⟨known, ⟨-, -, hleaves⟩, -⟩ := h.leads
    refine .inr ⟨rfl, h.lost fun y hy => ?_⟩
    obtain rfl := Option.some.inj hy
    exact hleaves _ (by decide : (-1 : ℤ) ≠ 0)
  | setsid hp hfree =>
    obtain rfl := h.eq hp id
    obtain ⟨rfl, rfl⟩ := Prod.mk.inj (Option.some.inj (hp.symm.trans h.here))
    exact .inl ⟨_, _, _, h.setsid⟩
  | setsidFails hp hled =>
    obtain rfl := h.eq hp id
    obtain ⟨rfl, rfl⟩ := Prod.mk.inj (Option.some.inj (hp.symm.trans h.here))
    exact .inl ⟨_, _, _, h.setsidFails hled⟩
  | @call p' a₁ a₂ op r next hp hexec =>
    have hgoes : ¬ Doomed (.call op next) := by
      intro hdoomed
      cases op
      case exit => cases hexec
      all_goals exact hdoomed
    obtain rfl := h.eq hp hgoes
    obtain ⟨rfl, rfl⟩ := Prod.mk.inj (Option.some.inj (hp.symm.trans h.here))
    exact .inl ⟨_, _, _, h.call hexec⟩
  | @exit p' a' code next hp =>
    have hne : p' ≠ p := by
      rintro rfl
      obtain ⟨rfl, rfl⟩ := Prod.mk.inj (Option.some.inj (hp.symm.trans h.here))
      exact h.leads.elim fun _ hleads => hleads.1.not_doomed trivial
    exact .inl ⟨_, _, _, h.elsewhere hne nofun nofun⟩
  | kill p' =>
    by_cases hp' : p' = p
    · subst hp'
      exact .inr ⟨rfl, h.lost nofun⟩
    · obtain ⟨hhere, hleads, hothers⟩ := h.elsewhere hp' (x := none) nofun nofun
      exact .inl ⟨_, _, _, hhere, hleads, hothers⟩
  | @other p' x hp hgroup =>
    have hne : p' ≠ p := by
      rintro rfl
      have hhalt : prog = .halt := hp _ h.here
      obtain ⟨known, hleads, -⟩ := h.leads
      rwa [hhalt] at hleads
    refine .inl ⟨_, _, _, h.elsewhere hne (fun y hy => ?_) fun y hy => ?_⟩
    · obtain ⟨b, -, rfl⟩ := Option.map_eq_some_iff.1 hy
      trivial
    · obtain ⟨b, hb, rfl⟩ := Option.map_eq_some_iff.1 hy
      exact hgroup b hb

theorem Carried.step (h : Carried openMax post w) (hstep : Step openMax w w') : Carried openMax post w' := by
  rcases h with ⟨p, a, prog, hat⟩ | ⟨hdisturbed, hall⟩
  · exact hat.step hstep
  · have hset : ∀ (p : ℕ) (x : Option (Process × DaemonizeProg Unit)), (∀ y, x = some y → Doomed y.2) →
        ∀ q y, (w.set p x).procs q = some y → Doomed y.2 := by
      intro p x hdoomed q y hy
      by_cases hq : q = p
      · rw [hq, set_procs_self] at hy
        exact hdoomed y hy
      · rw [set_procs_of_ne hq] at hy
        exact hall q y hy
    cases hstep with
    | fork hp hfresh => exact (hall _ _ hp).elim
    | forkFails hp => exact (hall _ _ hp).elim
    | setsid hp hfree => exact (hall _ _ hp).elim
    | setsidFails hp hled => exact (hall _ _ hp).elim
    | @call p' a₁ a₂ op r next hp hexec =>
      have hdoomed := hall _ _ hp
      cases op
      case exit => cases hexec
      all_goals exact hdoomed.elim
    | exit hp => exact .inr ⟨hdisturbed, hset _ _ nofun⟩
    | kill p' => exact .inr ⟨rfl, hset _ _ nofun⟩
    | other x hp hgroup =>
      refine .inr ⟨hdisturbed, hset _ _ fun y hy => ?_⟩
      obtain ⟨b, -, rfl⟩ := Option.map_eq_some_iff.1 hy
      trivial

theorem Carried.run (h : Carried openMax post w) (hrun : Relation.ReflTransGen (Step openMax) w w') :
    Carried openMax post w' := by
  induction hrun with
  | refl => exact h
  | tail _ hstep ih => exact ih.step hstep

/-- There are finitely many processes, so that there is always a number left. -/
def Few (w : World) : Prop := ∃ N, ∀ q x, w.procs q = some x → q < N ∧ x.1.pgid < N ∧ x.1.sid < N

theorem Few.set (h : Few w) (p : ℕ) (x : Option (Process × DaemonizeProg Unit)) : Few (w.set p x) := by
  obtain ⟨N, hN⟩ := h
  cases x with
  | none =>
    refine ⟨N, fun q y hy => ?_⟩
    by_cases hq : q = p
    · rw [hq, set_procs_self] at hy
      cases hy
    · rw [set_procs_of_ne hq] at hy
      exact hN q y hy
  | some b =>
    refine ⟨N + p + b.1.pgid + b.1.sid + 1, fun q y hy => ?_⟩
    by_cases hq : q = p
    · rw [hq, set_procs_self] at hy
      obtain rfl := Option.some.inj hy
      omega
    · rw [set_procs_of_ne hq] at hy
      have := hN q y hy
      omega

theorem Few.fresh (h : Few w) : ∃ q, Fresh w q := by
  obtain ⟨N, hN⟩ := h
  refine ⟨N + 1, N.succ_pos, Option.eq_none_iff_forall_not_mem.2 fun x hx => ?_, fun r b hb => ?_⟩
  · have := hN _ x hx
    omega
  · have := hN r b hb
    omega

theorem Few.step (h : Few w) (hstep : Step openMax w w') : Few w' := by
  cases hstep with
  | fork hp hfresh => exact (h.set _ _).set _ _
  | forkFails hp => exact h.set _ _
  | setsid hp hfree => exact h.set _ _
  | setsidFails hp hled => exact h.set _ _
  | call hp hexec => exact h.set _ _
  | exit hp => exact h.set _ _
  | kill p => exact h.set _ _
  | other x hp hgroup => exact h.set _ _

theorem Few.run (h : Few w) (hrun : Relation.ReflTransGen (Step openMax) w w') : Few w' := by
  induction hrun with
  | refl => exact h
  | tail _ hstep ih => exact ih.step hstep

/-- Left alone the line comes to its end. -/
theorem At.finish (h : At openMax post w p a prog) (hfew : Few w) :
    ∃ w' q b, Relation.ReflTransGen (Step openMax) w w' ∧ w'.procs q = some (b, .ret ()) := by
  induction prog generalizing w p a with
  | ret u => exact ⟨w, p, a, .refl, h.here⟩
  | halt => exact h.leads.elim fun _ hleads => hleads.1.elim
  | call op next ih =>
    have hmore : ∀ {r : op.Res} {w' : World} {p' : ℕ} {a' : Process}, Step openMax w w' →
        At openMax post w' p' a' (next r) →
        ∃ w'' q b, Relation.ReflTransGen (Step openMax) w w'' ∧ w''.procs q = some (b, .ret ()) := by
      intro r w' p' a' hstep hat
      obtain ⟨w'', q, b, hrun, hret⟩ := ih r hat (hfew.step hstep)
      exact ⟨w'', q, b, .head hstep hrun, hret⟩
    obtain ⟨known, ⟨henabled, -, -⟩, -⟩ := h.leads
    rcases henabled with rfl | rfl | ⟨r, a', hexec⟩
    · obtain ⟨q, hfresh⟩ := hfew.fresh
      exact hmore (.fork h.here hfresh) (h.fork hfresh)
    · by_cases hled : Led w p
      · exact hmore (.setsidFails h.here hled) (h.setsidFails hled)
      · exact hmore (.setsid h.here hled) h.setsid
    · exact hmore (.call h.here hexec) (h.call hexec)

/-- Of the processes that come of one on its way through `__become_daemon`, there is never more than one that
goes on. Unless a `fork` fails or somebody is killed there is one, and it can come out, as `Become` says. -/
theorem daemonBecome_one {makeDaemon : Bool} {dSocket : ℤ} {p : ℕ} {a : Process} (hfew : Few w)
    (hstart : w.procs p = some (a, daemonBecome makeDaemon dSocket))
    (hothers : ∀ q x, q ≠ p → w.procs q = some x → x.2 = .halt)
    (hrun : Relation.ReflTransGen (Step openMax) w w') :
    (∀ q q' x x', w'.procs q = some x → w'.procs q' = some x' → ¬ Doomed x.2 → ¬ Doomed x'.2 → q = q') ∧
      (w'.disturbed = false → (∃ q x, w'.procs q = some x ∧ ¬ Doomed x.2) ∧
        ∃ w'' q b, Relation.ReflTransGen (Step openMax) w' w'' ∧ w''.procs q = some (b, .ret ())) ∧
      ∀ q b, w'.procs q = some (b, .ret ()) → ∃ known, Become openMax makeDaemon dSocket p a ⟨q, b, known⟩ := by
  have hcarried : Carried openMax (Become openMax makeDaemon dSocket p a) w' := by
    refine Carried.run (.inl ⟨p, a, _, hstart, ⟨true, ?_, fun _ => rfl⟩, fun q x hq hx => ?_⟩) hrun
    · exact @leads_daemonBecome openMax ⟨p, a, true⟩ makeDaemon dSocket
    · rw [hothers q x hq hx]
      trivial
  rcases hcarried with ⟨p', a', prog, hat⟩ | ⟨hdisturbed, hall⟩
  · refine ⟨fun q q' x x' hx hx' hnot hnot' => (hat.eq hx hnot).trans (hat.eq hx' hnot').symm, fun _ => ⟨?_, ?_⟩, ?_⟩
    · obtain ⟨known, hleads, -⟩ := hat.leads
      exact ⟨p', _, hat.here, hleads.not_doomed⟩
    · exact hat.finish (hfew.run hrun)
    · intro q b hb
      obtain rfl := hat.eq hb id
      obtain ⟨rfl, rfl⟩ := Prod.mk.inj (Option.some.inj (hb.symm.trans hat.here))
      obtain ⟨known, hleads, -⟩ := hat.leads
      exact ⟨known, hleads⟩
  · refine ⟨fun q q' x x' hx _ hnot _ => absurd (hall q x hx) hnot, fun hnone => ?_, fun q b hb => (hall q _ hb).elim⟩
    simp [hdisturbed] at hnone

/-- A process of a shell, alone. -/
def shellProcess : Process := ⟨100, 50, true, [], 18, false, fun fd => 0 ≤ fd ∧ fd < 6⟩

def shellWorld : World := (World.mk (fun _ => none) false).set 100 (some (shellProcess, daemonBecome true 3))

theorem shellWorld_procs {q : ℕ} {x : Process × DaemonizeProg Unit} (hx : shellWorld.procs q = some x) :
    q = 100 ∧ x = (shellProcess, daemonBecome true 3) := by
  by_cases hq : q = 100
  · subst hq
    exact ⟨rfl, (Option.some.inj hx).symm⟩
  · rw [shellWorld, set_procs_of_ne hq] at hx
    cases hx

theorem shellWorld_few : Few shellWorld := by
  refine ⟨101, fun q x hx => ?_⟩
  obtain ⟨rfl, rfl⟩ := shellWorld_procs hx
  decide

theorem daemonBecome_one_shell :
    ∃ w' q b, Relation.ReflTransGen (Step 1024) shellWorld w' ∧ w'.procs q = some (b, .ret ()) :=
  ((daemonBecome_one shellWorld_few rfl (fun _ _ hq hx => absurd (shellWorld_procs hx).1 hq) .refl).2.1 rfl).2

end Worlds

end Reportman.Daemonize
