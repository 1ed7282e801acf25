import Mathlib
import Reportman.Singleton

/-!
# Several daemons

The port is what keeps a second daemon from running beside the first. Any number of processes may be started,
with or without `--force`, be killed, and make their calls in any order; the kernel alone decides who gets the
port. A process can only come past `__acquire_singleton` without it if it has been told that process 0 has it.
-/
namespace Reportman.Exclusion
open Resumable Reportman.Singleton
open FmLoop (Exit)

section Processes

/-- What is known of a process: its sockets, and whether it has been misled. -/
structure Sight where
  sockets : Sockets
  misled : Bool

/-- `lsof` cannot be run, or the number that is read off its output is 0, which stands for success. -/
def misleads : (op : SingletonSys) → op.Res → Bool
  | .popen _, opened => !opened
  | .savePipeBuffer, output => (readableLines output).head?.map RunningPid.pid = some 0
  | .uninitialized, stale => stale = some 0
  | _, _ => false

def observe : (op : SingletonSys) → op.Res → Sight → Sight
  | .close fd, _, s => { s with sockets := { s.sockets with bound := s.sockets.bound.filter (·.1 ≠ fd) } }
  | op, r, s => ⟨note op r s.sockets, s.misled || misleads op r⟩

abbrev Environment := (op : SingletonSys) → op.Res

def watched (env : Environment) (op : SingletonSys) (s : Sight) : op.Res × Sight := (env op, observe op (env op) s)

/-- A process, with the port it has been started for and what it has left to do. -/
structure Instance where
  port : ℕ
  program : SingletonProg ℤ
  sight : Sight

/-- The processes that are alive, by their numbers. -/
abbrev World := ℕ → Option Instance

def Taken (w : World) (port : ℕ) : Prop :=
  ∃ p i fd, w p = some i ∧ i.sight.sockets.bound = some (fd, port)

/-- The kernel binds no two sockets to one port. -/
def Granted (w : World) : (op : SingletonSys) → op.Res → Prop
  | .bind _ port, true => ¬ Taken w port
  | _, _ => True

inductive Step : World → World → Prop
  | start {w : World} (p port : ℕ) (close force : Bool) (hfree : w p = none) :
      Step w (Function.update w p (some ⟨port, acquireSingleton close force port, ⟨never, false⟩⟩))
  | call {w : World} {p : ℕ} {i : Instance} {op : SingletonSys} {next : op.Res → SingletonProg ℤ}
      (env : Environment) (hi : w p = some i) (hop : i.program = .call op next) (hgranted : Granted w op (env op)) :
      Step w (Function.update w p (some ⟨i.port, next (env op), observe op (env op) i.sight⟩))
  | die {w : World} (p : ℕ) : Step w (Function.update w p none)

/-- Process `p` has come past `__acquire_singleton`, with `fd` for its socket. -/
def Started (w : World) (p : ℕ) (i : Instance) (fd : ℤ) : Prop := w p = some i ∧ i.program = .ret fd

end Processes

section Programs

/-- What is known where a process goes on as a daemon. -/
def Sure (port : ℕ) (fd : ℤ) (s : Sight) : Prop := s.misled = true ∨ Listens port fd s.sockets

variable {α : Type} {P : α → Sight → Prop} {s : Sight} {port : ℕ}

theorem yields_call {op : SingletonSys} {next : op.Res → SingletonProg α}
    (h : ∀ r, (next r).Yields watched P (observe op r s)) : (Program.call op next).Yields watched P s :=
  fun env => h (env op)

theorem yields_quit (code : Exit) : (quit code : SingletonProg α).Yields watched P s := fun _ => trivial

/-- Of what has been read off, the number 0 comes with having been misled. -/
theorem firstPid_yields {pids : List RunningPid} (h : ∀ first ∈ pids.head?, first.pid = 0 → s.misled = true) :
    (firstPid pids .ret).Yields watched (fun result s' => result = 0 → s'.misled = true) s := by
  cases pids with
  | nil =>
    refine yields_call fun stale => ?_
    cases stale with
    | none => trivial
    | some pid =>
      rintro rfl
      simp [observe, misleads]
  | cons first rest => exact h first rfl

/-- The number 0 comes with having been misled. -/
theorem getOtherPid_yields : (getOtherPid port).Yields watched (fun result s' => result = 0 → s'.misled = true) s := by
  rw [← bind_pure (getOtherPid port), getOtherPid_bind]
  refine yields_call fun opened => ?_
  cases opened with
  | false => exact fun _ => by simp [observe, misleads]
  | true =>
    refine yields_call fun output => yields_call fun status => ?_
    by_cases hstatus : status = commandSuccessful
    · rw [if_pos hstatus]
      split_ifs
      · exact firstPid_yields nofun
      · refine yields_call fun given => ?_
        cases given with
        | false => trivial
        | true =>
          refine firstPid_yields fun first hfirst hzero => ?_
          simp [observe, misleads, Option.mem_def.1 hfirst, hzero]
    · rw [if_neg hstatus]
      split_ifs
      · exact fun h => absurd h (by decide)
      · exact fun h => absurd h (by decide)

theorem dAcquireSingleton_yields :
    (dAcquireSingleton port).Yields watched (fun r s' => r.1 = isSingleton → Sure port r.2 s') s := by
  rw [← bind_pure (dAcquireSingleton port), dAcquireSingleton_bind]
  refine yields_call fun socket => ?_
  cases socket with
  | none => exact fun h => absurd h (by decide)
  | some fd =>
    refine yields_call fun bound => ?_
    cases bound with
    | false => exact getOtherPid_yields.bind fun result s' h hzero => .inl (h hzero)
    | true =>
      refine yields_call fun listening => ?_
      cases listening with
      | false => exact yields_call fun _ => yields_quit .failure
      | true => exact fun _ => .inr ⟨rfl, rfl⟩

theorem killPid_yields (pid : ℤ) {k : SingletonProg α} (hk : ∀ s, k.Yields watched P s) :
    (killPid pid >>= fun _ => k).Yields watched P s := by
  rw [killPid_bind]
  refine yields_call fun sent => ?_
  split_ifs
  · exact hk _
  · exact yields_quit .failure

theorem acquireSingleton_yields (close force : Bool) :
    (acquireSingleton close force port).Yields watched (Sure port) s := by
  rw [acquireSingleton_eq]
  refine dAcquireSingleton_yields.bind fun r s' h => ?_
  have hforce : (forceSingleton r.1 port).Yields watched (Sure port) s' := by
    rw [forceSingleton_eq]
    refine killPid_yields _ fun s₁ => yields_call fun _ => dAcquireSingleton_yields.bind fun again s₂ h₂ => ?_
    by_cases hagain : again.1 = isSingleton
    · rw [if_neg (not_not.2 hagain)]
      exact h₂ hagain
    · rw [if_pos hagain]
      exact yields_quit .failure
  unfold afterAttempt
  by_cases hsingle : r.1 = isSingleton
  · rw [if_pos hsingle, if_pos hsingle]
    split_ifs
    · exact yields_quit .success
    · exact h hsingle
  · rw [if_neg hsingle, if_neg hsingle]
    split_ifs
    · exact killPid_yields _ fun _ => yields_quit .success
    · exact yields_quit .success
    · exact yields_quit .failure
    · exact hforce
    · exact yields_quit .failure

end Programs

section Worlds

/-- No port is bound by two processes, and no process goes on as a daemon unless it listens or has been misled. -/
structure Safe (w : World) : Prop where
  single : ∀ p q i j port fd fd', w p = some i → w q = some j → i.sight.sockets.bound = some (fd, port) →
    j.sight.sockets.bound = some (fd', port) → p = q
  sure : ∀ p i, w p = some i → i.program.Yields watched (Sure i.port) i.sight

variable {w w' : World}

/-- A call leaves the socket of the process bound as it was, closes it, or binds one to a port that was granted. -/
theorem observe_bound {op : SingletonSys} {r : op.Res} {s : Sight} {fd : ℤ} {port : ℕ}
    (hgranted : Granted w op r) (h : (observe op r s).sockets.bound = some (fd, port)) :
    s.sockets.bound = some (fd, port) ∨ ¬ Taken w port := by
  cases op
  case bind fd' port' =>
    cases r with
    | false => exact .inl h
    | true =>
      obtain ⟨rfl, rfl⟩ : fd' = fd ∧ port' = port := by simpa [observe, note] using h
      exact .inr hgranted
  case listen => cases r <;> exact .inl h
  case close fd' =>
    obtain ⟨hold, -⟩ := Option.filter_eq_some_iff.1 h
    exact .inl hold
  all_goals exact .inl h

theorem Safe.step (h : Safe w) (hstep : Step w w') : Safe w' := by
  cases hstep with
  | start p port close force hfree =>
    -- a process that has just been started has no socket
    have hold : ∀ {q j fd port'}, Function.update w p (some ⟨port, acquireSingleton close force port,
        ⟨never, false⟩⟩) q = some j → j.sight.sockets.bound = some (fd, port') → w q = some j := by
      intro q j fd port' hj hbound
      by_cases hq : q = p
      · rw [hq, Function.update_self, Option.some.injEq] at hj
        subst hj
        cases hbound
      · rwa [Function.update_of_ne hq] at hj
    refine ⟨fun p₁ p₂ i j port' fd fd' hi hj hb hb' =>
      h.single p₁ p₂ i j port' fd fd' (hold hi hb) (hold hj hb') hb hb', fun q j hj => ?_⟩
    by_cases hq : q = p
    · rw [hq, Function.update_self, Option.some.injEq] at hj
      subst hj
      exact acquireSingleton_yields close force
    · rw [Function.update_of_ne hq] at hj
      exact h.sure q j hj
  | @call p i op next env hi hop hgranted =>
    -- who has a port now had it before, or nobody had it
    have hold : ∀ {q j fd port'}, Function.update w p (some ⟨i.port, next (env op), observe op (env op) i.sight⟩)
        q = some j →
        j.sight.sockets.bound = some (fd, port') →
        (∃ j', w q = some j' ∧ j'.sight.sockets.bound = some (fd, port')) ∨ (q = p ∧ ¬ Taken w port') := by
      intro q j fd port' hj hbound
      by_cases hq : q = p
      · rw [hq, Function.update_self, Option.some.injEq] at hj
        subst hj
        exact (observe_bound hgranted hbound).imp (fun hbefore => ⟨i, hq ▸ hi, hbefore⟩) fun hfree => ⟨hq, hfree⟩
      · rw [Function.update_of_ne hq] at hj
        exact .inl ⟨j, hj, hbound⟩
    refine ⟨fun p₁ p₂ i₁ i₂ port' fd fd' hi₁ hi₂ hb₁ hb₂ => ?_, fun q j hj => ?_⟩
    · rcases hold hi₁ hb₁ with ⟨j₁, hj₁, hb₁'⟩ | ⟨rfl, hfree⟩
      · rcases hold hi₂ hb₂ with ⟨j₂, hj₂, hb₂'⟩ | ⟨-, hfree⟩
        · exact h.single p₁ p₂ j₁ j₂ port' fd fd' hj₁ hj₂ hb₁' hb₂'
        · exact absurd ⟨p₁, j₁, fd, hj₁, hb₁'⟩ hfree
      · rcases hold hi₂ hb₂ with ⟨j₂, hj₂, hb₂'⟩ | ⟨hsame, -⟩
        · exact absurd ⟨p₂, j₂, fd', hj₂, hb₂'⟩ hfree
        · exact hsame.symm
    · by_cases hq : q = p
      · rw [hq, Function.update_self, Option.some.injEq] at hj
        subst hj
        have hsure := h.sure p i hi
        rw [hop] at hsure
        exact hsure env
      · rw [Function.update_of_ne hq] at hj
        exact h.sure q j hj
  | die p =>
    have hold : ∀ {q j}, Function.update w p none q = some j → w q = some j := by
      intro q j hj
      by_cases hq : q = p
      · rw [hq, Function.update_self] at hj
        cases hj
      · rwa [Function.update_of_ne hq] at hj
    exact ⟨fun p₁ p₂ i j port' fd fd' hi hj => h.single p₁ p₂ i j port' fd fd' (hold hi) (hold hj),
      fun q j hj => h.sure q j (hold hj)⟩

/-- Of the daemons that have been started for one port and not misled there is never more than one, and it
listens on the port. -/
theorem started_exclusive (h : Relation.ReflTransGen Step (fun _ => none) w) :
    (∀ p i fd, Started w p i fd → i.sight.misled = false → Listens i.port fd i.sight.sockets) ∧
      ∀ p q i j fd fd', Started w p i fd → Started w q j fd' → i.sight.misled = false →
        j.sight.misled = false → i.port = j.port → p = q := by
  have hsafe : Safe w := by
    induction h with
    | refl => exact ⟨nofun, nofun⟩
    | tail _ hstep ih => exact ih.step hstep
  have hlistens : ∀ p i fd, Started w p i fd → i.sight.misled = false → Listens i.port fd i.sight.sockets := by
    rintro p i fd ⟨hi, hret⟩ hnot
    have hsure := hsafe.sure p i hi
    rw [hret] at hsure
    exact Or.resolve_left hsure (by simp [hnot])
  refine ⟨hlistens, fun p q i j fd fd' hp hq hnot hnot' hport => ?_⟩
  exact hsafe.single p q i j i.port fd fd' hp.1 hq.1 (hlistens p i fd hp hnot).1
    (hport ▸ (hlistens q j fd' hq hnot').1)

/-- The first process gets the port, the second does not, and `lsof` does not say who has it. -/
def granting (granted : Bool) (fd : ℤ) : Environment
  | .socket => some fd
  | .bind _ _ => granted
  | .listen _ => true
  | .popen _ => true
  | .savePipeBuffer => []
  | .pclose => 256
  | .reallocUninitialized => true
  | .uninitialized => none
  | .kill _ _ => true
  | .sleep _ => ()
  | .close _ => ()
  | .exit _ => ()

/-- A process on its way. -/
def joined (w : World) (p : ℕ) (program : SingletonProg ℤ) (sockets : Sockets) : World :=
  Function.update w p (some ⟨7770, program, ⟨sockets, false⟩⟩)

theorem joined_step (env : Environment) {w : World} {p : ℕ} {op : SingletonSys} {next : op.Res → SingletonProg ℤ}
    {sockets sockets' : Sockets} (hgranted : Granted (joined w p (.call op next) sockets) op (env op))
    (hobserve : observe op (env op) ⟨sockets, false⟩ = ⟨sockets', false⟩) :
    Step (joined w p (.call op next) sockets) (joined w p (next (env op)) sockets') := by
  have hstep := Step.call env (Function.update_self ..) rfl hgranted
  rw [hobserve] at hstep
  simpa only [joined, Function.update_idem] using hstep

/-- A daemon, alone. -/
def alone : World := joined (fun _ => none) 100 (.ret 3) ⟨1, some (3, 7770), some 3⟩

/-- A second one has asked for the port, and has exited. -/
def refused : World := joined alone 101 .halt ⟨1, none, none⟩

theorem joined_free (program : SingletonProg ℤ) :
    ¬ Taken (joined (fun _ => none) 100 program ⟨1, none, none⟩) 7770 := by
  rintro ⟨p, i, fd, hi, hbound⟩
  unfold joined at hi
  by_cases hp : p = 100
  · rw [hp, Function.update_self, Option.some.injEq] at hi
    subst hi
    cases hbound
  · rw [Function.update_of_ne hp] at hi
    cases hi

theorem alone_reachable : Relation.ReflTransGen Step (fun _ => none) alone := by
  have hstart : Step (fun _ => none) (joined (fun _ => none) 100 (acquireSingleton false false 7770) never) :=
    .start 100 7770 false false rfl
  have hsocket := Relation.ReflTransGen.single hstart |>.tail
    (@joined_step (granting true 3) _ _ .socket _ _ ⟨1, none, none⟩ trivial rfl)
  have hbind := hsocket.tail
    (@joined_step (granting true 3) _ _ (.bind 3 7770) _ _ ⟨1, some (3, 7770), none⟩ (joined_free _) rfl)
  exact hbind.tail (@joined_step (granting true 3) _ _ (.listen 3) _ _ ⟨1, some (3, 7770), some 3⟩ trivial rfl)

theorem refused_reachable : Relation.ReflTransGen Step (fun _ => none) refused := by
  have hstart : Step alone (joined alone 101 (acquireSingleton false false 7770) never) :=
    .start 101 7770 false false rfl
  have hsocket := (alone_reachable.tail hstart).tail
    (@joined_step (granting false 4) _ _ .socket _ _ ⟨1, none, none⟩ trivial rfl)
  have hbind := hsocket.tail (@joined_step (granting false 4) _ _ (.bind 4 7770) _ _ ⟨1, none, none⟩ trivial rfl)
  have hpopen := hbind.tail (@joined_step (granting false 4) _ _ (.popen 7770) _ _ ⟨1, none, none⟩ trivial rfl)
  have hsave := hpopen.tail (@joined_step (granting false 4) _ _ .savePipeBuffer _ _ ⟨1, none, none⟩ trivial rfl)
  have hpclose := hsave.tail (@joined_step (granting false 4) _ _ .pclose _ _ ⟨1, none, none⟩ trivial rfl)
  exact hpclose.tail (@joined_step (granting false 4) _ _ (.exit .failure) _ _ ⟨1, none, none⟩ trivial rfl)

/-- Only the first is a daemon. -/
theorem started_exclusive_refused : Listens 7770 3 ⟨1, some (3, 7770), some 3⟩ ∧
    ∀ q j fd, Started refused q j fd → j.sight.misled = false → j.port = 7770 → q = 100 := by
  have hfirst : Started refused 100 ⟨7770, .ret 3, ⟨⟨1, some (3, 7770), some 3⟩, false⟩⟩ 3 :=
    ⟨rfl, rfl⟩
  obtain ⟨hlistens, hsingle⟩ := started_exclusive refused_reachable
  refine ⟨hlistens 100 _ 3 hfirst rfl, fun q j fd hq hnot hport => ?_⟩
  exact hsingle q 100 j _ fd 3 hq hfirst hnot rfl hport

end Worlds

end Reportman.Exclusion
