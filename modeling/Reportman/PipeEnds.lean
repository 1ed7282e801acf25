import Mathlib
import Reportman.Daemon

/-!
# Who holds the ends of the pipes

The descriptor tables of the daemon and of its children. A fork copies the table of the daemon less what
the child closes at once, and the `execv` that follows keeps it. So a child has the daemon's ends of the
pipes of all the children before it.
-/
namespace Reportman.PipeEnds
open Resumable Ipc Daemon

structure PipeEnd where
  pipe : ℕ
  writing : Bool
  deriving DecidableEq, Repr

inductive Object
  | other
  | pipeEnd (e : PipeEnd)
  deriving DecidableEq, Repr

abbrev Table := ℤ → Option Object

/-- A child that has been forked, with the numbers of its two pipes; no table after its exit. -/
structure Process where
  pid : ℤ
  toChild : ℕ
  toDaemon : ℕ
  table : Option Table

/-- `made` counts the pipes, `spawned` lists the children in the order of their forks. -/
structure World where
  daemon : Table
  made : ℕ
  spawned : List Process

def Table.Free (T : Table) (fd : ℤ) : Prop := 0 ≤ fd ∧ T fd = none

instance (T : Table) (fd : ℤ) : Decidable (T.Free fd) := inferInstanceAs (Decidable (_ ∧ _))

def Table.withPipe (T : Table) (pipe : ℕ) (r wr : ℤ) : Table :=
  Function.update (Function.update T r (some (.pipeEnd ⟨pipe, false⟩))) wr (some (.pipeEnd ⟨pipe, true⟩))

def Table.without (T : Table) (closed : List ℤ) : Table := fun fd => if fd ∈ closed then none else T fd

def Table.pipeAt (T : Table) (fd : ℤ) : ℕ :=
  match T fd with
  | some (.pipeEnd e) => e.pipe
  | _ => 0

def Process.exit (p : Process) (exits : ℤ → Bool) : Process :=
  if exits p.pid then { p with table := none } else p

def World.exit (w : World) (exits : ℤ → Bool) : World :=
  { w with spawned := w.spawned.map (·.exit exits) }

/-- What the calls return, and the processes that have exited in the meantime. -/
structure Choice where
  env : Environment
  exits : ℤ → Bool

/-- Of the descriptors that a child closes, the second is the daemon's end of the pipe to the child, and
the third that of the pipe to the daemon. -/
def pipesExec (choice : Choice) : (op : DaemonSys) → World → op.Res × World
  | .pipe, w => match choice.env .pipe with
      | none => (none, w)
      | some (r, wr) =>
          if w.daemon.Free r ∧ w.daemon.Free wr ∧ r ≠ wr then
            (some (r, wr), { w with daemon := w.daemon.withPipe w.made r wr, made := w.made + 1 })
          else (none, w)
  | .fork c closed args, w => match choice.env (.fork c closed args) with
      | none => (none, w)
      | some pid => (some pid, { w with spawned := w.spawned ++
          [⟨pid, w.daemon.pipeAt (closed.getD 1 0), w.daemon.pipeAt (closed.getD 2 0),
            some (w.daemon.without closed)⟩] })
  | .close fd, w => ((), { w with daemon := Function.update w.daemon fd none })
  | .waitpid pid, w => ((), w.exit fun p => choice.exits p || p = pid)
  | op, w => (choice.env op, w.exit choice.exits)

inductive Step
  | spawn (c : ChildName) (extraArgs : List String)
  | probe (c : ChildName)

def postProcLaunch : ChildName → DaemonState → DaemonProg DaemonState
  | .fm => reportmanFmGetTimers
  | .mon => pure

/-- Children are spawned and probed in any order; a probe restarts a child that does not answer. -/
def spawns (dSocket : ℤ) : List Step → DaemonState → DaemonProg DaemonState
  | [], d => return d
  | .spawn c extraArgs :: steps, d => do
      let d ← childSpawn dSocket d c extraArgs
      spawns dSocket steps d
  | .probe c :: steps, d => do
      let d ← healthProbeChildProcess dSocket d c (postProcLaunch c)
      spawns dSocket steps d

/-- The daemon is `none`. -/
def World.tableOf (w : World) : Option ℕ → Option Table
  | none => some w.daemon
  | some i => (w.spawned[i]?).bind (·.table)

def World.Running (w : World) (q : Option ℕ) : Prop := w.tableOf q ≠ none

def World.Holds (w : World) (q : Option ℕ) (e : PipeEnd) : Prop :=
  ∃ T, w.tableOf q = some T ∧ ∃ fd, T fd = some (.pipeEnd e)

def World.OnlyIn (w : World) (e : PipeEnd) (q : Option ℕ) : Prop :=
  ∀ q', w.Holds q' e ↔ q' = q ∧ w.Running q

/-- Each pipe has its ends open on its two sides only. -/
def World.Exclusive (w : World) : Prop := ∀ i p, w.spawned[i]? = some p →
  w.OnlyIn ⟨p.toChild, true⟩ none ∧ w.OnlyIn ⟨p.toChild, false⟩ (some i) ∧
    w.OnlyIn ⟨p.toDaemon, true⟩ (some i) ∧ w.OnlyIn ⟨p.toDaemon, false⟩ none

/-- When the one side of a pipe exits, nobody is left that could write to the other. -/
def World.SeesExits (w : World) : Prop := ∀ i p, w.spawned[i]? = some p →
  (∀ q, q ≠ none → ¬ w.Holds q ⟨p.toChild, true⟩) ∧ ∀ q, q ≠ some i → ¬ w.Holds q ⟨p.toDaemon, true⟩

/-- Every child has what the daemon had when it was forked. -/
structure World.Inherited (w : World) : Prop where
  bounded : ∀ q (e : PipeEnd), w.Holds q e → e.pipe < w.made
  numbers : ∀ (i : ℕ) (p : Process), w.spawned[i]? = some p → p.toChild < w.made ∧ p.toDaemon < w.made
  daemons : ∀ (i : ℕ) (p : Process), w.spawned[i]? = some p → ∀ e : PipeEnd,
    e = ⟨p.toChild, true⟩ ∨ e = ⟨p.toDaemon, false⟩ →
      ∀ q, w.Holds q e ↔ q = none ∨ ∃ j, q = some j ∧ i < j ∧ w.Running q
  childs : ∀ (i : ℕ) (p : Process), w.spawned[i]? = some p → ∀ e : PipeEnd,
    e = ⟨p.toChild, false⟩ ∨ e = ⟨p.toDaemon, true⟩ → ∀ q, w.Holds q e ↔ q = some i ∧ w.Running q

theorem World.Holds.running {w : World} {q : Option ℕ} {e : PipeEnd} (h : w.Holds q e) : w.Running q := by
  obtain ⟨T, hT, -⟩ := h
  simp [World.Running, hT]

theorem running_none (w : World) : w.Running none := by
  simp [World.Running, World.tableOf]

theorem running_lt {w : World} {j : ℕ} (h : w.Running (some j)) : j < w.spawned.length := by
  by_contra hle
  simp [World.Running, World.tableOf, List.getElem?_eq_none (not_lt.mp hle)] at h

/-- A second child has the daemon's end of the first one's pipe. -/
theorem World.Inherited.shared {w : World} (h : w.Inherited) {j : ℕ} (hj : 0 < j)
    (hrunning : w.Running (some j)) : ∃ p, w.spawned[0]? = some p ∧ w.Holds (some j) ⟨p.toChild, true⟩ := by
  have hlt := running_lt hrunning
  refine ⟨_, List.getElem?_eq_getElem (by omega), ?_⟩
  exact (h.daemons 0 _ (List.getElem?_eq_getElem (by omega)) _ (.inl rfl) _).mpr (.inr ⟨j, rfl, hj, hrunning⟩)

/-- Only the first child may be left. -/
theorem World.Inherited.exclusive_iff {w : World} (h : w.Inherited) :
    w.Exclusive ↔ ∀ j, 0 < j → ¬ w.Running (some j) := by
  constructor
  · intro hexclusive j hj hrunning
    obtain ⟨p, hp, hholds⟩ := h.shared hj hrunning
    exact absurd (((hexclusive 0 p hp).1 (some j)).mp hholds).1 nofun
  · intro halone i p hp
    have hd : ∀ e, e = ⟨p.toChild, true⟩ ∨ e = ⟨p.toDaemon, false⟩ → w.OnlyIn e none := by
      intro e he q
      rw [h.daemons i p hp e he q]
      constructor
      · rintro (rfl | ⟨j, rfl, hj, hrunning⟩)
        · exact ⟨rfl, running_none w⟩
        · exact absurd hrunning (halone j (by omega))
      · exact fun hq => .inl hq.1
    have hc : ∀ e, e = ⟨p.toChild, false⟩ ∨ e = ⟨p.toDaemon, true⟩ → w.OnlyIn e (some i) := by
      intro e he q
      rw [h.childs i p hp e he q]
      constructor
      · rintro ⟨rfl, hrunning⟩
        exact ⟨rfl, hrunning⟩
      · rintro ⟨rfl, hrunning⟩
        exact ⟨rfl, hrunning⟩
    exact ⟨hd _ (.inl rfl), hc _ (.inl rfl), hc _ (.inr rfl), hd _ (.inr rfl)⟩

theorem World.Inherited.seesExits_iff {w : World} (h : w.Inherited) :
    w.SeesExits ↔ ∀ j, 0 < j → ¬ w.Running (some j) := by
  constructor
  · intro hsees j hj hrunning
    obtain ⟨p, hp, hholds⟩ := h.shared hj hrunning
    exact (hsees 0 p hp).1 (some j) nofun hholds
  · intro halone i p hp
    refine ⟨fun q hq hholds => ?_, fun q hq hholds => ?_⟩
    · rcases (h.daemons i p hp _ (.inl rfl) q).mp hholds with rfl | ⟨j, rfl, hj, hrunning⟩
      · exact hq rfl
      · exact halone j (by omega) hrunning
    · exact hq ((h.childs i p hp _ (.inr rfl) q).mp hholds).1

section Exit

variable (w : World) (exits : ℤ → Bool)

theorem spawned_exit {i : ℕ} {p' : Process} (h : (w.exit exits).spawned[i]? = some p') :
    ∃ p, w.spawned[i]? = some p ∧ p'.toChild = p.toChild ∧ p'.toDaemon = p.toDaemon := by
  simp only [World.exit, List.getElem?_map, Option.map_eq_some_iff] at h
  obtain ⟨p, hp, rfl⟩ := h
  refine ⟨p, hp, ?_⟩
  unfold Process.exit
  split_ifs <;> exact ⟨rfl, rfl⟩

theorem tableOf_exit (q : Option ℕ) (h : (w.exit exits).Running q) :
    (w.exit exits).tableOf q = w.tableOf q := by
  rcases q with _ | i
  · rfl
  simp only [World.Running, World.tableOf, World.exit, List.getElem?_map] at h ⊢
  cases hp : w.spawned[i]? with
  | none => rfl
  | some p =>
    simp only [hp, Option.map_some, Option.bind_some, Process.exit] at h ⊢
    split_ifs with hexits
    · simp [hexits] at h
    · rfl

theorem running_exit {q : Option ℕ} (h : (w.exit exits).Running q) : w.Running q := by
  have htable := tableOf_exit w exits q h
  rw [World.Running, htable] at h
  exact h

theorem holds_exit (q : Option ℕ) (e : PipeEnd) :
    (w.exit exits).Holds q e ↔ w.Holds q e ∧ (w.exit exits).Running q := by
  constructor
  · intro h
    refine ⟨?_, h.running⟩
    obtain ⟨T, hT, hfd⟩ := h
    exact ⟨T, tableOf_exit w exits q (World.Holds.running ⟨T, hT, hfd⟩) ▸ hT, hfd⟩
  · rintro ⟨⟨T, hT, hfd⟩, h⟩
    exact ⟨T, (tableOf_exit w exits q h).trans hT, hfd⟩

theorem World.Inherited.exit {w : World} (h : w.Inherited) (exits : ℤ → Bool) : (w.exit exits).Inherited := by
  constructor
  · intro q e he
    exact h.bounded q e ((holds_exit w exits q e).mp he).1
  · intro i p' hp'
    obtain ⟨p, hp, hc, hd⟩ := spawned_exit w exits hp'
    rw [hc, hd]
    exact h.numbers i p hp
  · intro i p' hp' e he q
    obtain ⟨p, hp, hc, hd⟩ := spawned_exit w exits hp'
    rw [hc, hd] at he
    rw [holds_exit, h.daemons i p hp e he q]
    constructor
    · rintro ⟨rfl | ⟨j, rfl, hj, -⟩, hrunning⟩
      · exact .inl rfl
      · exact .inr ⟨j, rfl, hj, hrunning⟩
    · rintro (rfl | ⟨j, rfl, hj, hrunning⟩)
      · exact ⟨.inl rfl, running_none _⟩
      · exact ⟨.inr ⟨j, rfl, hj, running_exit w exits hrunning⟩, hrunning⟩
  · intro i p' hp' e he q
    obtain ⟨p, hp, hc, hd⟩ := spawned_exit w exits hp'
    rw [hc, hd] at he
    rw [holds_exit, h.childs i p hp e he q]
    constructor
    · rintro ⟨⟨rfl, -⟩, hrunning⟩
      exact ⟨rfl, hrunning⟩
    · rintro ⟨rfl, hrunning⟩
      exact ⟨⟨rfl, running_exit w exits hrunning⟩, hrunning⟩

end Exit

section Spawn

theorem lookup_withPipe {T : Table} {n : ℕ} {r wr : ℤ} (hr : T.Free r) (hwr : T.Free wr) (hne : r ≠ wr)
    (fd : ℤ) (x : Object) : T.withPipe n r wr fd = some x ↔
      (fd = r ∧ x = .pipeEnd ⟨n, false⟩) ∨ (fd = wr ∧ x = .pipeEnd ⟨n, true⟩) ∨ T fd = some x := by
  by_cases h₁ : fd = wr
  · subst h₁
    simp [Table.withPipe, hne.symm, hwr.2, eq_comm]
  by_cases h₂ : fd = r
  · subst h₂
    simp [Table.withPipe, hne, hr.2, eq_comm]
  · simp [Table.withPipe, h₁, h₂]

theorem lookup_close (T : Table) (closed fd : ℤ) (x : Object) :
    Function.update T closed none fd = some x ↔ fd ≠ closed ∧ T fd = some x := by
  by_cases h : fd = closed
  · subst h
    simp
  · simp [h]

theorem lookup_without (T : Table) (closed : List ℤ) (fd : ℤ) (x : Object) :
    T.without closed fd = some x ↔ fd ∉ closed ∧ T fd = some x := by
  unfold Table.without
  split_ifs with h <;> simp [h]

theorem Table.Free.ne {T : Table} {free fd : ℤ} {x : Object} (hfree : T.Free free) (hfd : T fd = some x) :
    fd ≠ free := by
  rintro rfl
  rw [hfree.2] at hfd
  cases hfd

section Ends

variable {T : Table} {n : ℕ} {childRead childWrite parentRead parentWrite : ℤ}
  (hcr : T.Free childRead) (hcw : T.Free childWrite) (hchild : childRead ≠ childWrite)
  (hpr : (T.withPipe n childRead childWrite).Free parentRead)
  (hpw : (T.withPipe n childRead childWrite).Free parentWrite) (hparent : parentRead ≠ parentWrite)
include hcr hcw hchild hpr hpw hparent

/-- The daemon closes the ends of its two pipes that are the child's. -/
theorem daemon_ends (e : PipeEnd) :
    (∃ fd, Function.update (Function.update ((T.withPipe n childRead childWrite).withPipe (n + 1) parentRead
      parentWrite) parentRead none) childWrite none fd = some (.pipeEnd e)) ↔
      (∃ fd, T fd = some (.pipeEnd e)) ∨ e = ⟨n, false⟩ ∨ e = ⟨n + 1, true⟩ := by
  have hlook := lookup_withPipe (n := n) hcr hcw hchild
  have hcr₁ := (hlook childRead _).mpr (.inl ⟨rfl, rfl⟩)
  have hcw₁ := (hlook childWrite _).mpr (.inr (.inl ⟨rfl, rfl⟩))
  simp only [lookup_close, lookup_withPipe hpr hpw hparent, hlook, Object.pipeEnd.injEq]
  constructor
  · rintro ⟨fd, hcw', hpr', ⟨rfl, -⟩ | ⟨-, rfl⟩ | ⟨-, rfl⟩ | ⟨rfl, -⟩ | hfd⟩
    · exact absurd rfl hpr'
    · exact .inr (.inr rfl)
    · exact .inr (.inl rfl)
    · exact absurd rfl hcw'
    · exact .inl ⟨fd, hfd⟩
  · rintro (⟨fd, hfd⟩ | rfl | rfl)
    · have hfd₁ := (hlook fd _).mpr (.inr (.inr hfd))
      exact ⟨fd, hcw.ne hfd, hpr.ne hfd₁, .inr (.inr (.inr (.inr hfd)))⟩
    · exact ⟨childRead, hchild, hpr.ne hcr₁, .inr (.inr (.inl ⟨rfl, rfl⟩))⟩
    · exact ⟨parentWrite, (hpw.ne hcw₁).symm, hparent.symm, .inr (.inl ⟨rfl, rfl⟩)⟩

/-- The child closes the socket and the daemon's ends of its own two pipes, and no end of another's. -/
theorem child_ends {dSocket : ℤ} (hsocket : T dSocket = some .other) (e : PipeEnd) :
    (∃ fd, (((T.withPipe n childRead childWrite).withPipe (n + 1) parentRead parentWrite).without
      [dSocket, parentWrite, childRead]) fd = some (.pipeEnd e)) ↔
      (∃ fd, T fd = some (.pipeEnd e)) ∨ e = ⟨n, true⟩ ∨ e = ⟨n + 1, false⟩ := by
  have hlook := lookup_withPipe (n := n) hcr hcw hchild
  have hcr₁ := (hlook childRead _).mpr (.inl ⟨rfl, rfl⟩)
  have hcw₁ := (hlook childWrite _).mpr (.inr (.inl ⟨rfl, rfl⟩))
  have hsocket₁ := (hlook dSocket _).mpr (.inr (.inr hsocket))
  simp only [lookup_without, lookup_withPipe hpr hpw hparent, hlook, Object.pipeEnd.injEq, List.mem_cons,
    List.not_mem_nil, or_false, not_or]
  constructor
  · rintro ⟨fd, ⟨-, hpw', hcr'⟩, ⟨-, rfl⟩ | ⟨rfl, -⟩ | ⟨rfl, -⟩ | ⟨-, rfl⟩ | hfd⟩
    · exact .inr (.inr rfl)
    · exact absurd rfl hpw'
    · exact absurd rfl hcr'
    · exact .inr (.inl rfl)
    · exact .inl ⟨fd, hfd⟩
  · rintro (⟨fd, hfd⟩ | rfl | rfl)
    · have hfd₁ := (hlook fd _).mpr (.inr (.inr hfd))
      have hne : fd ≠ dSocket := by
        rintro rfl
        simp [hsocket] at hfd
      exact ⟨fd, ⟨hne, hpw.ne hfd₁, hcr.ne hfd⟩, .inr (.inr (.inr (.inr hfd)))⟩
    · exact ⟨childWrite, ⟨(hcw.ne hsocket).symm, hpw.ne hcw₁, hchild.symm⟩, .inr (.inr (.inr (.inl ⟨rfl, rfl⟩)))⟩
    · exact ⟨parentRead, ⟨(hpr.ne hsocket₁).symm, hparent, (hpr.ne hcr₁).symm⟩, .inl ⟨rfl, rfl⟩⟩

end Ends

/-- What a fork leaves: one more child, which has what the daemon has but for the two ends they do not
share. -/
structure World.Forked (w w' : World) (p : Process) (T : Table) : Prop where
  spawned : w'.spawned = w.spawned ++ [p]
  table : p.table = some T
  made : w'.made = w.made + 2
  toChild : p.toChild = w.made + 1
  toDaemon : p.toDaemon = w.made
  daemon : ∀ e, w'.Holds none e ↔ w.Holds none e ∨ e = ⟨w.made, false⟩ ∨ e = ⟨w.made + 1, true⟩
  child : ∀ e, (∃ fd, T fd = some (.pipeEnd e)) ↔
    w.Holds none e ∨ e = ⟨w.made, true⟩ ∨ e = ⟨w.made + 1, false⟩

namespace World.Forked

variable {w w' : World} {p : Process} {T : Table} (hfork : w.Forked w' p T)
include hfork

theorem tableOf_new : w'.tableOf (some w.spawned.length) = some T := by
  simp [World.tableOf, hfork.spawned, hfork.table]

theorem tableOf_old {j : ℕ} (hj : j ≠ w.spawned.length) : w'.tableOf (some j) = w.tableOf (some j) := by
  simp only [World.tableOf, hfork.spawned]
  rcases lt_or_gt_of_ne hj with hlt | hgt
  · rw [List.getElem?_append_left hlt]
  · rw [List.getElem?_eq_none (by simp; omega), List.getElem?_eq_none (by omega)]

theorem running_iff (j : ℕ) : w'.Running (some j) ↔ w.Running (some j) ∨ j = w.spawned.length := by
  by_cases hj : j = w.spawned.length
  · subst hj
    simp [World.Running, hfork.tableOf_new]
  · simp [World.Running, hfork.tableOf_old hj, hj]

theorem holds_iff (j : ℕ) (e : PipeEnd) : w'.Holds (some j) e ↔ w.Holds (some j) e ∨
    (j = w.spawned.length ∧ (w.Holds none e ∨ e = ⟨w.made, true⟩ ∨ e = ⟨w.made + 1, false⟩)) := by
  by_cases hj : j = w.spawned.length
  · subst hj
    have hnot : ¬ w.Holds (some w.spawned.length) e := fun he => absurd (running_lt he.running) (lt_irrefl _)
    simp only [hnot, false_or, true_and, ← hfork.child]
    simp [World.Holds, hfork.tableOf_new]
  · simp [World.Holds, hfork.tableOf_old hj, hj]

/-- A child of the new world is one of the old ones or the last. -/
theorem old_or_last {i : ℕ} {p' : Process} (hp' : w'.spawned[i]? = some p') :
    w.spawned[i]? = some p' ∨ (i = w.spawned.length ∧ p' = p) := by
  rw [hfork.spawned] at hp'
  rcases lt_trichotomy i w.spawned.length with hlt | heq | hgt
  · rw [List.getElem?_append_left hlt] at hp'
    exact .inl hp'
  · subst heq
    simp only [List.getElem?_concat_length, Option.some.injEq] at hp'
    exact .inr ⟨rfl, hp'.symm⟩
  · rw [List.getElem?_eq_none (by simp; omega)] at hp'
    cases hp'

variable (h : w.Inherited)
include h

theorem bounded (q : Option ℕ) (e : PipeEnd) (he : w'.Holds q e) : e.pipe < w'.made := by
  rw [hfork.made]
  rcases q with _ | j
  · rcases (hfork.daemon e).mp he with he | rfl | rfl
    · have := h.bounded _ e he
      omega
    · simp
    · simp
  · rcases (hfork.holds_iff j e).mp he with he | ⟨-, he | rfl | rfl⟩
    · have := h.bounded _ e he
      omega
    · have := h.bounded _ e he
      omega
    · simp
    · simp

theorem numbers {i : ℕ} {p' : Process} (hp' : w'.spawned[i]? = some p') :
    p'.toChild < w'.made ∧ p'.toDaemon < w'.made := by
  rw [hfork.made]
  rcases hfork.old_or_last hp' with hp' | ⟨-, rfl⟩
  · have := h.numbers i p' hp'
    omega
  · rw [hfork.toChild, hfork.toDaemon]
    omega

/-- The daemon's ends of an older child's pipes go to the new child too. -/
theorem daemons_old {i : ℕ} {p' : Process} (hp' : w.spawned[i]? = some p') {e : PipeEnd}
    (he : e = ⟨p'.toChild, true⟩ ∨ e = ⟨p'.toDaemon, false⟩) (q : Option ℕ) :
    w'.Holds q e ↔ q = none ∨ ∃ j, q = some j ∧ i < j ∧ w'.Running q := by
  have hi : i < w.spawned.length := (List.getElem?_eq_some_iff.mp hp').1
  have hnone := (h.daemons i p' hp' e he none).mpr (.inl rfl)
  rcases q with _ | j
  · exact iff_of_true ((hfork.daemon e).mpr (.inl hnone)) (.inl rfl)
  rw [hfork.holds_iff, h.daemons i p' hp' e he (some j), hfork.running_iff]
  constructor
  · rintro ((hq | ⟨j', hj', hlt, hr⟩) | ⟨rfl, -⟩)
    · cases hq
    · cases hj'
      exact .inr ⟨j, rfl, hlt, .inl hr⟩
    · exact .inr ⟨_, rfl, hi, .inr rfl⟩
  · rintro (hq | ⟨j', hj', hlt, hr | rfl⟩)
    · cases hq
    · cases hj'
      exact .inl (.inr ⟨j, rfl, hlt, hr⟩)
    · exact .inr ⟨rfl, .inl hnone⟩

/-- The daemon's ends of the new pipes stay with the daemon: the last child has closed them. -/
theorem daemons_last {e : PipeEnd} (he : e = ⟨w.made + 1, true⟩ ∨ e = ⟨w.made, false⟩) (q : Option ℕ) :
    w'.Holds q e ↔ q = none ∨ ∃ j, q = some j ∧ w.spawned.length < j ∧ w'.Running q := by
  have hfresh : ∀ q, ¬ w.Holds q e := fun q hq => by
    have := h.bounded q e hq
    rcases he with rfl | rfl <;> simp at this
  rcases q with _ | j
  · exact iff_of_true ((hfork.daemon e).mpr (.inr he.symm)) (.inl rfl)
  refine iff_of_false (fun hq => ?_) ?_
  · rcases (hfork.holds_iff j e).mp hq with hq | ⟨-, hq | rfl | rfl⟩
    · exact hfresh _ hq
    · exact hfresh _ hq
    · simp at he
    · simp at he
  · rintro (hq | ⟨j', hj', hlt, hr⟩)
    · cases hq
    · cases hj'
      rcases (hfork.running_iff j).mp hr with hr | rfl
      · exact absurd (running_lt hr) (by omega)
      · exact absurd hlt (lt_irrefl _)

/-- The ends that an older child keeps for itself are not the daemon's to hand on. -/
theorem childs_old {i : ℕ} {p' : Process} (hp' : w.spawned[i]? = some p') {e : PipeEnd}
    (he : e = ⟨p'.toChild, false⟩ ∨ e = ⟨p'.toDaemon, true⟩) (q : Option ℕ) :
    w'.Holds q e ↔ q = some i ∧ w'.Running q := by
  have hnumbers := h.numbers i p' hp'
  have hi : i < w.spawned.length := (List.getElem?_eq_some_iff.mp hp').1
  have hnone : ¬ w.Holds none e := fun hq => by
    cases ((h.childs i p' hp' e he none).mp hq).1
  have hne : e.pipe < w.made := by rcases he with rfl | rfl <;> simp [hnumbers]
  rcases q with _ | j
  · refine iff_of_false (fun hq => ?_) nofun
    rcases (hfork.daemon e).mp hq with hq | rfl | rfl
    · exact hnone hq
    · simp at hne
    · simp at hne
  rw [hfork.holds_iff, h.childs i p' hp' e he (some j), hfork.running_iff]
  constructor
  · rintro (⟨hj, hr⟩ | ⟨rfl, hq | rfl | rfl⟩)
    · exact ⟨hj, .inl hr⟩
    · exact absurd hq hnone
    · simp at hne
    · simp at hne
  · rintro ⟨hj, hr | rfl⟩
    · exact .inl ⟨hj, hr⟩
    · cases hj
      exact absurd hi (lt_irrefl _)

theorem childs_last {e : PipeEnd} (he : e = ⟨w.made + 1, false⟩ ∨ e = ⟨w.made, true⟩) (q : Option ℕ) :
    w'.Holds q e ↔ q = some w.spawned.length ∧ w'.Running q := by
  have hfresh : ∀ q, ¬ w.Holds q e := fun q hq => by
    have := h.bounded q e hq
    rcases he with rfl | rfl <;> simp at this
  rcases q with _ | j
  · refine iff_of_false (fun hq => ?_) nofun
    rcases (hfork.daemon e).mp hq with hq | rfl | rfl
    · exact hfresh _ hq
    · simp at he
    · simp at he
  rw [hfork.holds_iff, hfork.running_iff]
  constructor
  · rintro (hq | ⟨rfl, -⟩)
    · exact absurd hq (hfresh _)
    · exact ⟨rfl, .inr rfl⟩
  · rintro ⟨hj, -⟩
    cases hj
    exact .inr ⟨rfl, .inr he.symm⟩

theorem inherited : w'.Inherited where
  bounded := hfork.bounded h
  numbers _ _ hp' := hfork.numbers h hp'
  daemons i p' hp' e he q := by
    rcases hfork.old_or_last hp' with hp' | ⟨rfl, rfl⟩
    · exact hfork.daemons_old h hp' he q
    · rw [hfork.toChild, hfork.toDaemon] at he
      exact hfork.daemons_last h he q
  childs i p' hp' e he q := by
    rcases hfork.old_or_last hp' with hp' | ⟨rfl, rfl⟩
    · exact hfork.childs_old h hp' he q
    · rw [hfork.toChild, hfork.toDaemon] at he
      exact hfork.childs_last h he q

end World.Forked

/-- A pipe that no child has been forked for stays with the daemon. -/
theorem World.Inherited.pipe {w : World} (h : w.Inherited) {r wr : ℤ} (hr : w.daemon.Free r)
    (hwr : w.daemon.Free wr) (hne : r ≠ wr) :
    ({ w with daemon := w.daemon.withPipe w.made r wr, made := w.made + 1 } : World).Inherited := by
  have hdaemon : ∀ e, ({ w with daemon := w.daemon.withPipe w.made r wr, made := w.made + 1 } : World).Holds
      none e ↔ w.Holds none e ∨ e.pipe = w.made := by
    intro e
    obtain ⟨n, writing⟩ := e
    simp only [World.Holds, World.tableOf, Option.some.injEq, exists_eq_left', lookup_withPipe hr hwr hne]
    cases writing <;> simp [or_comm, exists_or]
  have hsame : ∀ (p : Process) (e : PipeEnd),
      e = ⟨p.toChild, true⟩ ∨ e = ⟨p.toDaemon, false⟩ ∨ e = ⟨p.toChild, false⟩ ∨ e = ⟨p.toDaemon, true⟩ →
      p.toChild < w.made ∧ p.toDaemon < w.made → e.pipe ≠ w.made := by
    rintro p e (rfl | rfl | rfl | rfl) ⟨hc, hd⟩
    · exact hc.ne
    · exact hd.ne
    · exact hc.ne
    · exact hd.ne
  constructor
  · rintro (_ | j) e he
    · rcases (hdaemon e).mp he with he | he
      · exact Nat.lt_succ_of_lt (h.bounded _ e he)
      · exact he ▸ Nat.lt_succ_self _
    · exact Nat.lt_succ_of_lt (h.bounded (some j) e he)
  · intro i p hp
    obtain ⟨hc, hd⟩ := h.numbers i p hp
    exact ⟨Nat.lt_succ_of_lt hc, Nat.lt_succ_of_lt hd⟩
  · rintro i p hp e he (_ | j)
    · exact iff_of_true ((hdaemon e).mpr (.inl ((h.daemons i p hp e he none).mpr (.inl rfl)))) (.inl rfl)
    · exact h.daemons i p hp e he (some j)
  · rintro i p hp e he (_ | j)
    · refine iff_of_false (fun hq => ?_) nofun
      rcases (hdaemon e).mp hq with hq | hq
      · cases ((h.childs i p hp e he none).mp hq).1
      · exact hsame p e (.inr (.inr he)) (h.numbers i p hp) hq
    · exact h.childs i p hp e he (some j)

/-- The socket that the children close is not one of the pipes. -/
def Good (dSocket : ℤ) (w : World) : Prop := w.Inherited ∧ w.daemon dSocket = some .other

variable (dSocket : ℤ) {w : World}

theorem startChildProcess_good (h : Good dSocket w) (p : ChildProcess) (c : ChildName)
    (extraArgs : List String) :
    (startChildProcess dSocket p c extraArgs).Yields pipesExec (fun _ w' => Good dSocket w') w := by
  obtain ⟨hinherited, hsocket⟩ := h
  intro choice₁
  rcases hpipe : choice₁.env .pipe with _ | ⟨childRead, childWrite⟩
  · simp only [pipesExec, hpipe]
    exact ⟨hinherited, hsocket⟩
  by_cases hfree : w.daemon.Free childRead ∧ w.daemon.Free childWrite ∧ childRead ≠ childWrite
  swap
  · simp only [pipesExec, hpipe, if_neg hfree]
    exact ⟨hinherited, hsocket⟩
  simp only [pipesExec, hpipe, if_pos hfree]
  obtain ⟨hcr, hcw, hchild⟩ := hfree
  have hlook := lookup_withPipe (n := w.made) hcr hcw hchild
  have hsocket₁ := (hlook dSocket .other).mpr (.inr (.inr hsocket))
  intro choice₂
  rcases hpipe₂ : choice₂.env .pipe with _ | ⟨parentRead, parentWrite⟩
  · simp only [pipesExec, hpipe₂]
    exact ⟨hinherited.pipe hcr hcw hchild, hsocket₁⟩
  by_cases hfree₂ : (w.daemon.withPipe w.made childRead childWrite).Free parentRead ∧
      (w.daemon.withPipe w.made childRead childWrite).Free parentWrite ∧ parentRead ≠ parentWrite
  swap
  · simp only [pipesExec, hpipe₂, if_neg hfree₂]
    exact ⟨hinherited.pipe hcr hcw hchild, hsocket₁⟩
  simp only [pipesExec, hpipe₂, if_pos hfree₂]
  obtain ⟨hpr, hpw, hparent⟩ := hfree₂
  have hlook₂ := lookup_withPipe (n := w.made + 1) hpr hpw hparent
  have hcr₁ := (hlook childRead _).mpr (.inl ⟨rfl, rfl⟩)
  intro choice₃
  rcases hfork : choice₃.env (.fork c [dSocket, parentWrite, childRead]
    (childArgs c parentRead childWrite extraArgs)) with _ | pid
  · simp only [pipesExec, hfork]
    exact fun _ => trivial
  simp only [pipesExec, hfork]
  intro _ _
  refine ⟨World.Forked.inherited ⟨rfl, rfl, rfl, ?_, ?_, fun e => ?_, fun e => ?_⟩ hinherited, ?_⟩
  · simp [Table.pipeAt, (hlook₂ parentWrite _).mpr (.inr (.inl ⟨rfl, rfl⟩))]
  · simp [Table.pipeAt, (hlook₂ childRead _).mpr (.inr (.inr hcr₁))]
  · simp only [World.Holds, World.tableOf, Option.some.injEq, exists_eq_left', pipesExec]
    exact daemon_ends hcr hcw hchild hpr hpw hparent e
  · simp only [World.Holds, World.tableOf, Option.some.injEq, exists_eq_left']
    exact child_ends hcr hcw hchild hpr hpw hparent hsocket e
  · simp only [pipesExec, lookup_close]
    exact ⟨hcw.ne hsocket, hpr.ne hsocket₁, (hlook₂ dSocket .other).mpr (.inr (.inr hsocket₁))⟩

end Spawn

section Steps

variable (dSocket : ℤ) {w : World} (d : DaemonState)

theorem good_exit (h : Good dSocket w) (exits : ℤ → Bool) : Good dSocket (w.exit exits) :=
  ⟨h.1.exit exits, h.2⟩

theorem talks_good {site : Site} {pipes : IpcPipes} (choice : Choice) (op : DaemonSys) (w : World)
    (hop : Talks site pipes op) (h : Good dSocket w) : Good dSocket (pipesExec choice op w).2 := by
  cases op <;> first | exact hop.elim | exact good_exit dSocket h choice.exits

theorem childSpawn_good (h : Good dSocket w) (c : ChildName) (extraArgs : List String) :
    (childSpawn dSocket d c extraArgs).Yields pipesExec (fun _ w' => Good dSocket w') w := by
  refine (startChildProcess_good dSocket h (d.child c) c extraArgs).bind fun p w₁ h₁ => ?_
  refine ((acknowledgeClient_talks (d.setChild c p) c).yields (talks_good dSocket) h₁).bind ?_
  exact fun _ _ h₂ => h₂.2

theorem restartChild_good (h : Good dSocket w) (c : ChildName) :
    (restartChild dSocket d c (postProcLaunch c)).Yields pipesExec (fun _ w' => Good dSocket w') w := by
  unfold restartChild
  dsimp only
  split_ifs
  · exact fun _ => trivial
  refine (childSpawn_good dSocket _ h c []).bind fun d₁ w₁ h₁ => ?_
  cases c with
  | fm =>
    exact ((reportmanFmGetTimers_talks d₁).yields (talks_good dSocket) h₁).bind fun _ _ h₂ => h₂.2
  | mon => exact h₁

theorem healthProbeChildProcess_good (h : Good dSocket w) (c : ChildName) :
    (healthProbeChildProcess dSocket d c (postProcLaunch c)).Yields pipesExec
      (fun _ w' => Good dSocket w') w := by
  rw [healthProbeChildProcess_eq]
  intro choice
  change Program.Yields pipesExec _ (if choice.env (.kill c (d.child c).pid 0) = true then _ else _)
    (w.exit choice.exits)
  have h₁ := good_exit dSocket h choice.exits
  split_ifs
  · refine ((answersProbe_talks _ c).yields (talks_good dSocket) h₁).bind fun answered w₂ h₂ => ?_
    split_ifs
    · exact h₂.2
    · intro choice₁ choice₂
      refine restartChild_good dSocket _ ?_ c
      exact good_exit dSocket (good_exit dSocket h₂.2 _) _
  · exact restartChild_good dSocket _ h₁ c

theorem spawns_good (h : Good dSocket w) (steps : List Step) :
    (spawns dSocket steps d).Yields pipesExec (fun _ w' => Good dSocket w') w := by
  induction steps generalizing d w with
  | nil => exact h
  | cons step steps ih =>
    cases step with
    | spawn c extraArgs => exact (childSpawn_good dSocket d h c extraArgs).bind fun d₁ w₁ h₁ => ih d₁ h₁
    | probe c => exact (healthProbeChildProcess_good dSocket d h c).bind fun d₁ w₁ h₁ => ih d₁ h₁

theorem good_start {T : Table} (hT : ∀ fd e, T fd ≠ some (.pipeEnd e)) (hsocket : T dSocket = some .other) :
    Good dSocket ⟨T, 0, []⟩ := by
  have hnone : ∀ q e, ¬ (⟨T, 0, []⟩ : World).Holds q e := by
    rintro (_ | j) e ⟨T', hT', fd, hfd⟩
    · cases hT'
      exact hT fd e hfd
    · cases hT'
  refine ⟨⟨fun q e he => absurd he (hnone q e), ?_, ?_, ?_⟩, hsocket⟩
  · rintro i p ⟨⟩
  · rintro i p ⟨⟩
  · rintro i p ⟨⟩

/-- The ends are exclusive, and exits are seen, exactly as long as every child but the first has
exited. -/
theorem spawns_exclusive_iff (T : Table) (hT : ∀ fd e, T fd ≠ some (.pipeEnd e))
    (hsocket : T dSocket = some .other) (steps : List Step) (sched : ℕ → Choice) {d' : DaemonState}
    (hreturns : (run pipesExec sched (spawns dSocket steps d) 0 ⟨T, 0, []⟩).result = some d') :
    ((run pipesExec sched (spawns dSocket steps d) 0 ⟨T, 0, []⟩).state.Exclusive ↔
      ∀ j, 0 < j → ¬ (run pipesExec sched (spawns dSocket steps d) 0 ⟨T, 0, []⟩).state.Running (some j)) ∧
    ((run pipesExec sched (spawns dSocket steps d) 0 ⟨T, 0, []⟩).state.SeesExits ↔
      ∀ j, 0 < j → ¬ (run pipesExec sched (spawns dSocket steps d) 0 ⟨T, 0, []⟩).state.Running (some j)) := by
  have hgood := (spawns_good dSocket d (good_start dSocket hT hsocket) steps).run sched hreturns
  exact ⟨hgood.1.exclusive_iff, hgood.1.seesExits_iff⟩

def tableSample : Table := fun fd => if 0 ≤ fd ∧ fd ≤ 4 then some .other else none

theorem tableSample_ends (fd : ℤ) (e : PipeEnd) : tableSample fd ≠ some (.pipeEnd e) := by
  unfold tableSample
  split_ifs <;> exact nofun

def schedSample (t : ℕ) : Choice := ⟨answering ackBytes 0 t, fun _ => false⟩

/-- The first child alone. -/
theorem spawns_exclusive_iff_first :
    (run pipesExec schedSample (spawns 4 [.spawn .fm []] (initially fun _ => 3)) 0
      ⟨tableSample, 0, []⟩).state.Exclusive :=
  (spawns_exclusive_iff 4 (initially fun _ => 3) tableSample tableSample_ends rfl [.spawn .fm []]
    schedSample rfl).1.mpr fun _ hj hrunning => absurd (running_lt hrunning) (not_lt.mpr hj)

/-- `reportman_mon` has the daemon's ends of the pipes of `reportman_fm`. -/
theorem not_exclusive_second : ∃ d',
    (run pipesExec schedSample (spawns 4 [.spawn .fm [], .spawn .mon []] (initially fun _ => 3)) 0
      ⟨tableSample, 0, []⟩).result = some d' ∧
    ¬ (run pipesExec schedSample (spawns 4 [.spawn .fm [], .spawn .mon []] (initially fun _ => 3)) 0
      ⟨tableSample, 0, []⟩).state.Exclusive := by
  refine ⟨_, rfl, fun hexclusive => ?_⟩
  have hgood := (spawns_good 4 (initially fun _ => 3) (good_start 4 tableSample_ends rfl)
    [.spawn .fm [], .spawn .mon []]).run schedSample (t := 0) rfl
  exact hgood.1.exclusive_iff.mp hexclusive 1 Nat.one_pos nofun

end Steps

end Reportman.PipeEnds
