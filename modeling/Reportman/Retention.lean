import Mathlib
import Reportman.Timers

/-!
# What a backup has written stays

The scheduled runs form a pipeline: backups bring reports to the dashboard, transfers bring the
dashboard to the backup directory. Over any sequence of such runs, one after the other, and of
changes below reports in between, the last content a backup brought to a path is still on the
dashboard, or the path is no file there any more and the content is in the backup directory.
-/
namespace Reportman.Retention
open Resumable FileSystem TransferFile TransferDirectory OverlayRun Directories Timers Overlay

/-- For each path, what the most recent backup that wrote it has written. -/
abbrev Record := List Name → Option Bytes

/-- A backup run has written `p` if its source had a file there when it began and the dashboard has
that content when it ends. -/
def recorded (w : Record) (before after : Contents) : Record := fun p =>
  match before .reports p with
  | some (.file c) => if after .dashboard p = some (.file c) then some c else w p
  | _ => w p

section Pipeline

variable (place : Directory → Loc) (sha256 : Bytes → Bytes)

/-- The state that a scheduled run leaves. -/
def afterRun (method : TransferMethod) (stack fuel : ℕ) (sched : ℕ → Choice) (fs : FS) : FS :=
  (run exec sched (timerRun scheduled stack sha256 fuel method) 0 fs).state

/-- One step of the history of the directories. -/
inductive Step : FS × Record → FS × Record → Prop
  | backup (fs : FS) (w : Record) (stack fuel : ℕ) (sched : ℕ → Choice)
      (hstack : fs.bound ≤ stack) (hfuel : fs.bound ≤ fuel) (hs : ∀ t, (sched t).clean) :
      Step (fs, w) (afterRun sha256 .backup stack fuel sched fs,
        recorded w (contents place fs) (contents place (afterRun sha256 .backup stack fuel sched fs)))
  | transfer (fs : FS) (w : Record) (stack fuel : ℕ) (sched : ℕ → Choice)
      (hstack : fs.bound ≤ stack) (hfuel : fs.bound ≤ fuel) (hs : ∀ t, (sched t).clean) :
      Step (fs, w) (afterRun sha256 .transfer stack fuel sched fs, w)
  | user (fs fs' : FS) (w : Record) (hplain : Plain place fs')
      (hsame : ∀ d, d ≠ .reports → contents place fs' d = contents place fs d) :
      Step (fs, w) (fs', w)

end Pipeline

/-- The invariant: the content is on the dashboard, or it has been moved on. -/
def Retained (X : Contents) (w : Record) : Prop :=
  ∀ p c, w p = some c → X .dashboard p = some (.file c) ∨
    (isFile (X .dashboard p) = false ∧ X .backup p = some (.file c))

section Trees

variable {S X : Tree Name Bytes} {p : List Name} {c : Bytes} {sha256 : Bytes → Bytes}

/-- A file is only replaced by a file of the source. -/
theorem overlay_keeps_file (h : X p = some (.file c))
    (hS : isFile (S p) = false) : overlay S X p = some (.file c) := by
  rcases hs : S p with _ | _ | d
  · rw [overlay_none hs, h]
  · rw [overlay_dir hs]
    simp [h]
  · rw [hs] at hS
    cases hS

/-- Nothing becomes a file that the source has not as one. -/
theorem isFile_overlay (hS : isFile (S p) = false) : isFile (overlay S X p) = isFile (X p) := by
  rcases hs : S p with _ | _ | d
  · rw [overlay_none hs]
  · rw [overlay_dir hs]
    split_ifs with h
    · rw [Bool.and_eq_true, Option.isNone_iff_eq_none] at h
      simp [h.2, isFile]
    · rfl
  · rw [hs] at hS
    cases hS

end Trees

section Invariant

variable {X : Contents} {w : Record} {sha256 : Bytes → Bytes}

theorem Retained.backup (h : Retained X w) :
    let X' := effect sha256 .reports .dashboard .backup X
    Retained X' (recorded w X X') := by
  intro X' p c hw
  have hdash : X' .dashboard = overlay (X .reports) (X .dashboard) := by
    simp [X', effect]
  have hback : X' .backup = X .backup := by
    simp [X', effect, Function.update]
  rw [hdash, hback]
  unfold recorded at hw
  rw [hdash] at hw
  rcases hr : X .reports p with _ | _ | d
  · rw [hr] at hw
    rw [overlay_none hr]
    exact h p c hw
  · -- a directory of the source touches no file
    rw [hr] at hw
    rw [isFile_overlay (by simp [hr, isFile])]
    exact (h p c hw).imp_left fun hf => overlay_keeps_file hf (by simp [hr, isFile])
  · rw [hr] at hw
    dsimp only at hw
    split_ifs at hw with hwrote
    · cases hw
      exact .inl hwrote
    · -- not written: the dashboard has a directory there, or a file above
      have hno : lands (X .dashboard) p = false := by
        by_contra hl
        rw [Bool.not_eq_false] at hl
        exact hwrote (by rw [overlay_file hr, if_pos hl])
      rw [overlay_file hr, if_neg (by simp [hno])]
      exact h p c hw

theorem Retained.transfer (h : Retained X w) :
    Retained (effect sha256 .dashboard .backup .transfer X) w := by
  intro p c hw
  have hdash : effect sha256 .dashboard .backup .transfer X .dashboard =
      drained (gone sha256) (X .dashboard) (X .backup) := by
    simp [effect, Function.update, leftover]
  have hback : effect sha256 .dashboard .backup .transfer X .backup =
      overlay (X .dashboard) (X .backup) := by
    simp [effect]
  rw [hdash, hback]
  rcases h p c hw with hf | ⟨hnot, hb⟩
  · -- on the dashboard: it is moved on if it lands, and otherwise it stays
    rw [drained_file hf]
    by_cases hmove : (gone sha256 c && lands (X .backup) p) = true
    · rw [if_pos hmove]
      rw [Bool.and_eq_true] at hmove
      exact .inr ⟨rfl, by rw [overlay_file hf, if_pos hmove.2]⟩
    · exact .inl (if_neg hmove)
  · -- in the backup directory: only a file of the dashboard could replace it
    rw [drained_of_not_file hnot]
    exact .inr ⟨hnot, overlay_keeps_file hb hnot⟩

end Invariant

section Runs

variable {place : Directory → Loc} {sha256 : Bytes → Bytes}

theorem Step.retained {s s' : FS × Record} (hstep : Step place sha256 s s') (hp : Plain place s.1)
    (h : Retained (contents place s.1) s.2) :
    Plain place s'.1 ∧ Retained (contents place s'.1) s'.2 := by
  cases hstep with
  | backup fs w stack fuel sched hstack hfuel hs =>
    obtain ⟨-, hplain, heffect⟩ := timerRun_run hp hstack hfuel .backup sched hs
    refine ⟨hplain, ?_⟩
    dsimp only [afterRun] at h heffect ⊢
    rw [heffect]
    exact h.backup
  | transfer fs w stack fuel sched hstack hfuel hs =>
    obtain ⟨-, hplain, heffect⟩ := timerRun_run hp hstack hfuel .transfer sched hs
    refine ⟨hplain, ?_⟩
    dsimp only [afterRun] at h heffect ⊢
    rw [heffect]
    exact h.transfer
  | user fs fs' w hplain hsame =>
    refine ⟨hplain, fun p c hw => ?_⟩
    dsimp only at h ⊢
    rw [hsame .dashboard (by decide), hsame .backup (by decide)]
    exact h p c hw

/-- Whatever a backup last wrote at a path is still at that path of the dashboard or of the backup
directory, in every state that any sequence of steps leads to. -/
theorem written_retained {fs fs' : FS} {w : Record} (hp : Plain place fs)
    (hsteps : Relation.ReflTransGen (Step place sha256) (fs, fun _ => none) (fs', w)) (p : List Name)
    (c : Bytes) (hw : w p = some c) :
    contents place fs' .dashboard p = some (.file c) ∨ contents place fs' .backup p = some (.file c) := by
  have hinv : ∀ s, Relation.ReflTransGen (Step place sha256) (fs, fun _ => none) s →
      Plain place s.1 ∧ Retained (contents place s.1) s.2 := by
    intro s hs
    induction hs with
    | refl => exact ⟨hp, fun p c hw => by cases hw⟩
    | tail _ hstep ih => exact hstep.retained ih.1 ih.2
  exact ((hinv _ hsteps).2 p c hw).imp_right And.right

end Runs

/-- The sample after a backup. -/
def backedUp : FS := afterRun id .backup sample.bound sample.bound (fun _ => Choice.plain) sample

/-- … and after a transfer. -/
def moved : FS := afterRun id .transfer backedUp.bound backedUp.bound (fun _ => Choice.plain) backedUp

theorem backedUp_written : recorded (fun _ => none) (contents standard sample)
    (contents standard backedUp) [bytes "a"] = some [1] := by decide +kernel

theorem written_retained_moved :
    contents standard moved .dashboard [bytes "a"] = some (.file [1]) ∨
      contents standard moved .backup [bytes "a"] = some (.file [1]) := by
  have hbackup : Step standard id (sample, fun _ => none) (backedUp,
      recorded (fun _ => none) (contents standard sample) (contents standard backedUp)) :=
    Step.backup sample _ sample.bound sample.bound _ le_rfl le_rfl fun _ => rfl
  have htransfer : Step standard id (backedUp, recorded (fun _ => none) (contents standard sample)
      (contents standard backedUp)) (moved,
      recorded (fun _ => none) (contents standard sample) (contents standard backedUp)) :=
    Step.transfer backedUp _ backedUp.bound backedUp.bound _ le_rfl le_rfl fun _ => rfl
  exact written_retained sample_plain ((Relation.ReflTransGen.single hbackup).tail htransfer) _ _
    backedUp_written

end Reportman.Retention
