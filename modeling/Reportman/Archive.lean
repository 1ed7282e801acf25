import Mathlib
import Reportman.Retention
import Reportman.Versions

/-!
# What the pipeline keeps

Seen as a whole the scheduled runs keep versions of the reports. What a backup has brought to the dashboard is
stored, and a transfer archives it. Whether a version is still on the dashboard or in the backup directory already
does not matter to a reader who looks on the dashboard first.
-/
namespace Reportman.Archive
open Resumable FileSystem TransferFile TransferDirectory OverlayRun Directories Timers Overlay Retention
open Versions (Event Store backups newest)

section Pipeline

variable (place : Directory → Loc) (sha256 : Bytes → Bytes)

/-- The dashboard, and behind it the backup directory. -/
def view (X : Contents) : Tree Name Bytes := fun p => (X .dashboard p).or (X .backup p)

def store (X : Contents) : Store (List Name) (Entry Bytes) := ⟨X .reports, view X, X .backup⟩

/-- Nothing is a file in one of the directories and a directory in another. -/
def Agrees (X : Contents) : Prop := ∀ d e q, isFile (X d q) = true → isDir (X e q) = false

inductive Step : FS → Event (List Name) (Entry Bytes) → FS → Prop
  | backup (fs : FS) (stack fuel : ℕ) (sched : ℕ → Choice) (hstack : fs.bound ≤ stack) (hfuel : fs.bound ≤ fuel)
      (hs : ∀ t, (sched t).clean) : Step fs .backup (afterRun sha256 .backup stack fuel sched fs)
  | transfer (fs : FS) (stack fuel : ℕ) (sched : ℕ → Choice) (hstack : fs.bound ≤ stack) (hfuel : fs.bound ≤ fuel)
      (hs : ∀ t, (sched t).clean) : Step fs .transfer (afterRun sha256 .transfer stack fuel sched fs)
  | user (fs fs' : FS) (hplain : Plain place fs') (hagrees : Agrees (contents place fs'))
      (hsame : ∀ d, d ≠ .reports → contents place fs' d = contents place fs d) :
      Step fs (.user (contents place fs' .reports)) fs'

inductive History : FS → List (Event (List Name) (Entry Bytes)) → FS → Prop
  | nil (fs : FS) : History fs [] fs
  | cons {fs fs₁ fs' : FS} {event : Event (List Name) (Entry Bytes)} {events : List (Event (List Name) (Entry Bytes))}
      (hstep : Step place sha256 fs event fs₁) (hrest : History fs₁ events fs') : History fs (event :: events) fs'

end Pipeline

section Trees

variable {S X : Tree Name Bytes} {p : List Name} {sha256 : Bytes → Bytes}

/-- Without a conflict the source simply comes first. -/
theorem overlay_or (hS : Closed S) (hfile : ∀ q, isFile (S q) = true → isDir (X q) = false)
    (hdir : ∀ q, isFile (X q) = true → isDir (S q) = false) : overlay S X = fun p => (S p).or (X p) := by
  funext p
  refine (overlay_eq hS).2 fun q _ hconflict => ?_
  rcases hconflict with ⟨hs, hx⟩ | ⟨hs, hx⟩
  · rw [hfile q hs] at hx
    cases hx
  · rw [hdir q hx] at hs
    cases hs

theorem isFile_or {x y : Option (Entry Bytes)} (h : isFile (x.or y) = true) : isFile x = true ∨ isFile y = true := by
  cases x with
  | none => exact .inr h
  | some e => exact .inl h

theorem isDir_or {x y : Option (Entry Bytes)} (hx : isDir x = false) (hy : isDir y = false) :
    isDir (x.or y) = false := by
  cases x with
  | none => exact hy
  | some e => exact hx

/-- What a transfer leaves behind was there before. -/
theorem drained_cases (gone : Bytes → Bool) (S X : Tree Name Bytes) (p : List Name) :
    drained gone S X p = S p ∨ drained gone S X p = none := by
  unfold drained
  rcases S p with _ | _ | c
  · exact .inl rfl
  · exact .inl rfl
  · dsimp only
    split_ifs
    · exact .inr rfl
    · exact .inl rfl

end Trees

section Refinement

variable {place : Directory → Loc} {sha256 : Bytes → Bytes} {X : Contents} {fs fs' : FS}

theorem Agrees.overlay_or (h : Agrees X) {source destination : Directory} (hsource : Closed (X source)) :
    overlay (X source) (X destination) = fun p => (X source p).or (X destination p) :=
  Archive.overlay_or hsource (h source destination) (h destination source)

theorem backup_effect (h : Agrees X) (hclosed : Closed (X .reports)) :
    let X' := effect sha256 .reports .dashboard .backup X
    Agrees X' ∧ store X' = (store X).step .backup := by
  intro X'
  have hreports : X' .reports = X .reports := by simp [X', effect, leftover]
  have hdash : X' .dashboard = fun p => (X .reports p).or (X .dashboard p) := by
    rw [← h.overlay_or hclosed]
    simp [X', effect]
  have hbackup : X' .backup = X .backup := by simp [X', effect, Function.update]
  have hfile : ∀ d q, isFile (X' d q) = true → ∃ d', isFile (X d' q) = true := by
    intro d q hq
    cases d with
    | reports => exact ⟨.reports, hreports ▸ hq⟩
    | dashboard =>
      rw [hdash] at hq
      exact (isFile_or hq).elim (⟨_, ·⟩) (⟨_, ·⟩)
    | backup => exact ⟨.backup, hbackup ▸ hq⟩
  refine ⟨fun d e q hq => ?_, ?_⟩
  · obtain ⟨d', hd'⟩ := hfile d q hq
    cases e with
    | reports => exact hreports ▸ h d' .reports q hd'
    | dashboard =>
      rw [hdash]
      exact isDir_or (h d' .reports q hd') (h d' .dashboard q hd')
    | backup => exact hbackup ▸ h d' .backup q hd'
  · have hview : view X' = fun p => (X .reports p).or (view X p) := by
      funext p
      rw [view, hdash, hbackup]
      exact Option.or_assoc
    rw [store, hreports, hview, hbackup]
    rfl

theorem transfer_effect (h : Agrees X) (hclosed : Closed (X .dashboard)) :
    let X' := effect sha256 .dashboard .backup .transfer X
    Agrees X' ∧ store X' = (store X).step .transfer := by
  intro X'
  have hreports : X' .reports = X .reports := by simp [X', effect, Function.update]
  have hdash : ∀ p, X' .dashboard p = X .dashboard p ∨ X' .dashboard p = none := by
    intro p
    have hdrained : X' .dashboard = drained (gone sha256) (X .dashboard) (X .backup) := by
      simp [X', effect, Function.update, leftover]
    rw [hdrained]
    exact drained_cases ..
  have hbackup : X' .backup = view X := by
    have hoverlay : X' .backup = overlay (X .dashboard) (X .backup) := by simp [X', effect]
    rw [hoverlay, h.overlay_or hclosed]
    rfl
  have hfile : ∀ d q, isFile (X' d q) = true → ∃ d', isFile (X d' q) = true := by
    intro d q hq
    cases d with
    | reports => exact ⟨.reports, hreports ▸ hq⟩
    | dashboard =>
      rcases hdash q with hsame | hnone
      · exact ⟨.dashboard, hsame ▸ hq⟩
      · rw [hnone] at hq
        cases hq
    | backup =>
      rw [hbackup] at hq
      exact (isFile_or hq).elim (⟨_, ·⟩) (⟨_, ·⟩)
  refine ⟨fun d e q hq => ?_, ?_⟩
  · obtain ⟨d', hd'⟩ := hfile d q hq
    cases e with
    | reports => exact hreports ▸ h d' .reports q hd'
    | dashboard =>
      rcases hdash q with hsame | hnone
      · exact hsame ▸ h d' .dashboard q hd'
      · rw [hnone]
        rfl
    | backup =>
      rw [hbackup]
      exact isDir_or (h d' .dashboard q hd') (h d' .backup q hd')
  · -- what is left on the dashboard is in the backup directory as well
    have hview : view X' = view X := by
      funext p
      rw [view, hbackup]
      rcases hdash p with hsame | hnone
      · rw [hsame, view]
        cases X .dashboard p <;> rfl
      · rw [hnone]
        rfl
    rw [store, hreports, hview, hbackup]
    rfl

/-- Every step of the directories is a step of the store. -/
theorem Step.refines {event : Event (List Name) (Entry Bytes)} (hp : Plain place fs) (ha : Agrees (contents place fs))
    (hstep : Step place sha256 fs event fs') :
    Plain place fs' ∧ Agrees (contents place fs') ∧
      store (contents place fs') = (store (contents place fs)).step event := by
  cases hstep with
  | backup stack fuel sched hstack hfuel hs =>
    have hrun : Plain place (afterRun sha256 .backup stack fuel sched fs) ∧
        contents place (afterRun sha256 .backup stack fuel sched fs) =
          effect sha256 .reports .dashboard .backup (contents place fs) :=
      (timerRun_run hp hstack hfuel .backup sched hs).2
    rw [hrun.2]
    exact ⟨hrun.1, backup_effect ha (fs.tree_closed (place .reports))⟩
  | transfer stack fuel sched hstack hfuel hs =>
    have hrun : Plain place (afterRun sha256 .transfer stack fuel sched fs) ∧
        contents place (afterRun sha256 .transfer stack fuel sched fs) =
          effect sha256 .dashboard .backup .transfer (contents place fs) :=
      (timerRun_run hp hstack hfuel .transfer sched hs).2
    rw [hrun.2]
    exact ⟨hrun.1, transfer_effect ha (fs.tree_closed (place .dashboard))⟩
  | user _ hplain hagrees hsame =>
    refine ⟨hplain, hagrees, ?_⟩
    have hview : view (contents place fs') = view (contents place fs) := by
      funext p
      rw [view, hsame .dashboard (by decide), hsame .backup (by decide)]
      rfl
    rw [store, hview, hsame .backup (by decide)]
    rfl

theorem History.refines {events : List (Event (List Name) (Entry Bytes))} (hp : Plain place fs)
    (ha : Agrees (contents place fs)) (h : History place sha256 fs events fs') :
    store (contents place fs') = (store (contents place fs)).run events := by
  induction h with
  | nil fs => rfl
  | cons hstep hrest ih =>
    obtain ⟨hplain, hagrees, hstore⟩ := hstep.refines hp ha
    rw [ih hplain hagrees, hstore]
    rfl

/-- In the backup directory is, after any sequence of scheduled runs and of changes to the reports, the newest
version of each report that a backup has found before the last transfer. Of what no backup has found there is
what was on the dashboard, or else in the backup directory, at first. -/
theorem backup_newest {before after : List (Event (List Name) (Entry Bytes))} (hp : Plain place fs)
    (ha : Agrees (contents place fs)) (hafter : .transfer ∉ after)
    (h : History place sha256 fs (before ++ .transfer :: after) fs') (p : List Name) :
    contents place fs' .backup p =
      newest (backups (contents place fs .reports) before) (view (contents place fs)) p := by
  have harchived := congrArg (fun A => A.archived p) (h.refines hp ha)
  exact harchived.trans (Versions.run_transfer_archived hafter p)

theorem sample_single {l : Loc} {d : Directory} (hl : sample.node l ≠ none) (h : l = bytes "a" :: standard d) :
    d = .reports :=
  sample_forall (P := fun l => ∀ d, l = bytes "a" :: standard d → d = .reports) (by decide) hl d h

theorem sample_agrees : Agrees (contents standard sample) := by
  intro d e q hq
  by_contra hdir
  rw [Bool.not_eq_false, isDir_iff] at hdir
  obtain ⟨c, hc⟩ := isFile_iff.1 hq
  obtain ⟨i, hfile, -⟩ := sample.node_of_entry_file hc
  have hname : q ++ standard d = [bytes "a"] ++ standard .reports := by
    refine (sample_node (by simp [hfile])).resolve_left ?_
    simp [hfile]
  obtain ⟨rfl, -⟩ := List.append_inj' hname (by cases d <;> rfl)
  have hdir' := sample.entry_dir.1 hdir
  -- the report is the only entry of its name
  obtain rfl := sample_single (Option.ne_none_iff_exists'.2 ⟨_, hfile⟩) rfl
  obtain rfl := sample_single (Option.ne_none_iff_exists'.2 ⟨_, hdir'⟩) rfl
  rw [hfile] at hdir'
  cases hdir'

theorem backup_newest_moved : contents standard moved .backup [bytes "a"] = some (.file [1]) := by
  have hbackup : Step standard id sample .backup backedUp :=
    .backup sample sample.bound sample.bound _ le_rfl le_rfl fun _ => rfl
  have htransfer : Step standard id backedUp .transfer moved :=
    .transfer backedUp backedUp.bound backedUp.bound _ le_rfl le_rfl fun _ => rfl
  have hrun : History standard id sample ([.backup] ++ .transfer :: []) moved :=
    .cons hbackup (.cons htransfer (.nil _))
  have hnewest := backup_newest sample_plain sample_agrees List.not_mem_nil hrun [bytes "a"]
  exact hnewest.trans (by decide +kernel)

end Refinement

end Reportman.Archive
