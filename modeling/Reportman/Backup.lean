import Mathlib
import Reportman.Directories

/-!
# A backup is an overlay

`transfer_directory(source, destination, BACKUP)` over two disjoint trees, when no call fails: the
source stays, the destination becomes the source laid over it, in whatever order the directories
are enumerated.
-/
namespace Reportman.Backup
open Resumable FileSystem TransferFile TransferDirectory OverlayRun Directories Overlay

/-- The backup returns, the source tree is unchanged and the destination tree is the overlay; no
other order of enumeration gives another tree. -/
theorem transferDirectory_backup_overlay (sha256 : Bytes → Bytes) (source destination : Path)
    (ls ld : Loc) (fs : FS) (h : Ready ⟨source, destination, .backup, ls, ld⟩ fs) (stack fuel : ℕ)
    (hstack : fs.bound ≤ stack) (hfuel : fs.bound ≤ fuel) (sched : ℕ → Choice)
    (hsched : ∀ t, (sched t).clean) :
    let backup := transferDirectory (systemCalls sha256 fuel) stack source destination .backup
    let fs' := (run exec sched backup 0 fs).state
    (run exec sched backup 0 fs).result ≠ none ∧
      fs'.tree ls = fs.tree ls ∧
      fs'.tree ld = overlay (fs.tree ls) (fs.tree ld) ∧
      ∀ sched' : ℕ → Choice, (∀ t, (sched' t).clean) →
        (run exec sched' backup 0 fs).state.tree ld = fs'.tree ld := by
  intro backup fs'
  have hend : ∀ sched' : ℕ → Choice, (∀ t, (sched' t).clean) →
      Terms.Returns (fun _ => Progress sha256 ⟨source, destination, .backup, ls, ld⟩ fs Set.univ)
        (run exec sched' backup 0 fs).result (run exec sched' backup 0 fs).state :=
    fun sched' hs => ((run_meets h hstack hfuel).run sched' hs 0).1
  have hdest : ∀ sched' : ℕ → Choice, (∀ t, (sched' t).clean) →
      (run exec sched' backup 0 fs).state.tree ld = overlay (fs.tree ls) (fs.tree ld) := by
    intro sched' hs
    exact (hend sched' hs).holds.dest_univ
  refine ⟨(hend sched hsched).ne_none, ?_, hdest sched hsched, ?_⟩
  · exact (hend sched hsched).holds.source_univ
  · intro sched' hs
    rw [hdest sched' hs, hdest sched hsched]

theorem transferDirectory_backup_overlay_sample :
    let backup := transferDirectory (systemCalls id sample.bound) sample.bound
      (Directory.path .reports) (Directory.path .dashboard) .backup
    let fs' := (run exec (fun _ => Choice.plain) backup 0 sample).state
    (run exec (fun _ => Choice.plain) backup 0 sample).result ≠ none ∧
      fs'.tree (standard .reports) = sample.tree (standard .reports) ∧
      fs'.tree (standard .dashboard) =
        overlay (sample.tree (standard .reports)) (sample.tree (standard .dashboard)) ∧
      ∀ sched' : ℕ → Choice, (∀ t, (sched' t).clean) →
        (run exec sched' backup 0 sample).state.tree (standard .dashboard) =
          fs'.tree (standard .dashboard) :=
  transferDirectory_backup_overlay id _ _ _ _ sample
    (sample_plain.ready .reports .dashboard (by decide) .backup) _ _
    le_rfl le_rfl _ fun _ => rfl

end Reportman.Backup
