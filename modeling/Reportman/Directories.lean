import Mathlib
import Reportman.OverlayRun

/-!
# The three directories

`reportman.h` names the directories that every run works on. `Plain` is the state the daemon
expects them in: three separate trees of regular files and directories, all of whose paths fit the
path buffers below each of the three roots. A fault-free run keeps them plain, and its effect on
their contents is a function of these contents alone.
-/
namespace Reportman.Directories
open Resumable FileSystem TransferFile TransferDirectory OverlayRun Overlay

inductive Directory
  | reports
  | dashboard
  | backup
  deriving DecidableEq, Repr

instance : Fintype Directory :=
  ⟨{.reports, .dashboard, .backup}, by intro d; cases d <;> decide⟩

/-- `R_REPORTS_DIRECTORY`, `R_DASHBOARD_DIRECTORY` and `R_BACKUP_DIRECTORY`. -/
def Directory.path : Directory → Path
  | .reports => bytes "/srv/reportman/reports"
  | .dashboard => bytes "/srv/reportman/dashboard"
  | .backup => bytes "/srv/reportman/backup"

/-- What the three directories hold. -/
abbrev Contents := Directory → Tree Name Bytes

variable (place : Directory → Loc)

def contents (fs : FS) : Contents := fun d => fs.tree (place d)

/-- In one of the three directories. -/
def Inside (l : Loc) : Prop := ∃ d, place d <:+ l

structure Plain (fs : FS) : Prop where
  resolves : ∀ d, fs.resolve d.path = some (place d)
  isDir : ∀ d, fs.node (place d) = some .dir
  apart : ∀ d e, place d <:+ place e → d = e
  linkFree : LinkFree (Inside place) fs
  sole : Sole (Inside place) (Inside place) fs
  short : ∀ d p, fs.node (p ++ place d) ≠ none → ∀ e : Directory,
    (pathOf e.path p).length < pathSize

/-- A run between two of the directories. -/
def runOf (source destination : Directory) (method : TransferMethod) : Run :=
  ⟨source.path, destination.path, method, place source, place destination⟩

/-- What a fault-free run does to the contents. -/
def effect (sha256 : Bytes → Bytes) (source destination : Directory) (method : TransferMethod)
    (X : Contents) : Contents :=
  Function.update (Function.update X source (leftover sha256 method (X source) (X destination)))
    destination (overlay (X source) (X destination))

variable {place} {fs fs' : FS}

theorem Plain.ready (h : Plain place fs) (source destination : Directory) (hne : source ≠ destination)
    (method : TransferMethod) : Ready (runOf place source destination method) fs where
  sourceApart := fun hs => hne (h.apart _ _ hs)
  destApart := fun hd => hne (h.apart _ _ hd).symm
  sole := h.sole.mono (fun _ hl => ⟨destination, hl⟩) fun _ hl => hl.elim (⟨source, ·⟩) (⟨destination, ·⟩)
  linkFree := fun l t hl => h.linkFree l t (hl.elim (⟨source, ·⟩) (⟨destination, ·⟩))
  source := h.resolves source
  dest := h.resolves destination
  sourceDir := h.isDir source
  destStands := by
    have hd := h.isDir destination
    simp [runOf, hd]
  short := fun p hp => ⟨h.short source p hp source, h.short source p hp destination⟩

/-- Nothing lies in two of the directories. -/
theorem Plain.unique (h : Plain place fs) {d e : Directory} {l : Loc} (hd : place d <:+ l)
    (he : place e <:+ l) : d = e := by
  rcases List.suffix_or_suffix_of_suffix hd he with hs | hs
  · exact h.apart _ _ hs
  · exact (h.apart _ _ hs).symm

theorem contents_eq_of_keeps {d : Directory} (h : Keeps (place d <:+ ·) fs fs') :
    contents place fs' d = contents place fs d := by
  funext p
  exact h.entry (List.suffix_append p (place d))

/-- What holds after a finished run between two directories, if the third one was left alone. -/
theorem Plain.after (h : Plain place fs) {sha256 : Bytes → Bytes} {source destination : Directory}
    (hne : source ≠ destination) {method : TransferMethod}
    (hend : Progress sha256 (runOf place source destination method) fs Set.univ fs')
    (hdirs : FS.Persists fs fs') (hsole : Sole (Inside place) (Inside place) fs')
    (hthird : ∀ d, d ≠ source → d ≠ destination → Keeps (place d <:+ ·) fs fs') :
    Plain place fs' ∧
      contents place fs' = effect sha256 source destination method (contents place fs) := by
  have hcontents : contents place fs' = effect sha256 source destination method (contents place fs) := by
    funext d
    unfold effect
    by_cases hd : d = destination
    · rw [hd, Function.update_self]
      exact hend.dest_univ
    rw [Function.update_of_ne hd]
    by_cases hs : d = source
    · rw [hs, Function.update_self]
      exact hend.source_univ
    rw [Function.update_of_ne hs]
    exact contents_eq_of_keeps (hthird d hs hd)
  have hlinks : LinkFree (Inside place) fs' := by
    rintro l t ⟨d, hd⟩
    by_cases hf : d = source ∨ d = destination
    · refine hend.linkFree l t ?_
      rcases hf with rfl | rfl
      · exact .inl hd
      · exact .inr hd
    · rw [not_or] at hf
      rw [(hthird d hf.1 hf.2).node l hd]
      exact h.linkFree l t ⟨d, hd⟩
  refine ⟨⟨?_, fun d => hdirs.dirs _ (h.isDir d), h.apart, hlinks, hsole, ?_⟩, hcontents⟩
  · intro d
    exact fs.resolve_persists hdirs (h.resolves d) (by rw [h.isDir d, hdirs.dirs _ (h.isDir d)])
  · intro d p hp e
    -- whatever stands at `p` now, something stood there before in one of the directories
    have hnow : contents place fs' d p ≠ none := fun hn =>
      hp (fs'.node_of_entry_none hn fun t => hlinks _ t ⟨d, List.suffix_append ..⟩)
    suffices hbefore : ∃ c, contents place fs c p ≠ none by
      obtain ⟨c, hc⟩ := hbefore
      exact h.short c p (node_of_tree hc) e
    rw [hcontents] at hnow
    unfold effect at hnow
    by_cases hd : d = destination
    · rw [hd, Function.update_self] at hnow
      by_contra hno
      push Not at hno
      rw [overlay_none (hno source)] at hnow
      exact hnow (hno destination)
    rw [Function.update_of_ne hd] at hnow
    by_cases hs : d = source
    · refine ⟨source, fun hno => hnow ?_⟩
      rw [hs, Function.update_self, leftover_of_not_file (by simp [hno, isFile]), hno]
    · rw [Function.update_of_ne hs] at hnow
      exact ⟨d, hnow⟩

/-- A program that carries out a run between two directories does so when it runs alone: the
directories stay plain, and their contents change as the trees say. -/
theorem Plain.run (h : Plain place fs) {sha256 : Bytes → Bytes} {source destination : Directory}
    (hne : source ≠ destination) {method : TransferMethod} {α : Type} {p : Prog α}
    (hp : (terms (runOf place source destination method).footprint
        (runOf place source destination method).writes).Meets
      (Terms.Returns fun _ fs' => Progress sha256 (runOf place source destination method) fs Set.univ fs')
      p fs) (sched : ℕ → Choice) (hs : ∀ t, (sched t).clean) (t : ℕ) :
    (Resumable.run exec sched p t fs).result ≠ none ∧
      Plain place (Resumable.run exec sched p t fs).state ∧
      contents place (Resumable.run exec sched p t fs).state =
        effect sha256 source destination method (contents place fs) := by
  obtain ⟨hend, htrace⟩ := hp.run sched hs t
  have hwrites : ∀ d, d ≠ source → d ≠ destination → ∀ l, place d <:+ l →
      ¬ (runOf place source destination method).writes l := by
    rintro d hds hdd l hl (hw | ⟨-, hw⟩)
    · exact hdd (h.unique hl hw)
    · exact hds (h.unique hl hw)
  have hinside : ∀ l, (runOf place source destination method).writes l → Inside place l := by
    rintro l (hw | ⟨-, hw⟩)
    · exact ⟨destination, hw⟩
    · exact ⟨source, hw⟩
  have hinv : FS.Persists fs (Resumable.run exec sched p t fs).state ∧
      Sole (Inside place) (Inside place) (Resumable.run exec sched p t fs).state ∧
      ∀ d, d ≠ source → d ≠ destination →
        Keeps (place d <:+ ·) fs (Resumable.run exec sched p t fs).state := by
    refine run_invariant exec sched (J := fun s => FS.Persists fs s ∧ Sole (Inside place) (Inside place) s ∧
      ∀ d, d ≠ source → d ≠ destination → Keeps (place d <:+ ·) fs s) ?_
      ⟨FS.Persists.refl fs, h.sole, fun _ _ _ => Keeps.refl _ fs⟩
    rintro e he ⟨hp, hsole, hk⟩
    have hw := htrace e he
    refine ⟨hp.trans hw.persists, hw.sole _ _ hsole, fun d hds hdd => ?_⟩
    refine (hk d hds hdd).trans (hw.keeps (hwrites d hds hdd) ?_)
    exact hsole.mono (fun l hl => ⟨d, hl⟩) hinside
  exact ⟨hend.ne_none, h.after hne hend.holds hinv.1 hinv.2.1 hinv.2.2⟩

/-- A file system with one report, `[1]`, called `a`. -/
def sample : FS :=
  let srv := FS.empty.addDir (bytes "srv") [] 0o755 rfl (by decide) (by decide)
  let reportman := srv.addDir (bytes "reportman") [bytes "srv"] 0o755 (by decide) (by decide) (by decide)
  let reports := reportman.addDir (bytes "reports") [bytes "reportman", bytes "srv"] 0o770
    (by decide) (by decide) (by decide)
  let dashboard := reports.addDir (bytes "dashboard") [bytes "reportman", bytes "srv"] 0o770
    (by decide) (by decide) (by decide)
  let backup := dashboard.addDir (bytes "backup") [bytes "reportman", bytes "srv"] 0o770
    (by decide) (by decide) (by decide)
  (backup.addFile (bytes "a") [bytes "reports", bytes "reportman", bytes "srv"] 0o666
    (by decide) (by decide) (by decide)).write 0 [1]

/-- Where the directories stand when no link leads to them. -/
def standard : Directory → Loc
  | .reports => [bytes "reports", bytes "reportman", bytes "srv"]
  | .dashboard => [bytes "dashboard", bytes "reportman", bytes "srv"]
  | .backup => [bytes "backup", bytes "reportman", bytes "srv"]

/-- What holds of every entry of `sample` holds wherever something stands. -/
theorem sample_forall {P : Loc → Prop} (h : ∀ l ∈ sample.nodes.keys, P l) {l : Loc}
    (hl : sample.node l ≠ none) : P l :=
  h l (sample.mem_keys.mp hl)

theorem sample_node {l : Loc} (hl : sample.node l ≠ none) :
    sample.node l = some .dir ∨ l = bytes "a" :: standard .reports :=
  sample_forall (P := fun l => sample.node l = some .dir ∨ l = bytes "a" :: standard .reports)
    (by decide) hl

theorem sample_short {l : Loc} (hl : sample.node l ≠ none) : ∀ d e : Directory, standard d <:+ l →
    (pathOf e.path (l.take (l.length - 3))).length < pathSize :=
  sample_forall (P := fun l => ∀ d e : Directory, standard d <:+ l →
    (pathOf e.path (l.take (l.length - 3))).length < pathSize) (by decide) hl

theorem sample_plain : Plain standard sample where
  resolves := by intro d; cases d <;> decide
  isDir := by intro d; cases d <;> decide
  apart := by intro d e; cases d <;> cases e <;> decide
  linkFree := by
    intro l t _ hl
    obtain hd | rfl := sample_node (by simp [hl] : sample.node l ≠ none)
    · rw [hd] at hl
      cases hl
    · have ha : sample.node (bytes "a" :: standard .reports) = some (.file 0) := by decide
      rw [ha] at hl
      cases hl
  sole := by
    intro l l' i _ _ hl hl'
    have single : ∀ k, sample.node k = some (.file i) → k = bytes "a" :: standard .reports := by
      intro k hk
      refine (sample_node (by simp [hk])).resolve_left ?_
      simp [hk]
    rw [single l hl, single l' hl']
  short := by
    intro d p hp e
    have h := sample_short hp d e (List.suffix_append p _)
    have hlen : (p ++ standard d).length - 3 = p.length := by
      cases d <;> simp [standard]
    rwa [hlen, List.take_left] at h

end Reportman.Directories
