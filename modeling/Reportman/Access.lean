import Mathlib
import Reportman.Modes
import Reportman.Retention

/-!
# What the owner and the group can still reach

The daemon runs as root and is refused nothing; the people who use the dashboard and the backup are
its files' owner and group. They search a directory by its execute bit and read a file by its read
bit, and they reach a file if they can search every directory above it.
-/
namespace Reportman.Access
open Resumable FileSystem TransferDirectory OverlayRun Directories Timers Modes Retention

/-- By its owner and its group. -/
def Searchable (fs : FS) (l : Loc) : Prop := fs.dirMode l &&& 0o110 = 0o110

def Readable (fs : FS) (i : ℕ) : Prop := fs.fileMode i &&& 0o440 = 0o440

def Reachable (fs : FS) (l : Loc) : Prop := ∀ k, k <:+ l → k ≠ l → Searchable fs k

instance (fs : FS) (l : Loc) : Decidable (Searchable fs l) := inferInstanceAs (Decidable (_ = _))

/-- One run of a timer in which nothing fails and whose tree fits the stack. -/
inductive TimerRun (sha256 : Bytes → Bytes) (fs : FS) : FS → Prop
  | expiry (method : TransferFile.TransferMethod) (stack fuel : ℕ) (sched : ℕ → Choice)
      (hstack : fs.bound ≤ stack) (hfuel : fs.bound ≤ fuel) (hs : ∀ t, (sched t).clean) :
      TimerRun sha256 fs (afterRun sha256 method stack fuel sched fs)

/-- The trees that the users work in. -/
def InUse (place : Directory → Loc) (l : Loc) : Prop := place .dashboard <:+ l ∨ place .backup <:+ l

/-- A file that could be reached and read, and that is still where it was, can be reached and read. -/
def FilesKept (place : Directory → Loc) (fs fs' : FS) : Prop :=
  ∀ l i, InUse place l → fs.node l = some (.file i) → fs'.node l = some (.file i) →
    Reachable fs l → Readable fs i → Reachable fs' l ∧ Readable fs' i

def DirectoriesKept (place : Directory → Loc) (fs fs' : FS) : Prop :=
  ∀ l, InUse place l → fs.node l = some .dir → Searchable fs l → fs'.node l = some .dir ∧ Searchable fs' l

/-- After each run, with the file system as it stood before the first and after each of them. -/
structure Usable (place : Directory → Loc) (fs : FS) (states : List FS) : Prop where
  directories : ∀ fs' ∈ states, DirectoriesKept place fs fs'
  files : List.IsChain (FilesKept place) (fs :: states)

/-- The walks over the dashboard find no directory that can be searched. -/
def Unsearchable (place : Directory → Loc) (fs : FS) : Prop :=
  ∀ k, Walks fs (Directory.path .dashboard) (place .dashboard) k → fs.node k = some .dir → ¬ Searchable fs k

section Run

variable {place : Directory → Loc} {fs fs' fs₀ : FS} {sha256 : Bytes → Bytes} {stack fuel mode : ℕ}
  {source destination : Directory} {method : TransferFile.TransferMethod} {root : Path} {l k : Loc}

/-- What a walk comes to is settled by the directories and the links, which stay. -/
theorem walks_persists (hp : FS.Persists fs fs') (hentry : fs.resolveEntry root = some l ∨
    ∃ k t, fs.resolveEntry root = some k ∧ fs.node k = some (.link t)) :
    Walks fs' root l = Walks fs root l := by
  funext j
  refine propext (or_congr_right (and_congr_left fun _ => ?_))
  rcases hentry with h | ⟨k, t, h, -⟩ <;> rw [h, fs.resolveEntry_persists hp h]

theorem unsearchable_of_painted {V S : Loc → Prop} (h : Painted mode V fs₀ S fs)
    (hmode : mode &&& 0o110 ≠ 0o110) (hS : S k) (hd : fs.node k = some .dir) : ¬ Searchable fs k := by
  rw [h.node] at hd
  rw [Searchable, h.painted k hS hd]
  exact hmode

/-- Where the walks of a timer run may change a mode. -/
def Changes (place : Directory → Loc) (fs : FS) (k : Loc) : Prop :=
  Walks fs (Directory.path .dashboard) (place .dashboard) k ∨ place .reports <:+ k

theorem nftw_kept (h : Plain place fs) (hstack : fs.bound ≤ stack) (mode : ℕ) {d : Directory}
    (hd : d = source ∨ d = destination) (hchanges : ∀ k, Walks fs d.path (place d) k → Changes place fs k)
    {done : Set (List Name)}
    (hp : Progress sha256 (runOf place source destination method) fs done fs')
    (hm : ModesKept (Changes place fs) fs fs') :
    alone.Meets (Terms.Returns fun _ fs'' =>
        (Progress sha256 (runOf place source destination method) fs done fs'' ∧
          ModesKept (Changes place fs) fs fs'') ∧
        Painted mode (Walks fs d.path (place d)) fs' (Walks fs d.path (place d)) fs'')
      (nftw (setPermissions mode) stack d.path) fs' := by
  have hl : place d = place source ∨ place d = place destination := hd.imp (congrArg place) (congrArg place)
  obtain ⟨hroot, hdir, hF⟩ := stands_of_progress h hd hp
  have hlinks : LinkFree (place d <:+ ·) fs' := by
    rintro k t ⟨p, rfl⟩
    exact hp.linkFree _ t (hF p)
  have hwalks := walks_persists hm.persists (directory_entry_or_link d (h.resolves d))
  have hwalk := nftw_paints mode hroot hlinks hdir (directory_entry_or_link d hroot)
    (height_of_progress hp hstack hl)
  rw [hwalks] at hwalk
  refine hwalk.mono ?_
  rintro (_ | result) fs'' ho
  · exact ho.elim
  · exact ⟨⟨hp.stable (keeps_of_same ho.node ho.data), hm.trans (ho.modesKept.mono hchanges)⟩, ho⟩

theorem transfer_kept (h : Plain place fs) (hne : source ≠ destination) (hstack : fs.bound ≤ stack)
    (hfuel : fs.bound ≤ fuel)
    (hp : Progress sha256 (runOf place source destination method) fs ∅ fs')
    (hm : ModesKept (Changes place fs) fs fs') :
    alone.Meets (Terms.Returns fun _ fs'' =>
        Progress sha256 (runOf place source destination method) fs Set.univ fs'' ∧
          ModesKept (Changes place fs) fs fs'')
      (TransferDirectory.transferDirectory (systemCalls sha256 fuel) stack source.path destination.path
        method) fs' := by
  have hrun := run_meets_from (h.ready source destination hne method) hstack hfuel hp
  refine (alone_meets hrun (transferDirectory_keepsModes sha256 fuel stack _ _ method) hm).mono ?_
  rintro (_ | errors) fs'' ho
  · exact ho.1.elim
  · exact ho

theorem scheduled_eq : scheduled = ⟨Directory.path .reports, Directory.path .dashboard,
    Directory.path .dashboard, Directory.path .backup⟩ := rfl

theorem timerRun_backup (stack : ℕ) (sha256 : Bytes → Bytes) (fuel : ℕ) :
    timerRun scheduled stack sha256 fuel .backup =
      (nftw (setPermissions 0o440) stack (Directory.path .dashboard) >>= fun _ =>
        nftw (setPermissions 0o440) stack (Directory.path .reports) >>= fun _ => .ret ()) >>= fun _ =>
      TransferDirectory.transferDirectory (systemCalls sha256 fuel) stack (Directory.path .reports)
        (Directory.path .dashboard) .backup >>= fun _ =>
      nftw (setPermissions 0o440) stack (Directory.path .dashboard) >>= fun _ =>
        nftw (setPermissions 0o660) stack (Directory.path .reports) >>= fun _ => .ret () := by
  rw [scheduled_eq]
  rfl

theorem timerRun_transfer (stack : ℕ) (sha256 : Bytes → Bytes) (fuel : ℕ) :
    timerRun scheduled stack sha256 fuel .transfer =
      (nftw (setPermissions 0o440) stack (Directory.path .dashboard) >>= fun _ => .ret ()) >>= fun _ =>
      TransferDirectory.transferDirectory (systemCalls sha256 fuel) stack (Directory.path .dashboard)
        (Directory.path .backup) .transfer >>= fun _ =>
      nftw (setPermissions 0o660) stack (Directory.path .dashboard) >>= fun _ => .ret () := by
  rw [scheduled_eq]
  rfl
/-- What a timer run does to the modes. -/
theorem timerRun_modes (h : Plain place fs) (hstack : fs.bound ≤ stack) (hfuel : fs.bound ≤ fuel)
    (method : TransferFile.TransferMethod) :
    alone.Meets (Terms.Returns fun _ fs' => ModesKept (Changes place fs) fs fs' ∧
        ∀ k, Walks fs (Directory.path .dashboard) (place .dashboard) k → fs'.node k = some .dir →
          ¬ Searchable fs' k)
      (timerRun scheduled stack sha256 fuel method) fs := by
  have hbackup : Directory.reports ≠ .dashboard := by decide
  have htransfer : Directory.dashboard ≠ .backup := by decide
  have hdashboard : ∀ k, Walks fs (Directory.path .dashboard) (place .dashboard) k → Changes place fs k :=
    fun _ => .inl
  have hreports : ∀ k, Walks fs (Directory.path .reports) (place .reports) k → Changes place fs k :=
    fun _ hk => .inr hk.below
  cases method with
  | backup =>
    have hstart : Progress sha256 (runOf place .reports .dashboard .backup) fs ∅ fs :=
      (h.ready .reports .dashboard hbackup .backup).start
    rw [timerRun_backup]
    refine Terms.Meets.bind_returns (P := fun _ fs' =>
      Progress sha256 (runOf place .reports .dashboard .backup) fs ∅ fs' ∧
        ModesKept (Changes place fs) fs fs') ?_ ?_
    · refine Terms.Meets.bind_returns (nftw_kept h hstack 0o440 (.inr rfl) hdashboard hstart (.refl _ fs)) ?_
      rintro _ fs₁ ⟨⟨hp₁, hm₁⟩, -⟩
      refine Terms.Meets.bind_returns (nftw_kept h hstack 0o440 (.inl rfl) hreports hp₁ hm₁) ?_
      rintro _ fs₂ ⟨hkept, -⟩ _ rfl
      exact hkept
    · rintro _ fs₁ ⟨hp₁, hm₁⟩
      refine Terms.Meets.bind_returns (transfer_kept h hbackup hstack hfuel hp₁ hm₁) ?_
      rintro _ fs₂ ⟨hp₂, hm₂⟩
      refine Terms.Meets.bind_returns (nftw_kept h hstack 0o440 (.inr rfl) hdashboard hp₂ hm₂) ?_
      rintro _ fs₃ ⟨⟨hp₃, hm₃⟩, hpainted⟩
      refine Terms.Meets.bind_returns (nftw_kept h hstack 0o660 (.inl rfl) hreports hp₃ hm₃) ?_
      rintro _ fs₄ ⟨⟨-, hm₄⟩, hlast⟩ _ rfl
      refine ⟨hm₄, fun k hk hd => ?_⟩
      -- the walk over the reports does not come back to the dashboard
      have hne : ¬ Walks fs (Directory.path .reports) (place .reports) k := fun hr =>
        hbackup (h.unique hr.below hk.below)
      rw [hlast.node] at hd
      rw [Searchable, hlast.outside k hne]
      exact unsearchable_of_painted hpainted (by decide) hk hd
  | transfer =>
    have hstart : Progress sha256 (runOf place .dashboard .backup .transfer) fs ∅ fs :=
      (h.ready .dashboard .backup htransfer .transfer).start
    rw [timerRun_transfer]
    refine Terms.Meets.bind_returns (P := fun _ fs' =>
      Progress sha256 (runOf place .dashboard .backup .transfer) fs ∅ fs' ∧
        ModesKept (Changes place fs) fs fs') ?_ ?_
    · refine Terms.Meets.bind_returns (nftw_kept h hstack 0o440 (.inl rfl) hdashboard hstart (.refl _ fs)) ?_
      rintro _ fs₁ ⟨hkept, -⟩ _ rfl
      exact hkept
    · rintro _ fs₁ ⟨hp₁, hm₁⟩
      refine Terms.Meets.bind_returns (transfer_kept h htransfer hstack hfuel hp₁ hm₁) ?_
      rintro _ fs₂ ⟨hp₂, hm₂⟩
      refine Terms.Meets.bind_returns (nftw_kept h hstack 0o660 (.inl rfl) hdashboard hp₂ hm₂) ?_
      rintro _ fs₃ ⟨⟨-, hm₃⟩, hpainted⟩ _ rfl
      exact ⟨hm₃, fun k hk => unsearchable_of_painted hpainted (by decide) hk⟩

theorem TimerRun.modes (h : Plain place fs) (hrun : TimerRun sha256 fs fs') :
    Plain place fs' ∧ ModesKept (Changes place fs) fs fs' ∧ Unsearchable place fs' := by
  obtain ⟨method, stack, fuel, sched, hstack, hfuel, hclean⟩ := hrun
  have hplain : Plain place (run exec sched (timerRun scheduled stack sha256 fuel method) 0 fs).state :=
    (timerRun_run h hstack hfuel method sched hclean).2.1
  have hmeets : alone.Meets _ (timerRun scheduled stack sha256 fuel method) fs :=
    timerRun_modes h hstack hfuel method
  obtain ⟨hm, hd⟩ := (hmeets.run sched hclean 0).1.holds
  refine ⟨hplain, hm, fun k hk => hd k ?_⟩
  have hwalks := walks_persists hm.persists (directory_entry_or_link .dashboard (h.resolves .dashboard))
  rwa [← hwalks]

/-- What is in use and not walked over keeps its mode. -/
theorem ModesKept.searchable (hm : ModesKept (Changes place fs) fs fs')
    (hin : place .dashboard <:+ k → ¬ Walks fs (Directory.path .dashboard) (place .dashboard) k)
    (hreports : ¬ place .reports <:+ k) (hd : fs.node k = some .dir) (hs : Searchable fs k) :
    Searchable fs' k := by
  rw [Searchable, hm.dirs k hd ?_]
  · exact hs
  · rintro (hw | hr)
    · exact hin hw.below hw
    · exact hreports hr

/-- One run after the walks have nothing left to take. -/
theorem TimerRun.keeps (h : Plain place fs) (hrun : TimerRun sha256 fs fs')
    (hun : Unsearchable place fs) : DirectoriesKept place fs fs' ∧ FilesKept place fs fs' := by
  obtain ⟨-, hm, -⟩ := hrun.modes h
  have hroot : ¬ Searchable fs (place .dashboard) := hun _ (.inl rfl) (h.isDir .dashboard)
  constructor
  · intro l hl hd hs
    refine ⟨hm.persists.dirs l hd, ModesKept.searchable hm (fun _ hw => hun l hw hd hs) ?_ hd hs⟩
    intro hr
    rcases hl with hl | hl
    · exact absurd (h.unique hl hr) (by decide)
    · exact absurd (h.unique hl hr) (by decide)
  · intro l i hl hf hf' hreach hread
    have hsome : fs.node l ≠ none := by rw [hf]; simp
    rcases hl with hl | hl
    · -- the dashboard itself stands above the file
      refine absurd (hreach _ hl ?_) hroot
      rintro rfl
      rw [h.isDir .dashboard] at hf
      cases hf
    refine ⟨fun k hk hne => ?_, ?_⟩
    · have hd := node_above hsome hk hne
      have hother : ∀ d, place d <:+ k → d = .backup := fun d hd => h.unique (hd.trans hk) hl
      refine ModesKept.searchable hm (fun hin => ?_) (fun hr => ?_) hd (hreach k hk hne)
      · exact absurd (hother _ hin) (by decide)
      · exact absurd (hother _ hr) (by decide)
    · rw [Readable, hm.files i (fs.node_fresh hf) ?_]
      · exact hread
      · intro k hk hn
        obtain ⟨d, hd, hne⟩ : ∃ d, place d <:+ k ∧ d ≠ .backup := by
          rcases hk with hw | hr
          · exact ⟨.dashboard, hw.below, by decide⟩
          · exact ⟨.reports, hr, by decide⟩
        have heq : k = l := h.sole l k i ⟨.backup, hl⟩ ⟨d, hd⟩ hf hn
        exact hne (h.unique (heq ▸ hd) hl)

/-- Any number of runs. -/
theorem usable_of_unsearchable {states : List FS} (h : Plain place fs)
    (hruns : List.IsChain (TimerRun sha256) (fs :: states)) (hun : Unsearchable place fs) :
    Usable place fs states := by
  induction states generalizing fs with
  | nil => exact ⟨by simp, .singleton _⟩
  | cons fs' states ih =>
    obtain ⟨hrun, hrest⟩ := List.isChain_cons_cons.mp hruns
    obtain ⟨hplain, -, hun'⟩ := hrun.modes h
    obtain ⟨hdirs, hfiles⟩ := hrun.keeps h hun
    obtain ⟨hdirs', hfiles'⟩ := ih hplain hrest hun'
    refine ⟨fun fs'' hmem => ?_, List.isChain_cons_cons.mpr ⟨hfiles, hfiles'⟩⟩
    rcases List.mem_cons.mp hmem with rfl | hmem
    · exact hdirs
    · intro l hl hd hs
      obtain ⟨hd', hs'⟩ := hdirs l hl hd hs
      exact hdirs' fs'' hmem l hl hd' hs'

/-- What could be searched and is walked over cannot be searched after the run. -/
theorem TimerRun.unsearchable (h : Plain place fs) (hrun : TimerRun sha256 fs fs')
    (hkept : DirectoriesKept place fs fs') : Unsearchable place fs := by
  obtain ⟨-, hm, hun'⟩ := hrun.modes h
  have hwalks := walks_persists hm.persists (directory_entry_or_link .dashboard (h.resolves .dashboard))
  intro k hk hd hs
  obtain ⟨hd', hs'⟩ := hkept k (.inl hk.below) hd hs
  rw [← hwalks] at hk
  exact hun' k hk hd' hs'

/-- The runs leave the directories usable only where their walks find nothing to spoil: a run takes
the search permission from every directory it walks over and gives it to none. -/
theorem timerRuns_usable_iff {states : List FS} (h : Plain place fs)
    (hruns : List.IsChain (TimerRun sha256) (fs :: states)) :
    Usable place fs states ↔ states = [] ∨ Unsearchable place fs := by
  constructor
  · intro husable
    rcases states with _ | ⟨fs', states⟩
    · exact .inl rfl
    · have hrun := (List.isChain_cons_cons.mp hruns).1
      exact .inr (hrun.unsearchable h (husable.directories fs' (List.mem_cons_self ..)))
  · rintro (rfl | hun)
    · exact ⟨by simp, .singleton _⟩
    · exact usable_of_unsearchable h hruns hun

end Run

section Sample

theorem backedUp_run : TimerRun id sample backedUp :=
  TimerRun.expiry .backup sample.bound sample.bound _ le_rfl le_rfl fun _ => rfl

theorem timerRuns_usable_backedUp :
    Usable standard sample [backedUp] ↔ [backedUp] = [] ∨ Unsearchable standard sample :=
  timerRuns_usable_iff sample_plain (List.isChain_cons_cons.mpr ⟨backedUp_run, .singleton _⟩)

/-- The dashboard had mode `0770`, and nobody can search it any more. -/
theorem not_usable_backedUp : Plain standard sample ∧ TimerRun id sample backedUp ∧
    ¬ Usable standard sample [backedUp] := by
  refine ⟨sample_plain, backedUp_run, fun husable => ?_⟩
  have hun := backedUp_run.unsearchable sample_plain (husable.directories backedUp (List.mem_cons_self ..))
  exact hun (standard .dashboard) (.inl rfl) (sample_plain.isDir .dashboard) (by decide)

end Sample

end Reportman.Access
