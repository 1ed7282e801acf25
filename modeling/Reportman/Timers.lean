import Mathlib
import Reportman.Directories

/-!
# The handlers of the two timers

A scheduled backup or transfer is `transfer_directory` between two walks that change permissions.
`nftw` is modelled as its documentation describes it with `FTW_DEPTH | FTW_PHYS`. The process runs
as root, so the permissions refuse nothing, and neither walk touches a name or a content: the
handlers do to the directories what the run between the walks does.
-/
namespace Reportman.Timers
open Resumable FileSystem TransferFile TransferDirectory OverlayRun Directories

section Source

/-- `chmod` with the only check that is made of it. -/
def setPermissions (mode : ℕ) (path : Path) : Prog ℤ := do
  let result ← call (.chmod path mode)
  if result < 0 then return -1 else return 0

def backupUnlockPermissions : Path → Prog ℤ := setPermissions 0o440
def backupLockPermissions : Path → Prog ℤ := setPermissions 0o440
def dashboardLockPermissions : Path → Prog ℤ := setPermissions 0o440
def dashboardUnlockPermissions : Path → Prog ℤ := setPermissions 0o660
def reportsLockPermissions : Path → Prog ℤ := setPermissions 0o440
def reportsUnlockPermissions : Path → Prog ℤ := setPermissions 0o660

variable (fn : Path → Prog ℤ)

/-- One entry of a directory; a link is not followed, and after a nonzero result nothing more is
visited. -/
def ftwEntry (visit : Path → Prog ℤ) (path : Path) (result : ℤ) (name : Name) : Prog ℤ :=
  if result ≠ 0 ∨ name = dot ∨ name = dotDot then return result
  else do
    match ← call (.lstat (path ++ slash :: name)) with
    | some .directory => visit (path ++ slash :: name)
    | _ => fn (path ++ slash :: name)

/-- A directory comes after what is in it. -/
def ftwDir : ℕ → Path → Prog ℤ
  | 0, _ => .halt
  | stack + 1, path => do
      match ← call (.opendir path) with
      | none => return -1
      | some names => do
          let result ← names.foldlM (ftwEntry fn (ftwDir stack) path) 0
          if result ≠ 0 then return result else fn path

/-- `nftw(path, fn, 20, FTW_DEPTH | FTW_PHYS)`. -/
def nftw (stack : ℕ) (path : Path) : Prog ℤ := do
  match ← call (.lstat path) with
  | none => return -1
  | some .directory => ftwDir fn stack path
  | some _ => fn path

/-- The static paths that `transfer_at_time` sets. -/
structure TimerPaths where
  backUpSource : Path
  backUpTarget : Path
  transferSource : Path
  transferTarget : Path

def transferAtTime (T : TimerPaths) (source target : Path) : TransferMethod → TimerPaths
  | .transfer => { T with transferSource := source, transferTarget := target }
  | .backup => { T with backUpSource := source, backUpTarget := target }

def scheduleBackup (T : TimerPaths) : TimerPaths :=
  transferAtTime T (Directory.path .reports) (Directory.path .dashboard) .backup

def scheduleTransfer (T : TimerPaths) : TimerPaths :=
  transferAtTime T (Directory.path .dashboard) (Directory.path .backup) .transfer

/-- The paths of a `reportman_fm` that the daemon has started. -/
def scheduled : TimerPaths := scheduleTransfer (scheduleBackup ⟨[], [], [], []⟩)

variable (T : TimerPaths) (stack : ℕ)

def lockBackup : Prog Unit := do
  let _ ← nftw backupUnlockPermissions stack T.backUpTarget
  let _ ← nftw dashboardLockPermissions stack T.backUpSource

def unlockBackup : Prog Unit := do
  let _ ← nftw backupLockPermissions stack T.backUpTarget
  let _ ← nftw dashboardUnlockPermissions stack T.backUpSource

/-- The path is that of the backup timer. -/
def lockTransfer : Prog Unit := do
  let _ ← nftw reportsLockPermissions stack T.backUpTarget

def unlockTransfer : Prog Unit := do
  let _ ← nftw reportsUnlockPermissions stack T.backUpTarget

variable (sha256 : Bytes → Bytes) (fuel : ℕ)

def backUpDirectory (signo : ℕ) : Prog Unit :=
  if signo = 34 then do
    lockBackup T stack
    let _ ← TransferDirectory.transferDirectory (systemCalls sha256 fuel) stack T.backUpSource
      T.backUpTarget .backup
    unlockBackup T stack
  else return ()

def transferDirectory (signo : ℕ) : Prog Unit :=
  if signo = 35 then do
    lockTransfer T stack
    let _ ← TransferDirectory.transferDirectory (systemCalls sha256 fuel) stack T.transferSource
      T.transferTarget .transfer
    unlockTransfer T stack
  else return ()

/-- `SIGRTMIN + method`. -/
def timerSignal : TransferMethod → ℕ
  | .backup => 34
  | .transfer => 35

/-- What the expiry of a timer runs. -/
def timerRun : TransferMethod → Prog Unit
  | .backup => backUpDirectory T stack sha256 fuel (timerSignal .backup)
  | .transfer => transferDirectory T stack sha256 fuel (timerSignal .transfer)

end Source

section Permissions

variable {F W : Loc → Prop} {fs fs' fs₀ : FS}

/-- Permissions are neither names nor contents. -/
theorem exec_chmod (c : Choice) (path : Path) (mode : ℕ) (fs : FS) :
    (exec c (.chmod path mode) fs).2.node = fs.node ∧
      (exec c (.chmod path mode) fs).2.data = fs.data := by
  simp only [exec]
  split_ifs
  · exact ⟨rfl, rfl⟩
  rcases fs.resolve path with _ | l
  · exact ⟨rfl, rfl⟩
  dsimp only
  rcases fs.node l with _ | _ | i | t <;> exact ⟨rfl, rfl⟩

theorem keeps_of_same (hn : fs'.node = fs.node) (hd : fs'.data = fs.data) : Keeps F fs fs' := by
  refine ⟨⟨?_, ?_⟩, fun l _ => by rw [hn], fun _ i _ _ => by rw [hd]⟩
  · intro l hl
    rw [hn, hl]
  · intro l t hl
    rw [hn, hl]

theorem within_of_same {fs fs' : FS} (hn : fs'.node = fs.node) (hd : fs'.data = fs.data) : Within W fs fs' := by
  refine ⟨(keeps_of_same (F := W) hn hd).persists, fun l _ => by rw [hn], ?_, ?_⟩
  · intro i hi
    exact absurd (by rw [hd]) hi
  · intro F G hs l l' i hF hG hl hl'
    rw [hn] at hl hl'
    exact hs l l' i hF hG hl hl'

theorem setPermissions_eq (mode : ℕ) (path : Path) :
    setPermissions mode path = .call (.chmod path mode) fun result =>
      if result < 0 then .ret (-1) else .ret 0 := rfl

theorem ftwEntry_eq (fn visit : Path → Prog ℤ) (path : Path) {result : ℤ} {name : Name}
    (h : ¬ (result ≠ 0 ∨ name = dot ∨ name = dotDot)) :
    ftwEntry fn visit path result name =
      .call (.lstat (path ++ slash :: name)) fun status => match status with
        | some .directory => visit (path ++ slash :: name)
        | _ => fn (path ++ slash :: name) := by
  rw [ftwEntry, if_neg h]
  rfl

theorem ftwDir_succ (fn : Path → Prog ℤ) (stack : ℕ) (path : Path) :
    ftwDir fn (stack + 1) path = .call (.opendir path) fun dir => match dir with
      | none => .ret (-1)
      | some names => names.foldlM (ftwEntry fn (ftwDir fn stack) path) 0 >>= fun result =>
          if result ≠ 0 then .ret result else fn path := rfl

theorem nftw_eq (fn : Path → Prog ℤ) (stack : ℕ) (path : Path) :
    nftw fn stack path = .call (.lstat path) fun status => match status with
      | none => .ret (-1)
      | some .directory => ftwDir fn stack path
      | some _ => fn path := rfl

theorem setPermissions_meets (mode : ℕ) (path : Path) (h : Keeps F fs₀ fs) :
    (terms F W).Meets (Terms.Returns fun _ fs' => Keeps F fs₀ fs') (setPermissions mode path) fs := by
  rw [setPermissions_eq]
  refine Terms.Meets.call fun fs₁ hr₁ ch _ => ?_
  obtain ⟨hn, hd⟩ := exec_chmod ch path mode fs₁
  have hk : Keeps F fs₀ (exec ch (.chmod path mode) fs₁).2 := (h.trans hr₁).trans (keeps_of_same hn hd)
  refine ⟨_, _, Prod.mk.eta.symm, within_of_same hn hd, ?_⟩
  split_ifs
  · exact Terms.Meets.ret fun fs₂ hr₂ => hk.trans hr₂
  · exact Terms.Meets.ret fun fs₂ hr₂ => hk.trans hr₂

end Permissions

section Walk

variable {F W : Loc → Prop} {fs fs₀ : FS} {root : Path} {l : Loc} {fn : Path → Prog ℤ}

/-- The path of something in a tree that is kept leads where it led. -/
theorem resolve_kept (hroot : fs₀.resolve root = some l) (hF : ∀ p, F (p ++ l))
    (hlinks : LinkFree F fs₀) {q : List Name} (hq : fs₀.node (q ++ l) = some .dir)
    (hk : Keeps F fs₀ fs) : fs.resolve (pathOf root q) = some (q ++ l) := by
  have hroot' : fs.resolve root = some l := fs₀.resolve_persists hk.persists hroot (hk.node l (hF []))
  have hdir : fs.node (q ++ l) = some .dir := by rw [hk.node _ (hF q), hq]
  have hvalid : ∀ m ∈ q, ValidName m := by
    have htree : fs.tree l q ≠ none := by simp [FS.tree, FS.entry, hdir]
    exact valid_of_tree htree
  rw [resolve_pathOf hroot' q ((hk.linkFree hlinks).below hF q) hvalid, if_pos]
  cases q with
  | nil => exact .inl rfl
  | cons n q => exact .inr (fs.node_tail hdir)

theorem ftwDir_meets (hroot : fs₀.resolve root = some l) (hF : ∀ p, F (p ++ l))
    (hlinks : LinkFree F fs₀) (hfn : ∀ path fs, Keeps F fs₀ fs → (terms F W).Meets
      (Terms.Returns fun _ fs' => Keeps F fs₀ fs') (fn path) fs) (stack : ℕ) :
    ∀ (q : List Name) (fs : FS), fs₀.node (q ++ l) = some .dir →
      (∀ p, q <:+ p → fs₀.node (p ++ l) ≠ none → p.length < stack + q.length) → Keeps F fs₀ fs →
      (terms F W).Meets (Terms.Returns fun _ fs' => Keeps F fs₀ fs')
        (ftwDir fn stack (pathOf root q)) fs := by
  induction stack with
  | zero =>
    intro q fs hq hheight _
    have := hheight q (List.suffix_refl q) (by simp [hq])
    omega
  | succ stack ih =>
    intro q fs hq hheight h
    rw [ftwDir_succ]
    refine Terms.Meets.call fun fs₁ hr₁ ch₁ hc₁ => ?_
    have h₁ := h.trans hr₁
    have hdir₁ : fs₁.node (q ++ l) = some .dir := by rw [h₁.node _ (hF q), hq]
    refine ⟨_, _, exec_opendir hc₁ (resolve_kept hroot hF hlinks hq h₁) hdir₁, Within.refl W fs₁, ?_⟩
    dsimp only
    refine Terms.Meets.bind_returns (P := fun _ fs' => Keeps F fs₀ fs') ?_ ?_
    · refine Terms.Meets.foldlM (I := fun _ fs' => Keeps F fs₀ fs') (fun _ _ _ h hr => h.trans hr) ?_ h₁
      intro done n rest hsplit result fs₂ h₂
      by_cases hskip : result ≠ 0 ∨ n = dot ∨ n = dotDot
      · rw [ftwEntry, if_pos hskip]
        exact Terms.Meets.ret fun fs₃ hr₃ => h₂.trans hr₃
      rw [ftwEntry_eq _ _ _ hskip]
      rw [not_or, not_or] at hskip
      have hmem : n ∈ fs₁.names (q ++ l) := by
        have hn : n ∈ ch₁.order (dot :: dotDot :: fs₁.names (q ++ l)) := by rw [hsplit]; simp
        have := (ch₁.perm _).mem_iff.mp hn
        simpa [hskip.2.1, hskip.2.2] using this
      have hne₁ : fs₁.node (n :: q ++ l) ≠ none := fs₁.mem_names.mp hmem
      refine Terms.Meets.call fun fs₃ hr₃ ch₃ hc₃ => ?_
      have h₃ := h₂.trans hr₃
      have hnode₃ : fs₃.node (n :: q ++ l) = fs₀.node (n :: q ++ l) := h₃.node _ (hF _)
      have hvalid : ∀ m ∈ n :: q, ValidName m := by
        have htree : fs₁.tree l (n :: q) ≠ none := by
          intro hnone
          exact hne₁ (fs₁.node_of_entry_none hnone fun t => h₁.linkFree hlinks _ t (hF _))
        exact valid_of_tree htree
      have hentry : fs₃.resolveEntry (pathOf root q ++ slash :: n) = some (n :: q ++ l) := by
        have hroot₃ := fs₀.resolve_persists h₃.persists hroot (h₃.node l (hF []))
        have := resolveEntry_pathOf hroot₃ ((h₃.linkFree hlinks).below hF q) hvalid
        rwa [if_pos (by rw [h₃.node _ (hF q), hq])] at this
      have hlstat : exec ch₃ (.lstat (pathOf root q ++ slash :: n)) fs₃ =
          (typeAt fs₃ (n :: q ++ l), fs₃) := by
        have : ch₃.fails = false := hc₃
        simp only [exec, this, Bool.false_eq_true, ↓reduceIte, hentry]
      refine ⟨_, _, hlstat, Within.refl W fs₃, ?_⟩
      rcases hx : fs₀.node (n :: q ++ l) with _ | _ | i | t
      · rw [typeAt, hnode₃, hx]
        exact hfn _ _ h₃
      · rw [typeAt, hnode₃, hx]
        refine ih (n :: q) fs₃ hx ?_ h₃
        intro p hp hsome
        have := hheight p ((List.suffix_cons n q).trans hp) hsome
        simp only [List.length_cons]
        omega
      · rw [typeAt, hnode₃, hx]
        exact hfn _ _ h₃
      · rw [typeAt, hnode₃, hx]
        exact hfn _ _ h₃
    · intro result fs₂ h₂
      split_ifs
      · exact Terms.Meets.ret fun fs₃ hr₃ => h₂.trans hr₃
      · exact hfn _ _ h₂

/-- A walk over a directory of the footprint leaves the footprint as it was. -/
theorem nftw_meets (mode : ℕ) (hroot : fs₀.resolve root = some l) (hF : ∀ p, F (p ++ l))
    (hlinks : LinkFree F fs₀) (hdir : fs₀.node l = some .dir) {stack : ℕ}
    (hheight : ∀ p, fs₀.node (p ++ l) ≠ none → p.length < stack) :
    (terms F W).Meets (Terms.Returns fun _ fs' => Keeps F fs₀ fs')
      (nftw (setPermissions mode) stack root) fs₀ := by
  have hfn : ∀ path fs, Keeps F fs₀ fs → (terms F W).Meets
      (Terms.Returns fun _ fs' => Keeps F fs₀ fs') (setPermissions mode path) fs :=
    fun path fs h => setPermissions_meets mode path h
  rw [nftw_eq]
  refine Terms.Meets.call fun fs₁ hr₁ ch₁ _ => ?_
  obtain ⟨status, hstatus⟩ : ∃ status, exec ch₁ (.lstat root) fs₁ = (status, fs₁) := ⟨_, rfl⟩
  refine ⟨status, fs₁, hstatus, Within.refl W fs₁, ?_⟩
  rcases status with _ | _ | _ | _
  · exact Terms.Meets.ret fun fs₂ hr₂ => hr₁.trans hr₂
  · exact ftwDir_meets hroot hF hlinks hfn stack [] fs₁ hdir (fun p _ hp => by
      simpa using hheight p hp) hr₁
  · exact hfn _ _ hr₁
  · exact hfn _ _ hr₁

end Walk

section Runs

variable {place : Directory → Loc} {fs : FS} {sha256 : Bytes → Bytes} {stack fuel : ℕ}

/-- In a run's footprint nothing grows deeper than it was. -/
theorem height_of_progress {r : Run} {fs₀ : FS} {done : Set (List Name)}
    (h : Progress sha256 r fs₀ done fs) (hstack : fs₀.bound ≤ stack) {l : Loc}
    (hl : l = r.ls ∨ l = r.ld) (p : List Name) (hp : fs.node (p ++ l) ≠ none) : p.length < stack := by
  have hbefore : fs₀.tree r.ls p ≠ none ∨ fs₀.tree r.ld p ≠ none := by
    by_contra hno
    push Not at hno
    have hfoot : r.footprint (p ++ l) := by
      rcases hl with rfl | rfl
      · exact r.footprint_source p
      · exact r.footprint_dest p
    refine hp (fs.node_of_entry_none ?_ fun t => h.linkFree _ t hfoot)
    rcases hl with rfl | rfl
    · by_cases hd : p ∈ done
      · exact (h.sourceDone p hd).trans (by rw [leftover_of_not_file (by simp [hno.1, Overlay.isFile]), hno.1])
      · exact (h.sourceRest p hd).trans hno.1
    · by_cases hd : p ∈ done
      · exact (h.destDone p hd).trans (by rw [Overlay.overlay_none hno.1, hno.2])
      · exact (h.destRest p hd).trans hno.2
  have hlen : ∀ k : Loc, fs₀.tree k p ≠ none → p.length < stack := by
    intro k hk
    have := fs₀.length_lt_bound (node_of_tree hk)
    rw [List.length_append] at this
    omega
  exact hbefore.elim (hlen _) (hlen _)

variable {source destination : Directory} {method : TransferMethod}

/-- Either directory of a run stands where it stood, before, during and after the run. -/
theorem stands_of_progress (h : Plain place fs) {d : Directory} (hd : d = source ∨ d = destination)
    {fs' : FS} {done : Set (List Name)}
    (hp : Progress sha256 (runOf place source destination method) fs done fs') :
    fs'.resolve d.path = some (place d) ∧ fs'.node (place d) = some .dir ∧
      ∀ p, (runOf place source destination method).footprint (p ++ place d) := by
  have hs : fs.tree (place source) [] = some .dir := fs.entry_dir.mpr (h.isDir source)
  have ht : fs.tree (place destination) [] = some .dir := fs.entry_dir.mpr (h.isDir destination)
  rcases hd with rfl | rfl
  · exact ⟨hp.source, hp.source_dir hs, fun p => .inl (List.suffix_append ..)⟩
  · refine ⟨hp.dest, fs'.entry_dir.mp ?_, fun p => .inr (List.suffix_append ..)⟩
    by_cases hdone : [] ∈ done
    · refine (hp.destDone [] hdone).trans ?_
      exact (Overlay.overlay_dir hs).trans (by simp [runOf, ht])
    · exact (hp.destRest [] hdone).trans ht

/-- A walk over one of the two directories of a run, before, during or after it. -/
theorem nftw_progress (h : Plain place fs) (hstack : fs.bound ≤ stack)
    (mode : ℕ) {d : Directory} (hd : d = source ∨ d = destination) {fs' : FS} {done : Set (List Name)}
    (hp : Progress sha256 (runOf place source destination method) fs done fs') :
    (terms (runOf place source destination method).footprint
        (runOf place source destination method).writes).Meets
      (Terms.Returns fun _ fs'' => Progress sha256 (runOf place source destination method) fs done fs'')
      (nftw (setPermissions mode) stack d.path) fs' := by
  have hl : place d = place source ∨ place d = place destination := hd.imp (congrArg place) (congrArg place)
  obtain ⟨hroot, hdir, hF⟩ := stands_of_progress h hd hp
  refine (nftw_meets mode hroot hF hp.linkFree hdir (height_of_progress hp hstack hl)).mono ?_
  rintro (_ | result) fs'' ho
  · exact ho.elim
  · exact hp.stable ho

/-- A run between two walks that leave the directories as they are. -/
theorem locked_meets {r : Run} (h : Ready r fs) (hstack : fs.bound ≤ stack) (hfuel : fs.bound ≤ fuel)
    {lock unlock : Prog Unit} (hwalk : ∀ walk, walk = lock ∨ walk = unlock → ∀ done fs',
      Progress sha256 r fs done fs' → (terms r.footprint r.writes).Meets
        (Terms.Returns fun _ fs'' => Progress sha256 r fs done fs'') walk fs') :
    (terms r.footprint r.writes).Meets (Terms.Returns fun _ fs' => Progress sha256 r fs Set.univ fs')
      (lock >>= fun _ => TransferDirectory.transferDirectory (systemCalls sha256 fuel) stack r.source
        r.destination r.method >>= fun _ => unlock) fs := by
  refine Terms.Meets.bind_returns (hwalk lock (.inl rfl) ∅ fs h.start) fun _ fs₁ h₁ => ?_
  refine Terms.Meets.bind_returns (run_meets_from h hstack hfuel h₁) fun _ fs₂ h₂ => ?_
  exact hwalk unlock (.inr rfl) Set.univ fs₂ h₂

/-- A timer run that the daemon's `reportman_fm` has scheduled. -/
def scheduledRun (place : Directory → Loc) : TransferMethod → Run
  | .backup => runOf place .reports .dashboard .backup
  | .transfer => runOf place .dashboard .backup .transfer

theorem timerRun_meets (h : Plain place fs) (hstack : fs.bound ≤ stack) (hfuel : fs.bound ≤ fuel)
    (method : TransferMethod) :
    (terms (scheduledRun place method).footprint (scheduledRun place method).writes).Meets
      (Terms.Returns fun _ fs' => Progress sha256 (scheduledRun place method) fs Set.univ fs')
      (timerRun scheduled stack sha256 fuel method) fs := by
  have hbackup : Directory.reports ≠ .dashboard := by decide
  have htransfer : Directory.dashboard ≠ .backup := by decide
  cases method with
  | backup =>
    refine locked_meets (h.ready .reports .dashboard hbackup .backup) hstack hfuel ?_
    rintro walk (rfl | rfl) done fs' hp
    · refine Terms.Meets.bind_returns (nftw_progress h hstack 0o440 (.inr rfl) hp)
        fun _ fs₁ h₁ => ?_
      exact Terms.Meets.bind_returns (nftw_progress h hstack 0o440 (.inl rfl) h₁)
        fun _ fs₂ h₂ => Terms.Meets.ret fun _ hr => h₂.stable hr
    · refine Terms.Meets.bind_returns (nftw_progress h hstack 0o440 (.inr rfl) hp)
        fun _ fs₁ h₁ => ?_
      exact Terms.Meets.bind_returns (nftw_progress h hstack 0o660 (.inl rfl) h₁)
        fun _ fs₂ h₂ => Terms.Meets.ret fun _ hr => h₂.stable hr
  | transfer =>
    refine locked_meets (h.ready .dashboard .backup htransfer .transfer) hstack hfuel ?_
    rintro walk (rfl | rfl) done fs' hp
    · exact Terms.Meets.bind_returns (nftw_progress h hstack 0o440 (.inl rfl) hp)
        fun _ fs₁ h₁ => Terms.Meets.ret fun _ hr => h₁.stable hr
    · exact Terms.Meets.bind_returns (nftw_progress h hstack 0o660 (.inl rfl) hp)
        fun _ fs₁ h₁ => Terms.Meets.ret fun _ hr => h₁.stable hr

/-- A scheduled run that is alone: the directories stay plain and change as the run says. -/
theorem timerRun_run (h : Plain place fs) (hstack : fs.bound ≤ stack) (hfuel : fs.bound ≤ fuel)
    (method : TransferMethod) (sched : ℕ → Choice) (hs : ∀ t, (sched t).clean) :
    let o := run exec sched (timerRun scheduled stack sha256 fuel method) 0 fs
    o.result ≠ none ∧ Plain place o.state ∧ contents place o.state =
      match method with
      | .backup => effect sha256 .reports .dashboard .backup (contents place fs)
      | .transfer => effect sha256 .dashboard .backup .transfer (contents place fs) := by
  cases method with
  | backup => exact h.run (by decide) (timerRun_meets h hstack hfuel .backup) sched hs 0
  | transfer => exact h.run (by decide) (timerRun_meets h hstack hfuel .transfer) sched hs 0

end Runs

end Reportman.Timers
