import Mathlib
import Reportman.Modes
import Reportman.Recovery

/-!
# Whether the locks cover a run

Before and after the copying the handlers of the timers walk over directories and change modes. The
names of the walks speak of locking the source and unlocking the target; what they do is decided by
the static paths that `transfer_at_time` has set and by the modes in the six callbacks. The locks of
a backup never cover its run; those of a transfer walk over the target of the backup, and cover a run
when the modes happen to fit.
-/
namespace Reportman.Locks
open Resumable FileSystem TransferFile TransferDirectory OverlayRun Directories Timers Modes Recovery

section Source

def sourceOf (T : TimerPaths) : TransferMethod → Path
  | .backup => T.backUpSource
  | .transfer => T.transferSource

def targetOf (T : TimerPaths) : TransferMethod → Path
  | .backup => T.backUpTarget
  | .transfer => T.transferTarget

/-- The paths after a backup from `S₁` to `T₁` and a transfer from `S₂` to `T₂` have been registered. -/
def registered (T : TimerPaths) (S₁ T₁ S₂ T₂ : Path) : (first : TransferMethod) → TimerPaths
  | .backup => transferAtTime (transferAtTime T S₁ T₁ .backup) S₂ T₂ .transfer
  | .transfer => transferAtTime (transferAtTime T S₂ T₂ .transfer) S₁ T₁ .backup

variable (T : TimerPaths) (stack : ℕ) (sha256 : Bytes → Bytes) (fuel : ℕ)

def lock : TransferMethod → Prog Unit
  | .backup => lockBackup T stack
  | .transfer => lockTransfer T stack

def unlock : TransferMethod → Prog Unit
  | .backup => unlockBackup T stack
  | .transfer => unlockTransfer T stack

def copy (method : TransferMethod) : Prog ℤ :=
  TransferDirectory.transferDirectory (systemCalls sha256 fuel) stack (sourceOf T method) (targetOf T method)
    method

/-- The phases of what the expiry of a timer runs. -/
theorem timerRun_phases (method : TransferMethod) : timerRun T stack sha256 fuel method =
    lock T stack method >>= fun _ => copy T stack sha256 fuel method >>= fun _ => unlock T stack method := by
  cases method <;> rfl

variable (sched : ℕ → Choice)

/-- The run that begins in `fs` comes to `s` while it copies. -/
def Copying (method : TransferMethod) (fs s : FS) : Prop :=
  ∃ t s₀ q t', run exec sched (lock T stack method) 0 fs = ⟨some (), t, s₀⟩ ∧
    Reaches exec sched (copy T stack sha256 fuel method) t s₀ q t' s

/-- The mode of the directory or file at a location. -/
def modeAt (fs : FS) (l : Loc) : Option ℕ :=
  match fs.node l with
  | some .dir => some (fs.dirMode l)
  | some (.file i) => some (fs.fileMode i)
  | _ => none

def InTree (fs : FS) (root : Path) (k : Loc) : Prop := ∃ l, fs.resolve root = some l ∧ l <:+ k

/-- Nobody may write in the source, and the owner may write everywhere in the target. -/
structure Locked (source target : Path) (fs : FS) : Prop where
  source : ∀ k mode, InTree fs source k → modeAt fs k = some mode → mode &&& 0o222 = 0
  target : ∀ k mode, InTree fs target k → modeAt fs k = some mode → mode &&& 0o200 ≠ 0

structure LocksCover (method : TransferMethod) (fs : FS) : Prop where
  during : ∀ s, Copying T stack sha256 fuel sched method fs s → Locked (sourceOf T method) (targetOf T method) s
  after : ∀ k mode mode', ¬ InTree fs (sourceOf T method) k → ¬ InTree fs (targetOf T method) k →
    modeAt fs k = some mode →
    modeAt (run exec sched (timerRun T stack sha256 fuel method) 0 fs).state k = some mode' → mode' = mode

/-- A directory tree without links. -/
structure Tree (fs : FS) (root : Path) (l : Loc) : Prop where
  resolves : fs.resolve root = some l
  isDir : fs.node l = some .dir
  linkFree : LinkFree (l <:+ ·) fs

/-- The last name of the path is that of a link, and `nftw` does not follow it. -/
def EndsInLink (fs : FS) (path : Path) : Prop :=
  ∃ k t, fs.resolveEntry path = some k ∧ fs.node k = some (.link t)

/-- The places that a walk over `root` gives its mode: only the directory itself when a link leads to it. -/
def Walked (fs : FS) (root : Path) (k : Loc) : Prop :=
  ∃ l, fs.resolve root = some l ∧ (k = l ∨ (l <:+ k ∧ ¬ EndsInLink fs root))

/-- When the locks of a transfer from `S₂` to `T₂`, which walk over `T₁`, cover its run. -/
structure Fits (fs : FS) (T₁ S₂ T₂ : Path) : Prop where
  source : ∀ k mode, InTree fs S₂ k → modeAt fs k = some mode → ¬ Walked fs T₁ k → mode &&& 0o222 = 0
  target : ∀ k mode, InTree fs T₂ k → modeAt fs k = some mode → ¬ Walked fs T₁ k ∧ mode &&& 0o200 ≠ 0
  -- a directory that the run has to make gets the mode `07`
  directories : ∀ ls ld n p, fs.resolve S₂ = some ls → fs.resolve T₂ = some ld →
    fs.node (n :: p ++ ls) = some .dir → fs.node (p ++ ld) = some .dir → fs.node (n :: p ++ ld) ≠ none
  others : ∀ k mode, ¬ InTree fs S₂ k → ¬ InTree fs T₂ k → Walked fs T₁ k → modeAt fs k = some mode → mode = 0o660

/-- The directories of the two registrations: trees in which no file has a second name, and the paths that a
transfer joins fit its buffers. -/
structure Grounds (fs : FS) (S₁ T₁ S₂ T₂ : Path) (ls₁ lt₁ ls ld : Loc) : Prop where
  backUpSource : Tree fs S₁ ls₁
  backUpTarget : Tree fs T₁ lt₁
  transferSource : Tree fs S₂ ls
  transferTarget : Tree fs T₂ ld
  sole : Sole (fun l => lt₁ <:+ l ∨ ld <:+ l) (fun _ => True) fs
  short : ∀ p, fs.node (p ++ ls) ≠ none → (pathOf S₂ p).length < pathSize ∧ (pathOf T₂ p).length < pathSize

end Source

section Walk

variable {fs fs' : FS} {root : Path} {l k : Loc} {mode stack : ℕ}

/-- Where a path leads to a directory, its last name is that directory or a link. -/
theorem Tree.entry (h : Tree fs root l) (hk : fs.resolveEntry root = some k) :
    fs.node k = some .dir ∨ ∃ t, fs.node k = some (.link t) := by
  by_contra hno
  rw [not_or, not_exists] at hno
  have hresolve := h.resolves
  have hroot : root ≠ [] := resolve_ne_nil hresolve
  rw [FS.resolve, if_neg hroot] at hresolve
  unfold FS.resolveEntry at hk
  rcases hrev : (components root).reverse with _ | ⟨n, above⟩
  · rw [hrev] at hk
    cases hk
  rw [hrev] at hk
  dsimp only at hk
  split_ifs at hk with hn
  obtain ⟨d, hwalk, hd⟩ := Option.bind_eq_some_iff.mp hk
  split_ifs at hd with hdir
  cases hd
  have hcomps : components root = above.reverse ++ [n] := by
    rw [← List.reverse_reverse (components root), hrev, List.reverse_cons]
  obtain ⟨k, hrest⟩ := fs.walk_append_dir _ _ above.reverse [n] hwalk hdir
  rw [hcomps, hrest, fs.walk_leaf hn hno.1 hno.2, if_pos rfl] at hresolve
  cases hresolve
  exact hno.1 h.isDir

/-- What `nftw` takes the root of its walk for. -/
theorem Tree.lstat (h : Tree fs root l) {c : Choice} (hc : c.clean) :
    (exec c (.lstat root) fs = (some .directory, fs) ∧ ¬ EndsInLink fs root) ∨
      (exec c (.lstat root) fs = (some .symlink, fs) ∧ EndsInLink fs root) := by
  have hc : c.fails = false := hc
  simp only [exec, hc, Bool.false_eq_true, ↓reduceIte]
  rcases he : fs.resolveEntry root with _ | k
  · refine .inl ⟨by simp [h.resolves, typeAt, h.isDir], ?_⟩
    rintro ⟨k, t, hk, -⟩
    rw [he] at hk
    cases hk
  · rcases h.entry he with hk | ⟨t, hk⟩
    · refine .inl ⟨by simp [typeAt, hk], ?_⟩
      rintro ⟨k', t, hk', ht⟩
      rw [he] at hk'
      cases hk'
      rw [hk] at ht
      cases ht
    · exact .inr ⟨by simp [typeAt, hk], k, t, he, hk⟩

theorem Tree.walked_iff (h : Tree fs root l) : Walked fs root k ↔ k = l ∨ (l <:+ k ∧ ¬ EndsInLink fs root) := by
  constructor
  · rintro ⟨l', hl', hk⟩
    rw [h.resolves] at hl'
    cases hl'
    exact hk
  · exact fun hk => ⟨l, h.resolves, hk⟩

theorem Tree.inTree_iff (h : Tree fs root l) : InTree fs root k ↔ l <:+ k := by
  constructor
  · rintro ⟨l', hl', hk⟩
    rw [h.resolves] at hl'
    cases hl'
    exact hk
  · exact fun hk => ⟨l, h.resolves, hk⟩

theorem Tree.root_walked (h : Tree fs root l) : Walked fs root l := h.walked_iff.2 (.inl rfl)

theorem Tree.below (h : Tree fs root l) (hk : Walked fs root k) : l <:+ k := by
  rcases h.walked_iff.1 hk with rfl | hk
  · exact List.suffix_refl _
  · exact hk.1

/-- Directories and links stay, and with them what a walk comes to. -/
theorem Tree.walked_persists (h : Tree fs root l) (hp : FS.Persists fs fs') :
    Walked fs' root k ↔ Walked fs root k := by
  have hresolve : fs'.resolve root = some l :=
    fs.resolve_persists hp h.resolves (by rw [h.isDir, hp.dirs l h.isDir])
  have hlink : EndsInLink fs' root ↔ EndsInLink fs root := by
    rcases he : fs.resolveEntry root with _ | j
    · have he' := fs.resolveEntry_none h.resolves he fs'
      simp only [EndsInLink, he, he', reduceCtorEq, false_and, exists_false]
    · have he' := fs.resolveEntry_persists hp he
      have hsame : fs'.node j = fs.node j := by
        rcases h.entry he with hj | ⟨t, hj⟩
        · rw [hj, hp.dirs j hj]
        · rw [hj, hp.links j t hj]
      simp only [EndsInLink, he, he', Option.some.injEq, exists_and_left, exists_eq_left', hsame]
  simp only [Walked, hresolve, h.resolves, hlink]

theorem Tree.kept (h : Tree fs root l) (hn : fs'.node = fs.node) (hd : fs'.data = fs.data) : Tree fs' root l := by
  refine ⟨fs.resolve_persists (keeps_of_same (F := (l <:+ ·)) hn hd).persists h.resolves (by rw [hn]), ?_, ?_⟩
  · rw [hn, h.isDir]
  · intro k t hk
    rw [hn]
    exact h.linkFree k t hk

/-- A walk gives every place it comes to its mode, and no other place. -/
theorem Tree.walk (h : Tree fs root l) (mode : ℕ)
    (hheight : ∀ p : List Name, fs.node (p ++ l) ≠ none → p.length < stack) :
    alone.Meets (Terms.Returns fun _ fs' => Painted mode (Walked fs root) fs (Walked fs root) fs')
      (nftw (setPermissions mode) stack root) fs := by
  rw [nftw_eq]
  refine Terms.Meets.call ?_
  rintro _ rfl c hc
  rcases h.lstat hc with ⟨hexec, hno⟩ | ⟨hexec, hlink⟩
  · have hbelow : ∀ k, l <:+ k → Walked fs root k := fun k hk => h.walked_iff.2 (.inr ⟨hk, hno⟩)
    refine ⟨_, _, hexec, trivial, (ftwDir_paints h.resolves h.linkFree hbelow stack [] _ fs h.isDir
      (fun p _ hp => by simpa using hheight p hp) (.start mode _ fs)).mono ?_⟩
    rintro (_ | r) fs' ho
    · exact ho.elim
    · exact ho.2.mono fun k hk _ => .inl (h.below hk)
  · refine ⟨_, _, hexec, trivial, (setPermissions_paints (.start mode _ fs) h.resolves h.root_walked
      (.inl h.isDir)).mono ?_⟩
    rintro (_ | r) fs' ho
    · exact ho.elim
    refine ho.2.mono fun k hk _ => .inl ?_
    exact (h.walked_iff.1 hk).resolve_right fun hk => hk.2 hlink

theorem height_lt (hstack : fs.bound ≤ stack) (l : Loc) (p : List Name) (hp : fs.node (p ++ l) ≠ none) :
    p.length < stack := by
  have := fs.length_lt_bound hp
  rw [List.length_append] at this
  omega

variable {T : TimerPaths}

/-- The lock of a transfer names the source of the transfer in its messages; it takes the write permission from
the target of the backup. -/
theorem lockTransfer_paints (h : Tree fs T.backUpTarget l) (hstack : fs.bound ≤ stack) :
    alone.Meets (Terms.Returns fun _ fs' =>
        Painted 0o440 (Walked fs T.backUpTarget) fs (Walked fs T.backUpTarget) fs')
      (lockTransfer T stack) fs := by
  refine Terms.Meets.bind_returns (h.walk 0o440 (height_lt hstack l)) ?_
  rintro _ fs' hpainted _ rfl
  exact hpainted

/-- … and its unlock opens the same tree to its owner and group. -/
theorem unlockTransfer_paints (h : Tree fs T.backUpTarget l)
    (hheight : ∀ p : List Name, fs.node (p ++ l) ≠ none → p.length < stack) :
    alone.Meets (Terms.Returns fun _ fs' =>
        Painted 0o660 (Walked fs T.backUpTarget) fs (Walked fs T.backUpTarget) fs')
      (unlockTransfer T stack) fs := by
  refine Terms.Meets.bind_returns (h.walk 0o660 hheight) ?_
  rintro _ fs' hpainted _ rfl
  exact hpainted

end Walk

section Mode

variable {mode : ℕ} {V S : Loc → Prop} {fs fs' : FS} {k : Loc}

theorem modeAt_walked (h : Painted mode V fs S fs') (hk : S k) :
    modeAt fs' k = (modeAt fs k).map fun _ => mode := by
  unfold modeAt
  rw [h.node]
  rcases hn : fs.node k with _ | _ | i | t
  · rfl
  · exact congrArg some (h.painted k hk hn)
  · exact congrArg some (h.paintedFiles k i hk hn)
  · rfl

theorem modeAt_outside (h : Painted mode V fs S fs') (hsole : Sole V (fun _ => True) fs) (hk : ¬ V k) :
    modeAt fs' k = modeAt fs k := by
  unfold modeAt
  rw [h.node]
  rcases hn : fs.node k with _ | _ | i | t
  · rfl
  · exact congrArg some (h.outside k hk)
  · refine congrArg some (h.files i fun j hj hi => hk ?_)
    exact hsole j k i hj trivial hi hn ▸ hj
  · rfl

theorem modeAt_grown (h : Grown fs fs') (hn : fs'.node k = fs.node k) : modeAt fs' k = modeAt fs k := by
  unfold modeAt
  rw [hn]
  rcases hk : fs.node k with _ | _ | i | t
  · rfl
  · exact congrArg some (h.dirs k hk not_false)
  · exact congrArg some (h.files i (fs.node_fresh hk) fun _ hw => hw.elim)
  · rfl

theorem node_of_modeAt {m : ℕ} (h : modeAt fs k = some m) : fs.node k ≠ none := by
  intro hn
  rw [modeAt, hn] at h
  cases h

end Mode

section Copying

variable {fs s s₀ s₁ : FS} {S₁ T₁ S₂ T₂ : Path} {ls₁ lt₁ ls ld k : Loc} {stack fuel t t' : ℕ}
  {sha256 : Bytes → Bytes} {sched : ℕ → Choice} {q : Prog ℤ}

def transferOf (S₂ T₂ : Path) (ls ld : Loc) : Run := ⟨S₂, T₂, .transfer, ls, ld⟩

theorem Grounds.ready (h : Grounds fs S₁ T₁ S₂ T₂ ls₁ lt₁ ls ld) (hsource : ¬ ls <:+ ld) (hdest : ¬ ld <:+ ls) :
    Ready (transferOf S₂ T₂ ls ld) fs where
  sourceApart := hsource
  destApart := hdest
  sole := fun l l' i hl _ hn hn' => h.sole l l' i (.inr hl) trivial hn hn'
  linkFree := by
    rintro l t (hl | hl)
    · exact h.transferSource.linkFree l t hl
    · exact h.transferTarget.linkFree l t hl
  source := h.transferSource.resolves
  dest := h.transferTarget.resolves
  sourceDir := h.transferSource.isDir
  destStands := by
    have hdir := h.transferTarget.isDir
    simp [transferOf, hdir]
  short := h.short

theorem modeAt_dir {m : ℕ} (h : fs.node k = some .dir) (hm : fs.dirMode k = m) : modeAt fs k = some m := by
  rw [modeAt, h, hm]

/-- Nothing can be locked as a source and open as a target. -/
theorem apart_of_locked (hsource : s.resolve S₂ = some ls) (htarget : s.resolve T₂ = some ld)
    (hls : s.node ls = some .dir) (hld : s.node ld = some .dir) (h : Locked S₂ T₂ s) :
    ¬ ls <:+ ld ∧ ¬ ld <:+ ls := by
  have both : ∀ k, s.node k = some .dir → ls <:+ k → ld <:+ k → False := by
    intro k hk hs ht
    have hm : modeAt s k = some (s.dirMode k) := modeAt_dir hk rfl
    have hclosed := h.source k _ ⟨ls, hsource, hs⟩ hm
    refine h.target k _ ⟨ld, htarget, ht⟩ hm ?_
    rw [show 0o200 = 0o222 &&& 0o200 from rfl, ← Nat.land_assoc, hclosed]
    rfl
  exact ⟨fun hs => both ld hld hs (List.suffix_refl ld), fun ht => both ls hls (List.suffix_refl ls) ht⟩

/-- The locks are right at the beginning of the copying when the modes fit. -/
theorem locked_iff (h : Grounds fs S₁ T₁ S₂ T₂ ls₁ lt₁ ls ld)
    (hp : Painted 0o440 (Walked fs T₁) fs (Walked fs T₁) s₀) : Locked S₂ T₂ s₀ ↔
      (∀ k mode, InTree fs S₂ k → modeAt fs k = some mode → ¬ Walked fs T₁ k → mode &&& 0o222 = 0) ∧
      ∀ k mode, InTree fs T₂ k → modeAt fs k = some mode → ¬ Walked fs T₁ k ∧ mode &&& 0o200 ≠ 0 := by
  have hsole : Sole (Walked fs T₁) (fun _ => True) fs :=
    fun l l' i hl => h.sole l l' i (.inl (h.backUpTarget.below hl))
  have hin : ∀ {root : Path} {l : Loc}, Tree fs root l → ∀ k, InTree s₀ root k ↔ InTree fs root k :=
    fun hr k => (hr.kept hp.node hp.data).inTree_iff.trans hr.inTree_iff.symm
  constructor
  · rintro ⟨hsource, htarget⟩
    refine ⟨fun k mode hk hm hw => ?_, fun k mode hk hm => ?_⟩
    · exact hsource k mode ((hin h.transferSource k).2 hk) ((modeAt_outside hp hsole hw).trans hm)
    · have hopen := htarget k
      have hk' := (hin h.transferTarget k).2 hk
      by_cases hw : Walked fs T₁ k
      · have hm' : modeAt s₀ k = some 0o440 := by rw [modeAt_walked hp hw, hm, Option.map_some]
        exact absurd rfl (hopen _ hk' hm')
      · exact ⟨hw, hopen mode hk' ((modeAt_outside hp hsole hw).trans hm)⟩
  · rintro ⟨hsource, htarget⟩
    constructor
    · intro k mode hk hm
      rw [hin h.transferSource] at hk
      by_cases hw : Walked fs T₁ k
      · rw [modeAt_walked hp hw] at hm
        obtain ⟨-, -, rfl⟩ := Option.map_eq_some_iff.1 hm
        rfl
      · exact hsource k mode hk ((modeAt_outside hp hsole hw).symm.trans hm) hw
    · intro k mode hk hm
      rw [hin h.transferTarget] at hk
      by_cases hw : Walked fs T₁ k
      · rw [modeAt_walked hp hw] at hm
        obtain ⟨m, hm, -⟩ := Option.map_eq_some_iff.1 hm
        exact absurd hw (htarget k m hk hm).1
      · exact (htarget k mode hk ((modeAt_outside hp hsole hw).symm.trans hm)).2

variable {r : Run} {mode : ℕ} {V : Loc → Prop}

/-- Where the copying has come to, however far it is. -/
theorem reaches_reached (h : Ready r fs) (hp : Painted mode V fs V s₀) (hstack : fs.bound ≤ stack)
    (hfuel : fs.bound ≤ fuel) (hs : ∀ t, (sched t).clean) (hreach : Reaches exec sched
      (TransferDirectory.transferDirectory (systemCalls sha256 fuel) stack r.source r.destination r.method)
      t s₀ q t' s) : Reached r fs s ∧ Grown s₀ s := by
  have hstart : Reached r fs s₀ := (Reached.start.of_same hp.node hp.data hp.next).1
  have hprogress : Progress sha256 r fs ∅ s₀ := h.start.stable (keeps_of_same hp.node hp.data)
  have hwithin := (run_meets_from h hstack hfuel hprogress).run sched hs t
  have hadvance := (transferDirectory_reached sha256 fuel h stack [] s₀ h.sourceDir hstart).run sched
    (fun _ => trivial) t
  have hmodes : ∀ e ∈ trace exec sched _ t s₀, keepsModes e.op = true :=
    (transferDirectory_keepsModes sha256 fuel stack r.source r.destination r.method).trace
  refine hreach.invariant (J := fun s => Reached r fs s ∧ Grown s₀ s) ?_ ⟨hstart, .refl s₀⟩
  rintro e he ⟨hreached, hgrown⟩
  refine ⟨(hadvance.2 e he hreached).1, hgrown.trans ?_⟩
  obtain ⟨c, hc⟩ := trace_exec exec sched he
  have hafter : (exec c e.op e.before).2 = e.after := congrArg Prod.snd hc
  have hpersists : FS.Persists e.before e.after := (hwithin.2 e he).persists
  rw [← hafter] at hpersists ⊢
  exact exec_grown c (hmodes e he) hpersists

/-- Where the target has every directory that the run would make in one of its own, it makes none at all. -/
theorem dir_old (h₀ : Ready r fs) (hdirs : ∀ n p, fs.node (n :: p ++ r.ls) = some .dir →
    fs.node (p ++ r.ld) = some .dir → fs.node (n :: p ++ r.ld) ≠ none) (h : Reached r fs s) (p : List Name)
    (hp : s.node (p ++ r.ld) = some .dir) : fs.node (p ++ r.ld) = some .dir := by
  induction p with
  | nil =>
    rcases h.framed.dest_node h₀ [] with hsame | ⟨-, hfree, -⟩
    · exact hsame.symm.trans hp
    · exact absurd hfree h₀.destStands
  | cons n p ih =>
    rcases h.framed.dest_node h₀ (n :: p) with hsame | ⟨-, hfree, -⟩
    · exact hsame.symm.trans hp
    have hparent : fs.node (p ++ r.ld) = some .dir := ih (s.node_tail hp)
    have hmade := h.dest (n :: p)
    have hnow : s.tree r.ld (n :: p) = some .dir := s.entry_dir.2 hp
    have hthen : fs.tree r.ld (n :: p) = none := fs.entry_none hfree
    rw [hnow, hthen] at hmade
    cases hmade with
    | made hsource _ => exact absurd hfree (hdirs n p (fs.entry_dir.1 hsource) hparent)

/-- The copying keeps the locks as long as it makes no directory. -/
theorem Locked.copied (hlocked : Locked r.source r.destination s₀) (h₀ : Ready r fs) (hp : Painted mode V fs V s₀)
    (hdirs : ∀ n p, fs.node (n :: p ++ r.ls) = some .dir → fs.node (p ++ r.ld) = some .dir →
      fs.node (n :: p ++ r.ld) ≠ none) (h : Reached r fs s) (hg : Grown s₀ s) :
    Locked r.source r.destination s := by
  have hstart : Reached r fs s₀ := (Reached.start.of_same hp.node hp.data hp.next).1
  have hold : ∀ k, s.node k = fs.node k → modeAt s k = modeAt s₀ k := fun k hk =>
    modeAt_grown hg (by rw [hk, hp.node])
  constructor
  · rintro k mode ⟨l, hl, p, rfl⟩ hm
    rw [h.framed.resolve_source h₀] at hl
    cases hl
    have hsame := h.framed.source_node h₀ (node_of_modeAt hm)
    exact hlocked.source _ mode ⟨r.ls, hstart.framed.resolve_source h₀, List.suffix_append ..⟩
      ((hold _ hsame).symm.trans hm)
  · rintro k mode ⟨l, hl, p, rfl⟩ hm
    rw [h.framed.resolve_dest h₀] at hl
    cases hl
    rcases h.framed.dest_node h₀ p with hsame | ⟨-, hfree, hnew⟩
    · exact hlocked.target _ mode ⟨r.ld, hstart.framed.resolve_dest h₀, List.suffix_append ..⟩
        ((hold _ hsame).symm.trans hm)
    rcases hn : s.node (p ++ r.ld) with _ | _ | i | t
    · exact absurd hn (node_of_modeAt hm)
    · have hd := dir_old h₀ hdirs h p hn
      rw [hfree] at hd
      cases hd
    · -- a new file
      rw [hn] at hnew
      have hmode : s.fileMode i = 0o666 := hg.newFiles i (hp.next.le.trans hnew) (s.node_fresh hn)
      rw [modeAt, hn] at hm
      cases hm
      rw [hmode]
      decide
    · rw [hn] at hnew
      exact hnew.elim

/-- A directory that the copying makes is one in which its owner may not write. -/
theorem directories_of_locked (hp : Painted mode V fs V s₀) (hprogress : Progress sha256 r fs Set.univ s)
    (hg : Grown s₀ s) (hlocked : Locked r.source r.destination s) (n : Name) (p : List Name)
    (hs : fs.node (n :: p ++ r.ls) = some .dir) (hd : fs.node (p ++ r.ld) = some .dir) :
    fs.node (n :: p ++ r.ld) ≠ none := by
  intro hfree
  have hparent : fs.tree r.ld p = some .dir := fs.entry_dir.2 hd
  have hnone : fs.tree r.ld (n :: p) = none := fs.entry_none hfree
  have hclear : Overlay.clear (fs.tree r.ld) (n :: p) = true := by
    refine Overlay.clear_cons.2 ⟨?_, by rw [hparent]; rfl⟩
    by_contra hno
    rw [(fs.tree_closed r.ld).eq_none_of_not_clear (by simpa using hno)] at hparent
    cases hparent
  have hsource : fs.tree r.ls (n :: p) = some .dir := fs.entry_dir.2 hs
  have hmade : s.tree r.ld (n :: p) = some .dir := by
    rw [hprogress.destDone _ (Set.mem_univ _), Overlay.overlay_dir hsource, hclear, hnone]
    rfl
  have hdir : s.node (n :: p ++ r.ld) = some .dir := s.entry_dir.1 hmade
  have hmode : s.dirMode (n :: p ++ r.ld) = 0o7 := by
    refine hg.newDirs _ ?_ hdir
    rw [hp.node, hfree]
    simp
  exact absurd rfl (hlocked.target _ 0o7 ⟨r.ld, hprogress.dest, List.suffix_append ..⟩ (modeAt_dir hdir hmode))

end Copying

section Runs

variable {fs s₀ s₁ s₂ : FS} {S₁ T₁ S₂ T₂ : Path} {ls₁ lt₁ ls ld k : Loc} {stack fuel : ℕ} {sha256 : Bytes → Bytes}
  {sched : ℕ → Choice}

theorem registered_eq (T : TimerPaths) (S₁ T₁ S₂ T₂ : Path) (first : TransferMethod) :
    registered T S₁ T₁ S₂ T₂ first = ⟨S₁, T₁, S₂, T₂⟩ := by
  cases first <;> rfl

/-- The lock of a backup takes the write permission from its own target, whatever the source is. -/
theorem lockBackup_target (hS : Tree fs S₁ ls₁) (hT : Tree fs T₁ lt₁) (hstack : fs.bound ≤ stack) :
    alone.Meets (Terms.Returns fun _ s => s.resolve T₁ = some lt₁ ∧ modeAt s lt₁ = some 0o440)
      (lock ⟨S₁, T₁, S₂, T₂⟩ stack .backup) fs := by
  refine Terms.Meets.bind_returns (hT.walk 0o440 (height_lt hstack lt₁)) ?_
  rintro _ fs₁ hpainted
  have hS₁ := hS.kept hpainted.node hpainted.data
  have hT₁ := hT.kept hpainted.node hpainted.data
  have hheight : ∀ p : List Name, fs₁.node (p ++ ls₁) ≠ none → p.length < stack := by
    rw [hpainted.node]
    exact height_lt hstack ls₁
  refine Terms.Meets.bind_returns (hS₁.walk 0o440 hheight) ?_
  rintro _ fs₂ hpainted' _ rfl
  have hT₂ := hT₁.kept hpainted'.node hpainted'.data
  have hmode : fs₁.dirMode lt₁ = 0o440 := hpainted.painted lt₁ hT.root_walked hT.isDir
  refine ⟨hT₂.resolves, modeAt_dir hT₂.isDir ?_⟩
  by_cases hw : Walked fs₁ S₁ lt₁
  · exact hpainted'.painted lt₁ hw hT₁.isDir
  · rw [hpainted'.outside lt₁ hw, hmode]

/-- While a backup copies, its owner may not write to the root of its target. -/
theorem backup_uncovered (hS : Tree fs S₁ ls₁) (hT : Tree fs T₁ lt₁) (hstack : fs.bound ≤ stack)
    (hs : ∀ t, (sched t).clean) : ¬ LocksCover ⟨S₁, T₁, S₂, T₂⟩ stack sha256 fuel sched .backup fs := by
  intro hcover
  have hlock : alone.Meets _ (lock ⟨S₁, T₁, S₂, T₂⟩ stack .backup) fs := lockBackup_target hS hT hstack
  obtain ⟨⟨⟩, t, s, hrun, hroot, hmode⟩ := hlock.run_returns sched hs 0
  have hlocked := hcover.during s ⟨t, s, _, _, hrun, .here _ _ _⟩
  exact hlocked.target lt₁ 0o440 ⟨lt₁, hroot, List.suffix_refl lt₁⟩ hmode (by decide)

/-- What the run of a transfer's timer has come to after its lock, its copying and its unlock. -/
structure Phases (r : Run) (T₁ : Path) (fs s₀ s₁ s₂ : FS) : Prop where
  locked : Painted 0o440 (Walked fs T₁) fs (Walked fs T₁) s₀
  reached : Reached r fs s₁
  grown : Grown s₀ s₁
  unlocked : Painted 0o660 (Walked fs T₁) s₁ (Walked fs T₁) s₂

/-- Away from the two directories of the transfer the walked places have the mode of the unlock in the end, and
the other places have the mode they had. -/
theorem Phases.modeAt_end (h : Phases (transferOf S₂ T₂ ls ld) T₁ fs s₀ s₁ s₂)
    (hg : Grounds fs S₁ T₁ S₂ T₂ ls₁ lt₁ ls ld) (hsource : ¬ InTree fs S₂ k) (htarget : ¬ InTree fs T₂ k) :
    (Walked fs T₁ k → modeAt s₂ k = (modeAt fs k).map fun _ => 0o660) ∧
      (¬ Walked fs T₁ k → modeAt s₂ k = modeAt fs k) := by
  have hsole : Sole (Walked fs T₁) (fun _ => True) fs :=
    fun l l' i hl => hg.sole l l' i (.inl (hg.backUpTarget.below hl))
  have hnode : s₁.node k = fs.node k := by
    rcases h.reached.framed.kept k with hsame | ⟨p, hk, -, -, -⟩ | ⟨p, hk, -, -, -, -⟩
    · exact hsame
    · exact absurd (hg.transferTarget.inTree_iff.2 ⟨p, hk.symm⟩) htarget
    · exact absurd (hg.transferSource.inTree_iff.2 ⟨p, hk.symm⟩) hsource
  have hcopied : modeAt s₁ k = modeAt s₀ k := modeAt_grown h.grown (hnode.trans (by rw [h.locked.node]))
  constructor
  · intro hw
    rw [modeAt_walked h.unlocked hw, hcopied, modeAt_walked h.locked hw, Option.map_map]
    rfl
  · intro hw
    rw [modeAt_outside h.unlocked (h.reached.sole _ _ hsole) hw, hcopied, modeAt_outside h.locked hsole hw]

theorem Phases.after_iff (h : Phases (transferOf S₂ T₂ ls ld) T₁ fs s₀ s₁ s₂)
    (hg : Grounds fs S₁ T₁ S₂ T₂ ls₁ lt₁ ls ld) :
    (∀ k mode mode', ¬ InTree fs S₂ k → ¬ InTree fs T₂ k → modeAt fs k = some mode →
        modeAt s₂ k = some mode' → mode' = mode) ↔
      ∀ k mode, ¬ InTree fs S₂ k → ¬ InTree fs T₂ k → Walked fs T₁ k → modeAt fs k = some mode → mode = 0o660 := by
  constructor
  · intro hafter k mode hs ht hw hm
    have hend : modeAt s₂ k = some 0o660 := by rw [(h.modeAt_end hg hs ht).1 hw, hm, Option.map_some]
    exact (hafter k mode _ hs ht hm hend).symm
  · intro hothers k mode mode' hs ht hm hm'
    by_cases hw : Walked fs T₁ k
    · rw [(h.modeAt_end hg hs ht).1 hw, hm, Option.map_some] at hm'
      rw [hothers k mode hs ht hw hm]
      exact (Option.some.inj hm').symm
    · rw [(h.modeAt_end hg hs ht).2 hw, hm] at hm'
      exact (Option.some.inj hm').symm

/-- Where no directory is made, the trees are at most one entry deeper after the copying. -/
theorem height_copied {r : Run} (h₀ : Ready r fs) (h : Reached r fs s₁) (hdirs : ∀ n p,
    fs.node (n :: p ++ r.ls) = some .dir → fs.node (p ++ r.ld) = some .dir → fs.node (n :: p ++ r.ld) ≠ none)
    (hstack : fs.bound < stack) (l : Loc) (p : List Name) (hp : s₁.node (p ++ l) ≠ none) : p.length < stack := by
  have hlength : (p ++ l).length ≤ fs.bound := by
    by_cases hold : fs.node (p ++ l) = none
    · rcases h.framed.kept (p ++ l) with hsame | ⟨q, hq, -, -, -⟩ | ⟨q, -, i, hfile, -, -⟩
      · exact absurd (hsame.trans hold) hp
      · rw [hq] at hp hold ⊢
        rcases q with _ | ⟨n, q⟩
        · exact absurd hold h₀.destStands
        have hparent : fs.node (q ++ r.ld) = some .dir := dir_old h₀ hdirs h q (s₁.node_parent hp)
        have hlength : (q ++ r.ld).length < fs.bound := fs.length_lt_bound (by simp [hparent])
        exact hlength
      · rw [hold] at hfile
        cases hfile
    · exact (fs.length_lt_bound hold).le
  rw [List.length_append] at hlength
  omega

theorem copying_iff {T : TimerPaths} {method : TransferMethod} {t : ℕ} {s : FS}
    (hlock : run exec sched (lock T stack method) 0 fs = ⟨some (), t, s₀⟩) :
    Copying T stack sha256 fuel sched method fs s ↔
      ∃ q t', Reaches exec sched (copy T stack sha256 fuel method) t s₀ q t' s := by
  constructor
  · rintro ⟨t', s₀', q, t'', hlock', hreach⟩
    rw [hlock] at hlock'
    cases hlock'
    exact ⟨q, t'', hreach⟩
  · rintro ⟨q, t', hreach⟩
    exact ⟨t, s₀, q, t', hlock, hreach⟩

/-- The copying, from its beginning to its end. -/
theorem copied_run {T : TimerPaths} {t : ℕ} (h₀ : Ready (transferOf T.transferSource T.transferTarget ls ld) fs)
    (hpainted : Painted 0o440 (Walked fs T₁) fs (Walked fs T₁) s₀) (hstack : fs.bound ≤ stack)
    (hfuel : fs.bound ≤ fuel) (hs : ∀ t, (sched t).clean) : ∃ n t₁ s₁,
      run exec sched (copy T stack sha256 fuel .transfer) t s₀ = ⟨some n, t₁, s₁⟩ ∧
      Progress sha256 (transferOf T.transferSource T.transferTarget ls ld) fs Set.univ s₁ ∧
      Reached (transferOf T.transferSource T.transferTarget ls ld) fs s₁ ∧ Grown s₀ s₁ := by
  have hstart : Progress sha256 _ fs ∅ s₀ := h₀.start.stable (keeps_of_same hpainted.node hpainted.data)
  obtain ⟨n, t₁, s₁, hrun, hprogress⟩ := (run_meets_from h₀ hstack hfuel hstart).run_returns sched hs t
  have hrun : run exec sched (copy T stack sha256 fuel .transfer) t s₀ = ⟨some n, t₁, s₁⟩ := hrun
  obtain ⟨q, t', hreach⟩ := Reaches.last hrun
  exact ⟨n, t₁, s₁, hrun, hprogress, reaches_reached h₀ hpainted hstack hfuel hs hreach⟩

theorem Tree.reached {r : Run} {root : Path} {l : Loc} (hT : Tree fs root l) (h : Reached r fs s₁) :
    Tree s₁ root l where
  resolves := fs.resolve_persists h.framed.persists hT.resolves
    (by rw [hT.isDir, h.framed.persists.dirs l hT.isDir])
  isDir := h.framed.persists.dirs l hT.isDir
  linkFree := by
    intro k t hk hlink
    rcases h.framed.kept k with hsame | ⟨p, -, -, -, hnew⟩ | ⟨p, -, i, -, -, hgone⟩
    · exact hT.linkFree k t hk (hsame.symm.trans hlink)
    · rw [hlink] at hnew
      exact hnew
    · rw [hlink] at hgone
      cases hgone

/-- The unlock walks over what the lock has walked over. -/
theorem unlocked_run {T : TimerPaths} {t₁ : ℕ} {r : Run} (hT : Tree fs T.backUpTarget lt₁) (h₀ : Ready r fs)
    (h : Reached r fs s₁) (hdirs : ∀ n p, fs.node (n :: p ++ r.ls) = some .dir →
      fs.node (p ++ r.ld) = some .dir → fs.node (n :: p ++ r.ld) ≠ none) (hstack : fs.bound < stack)
    (hs : ∀ t, (sched t).clean) : ∃ t₂ s₂, run exec sched (unlock T stack .transfer) t₁ s₁ = ⟨some (), t₂, s₂⟩ ∧
      Painted 0o660 (Walked fs T.backUpTarget) s₁ (Walked fs T.backUpTarget) s₂ := by
  have hunlock : alone.Meets _ (unlock T stack .transfer) s₁ :=
    unlockTransfer_paints (hT.reached h) (height_copied h₀ h hdirs hstack lt₁)
  obtain ⟨⟨⟩, t₂, s₂, hrun, hpainted⟩ := hunlock.run_returns sched hs t₁
  have hwalked : Walked s₁ T.backUpTarget = Walked fs T.backUpTarget :=
    funext fun k => propext (hT.walked_persists h.framed.persists)
  rw [hwalked] at hpainted
  exact ⟨t₂, s₂, hrun, hpainted⟩

theorem timerRun_state {T : TimerPaths} {method : TransferMethod} {t t₁ t₂ : ℕ} {n : ℤ}
    (hlock : run exec sched (lock T stack method) 0 fs = ⟨some (), t, s₀⟩)
    (hcopy : run exec sched (copy T stack sha256 fuel method) t s₀ = ⟨some n, t₁, s₁⟩)
    (hunlock : run exec sched (unlock T stack method) t₁ s₁ = ⟨some (), t₂, s₂⟩) :
    (run exec sched (timerRun T stack sha256 fuel method) 0 fs).state = s₂ := by
  simp only [timerRun_phases, run_bind, Outcome.andThen, hlock, hcopy, hunlock]

section Transfer

variable {t : ℕ} (hg : Grounds fs S₁ T₁ S₂ T₂ ls₁ lt₁ ls ld) (h₀ : Ready (transferOf S₂ T₂ ls ld) fs)
  (hlock : run exec sched (lock ⟨S₁, T₁, S₂, T₂⟩ stack .transfer) 0 fs = ⟨some (), t, s₀⟩)
  (hpainted : Painted 0o440 (Walked fs T₁) fs (Walked fs T₁) s₀) (hstack : fs.bound < stack)
  (hfuel : fs.bound ≤ fuel) (hs : ∀ t, (sched t).clean)
include h₀ hlock hpainted hstack hfuel hs

/-- The locks hold while a transfer copies when they hold as it begins and it makes no directory. -/
theorem during_iff : (∀ s, Copying ⟨S₁, T₁, S₂, T₂⟩ stack sha256 fuel sched .transfer fs s → Locked S₂ T₂ s) ↔
    Locked S₂ T₂ s₀ ∧ ∀ n p, fs.node (n :: p ++ ls) = some .dir → fs.node (p ++ ld) = some .dir →
      fs.node (n :: p ++ ld) ≠ none := by
  constructor
  · intro hduring
    refine ⟨hduring s₀ ((copying_iff hlock).2 ⟨_, _, .here _ _ _⟩), ?_⟩
    obtain ⟨n, t₁, s₁, hcopy, hprogress, -, hgrown⟩ :=
      copied_run (T := ⟨S₁, T₁, S₂, T₂⟩) h₀ hpainted hstack.le hfuel hs
    obtain ⟨q, t', hreach⟩ := Reaches.last hcopy
    exact directories_of_locked hpainted hprogress hgrown (hduring s₁ ((copying_iff hlock).2 ⟨q, t', hreach⟩))
  · rintro ⟨hlocked, hdirs⟩ s hcopying
    obtain ⟨q, t', hreach⟩ := (copying_iff hlock).1 hcopying
    obtain ⟨hreached, hgrown⟩ := reaches_reached h₀ hpainted hstack.le hfuel hs hreach
    exact hlocked.copied h₀ hpainted hdirs hreached hgrown

include hg in
theorem after_iff (hdirs : ∀ n p, fs.node (n :: p ++ ls) = some .dir → fs.node (p ++ ld) = some .dir →
      fs.node (n :: p ++ ld) ≠ none) :
    (∀ k mode mode', ¬ InTree fs S₂ k → ¬ InTree fs T₂ k → modeAt fs k = some mode → modeAt
        (run exec sched (timerRun ⟨S₁, T₁, S₂, T₂⟩ stack sha256 fuel .transfer) 0 fs).state k = some mode' →
        mode' = mode) ↔
      ∀ k mode, ¬ InTree fs S₂ k → ¬ InTree fs T₂ k → Walked fs T₁ k → modeAt fs k = some mode → mode = 0o660 := by
  obtain ⟨n, t₁, s₁, hcopy, -, hreached, hgrown⟩ :=
    copied_run (T := ⟨S₁, T₁, S₂, T₂⟩) h₀ hpainted hstack.le hfuel hs
  obtain ⟨t₂, s₂, hunlock, hunlocked⟩ :=
    unlocked_run (T := ⟨S₁, T₁, S₂, T₂⟩) hg.backUpTarget h₀ hreached hdirs hstack hs
  have hphases : Phases (transferOf S₂ T₂ ls ld) T₁ fs s₀ s₁ s₂ := ⟨hpainted, hreached, hgrown, hunlocked⟩
  rw [timerRun_state hlock hcopy hunlock]
  exact hphases.after_iff hg

end Transfer

/-- The locks of a transfer cover its run exactly when the modes fit the places that they walk over. -/
theorem transfer_covered_iff (hg : Grounds fs S₁ T₁ S₂ T₂ ls₁ lt₁ ls ld) (hstack : fs.bound < stack)
    (hfuel : fs.bound ≤ fuel) (hs : ∀ t, (sched t).clean) :
    LocksCover ⟨S₁, T₁, S₂, T₂⟩ stack sha256 fuel sched .transfer fs ↔ Fits fs T₁ S₂ T₂ := by
  have hlocks : alone.Meets _ (lock ⟨S₁, T₁, S₂, T₂⟩ stack .transfer) fs :=
    lockTransfer_paints (T := ⟨S₁, T₁, S₂, T₂⟩) hg.backUpTarget hstack.le
  obtain ⟨⟨⟩, t, s₀, hlock, hpainted⟩ := hlocks.run_returns sched hs 0
  have hready : Locked S₂ T₂ s₀ → Ready (transferOf S₂ T₂ ls ld) fs := by
    intro hlocked
    have hS := hg.transferSource.kept hpainted.node hpainted.data
    have hT := hg.transferTarget.kept hpainted.node hpainted.data
    obtain ⟨hsource, hdest⟩ := apart_of_locked hS.resolves hT.resolves hS.isDir hT.isDir hlocked
    exact hg.ready hsource hdest
  constructor
  · intro hcover
    have h₀ := hready (hcover.during s₀ ((copying_iff hlock).2 ⟨_, _, .here _ _ _⟩))
    obtain ⟨hlocked, hdirs⟩ := (during_iff h₀ hlock hpainted hstack hfuel hs).1 hcover.during
    obtain ⟨hsource, htarget⟩ := (locked_iff hg hpainted).1 hlocked
    refine ⟨hsource, htarget, ?_, (after_iff hg h₀ hlock hpainted hstack hfuel hs hdirs).1 hcover.after⟩
    intro ls' ld' n p hls hld
    cases hg.transferSource.resolves.symm.trans hls
    cases hg.transferTarget.resolves.symm.trans hld
    exact hdirs n p
  · intro hfits
    have hlocked := (locked_iff hg hpainted).2 ⟨hfits.source, hfits.target⟩
    have hdirs := fun n p => hfits.directories ls ld n p hg.transferSource.resolves hg.transferTarget.resolves
    have h₀ := hready hlocked
    exact ⟨(during_iff h₀ hlock hpainted hstack hfuel hs).2 ⟨hlocked, hdirs⟩,
      (after_iff hg h₀ hlock hpainted hstack hfuel hs hdirs).2 hfits.others⟩

/-- Of the runs of the two timers only those of transfers can be covered by their locks. -/
theorem timerRun_covered_iff (T : TimerPaths) (first method : TransferMethod)
    (hg : Grounds fs S₁ T₁ S₂ T₂ ls₁ lt₁ ls ld) (hstack : fs.bound < stack) (hfuel : fs.bound ≤ fuel)
    (hs : ∀ t, (sched t).clean) :
    LocksCover (registered T S₁ T₁ S₂ T₂ first) stack sha256 fuel sched method fs ↔
      method = .transfer ∧ Fits fs T₁ S₂ T₂ := by
  rw [registered_eq]
  cases method with
  | backup =>
    refine iff_of_false (backup_uncovered hg.backUpSource hg.backUpTarget hstack.le hs) ?_
    rintro ⟨hmethod, -⟩
    cases hmethod
  | transfer =>
    rw [transfer_covered_iff hg hstack hfuel hs]
    exact (and_iff_right rfl).symm

end Runs

section Sample

/-- A report lies in a folder of the dashboard, and the backup has a folder of that name. -/
def stocked : FS := ((do
  let dashboard ← sample.makeDir (bytes "d" :: standard .dashboard) 0o770
  let backup ← dashboard.makeDir (bytes "d" :: standard .backup) 0o770
  backup.create (bytes "b" :: bytes "d" :: standard .dashboard) 0o660).getD sample).write 1 [2]

theorem stocked_linkFree : ∀ l ∈ stocked.nodes.keys, typeAt stocked l ≠ some .symlink := by decide +kernel

theorem stocked_sole : ∀ l ∈ stocked.nodes.keys, ∀ l' ∈ stocked.nodes.keys, stocked.node l ≠ some .dir →
    stocked.node l' = stocked.node l → l' = l := by decide +kernel

theorem stocked_tree (d : Directory) : Tree stocked d.path (standard d) where
  resolves := by cases d <;> decide +kernel
  isDir := by cases d <;> decide +kernel
  linkFree := by
    intro l t _ hl
    exact stocked_linkFree l (stocked.mem_keys.1 (by simp [hl])) (by simp [typeAt, hl])

theorem stocked_short : ∀ l ∈ stocked.nodes.keys, ∀ d e : Directory, standard d <:+ l →
    (pathOf e.path (l.take (l.length - 3))).length < pathSize := by decide +kernel

theorem stocked_grounds : Grounds stocked (Directory.path .reports) (Directory.path .dashboard)
    (Directory.path .dashboard) (Directory.path .backup) (standard .reports) (standard .dashboard)
    (standard .dashboard) (standard .backup) where
  backUpSource := stocked_tree .reports
  backUpTarget := stocked_tree .dashboard
  transferSource := stocked_tree .dashboard
  transferTarget := stocked_tree .backup
  sole l l' i _ _ hl hl' := stocked_sole l (stocked.mem_keys.1 (by simp [hl])) l' (stocked.mem_keys.1 (by simp [hl']))
    (by simp [hl]) (hl'.trans hl.symm)
  short := by
    intro p hp
    have h := stocked_short _ (stocked.mem_keys.1 hp)
    have hlen : (p ++ standard .dashboard).length - 3 = p.length := by simp [standard]
    have hs := h .dashboard .dashboard (List.suffix_append p _)
    have hd := h .dashboard .backup (List.suffix_append p _)
    rw [hlen, List.take_left] at hs hd
    exact ⟨hs, hd⟩

theorem stocked_walked {k : Loc} : Walked stocked (Directory.path .dashboard) k ↔
    InTree stocked (Directory.path .dashboard) k := by
  have hentry : stocked.resolveEntry (Directory.path .dashboard) = some (standard .dashboard) := by decide +kernel
  have hno : ¬ EndsInLink stocked (Directory.path .dashboard) := by
    rintro ⟨k, t, hk, hlink⟩
    rw [hentry] at hk
    cases hk
    rw [(stocked_tree .dashboard).isDir] at hlink
    cases hlink
  rw [(stocked_tree .dashboard).walked_iff, (stocked_tree .dashboard).inTree_iff]
  constructor
  · rintro (rfl | ⟨hk, -⟩)
    · exact List.suffix_refl _
    · exact hk
  · exact fun hk => .inr ⟨hk, hno⟩

theorem stocked_backup : ∀ l ∈ stocked.nodes.keys, standard .backup <:+ l →
    modeAt stocked l = some 0o770 ∧ ¬ standard .dashboard <:+ l := by decide +kernel

theorem stocked_folders : ∀ l ∈ stocked.nodes.keys, standard .dashboard <:+ l → stocked.node l = some .dir →
    stocked.node (l.take (l.length - 3) ++ standard .backup) ≠ none := by decide +kernel

theorem stocked_fits : Fits stocked (Directory.path .dashboard) (Directory.path .dashboard)
    (Directory.path .backup) where
  source k mode hk _ hw := absurd (stocked_walked.2 hk) hw
  target k mode hk hm := by
    rw [(stocked_tree .backup).inTree_iff] at hk
    obtain ⟨hmode, hapart⟩ := stocked_backup k (stocked.mem_keys.1 (node_of_modeAt hm)) hk
    rw [hm] at hmode
    cases hmode
    rw [stocked_walked, (stocked_tree .dashboard).inTree_iff]
    exact ⟨hapart, by decide⟩
  directories ls ld n p hls hld hdir _ := by
    cases (stocked_tree .dashboard).resolves.symm.trans hls
    cases (stocked_tree .backup).resolves.symm.trans hld
    have hne : stocked.node (n :: p ++ standard .dashboard) ≠ none := by rw [hdir]; simp
    have h := stocked_folders _ (stocked.mem_keys.1 hne) (List.suffix_append ..) hdir
    have hlen : (n :: p ++ standard .dashboard).length - 3 = (n :: p).length := by simp [standard]
    rwa [hlen, List.take_left] at h
  others k mode hk _ hw _ := absurd (stocked_walked.1 hw) hk

/-- The registrations of the daemon, and a transfer that copies the report to the backup. -/
theorem timerRun_covered_stocked : LocksCover scheduled (stocked.bound + 1) id stocked.bound
    (fun _ => Choice.plain) .transfer stocked := by
  have hclean : ∀ t : ℕ, ((fun _ => Choice.plain : ℕ → Choice) t).clean := fun _ => rfl
  exact (timerRun_covered_iff ⟨[], [], [], []⟩ .backup .transfer stocked_grounds (Nat.lt_succ_self _) le_rfl
    hclean).2 ⟨rfl, stocked_fits⟩

theorem sample_tree (d : Directory) : Tree sample d.path (standard d) where
  resolves := sample_plain.resolves d
  isDir := sample_plain.isDir d
  linkFree := fun l t hl => sample_plain.linkFree l t ⟨d, hl⟩

/-- The registrations of the daemon, and its backup. -/
theorem not_covered_scheduled : ¬ LocksCover scheduled sample.bound id sample.bound (fun _ => Choice.plain)
    .backup sample :=
  backup_uncovered (sample_tree .reports) (sample_tree .dashboard) le_rfl fun _ => rfl

end Sample

end Reportman.Locks
