import Mathlib
import Reportman.EntryPoints
import Reportman.Frame
import Reportman.Halfway

/-!
# Runs that were broken off

The daemon may be killed in the middle of a run, and a backup may be hampered by calls that fail. Whatever such a
run leaves in the directories, the next one that is let alone brings them to where the first would have brought
them, had it been let alone.
-/
namespace Reportman.Recovery
open Resumable FileSystem TransferFile TransferDirectory OverlayRun Directories Faults EntryPoints Overlay
open Reportman.Frame

section Steps

variable {r : Run} {fs₀ fs fs' : FS} {p : List Name}

/-- Where a run that began in `fs₀` may have come to. -/
structure Reached (r : Run) (fs₀ fs : FS) : Prop where
  framed : Framed r fs₀ fs
  sole : ∀ F G, Sole F G fs₀ → Sole F G fs
  dest : ∀ p, Meanwhile (fs₀.tree r.ls p) (fs₀.tree r.ld p) (fs.tree r.ld p)
  placed : ∀ p, fs₀.node (p ++ r.ls) ≠ none → fs.node (p ++ r.ls) = none →
    ∃ i, fs.node (p ++ r.ld) = some (.file i)

/-- What no longer has a source stays as it is. -/
def Settles (r : Run) (fs fs' : FS) : Prop :=
  ∀ p, fs.node (p ++ r.ls) = none → fs'.node (p ++ r.ls) = none ∧ fs'.tree r.ld p = fs.tree r.ld p

/-- What every call of a run does. -/
def advances (r : Run) (fs₀ : FS) : CallCondition := fun _ _ fs fs' =>
  Reached r fs₀ fs → Reached r fs₀ fs' ∧ Settles r fs fs'

theorem Settles.refl (r : Run) (fs : FS) : Settles r fs fs := fun _ hp => ⟨hp, rfl⟩

theorem Settles.trans {a b c : FS} (h : Settles r a b) (h' : Settles r b c) : Settles r a c := by
  intro p hp
  obtain ⟨hb, hab⟩ := h p hp
  obtain ⟨hc, hbc⟩ := h' p hb
  exact ⟨hc, hbc.trans hab⟩

theorem Reached.start : Reached r fs₀ fs₀ :=
  ⟨Framed.start, fun _ _ h => h, fun _ => .same, fun _ hp hn => absurd hn hp⟩

/-- A change at one place of the destination whose source stands. -/
theorem Reached.at_dest (h : Reached r fs₀ fs) (h₀ : Ready r fs₀) (hf : Framed r fs₀ fs')
    (hw : Within (· = p ++ r.ld) fs fs') (hp : fs.node (p ++ r.ls) ≠ none)
    (hd : Meanwhile (fs₀.tree r.ls p) (fs₀.tree r.ld p) (fs'.tree r.ld p)) :
    Reached r fs₀ fs' ∧ Settles r fs fs' := by
  have hkeeps : Keeps (fun l => r.footprint l ∧ l ≠ p ++ r.ld) fs fs' := by
    refine hw.keeps (fun l hl => hl.2) ((h.sole _ _ h₀.sole).symm.mono (fun l hl => hl.1) ?_)
    rintro _ rfl
    exact List.suffix_append ..
  have hsource : ∀ q, fs'.node (q ++ r.ls) = fs.node (q ++ r.ls) := fun q =>
    hkeeps.node _ ⟨r.footprint_source q, h₀.apart q p⟩
  have hother : ∀ q, q ≠ p → r.footprint (q ++ r.ld) ∧ q ++ r.ld ≠ p ++ r.ld := fun q hq =>
    ⟨r.footprint_dest q, fun he => hq (List.append_cancel_right he)⟩
  refine ⟨⟨hf, fun F G hs => hw.sole F G (h.sole F G hs), fun q => ?_, fun q hq hnone => ?_⟩, fun q hq => ?_⟩
  · by_cases hqp : q = p
    · exact hqp ▸ hd
    · have hsame : fs'.tree r.ld q = fs.tree r.ld q := hkeeps.entry (hother q hqp)
      rw [hsame]
      exact h.dest q
  · rw [hsource] at hnone
    obtain ⟨i, hi⟩ := h.placed q hq hnone
    exact ⟨i, (hkeeps.node _ (hother q fun he => hp (he ▸ hnone))).trans hi⟩
  · exact ⟨(hsource q).trans hq, hkeeps.entry (hother q fun he => hp (he ▸ hq))⟩

/-- A file of the source taken away, once there is one in its place in the destination. -/
theorem Reached.at_source (h : Reached r fs₀ fs) (h₀ : Ready r fs₀) (hf : Framed r fs₀ fs')
    (hw : Within (· = p ++ r.ls) fs fs') {j : ℕ} (hj : fs.node (p ++ r.ld) = some (.file j))
    (hgone : fs'.node (p ++ r.ls) = none) : Reached r fs₀ fs' ∧ Settles r fs fs' := by
  have hkeeps : Keeps (r.ld <:+ ·) fs fs' := by
    refine hw.keeps ?_ ((h.sole _ _ h₀.sole).mono (fun l hl => hl) ?_)
    · rintro _ ⟨q, rfl⟩ he
      exact h₀.apart p q he.symm
    · rintro _ rfl
      exact r.footprint_source p
  have hdest : ∀ q, fs'.tree r.ld q = fs.tree r.ld q := fun q => hkeeps.entry (List.suffix_append ..)
  refine ⟨⟨hf, fun F G hs => hw.sole F G (h.sole F G hs), fun q => ?_, fun q hq hnone => ?_⟩, fun q hq => ?_⟩
  · rw [hdest]
    exact h.dest q
  · rw [hkeeps.node _ (List.suffix_append ..)]
    by_cases hqp : q = p
    · exact ⟨j, hqp ▸ hj⟩
    · refine h.placed q hq ?_
      rw [← hw.node (q ++ r.ls) fun he => hqp (List.append_cancel_right he), hnone]
  · refine ⟨?_, hdest q⟩
    by_cases hqp : q = p
    · exact hqp ▸ hgone
    · rw [hw.node (q ++ r.ls) fun he => hqp (List.append_cancel_right he), hq]

/-- Where `mkdir` of a destination directory makes something, it does so at its place. -/
theorem mkdir_place (h : Framed r fs₀ fs) (h₀ : Ready r fs₀) (hp : fs₀.node (p ++ r.ls) ≠ none) {n : Name}
    {d : Loc} (hd : fs.node d = some .dir) (hn : ValidName n) (hfree : fs.node (n :: d) = none)
    (hr : fs.resolveEntry (stripSlashes (pathOf r.destination p)) = some (n :: d)) : n :: d = p ++ r.ld := by
  cases p with
  | nil =>
    have hstands : fs.node r.ld ≠ none := by
      rcases h.dest_node h₀ [] with hs | ⟨-, hf, -⟩
      · exact fun hn => h₀.destStands (hs.symm.trans hn)
      · exact absurd hf h₀.destStands
    have hno := mkdir_existing (pathOf r.destination []) 0o7 (h.resolve_dest h₀) hstands
    rw [hr, Option.bind_some, FS.makeDir, dif_pos ⟨hd, hn, hfree⟩] at hno
    cases hno
  | cons m p =>
    have hvalid := valid_of_node hp
    obtain ⟨hm, hs⟩ := hvalid m (List.mem_cons_self ..)
    rw [pathOf, stripSlashes_join _ hm.1 hs, ← pathOf,
      resolveEntry_pathOf (h.resolve_dest h₀) ((h.linkFree h₀).below r.footprint_dest p) hvalid] at hr
    split_ifs at hr
    exact (Option.some.inj hr).symm

theorem Reached.mkdir (h : Reached r fs₀ fs) (h₀ : Ready r fs₀) (hp : fs₀.node (p ++ r.ls) = some .dir)
    (c : Choice) : Reached r fs₀ (exec c (.mkdir (pathOf r.destination p) 0o7) fs).2 ∧
      Settles r fs (exec c (.mkdir (pathOf r.destination p) 0o7) fs).2 := by
  have hne : fs₀.node (p ++ r.ls) ≠ none := by simp [hp]
  have hf := h.framed.mkdir h₀ hne c
  obtain he | ⟨n, d, hd, hn, hfree, hr, he⟩ := exec_mkdir_cases c (pathOf r.destination p) 0o7 fs
  · rw [he]
    exact ⟨h, Settles.refl r fs⟩
  rw [he] at hf ⊢
  have hplace := mkdir_place h.framed h₀ hne hd hn hfree hr
  refine h.at_dest h₀ hf (within_addDir hplace) ?_ ?_
  · rw [h.framed.persists.dirs _ hp]
    simp
  · have hnow : fs.tree r.ld p = none := fs.entry_none (hplace ▸ hfree)
    have hthen : (fs.addDir n d 0o7 hd hn hfree).tree r.ld p = some .dir :=
      (FS.entry_dir _).2 (by rw [FS.node_addDir, if_pos hplace.symm])
    rw [hthen]
    exact (hnow ▸ h.dest p).make (fs₀.entry_dir.2 hp)

/-- A source that stands and is no directory is a file. -/
theorem Reached.isFile_source (h : Reached r fs₀ fs) (h₀ : Ready r fs₀) (hp : fs.node (p ++ r.ls) ≠ none)
    (hdir : fs.node (p ++ r.ls) ≠ some .dir) : isFile (fs₀.tree r.ls p) = true := by
  have hsame := h.framed.source_node h₀ hp
  rcases hn : fs₀.node (p ++ r.ls) with _ | _ | i | t
  · exact absurd (hsame.trans hn) hp
  · exact absurd (hsame.trans hn) hdir
  · exact isFile_iff.2 ⟨_, fs₀.entry_file hn⟩
  · exact absurd hn (h₀.linkFree _ t (r.footprint_source p))

/-- `"wb"` on the destination side. -/
theorem Reached.openWrite (h : Reached r fs₀ fs) (h₀ : Ready r fs₀) (hp : fs.node (p ++ r.ls) ≠ none)
    (hdir : fs.node (p ++ r.ls) ≠ some .dir) {j : ℕ} {fs₁ : FS}
    (ho : fs.openWrite (pathOf r.destination p) = (some ⟨some j, .wb, 0, []⟩, fs₁)) :
    (Reached r fs₀ fs₁ ∧ Settles r fs fs₁) ∧ Written r fs₀ j ∧ fs₁.node (p ++ r.ls) = fs.node (p ++ r.ls) ∧
      fs₁.node (p ++ r.ld) = some (.file j) := by
  have hp₀ : fs₀.node (p ++ r.ls) ≠ none := h.framed.source_node h₀ hp ▸ hp
  obtain ⟨hf, hwritten, hrest⟩ := h.framed.openWrite h₀ hp₀ ho
  have hQ : fs.resolve (pathOf r.destination p) = some (p ++ r.ld) := by
    cases hr : fs.resolve (pathOf r.destination p) with
    | none =>
      rw [FS.openWrite, hr] at ho
      cases ho
    | some l => rw [h.framed.resolve_destPath h₀ hp₀ hr]
  have hnotdir : fs.node (p ++ r.ld) ≠ some .dir := by
    intro hd
    simp [FS.openWrite, hQ, hd] at ho
  obtain ⟨j', fs', he, hj, -, hw⟩ := openWrite_opens hQ hnotdir
    fun t => h.framed.linkFree h₀ _ t (r.footprint_dest p)
  rw [he] at ho
  cases ho
  refine ⟨h.at_dest h₀ hf hw hp ?_, hwritten, hrest _ (h₀.apart p p), hj⟩
  have hnow : fs₁.tree r.ld p = some (.file (fs₁.data j)) := fs₁.entry_file hj
  rw [hnow]
  refine (h.dest p).write (h.isFile_source h₀ hp hdir) ?_ _
  rw [← Bool.not_eq_true, isDir_iff]
  exact fun hd => hnotdir (fs.entry_dir.1 hd)

theorem Reached.write (h : Reached r fs₀ fs) (h₀ : Ready r fs₀) (hp : fs.node (p ++ r.ls) ≠ none)
    (hdir : fs.node (p ++ r.ls) ≠ some .dir) {j : ℕ} (hj : fs.node (p ++ r.ld) = some (.file j))
    (hwritten : Written r fs₀ j) (content : Bytes) :
    Reached r fs₀ (fs.write j content) ∧ Settles r fs (fs.write j content) := by
  refine h.at_dest h₀ (h.framed.write hwritten content) (within_write rfl hj) hp ?_
  have hnow : fs.tree r.ld p = some (.file (fs.data j)) := fs.entry_file hj
  have hthen : (fs.write j content).tree r.ld p = some (.file ((fs.write j content).data j)) := FS.entry_file _ hj
  rw [hthen]
  exact (h.dest p).write (h.isFile_source h₀ hp hdir) (by simp [hnow, isDir]) _

theorem Reached.remove (h : Reached r fs₀ fs) (h₀ : Ready r fs₀) (hm : r.method = .transfer)
    (hp : fs.node (p ++ r.ls) ≠ none) (hdir : fs.node (p ++ r.ls) ≠ some .dir) {j : ℕ}
    (hj : fs.node (p ++ r.ld) = some (.file j)) (c : Choice) :
    Reached r fs₀ (exec c (.remove (pathOf r.source p)) fs).2 ∧
      Settles r fs (exec c (.remove (pathOf r.source p)) fs).2 := by
  obtain he | ⟨n, d, hbelow, hr, -, he⟩ := exec_remove_cases c (pathOf r.source p) fs
  · rw [he]
    exact ⟨h, Settles.refl r fs⟩
  rw [he]
  rcases p with _ | ⟨m, p⟩
  · exact absurd (h.framed.persists.dirs _ h₀.sourceDir) hdir
  have hvalid := valid_of_node (h.framed.source_node h₀ hp ▸ hp)
  rw [resolveEntry_pathOf (h.framed.resolve_source h₀) ((h.framed.linkFree h₀).below r.footprint_source p)
    hvalid] at hr
  split_ifs at hr
  obtain ⟨rfl, rfl⟩ := List.cons.inj (Option.some.inj hr : m :: (p ++ r.ls) = n :: d)
  rcases hn : fs.node (m :: p ++ r.ls) with _ | _ | i | t
  · exact absurd hn hp
  · exact absurd hn hdir
  · exact h.at_source h₀ (h.framed.unlink h₀ hm hn) (within_unlink rfl hn) hj (by rw [FS.node_unlink]; exact if_pos rfl)
  · exact absurd hn (h.framed.linkFree h₀ _ t (r.footprint_source _))

/-- What a transaction between two files of the run may do. -/
theorem Reached.licence (h : Reached r fs₀ fs) (h₀ : Ready r fs₀) (hp : fs.node (p ++ r.ls) ≠ none)
    (hdir : fs.node (p ++ r.ls) ≠ some .dir) :
    Licence (advances r fs₀) (Reached r fs₀) (pathOf r.source p) (pathOf r.destination p) r.method fs where
  here := h
  idle := fun _ _ fs _ h => ⟨h, Settles.refl r fs⟩
  openSource := fun _ h => ⟨h, Settles.refl r fs⟩
  openDest := by
    intro c h
    rcases exec_fopen_wb_cases c (pathOf r.destination p) fs with ⟨j, fs₁, ho, he⟩ | he
    · rw [he]
      exact (h.openWrite h₀ hp hdir ho).1
    · rw [he]
      exact ⟨h, Settles.refl r fs⟩
  opened := by
    intro j fs₁ ho
    obtain ⟨⟨h₁, -⟩, hwritten, hsame, hj⟩ := h.openWrite h₀ hp hdir ho
    have hp₁ : fs₁.node (p ++ r.ls) ≠ none := hsame ▸ hp
    have hdir₁ : fs₁.node (p ++ r.ls) ≠ some .dir := hsame ▸ hdir
    refine ⟨fun _ _ a b _ ha => ?_, fun content => ⟨(h₁.write h₀ hp₁ hdir₁ hj hwritten content).1, fun hm c => ?_⟩⟩
    · have hstep := ha.write h₀ hp₁ hdir₁ hj hwritten b
      rwa [write_write] at hstep
    · have hstep : ∀ h : Reached r fs₀ (fs₁.write j content), _ := fun h => h.remove h₀ hm hp₁ hdir₁ hj c
      exact ⟨hstep, (hstep (h₁.write h₀ hp₁ hdir₁ hj hwritten content).1).1⟩

end Steps

section Traversal

variable {r : Run} {fs₀ : FS} (sha256 : Bytes → Bytes) (fuel : ℕ)

/-- Every call of a run advances it, whatever fails. -/
theorem transferDirectory_reached (h₀ : Ready r fs₀) (stack : ℕ) : ∀ (p : List Name) (fs : FS),
    fs₀.node (p ++ r.ls) = some .dir → Reached r fs₀ fs →
      (faulty (advances r fs₀)).Meets (fun _ fs' => Reached r fs₀ fs')
        (transferDirectory (systemCalls sha256 fuel) stack (pathOf r.source p) (pathOf r.destination p) r.method)
        fs := by
  have quiet : ∀ fs : FS, Reached r fs₀ fs → Reached r fs₀ fs ∧ Settles r fs fs :=
    fun fs h => ⟨h, Settles.refl r fs⟩
  induction stack with
  | zero => exact fun _ _ _ h => faulty_halt h
  | succ stack ih =>
    intro p fs hp h
    rw [transferDirectory_succ, systemCalls_mkdir, Program.perform_bind]
    refine faulty_call fun c₁ => ⟨fun h => h.mkdir h₀ hp c₁, ?_⟩
    have h₁ := (h.mkdir h₀ hp c₁).1
    generalize (exec c₁ (.mkdir (pathOf r.destination p) 0o7) fs).2 = fs₁ at h₁ ⊢
    rw [systemCalls_opendir, Program.perform_bind]
    refine faulty_call fun c₂ => ?_
    rw [exec_opendir_state]
    refine ⟨quiet fs₁, ?_⟩
    rcases hdir : (exec c₂ (.opendir (pathOf r.source p)) fs₁).1 with _ | entries
    · exact faulty_ret h₁
    obtain ⟨l, hl, -, hentries⟩ := opendir_answers hdir
    obtain rfl := h₁.framed.resolve_sourcePath h₀ (by simp [hp]) hl
    refine Terms.Meets.foldlM_invariant (fun s s' hs (hr : s = s') => hr ▸ hs) ?_ h₁
    intro n hn errors fs₂ h₂
    by_cases hdots : n = dot ∨ n = dotDot
    · rw [processEntry_dots _ _ _ _ _ _ hdots]
      exact faulty_ret h₂
    have hnode : fs₀.node (n :: p ++ r.ls) ≠ none := by
      have hlisted := hentries n hn hdots
      rw [← h₁.framed.source_node h₀ (p := n :: p) hlisted]
      exact hlisted
    obtain ⟨hs, hd⟩ := h₀.short (n :: p) hnode
    rw [processEntry_eq _ _ _ _ _ _ hdots, joinPath_eq hs, joinPath_eq hd, ← pathOf, ← pathOf, systemCalls_stat,
      Program.perform_bind]
    refine faulty_call fun c₃ => ⟨quiet fs₂, ?_⟩
    rw [show (exec c₃ (.stat (pathOf r.source (n :: p))) fs₂).2 = fs₂ from rfl]
    rcases hstat : (exec c₃ (.stat (pathOf r.source (n :: p))) fs₂).1 with _ | t
    · exact faulty_ret h₂
    obtain ⟨k, hk, hne, hdir⟩ := stat_answers hstat
    obtain rfl := h₂.framed.resolve_sourcePath h₀ hnode hk
    by_cases ht : t = .directory
    · subst ht
      have hsub : fs₀.node (n :: p ++ r.ls) = some .dir :=
        (h₂.framed.source_node h₀ hne).symm.trans (hdir.2 rfl)
      refine Terms.Meets.bind ((ih (n :: p) fs₂ hsub h₂).mono ?_)
      rintro (_ | sub) fs₃ h₃
      · exact h₃
      · rw [Terms.enters_some]
        exact faulty_ret h₃
    · have hlicence := h₂.licence h₀ hne fun hd => ht (hdir.1 hd)
      have hfile : (faulty (advances r fs₀)).Meets (fun _ fs' => Reached r fs₀ fs')
          (transactTransferFile sha256 fuel (pathOf r.source (n :: p)) (pathOf r.destination (n :: p)) r.method >>=
            fun status => if status ≠ transactSuccess then Program.ret (errors + 1)
              else Program.ret errors) fs₂ := by
        refine Terms.Meets.bind ((transactTransferFile_faulty hlicence sha256 fuel).mono ?_)
        rintro (_ | status) fs₃ h₃
        · exact h₃
        · rw [Terms.enters_some]
          split_ifs
          · exact faulty_ret h₃
          · exact faulty_ret h₃
      cases t with
      | directory => exact absurd rfl ht
      | regular => exact hfile
      | symlink => exact hfile

end Traversal

section Walks

variable {r : Run} {fs₀ fs fs' : FS}

/-- The calls of a walk that changes permissions. -/
def walking : Sys → Bool
  | .lstat _ => true
  | .opendir _ => true
  | .chmod _ _ => true
  | _ => false

theorem Reached.of_same (h : Reached r fs₀ fs) (hnode : fs'.node = fs.node) (hdata : fs'.data = fs.data)
    (hnext : fs'.next = fs.next) : Reached r fs₀ fs' ∧ Settles r fs fs' := by
  have htree : ∀ l p, fs'.tree l p = fs.tree l p := by
    intro l p
    simp only [FS.tree, FS.entry, hnode, hdata]
  refine ⟨⟨⟨fun l => ?_, fun i hi => ?_, ?_⟩, fun F G hs => ?_, fun p => ?_, fun p hp hn => ?_⟩, fun p hp => ?_⟩
  · rw [hnode]
    exact h.framed.kept l
  · rw [hdata] at hi
    exact h.framed.data i hi
  · rw [hnext]
    exact h.framed.next
  · intro l l' i hl hl' hn hn'
    rw [hnode] at hn hn'
    exact h.sole F G hs l l' i hl hl' hn hn'
  · rw [htree]
    exact h.dest p
  · rw [hnode] at hn ⊢
    exact h.placed p hp hn
  · exact ⟨by rw [hnode, hp], htree r.ld p⟩

theorem exec_walking {op : Sys} (hop : walking op = true) (c : Choice) (fs : FS) :
    (exec c op fs).2.node = fs.node ∧ (exec c op fs).2.data = fs.data ∧ (exec c op fs).2.next = fs.next := by
  cases op with
  | lstat path => exact ⟨rfl, rfl, rfl⟩
  | opendir path =>
    rw [exec_opendir_state]
    exact ⟨rfl, rfl, rfl⟩
  | chmod path mode =>
    refine ⟨(Timers.exec_chmod c path mode fs).1, (Timers.exec_chmod c path mode fs).2, ?_⟩
    simp only [exec]
    split_ifs
    · rfl
    rcases fs.resolve path with _ | l
    · rfl
    dsimp only
    rcases fs.node l with _ | _ | i | t <;> rfl
  | fopen path mode => cases hop
  | fread count stream => cases hop
  | fwrite buffer stream => cases hop
  | fseek stream => cases hop
  | fclose stream => cases hop
  | remove path => cases hop
  | mkdir path mode => cases hop
  | stat path => cases hop

theorem setPermissions_walking (mode : ℕ) (path : Path) :
    (Timers.setPermissions mode path).Always (fun op _ => walking op = true) fun _ => True := by
  rw [Timers.setPermissions_eq]
  refine fun result => ⟨rfl, ?_⟩
  dsimp only
  split_ifs <;> trivial

theorem ftwDir_walking (mode stack : ℕ) (path : Path) :
    (Timers.ftwDir (Timers.setPermissions mode) stack path).Always (fun op _ => walking op = true)
      fun _ => True := by
  induction stack generalizing path with
  | zero => trivial
  | succ stack ih =>
    rw [Timers.ftwDir_succ]
    refine fun dir => ⟨rfl, ?_⟩
    rcases dir with _ | names
    · trivial
    refine Program.Always.bind (Q := fun _ => True) ?_ fun result _ => ?_
    · generalize (0 : ℤ) = result
      induction names generalizing result with
      | nil => trivial
      | cons name names ihNames =>
        rw [List.foldlM_cons]
        refine Program.Always.bind (Q := fun _ => True) ?_ fun result' _ => ihNames result'
        by_cases hskip : result ≠ 0 ∨ name = dot ∨ name = dotDot
        · rw [Timers.ftwEntry, if_pos hskip]
          trivial
        · rw [Timers.ftwEntry_eq _ _ _ hskip]
          refine fun status => ⟨rfl, ?_⟩
          rcases status with _ | _ | _ | _
          · exact setPermissions_walking mode _
          · exact ih _
          · exact setPermissions_walking mode _
          · exact setPermissions_walking mode _
    · split_ifs
      · trivial
      · exact setPermissions_walking mode _

theorem nftw_walking (mode stack : ℕ) (path : Path) :
    (Timers.nftw (Timers.setPermissions mode) stack path).Always (fun op _ => walking op = true)
      fun _ => True := by
  rw [Timers.nftw_eq]
  refine fun status => ⟨rfl, ?_⟩
  rcases status with _ | _ | _ | _
  · trivial
  · exact ftwDir_walking mode stack path
  · exact setPermissions_walking mode path
  · exact setPermissions_walking mode path

theorem walk_reached {α : Type} {Q : α → Prop} {p : Prog α} (hp : p.Always (fun op _ => walking op = true) Q)
    (h : Reached r fs₀ fs) : (faulty (advances r fs₀)).Meets (fun _ fs' => Reached r fs₀ fs') p fs := by
  induction p generalizing fs with
  | ret a => exact faulty_ret h
  | halt => exact faulty_halt h
  | call op next ih =>
    refine faulty_call fun c => ?_
    obtain ⟨hnode, hdata, hnext⟩ := exec_walking (hp (exec c op fs).1).1 c fs
    exact ⟨fun h => h.of_same hnode hdata hnext, ih _ (hp _).2 (h.of_same hnode hdata hnext).1⟩

/-- One part after the other. -/
theorem bind_reached {α β : Type} {p : Prog α} {f : α → Prog β}
    (hp : (faulty (advances r fs₀)).Meets (fun _ fs' => Reached r fs₀ fs') p fs)
    (hf : ∀ a fs', Reached r fs₀ fs' → (faulty (advances r fs₀)).Meets (fun _ fs'' => Reached r fs₀ fs'') (f a) fs') :
    (faulty (advances r fs₀)).Meets (fun _ fs' => Reached r fs₀ fs') (p >>= f) fs := by
  refine Terms.Meets.bind (hp.mono ?_)
  rintro (_ | a) fs' h
  · exact h
  · exact hf a fs' h

variable {place : Directory → Loc} {sha256 : Bytes → Bytes} {stack fuel : ℕ}

theorem moveDirectory_reached (h : Plain place fs₀) {s d : Directory} (hne : s ≠ d) (method : TransferMethod)
    (hr : Reached (runOf place s d method) fs₀ fs) :
    (faulty (advances (runOf place s d method) fs₀)).Meets (fun _ fs' => Reached (runOf place s d method) fs₀ fs')
      (moveDirectory sha256 stack fuel s d method) fs :=
  transferDirectory_reached sha256 fuel (h.ready s d hne method) stack [] fs (h.isDir s) hr

theorem timerRun_reached (h : Plain place fs₀) (method : TransferMethod) :
    let r := runOf place (moves .timer method).1 (moves .timer method).2 method
    (faulty (advances r fs₀)).Meets (fun _ fs' => Reached r fs₀ fs')
      (Timers.timerRun Timers.scheduled stack sha256 fuel method) fs₀ := by
  intro r
  have hmove : ∀ fs, Reached r fs₀ fs → (faulty (advances r fs₀)).Meets (fun _ fs' => Reached r fs₀ fs')
      (moveDirectory sha256 stack fuel (moves .timer method).1 (moves .timer method).2 method) fs :=
    fun fs hr => moveDirectory_reached h (moves_ne .timer method) method hr
  have hwalk : ∀ mode path fs, Reached r fs₀ fs → (faulty (advances r fs₀)).Meets
      (fun _ fs' => Reached r fs₀ fs') (Timers.nftw (Timers.setPermissions mode) stack path) fs :=
    fun mode path fs hr => walk_reached (nftw_walking mode stack path) hr
  cases method with
  | backup =>
    refine bind_reached (bind_reached (hwalk 0o440 _ _ Reached.start) fun _ _ h₁ => ?_) fun _ _ h₂ => ?_
    · exact bind_reached (hwalk 0o440 _ _ h₁) fun _ _ h => faulty_ret h
    refine bind_reached (hmove _ h₂) fun _ _ h₃ => bind_reached (hwalk 0o440 _ _ h₃) fun _ _ h₄ => ?_
    exact bind_reached (hwalk 0o660 _ _ h₄) fun _ _ h => faulty_ret h
  | transfer =>
    refine bind_reached (bind_reached (hwalk 0o440 _ _ Reached.start) fun _ _ h => faulty_ret h) fun _ _ h₁ => ?_
    refine bind_reached (hmove _ h₁) fun _ _ h₂ => ?_
    exact bind_reached (hwalk 0o660 _ _ h₂) fun _ _ h => faulty_ret h

theorem entryRun_reached (h : Plain place fs₀) (e : EntryPoint) (method : TransferMethod) :
    let r := runOf place (moves e method).1 (moves e method).2 method
    (faulty (advances r fs₀)).Meets (fun _ fs' => Reached r fs₀ fs') (entryRun sha256 stack fuel e method) fs₀ := by
  intro r
  have hmove : (faulty (advances r fs₀)).Meets (fun _ fs' => Reached r fs₀ fs')
      (moveDirectory sha256 stack fuel (moves e method).1 (moves e method).2 method) fs₀ :=
    moveDirectory_reached h (moves_ne e method) method Reached.start
  cases e with
  | client =>
    obtain ⟨answer, ha⟩ := handleCommand_request sha256 stack fuel [] [] method
    have hrun : entryRun sha256 stack fuel .client method =
        handleCommand sha256 stack fuel [] [] (request method) >>= fun _ => .ret () := by
      cases method <;> rfl
    rw [hrun, ha]
    exact bind_reached (bind_reached hmove fun _ _ h => faulty_ret h) fun _ _ h => faulty_ret h
  | commandLine =>
    cases method with
    | backup => exact bind_reached hmove fun _ _ h => faulty_ret h
    | transfer => exact bind_reached hmove fun _ _ h => faulty_ret h
  | timer =>
    cases method with
    | backup => exact timerRun_reached h .backup
    | transfer => exact timerRun_reached h .transfer

end Walks

section Attempts

variable {place : Directory → Loc} {sha256 : Bytes → Bytes} {s d : Directory} {method : TransferMethod}
  {fs₀ fs fs' : FS}

theorem leftover_eq (S X : Tree Name Bytes) :
    leftover sha256 method S X = drained (removes sha256 method) S X := by
  funext p
  by_cases hf : isFile (S p) = true
  · obtain ⟨c, hc⟩ := isFile_iff.1 hf
    rw [leftover_file hc, drained_file hc]
  · rw [leftover_of_not_file (by simpa using hf), drained_of_not_file (by simpa using hf)]

/-- The source is as it was, but for files that a `TRANSFER` has taken away. -/
theorem Reached.source_tree {r : Run} (h : Reached r fs₀ fs) (h₀ : Ready r fs₀) (p : List Name) :
    fs.tree r.ls p = fs₀.tree r.ls p ∨ (r.method = .transfer ∧ fs.node (p ++ r.ls) = none ∧
      ∃ c, fs₀.tree r.ls p = some (.file c)) := by
  have hlink : ∀ t, fs.node (p ++ r.ls) ≠ some (.link t) :=
    fun t => h.framed.linkFree h₀ _ t (r.footprint_source p)
  rcases h.framed.kept (p ++ r.ls) with hsame | ⟨q, hl, -, -, -⟩ | ⟨q, -, i, hfile, hm, hnone⟩
  · by_cases hf : isFile (fs₀.tree r.ls p) = true
    · obtain ⟨c, hc⟩ := isFile_iff.1 hf
      rcases h.framed.source_file h₀ hc with hnow | ⟨hm, hnow⟩
      · exact .inl (hnow.trans hc.symm)
      · exact .inr ⟨hm, fs.node_of_entry_none hnow hlink, c, hc⟩
    · left
      unfold FS.tree FS.entry at hf ⊢
      rw [hsame]
      rcases hn : fs₀.node (p ++ r.ls) with _ | _ | i | t
      · rfl
      · rfl
      · simp [hn, isFile] at hf
      · rfl
  · exact absurd hl (h₀.apart p q)
  · exact .inr ⟨hm, hnone, _, fs₀.entry_file hfile⟩

/-- A run whose files are taken away only once they have landed. -/
theorem Reached.halfway {r : Run} (h : Reached r fs₀ fs) (h₀ : Ready r fs₀)
    (hgone : r.method = .transfer → ∀ p c, fs₀.tree r.ls p = some (.file c) → fs.node (p ++ r.ls) = none →
      removes sha256 r.method c = true ∧ lands (fs₀.tree r.ld) p = true ∧ fs.tree r.ld p = some (.file c)) :
    Halfway (removes sha256 r.method) (fs₀.tree r.ls) (fs₀.tree r.ld) (fs.tree r.ls) (fs.tree r.ld) := by
  refine ⟨fun p => ?_, h.dest⟩
  rcases h.source_tree h₀ p with hsame | ⟨hm, hnone, c, hc⟩
  · exact .inl hsame
  · exact .inr ⟨fs.entry_none hnone, c, hc, hgone hm p c hc hnone⟩

/-- What a run can still come to the end from, it has not spoiled. -/
theorem Reached.halfway_of_end {r : Run} (h : Reached r fs₀ fs) (h₀ : Ready r fs₀) (hs : Settles r fs fs')
    (hend : Progress sha256 r fs₀ Set.univ fs') :
    Halfway (removes sha256 r.method) (fs₀.tree r.ls) (fs₀.tree r.ld) (fs.tree r.ls) (fs.tree r.ld) := by
  refine h.halfway h₀ fun _ p c hc hnone => ?_
  obtain ⟨hgone, hdest⟩ := hs p hnone
  have hleft : leftover sha256 r.method (fs₀.tree r.ls) (fs₀.tree r.ld) p = none := by
    rw [← hend.source_univ]
    exact fs'.entry_none hgone
  rw [leftover_file hc, ite_eq_left_iff] at hleft
  have hboth : (removes sha256 r.method c && lands (fs₀.tree r.ld) p) = true := by
    by_contra hno
    cases hleft hno
  rw [Bool.and_eq_true] at hboth
  refine ⟨hboth.1, hboth.2, ?_⟩
  rw [← hdest, hend.dest_univ, overlay_file hc, if_pos hboth.2]

/-- The directories stay plain, and the third one is left alone. -/
theorem Reached.plain (h : Reached (runOf place s d method) fs₀ fs) (hp : Plain place fs₀) :
    Plain place fs ∧ ∀ e, e ≠ d → e ≠ s → contents place fs e = contents place fs₀ e := by
  have hdirs : ∀ e, fs.node (place e) = some .dir := fun e => h.framed.persists.dirs _ (hp.isDir e)
  refine ⟨⟨fun e => ?_, hdirs, hp.apart, fun l t hl ht => ?_, h.sole _ _ hp.sole, fun e p hne e' => ?_⟩, ?_⟩
  · exact fs₀.resolve_persists h.framed.persists (hp.resolves e) ((hdirs e).trans (hp.isDir e).symm)
  · rcases h.framed.kept l with hsame | ⟨q, -, -, -, hnew⟩ | ⟨q, -, i, -, -, hnone⟩
    · exact hp.linkFree l t hl (hsame ▸ ht)
    · rw [ht] at hnew
      exact hnew
    · rw [ht] at hnone
      cases hnone
  · rcases h.framed.kept (p ++ place e) with hsame | ⟨q, hl, hq, -, -⟩ | ⟨q, -, i, -, -, hnone⟩
    · exact hp.short e p (hsame ▸ hne) e'
    · obtain rfl : e = d := hp.unique (List.suffix_append p (place e)) ⟨q, hl.symm⟩
      obtain rfl : p = q := List.append_cancel_right hl
      exact hp.short s p hq e'
    · exact absurd hnone hne
  · intro e hed hes
    funext p
    have hsame : fs.node (p ++ place e) = fs₀.node (p ++ place e) := by
      rcases h.framed.kept (p ++ place e) with hsame | ⟨q, hl, -, -, -⟩ | ⟨q, hl, -, -, -, -⟩
      · exact hsame
      · exact absurd (hp.unique (List.suffix_append p (place e)) ⟨q, hl.symm⟩) hed
      · exact absurd (hp.unique (List.suffix_append p (place e)) ⟨q, hl.symm⟩) hes
    unfold contents FS.tree FS.entry
    rw [hsame]
    rcases hn : fs₀.node (p ++ place e) with _ | _ | i | t
    · rfl
    · rfl
    · dsimp only
      by_contra hne
      rcases h.framed.data i (by simpa using hne) with hnew | ⟨q, hq, -⟩
      · exact absurd (fs₀.node_fresh hn) (not_lt.2 hnew)
      · have heq := hp.sole _ _ i ⟨e, List.suffix_append ..⟩ ⟨d, List.suffix_append ..⟩ hn hq
        exact hed (hp.unique (List.suffix_append p (place e)) ⟨q, heq⟩)
    · rfl

variable (sha256 s d method) in
/-- A run from `s` to `d` that is broken off somewhere. The calls of a backup may fail. -/
inductive Attempt (fs : FS) : FS → Prop
  | broken {e : EntryPoint} {stack fuel : ℕ} {sched : ℕ → Choice} {left : Prog Unit} {t : ℕ} {fs' : FS}
      (hmoves : moves e method = (s, d)) (hstack : fs.bound ≤ stack) (hfuel : fs.bound ≤ fuel)
      (hclean : method = .transfer → ∀ t, (sched t).clean)
      (h : Reaches exec sched (entryRun sha256 stack fuel e method) 0 fs left t fs') : Attempt fs fs'

/-- Wherever a run is broken off, its overlay is only halfway. -/
theorem broken_halfway (hp : Plain place fs) {e : EntryPoint} {stack fuel : ℕ} {sched : ℕ → Choice}
    {left : Prog Unit} {t : ℕ} (hstack : fs.bound ≤ stack) (hfuel : fs.bound ≤ fuel)
    (hclean : method = .transfer → ∀ t, (sched t).clean)
    (h : Reaches exec sched (entryRun sha256 stack fuel e method) 0 fs left t fs') :
    let r := runOf place (moves e method).1 (moves e method).2 method
    Reached r fs fs' ∧
      Halfway (removes sha256 method) (fs.tree r.ls) (fs.tree r.ld) (fs'.tree r.ls) (fs'.tree r.ld) := by
  intro r
  have hready : Ready r fs := hp.ready _ _ (moves_ne e method) method
  have htrace : ∀ ev ∈ trace exec sched (entryRun sha256 stack fuel e method) 0 fs,
      advances r fs ev.op ev.res ev.before ev.after :=
    ((entryRun_reached hp e method).run sched (fun _ => trivial) 0).2
  have hreached : Reached r fs fs' :=
    h.invariant (fun ev hev hr => (htrace ev hev hr).1) Reached.start
  refine ⟨hreached, ?_⟩
  by_cases hm : method = .transfer
  · -- left alone, the rest of the run would come to the end
    have hend : Progress sha256 r fs Set.univ (run exec sched (entryRun sha256 stack fuel e method) 0 fs).state :=
      ((entryRun_meets hp e method hstack hfuel).run sched (hclean hm) 0).1.holds
    have hrest : Reached r fs (run exec sched left t fs').state ∧
        Settles r fs' (run exec sched left t fs').state := by
      refine run_invariant exec sched (J := fun x => Reached r fs x ∧ Settles r fs' x) ?_
        ⟨hreached, Settles.refl r fs'⟩
      rintro ev hev ⟨hr, hs⟩
      obtain ⟨hr', hs'⟩ := htrace ev (h.trace_subset hev) hr
      exact ⟨hr', hs.trans hs'⟩
    rw [h.run_eq] at hrest
    exact hreached.halfway_of_end hready hrest.2 hend
  · exact hreached.halfway hready fun hm' => absurd hm' hm

/-- What is left to be done is what there was to do. -/
theorem Attempt.effect_eq (h : Attempt sha256 s d method fs fs') (hp : Plain place fs) :
    Plain place fs' ∧
      effect sha256 s d method (contents place fs') = effect sha256 s d method (contents place fs) := by
  obtain ⟨hmoves, hstack, hfuel, hclean, hreaches⟩ := h
  rename_i e stack fuel sched left t
  obtain ⟨rfl, rfl⟩ : (moves e method).1 = s ∧ (moves e method).2 = d := by rw [hmoves]; exact ⟨rfl, rfl⟩
  obtain ⟨hreached, hhalf⟩ := broken_halfway hp hstack hfuel hclean hreaches
  obtain ⟨hplain, hthird⟩ := hreached.plain hp
  refine ⟨hplain, funext fun f => ?_⟩
  rw [effect_apply, effect_apply, leftover_eq, leftover_eq]
  have hover : overlay (contents place fs' (moves e method).1) (contents place fs' (moves e method).2) =
      overlay (contents place fs (moves e method).1) (contents place fs (moves e method).2) :=
    hhalf.overlay_eq (fs.tree_closed _) (fs.tree_closed _) (fs'.tree_closed _)
  have hdrained : drained (removes sha256 method) (contents place fs' (moves e method).1)
      (contents place fs' (moves e method).2) = drained (removes sha256 method)
      (contents place fs (moves e method).1) (contents place fs (moves e method).2) :=
    hhalf.drained_eq (fs.tree_closed _)
  rw [hover, hdrained]
  split_ifs with hd hs
  · rfl
  · rfl
  · exact hthird f hd hs

theorem attempts_effect (hp : Plain place fs) (h : Relation.ReflTransGen (Attempt sha256 s d method) fs fs') :
    Plain place fs' ∧
      effect sha256 s d method (contents place fs') = effect sha256 s d method (contents place fs) := by
  induction h with
  | refl => exact ⟨hp, rfl⟩
  | tail _ hstep ih =>
    obtain ⟨hplain, heq⟩ := ih
    obtain ⟨hplain', heq'⟩ := hstep.effect_eq hplain
    exact ⟨hplain', heq'.trans heq⟩

/-- Whatever has been broken off, and hampered if it was a backup: the next run that is let alone comes to its end
and leaves what the first would have left. -/
theorem attempts_recover (hp : Plain place fs) (h : Relation.ReflTransGen (Attempt sha256 s d method) fs fs')
    (e : EntryPoint) (hmoves : moves e method = (s, d)) {stack fuel : ℕ} (hstack : fs'.bound ≤ stack)
    (hfuel : fs'.bound ≤ fuel) (sched : ℕ → Choice) (hclean : ∀ t, (sched t).clean) :
    let o := run exec sched (entryRun sha256 stack fuel e method) 0 fs'
    o.result = some () ∧ Plain place o.state ∧
      contents place o.state = effect sha256 s d method (contents place fs) := by
  obtain ⟨hplain, heq⟩ := attempts_effect hp h
  obtain ⟨rfl, rfl⟩ : (moves e method).1 = s ∧ (moves e method).2 = d := by rw [hmoves]; exact ⟨rfl, rfl⟩
  obtain ⟨hresult, hafter, hcontents⟩ :=
    hplain.run (moves_ne e method) (entryRun_meets hplain e method hstack hfuel) sched hclean 0
  obtain ⟨u, hu⟩ := Option.ne_none_iff_exists'.1 hresult
  exact ⟨hu, hafter, hcontents.trans heq⟩

end Attempts

/-- What a run is killed with after `n` calls. -/
def killed {α : Type} (sched : ℕ → Choice) : ℕ → Prog α → ℕ → FS → Prog α × ℕ × FS
  | n + 1, .call op next, t, fs =>
      killed sched n (next (exec (sched t) op fs).1) (t + 1) (exec (sched t) op fs).2
  | _, p, t, fs => (p, t, fs)

theorem reaches_killed {α : Type} (sched : ℕ → Choice) (n : ℕ) (p : Prog α) (t : ℕ) (fs : FS) :
    Reaches exec sched p t fs (killed sched n p t fs).1 (killed sched n p t fs).2.1 (killed sched n p t fs).2.2 := by
  induction n generalizing p t fs with
  | zero =>
    rw [killed]
    · exact .here p t fs
    · exact nofun
  | succ n ih =>
    cases p with
    | call op next => exact .call (ih _ _ _)
    | ret a => exact .here _ _ _
    | halt => exact .here _ _ _

/-- The disk is full when the fifteenth call, an `fwrite`, is made. -/
def full (t : ℕ) : Choice := if t = 14 then ⟨true, 0, 0, id, fun names => List.Perm.refl names⟩ else Choice.plain

/-- A scheduled backup that is killed after that. -/
def hampered : FS := (killed full 16 (entryRun id sample.bound sample.bound .timer .backup) 0 sample).2.2

theorem attempts_recover_hampered : contents standard hampered .dashboard [bytes "a"] = some (.file []) ∧
    let o := run exec (fun _ => Choice.plain) (entryRun id hampered.bound hampered.bound .timer .backup) 0 hampered
    o.result = some () ∧ Plain standard o.state ∧
      contents standard o.state = effect id .reports .dashboard .backup (contents standard sample) := by
  refine ⟨by decide +kernel, ?_⟩
  have hattempt : Attempt id .reports .dashboard .backup sample hampered :=
    .broken rfl le_rfl le_rfl nofun (reaches_killed full 16 _ 0 sample)
  exact attempts_recover sample_plain (.single hattempt) .timer rfl le_rfl le_rfl _ fun _ => rfl

end Reportman.Recovery
