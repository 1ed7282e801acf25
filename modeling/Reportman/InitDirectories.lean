import Mathlib
import Reportman.Directories
import Reportman.Faults
import Reportman.FmLoop

/-!
# Before the first run

`__init_directories` makes the directories that are missing and leaves alone what is there. A start that
gives up has done no harm, and one that goes on leaves the three directories in the state that every later
run works from.
-/
namespace Reportman.InitDirectories
open Resumable FileSystem TransferDirectory Directories Overlay
open FmLoop (Exit)

section Source

inductive InitSys
  | stat (path : Path)
  | access (path : Path)
  | mkdir (path : Path) (mode : ℕ)
  | exit (code : Exit)

abbrev InitSys.Res : InitSys → Type
  | .stat _ => Option FileType
  | .access _ => ℤ
  | .mkdir _ _ => ℤ
  | .exit _ => Unit

abbrev InitProg := Program InitSys InitSys.Res

def sys (op : InitSys) : InitProg op.Res := Program.perform op

def exitFailure {α : Type} : InitProg α := .call (.exit .failure) fun _ => .halt

def createDirIfNotExist (directory : Path) (mode : ℕ) : InitProg ℤ := do
  if (← sys (.stat directory)).isSome then
    if (← sys (.access directory)) = -1 then exitFailure else return 0
  else if (← sys (.mkdir directory mode)) = -1 then exitFailure
  else return 0

/-- `init_directories`, which ignores what it is told of each directory. -/
def initDirectories : List Path → InitProg ℤ
  | [] => return 0
  | directory :: dirs => do
      let _ ← createDirIfNotExist directory 0o770
      initDirectories dirs

/-- `__init_directories` of the daemon. -/
def daemonInitDirectories : InitProg Unit := do
  if (← initDirectories [Directory.reports.path, Directory.backup.path, Directory.dashboard.path]) ≠ 0 then
    exitFailure
  else return ()

/-- Whether the process may read, write and search what a path leads to is the environment's to say. -/
def initExec (c : Choice) : (op : InitSys) → FS → op.Res × FS
  | .stat path, fs => exec c (.stat path) fs
  | .access path, fs => (if c.fails || ((fs.resolve path).bind fs.node).isNone then -1 else 0, fs)
  | .mkdir path mode, fs => exec c (.mkdir path mode) fs
  | .exit _, fs => ((), fs)

end Source

/-- A path leads to something. -/
def Stands (fs : FS) (path : Path) : Prop := ∃ l, fs.resolve path = some l ∧ fs.node l ≠ none

/-- Nothing has changed but that directories have been made, at places that some of the paths name. -/
structure Grown (dirs : List Path) (fs fs' : FS) : Prop where
  kept : ∀ l, fs.node l ≠ none → fs'.node l = fs.node l
  made : ∀ l, fs'.node l ≠ fs.node l → fs'.node l = some .dir ∧ ∃ path ∈ dirs, fs'.resolve path = some l
  data : fs'.data = fs.data
  dirMode : ∀ l, fs.node l ≠ none → fs'.dirMode l = fs.dirMode l
  fileMode : fs'.fileMode = fs.fileMode

section Calls

variable {fs fs' fs'' : FS} {dirs : List Path}

theorem Grown.persists (h : Grown dirs fs fs') : FS.Persists fs fs' :=
  ⟨fun l hl => (h.kept l (by simp [hl])).trans hl, fun l t hl => (h.kept l (by simp [hl])).trans hl⟩

theorem Grown.refl (dirs : List Path) (fs : FS) : Grown dirs fs fs :=
  ⟨fun _ _ => rfl, fun _ h => absurd rfl h, rfl, fun _ _ => rfl, rfl⟩

theorem Grown.stands (h : Grown dirs fs fs') {path : Path} (hs : Stands fs path) : Stands fs' path := by
  obtain ⟨l, hl, hne⟩ := hs
  have hkept := h.kept l hne
  exact ⟨l, fs.resolve_persists h.persists hl hkept, hkept ▸ hne⟩

theorem Grown.trans (h : Grown dirs fs fs') (h' : Grown dirs fs' fs'') : Grown dirs fs fs'' where
  kept l hl := (h'.kept l (h.kept l hl ▸ hl)).trans (h.kept l hl)
  made l hl := by
    by_cases hnew : fs''.node l = fs'.node l
    · rw [hnew] at hl ⊢
      obtain ⟨hdir, path, hpath, hresolve⟩ := h.made l hl
      exact ⟨hdir, path, hpath, fs'.resolve_persists h'.persists hresolve hnew⟩
    · exact h'.made l hnew
  data := h'.data.trans h.data
  dirMode l hl := (h'.dirMode l (h.kept l hl ▸ hl)).trans (h.dirMode l hl)
  fileMode := h'.fileMode.trans h.fileMode

/-- Once the entry that a path names is a directory, the path leads to it. -/
theorem resolve_entry_dir {path : Path} {n : Name} {d : Loc} (h : fs.resolveEntry (stripSlashes path) = some (n :: d))
    (hdir : fs.node (n :: d) = some .dir) : fs.resolve path = some (n :: d) := by
  obtain ⟨k, hk⟩ := exists_stripSlashes path
  unfold FS.resolveEntry at h
  rcases hrev : (components (stripSlashes path)).reverse with _ | ⟨m, above⟩
  · rw [hrev] at h
    cases h
  rw [hrev] at h
  dsimp only at h
  split_ifs at h with hm
  obtain ⟨e, hwalk, hentry⟩ := Option.bind_eq_some_iff.mp h
  split_ifs at hentry with he
  cases hentry
  have hcomps : components path = above.reverse ++ n :: List.replicate k [] := by
    have hstripped : components (stripSlashes path) = above.reverse ++ [n] := by
      rw [← List.reverse_reverse (components _), hrev, List.reverse_cons]
    rw [hk, components_replicate_slash, hstripped, List.append_assoc]
    rfl
  have hne : path ≠ [] := by
    rintro rfl
    cases hrev
    exact hm.1 rfl
  obtain ⟨k', hk'⟩ := fs.walk_append_dir _ _ above.reverse (n :: List.replicate k []) hwalk he
  rw [FS.resolve, if_neg hne, hcomps, hk', FS.walk_dir hm hdir]
  clear hk' hcomps hk
  induction k with
  | zero => exact FS.walk_nil
  | succ k ih => rwa [List.replicate_succ, FS.walk_skip (.inl rfl)]

/-- `mkdir` makes the directory that its path names, or it fails. -/
theorem exec_mkdir_made (c : Choice) (path : Path) (mode : ℕ) (fs : FS) :
    exec c (.mkdir path mode) fs = (-1, fs) ∨ ∃ n d hd hn hfree,
      fs.resolveEntry (stripSlashes path) = some (n :: d) ∧
        exec c (.mkdir path mode) fs = (0, fs.addDir n d mode hd hn hfree) := by
  simp only [exec]
  split_ifs
  · exact .inl rfl
  rcases hr : fs.resolveEntry (stripSlashes path) with _ | _ | ⟨n, d⟩
  · exact .inl rfl
  · exact .inl rfl
  by_cases hok : fs.node d = some .dir ∧ ValidName n ∧ fs.node (n :: d) = none
  · refine .inr ⟨n, d, hok.1, hok.2.1, hok.2.2, rfl, ?_⟩
    simp only [Option.bind_some, FS.makeDir, dif_pos hok]
  · refine .inl ?_
    simp only [Option.bind_some, FS.makeDir, dif_neg hok]

theorem grown_mkdir {path : Path} (hpath : path ∈ dirs) {n : Name} {d : Loc} {mode : ℕ} {hd hn hfree}
    (hentry : fs.resolveEntry (stripSlashes path) = some (n :: d)) :
    Grown dirs fs (fs.addDir n d mode hd hn hfree) ∧ Stands (fs.addDir n d mode hd hn hfree) path := by
  have hnode : ∀ k, (fs.addDir n d mode hd hn hfree).node k = if k = n :: d then some .dir else fs.node k :=
    fun k => fs.node_addDir
  have hdir : (fs.addDir n d mode hd hn hfree).node (n :: d) = some .dir := by rw [hnode, if_pos rfl]
  have hold : ∀ l, fs.node l ≠ none → l ≠ n :: d := by
    rintro _ hl rfl
    exact hl hfree
  have hresolve : (fs.addDir n d mode hd hn hfree).resolve path = some (n :: d) :=
    resolve_entry_dir (fs.resolveEntry_persists keeps_addDir.persists hentry) hdir
  refine ⟨⟨fun l hl => by rw [hnode, if_neg (hold l hl)], fun l hl => ?_, rfl, fun l hl => ?_, rfl⟩,
    n :: d, hresolve, by simp [hdir]⟩
  · have heq : l = n :: d := by
      by_contra hne
      exact hl (by rw [hnode, if_neg hne])
    exact ⟨heq ▸ hdir, path, hpath, heq ▸ hresolve⟩
  · exact Function.update_of_ne (hold l hl) ..

end Calls

section Runs

variable {fs : FS} {dirs : List Path} {path : Path} {mode : ℕ}

/-- The terms on which the daemon starts: nobody disturbs it, and its calls may fail. -/
def terms (allowed : Choice → Prop) (dirs : List Path) : Terms InitSys InitSys.Res Choice FS where
  exec := initExec
  allowed := allowed
  rely := Eq
  guarantee := fun _ _ => Grown dirs
  rely_refl := fun _ => rfl
  rely_trans := Eq.trans

variable {allowed : Choice → Prop}

theorem terms_call {α : Type} {post : Option α → FS → Prop} {op : InitSys} {next : op.Res → InitProg α}
    (h : ∀ c, allowed c → Grown dirs fs (initExec c op fs).2 ∧
      (terms allowed dirs).Meets post (next (initExec c op fs).1) (initExec c op fs).2) :
    (terms allowed dirs).Meets post (.call op next) fs := by
  rintro _ rfl c hc
  exact h c hc

theorem terms_ret {α : Type} {post : Option α → FS → Prop} {a : α} (h : post (some a) fs) :
    (terms allowed dirs).Meets post (Program.ret a : InitProg α) fs := by
  rintro _ rfl
  exact h

theorem exitFailure_meets {α : Type} {post : Option α → FS → Prop} (h : post none fs) :
    (terms allowed dirs).Meets post (exitFailure : InitProg α) fs := by
  refine terms_call fun c _ => ⟨Grown.refl dirs fs, ?_⟩
  rintro _ rfl
  exact h

theorem stat_stands {c : Choice} (h : (initExec c (.stat path) fs).1.isSome = true) : Stands fs path := by
  simp only [initExec, exec] at h
  split_ifs at h
  · cases h
  cases hl : fs.resolve path with
  | none => simp [hl] at h
  | some l =>
    refine ⟨l, hl, fun hnone => ?_⟩
    simp [hl, typeAt, hnone] at h

theorem createDirIfNotExist_meets (hpath : path ∈ dirs) :
    (terms allowed dirs).Meets
      (fun o fs' => Grown dirs fs fs' ∧ ∀ code, o = some code → code = 0 ∧ Stands fs' path)
      (createDirIfNotExist path mode) fs := by
  refine terms_call fun c _ => ⟨Grown.refl dirs fs, ?_⟩
  dsimp only [Program.bind]
  split_ifs with hstat
  · refine terms_call fun c _ => ⟨Grown.refl dirs fs, ?_⟩
    dsimp only [Program.bind]
    split_ifs
    · exact exitFailure_meets ⟨Grown.refl dirs fs, nofun⟩
    · refine terms_ret ⟨Grown.refl dirs fs, ?_⟩
      rintro _ ⟨⟩
      exact ⟨rfl, stat_stands hstat⟩
  · change (terms allowed dirs).Meets _ _ fs
    refine terms_call fun c _ => ?_
    change Grown dirs fs (exec c (.mkdir path mode) fs).2 ∧ (terms allowed dirs).Meets _
      (if (exec c (.mkdir path mode) fs).1 = -1 then exitFailure else return 0) (exec c (.mkdir path mode) fs).2
    rcases exec_mkdir_made c path mode fs with hfails | ⟨n, d, hd, hn, hfree, hentry, hmade⟩
    · rw [hfails]
      exact ⟨Grown.refl dirs fs, exitFailure_meets ⟨Grown.refl dirs fs, nofun⟩⟩
    · rw [hmade]
      obtain ⟨hgrown, hstands⟩ : Grown dirs fs (fs.addDir n d mode hd hn hfree) ∧
        Stands (fs.addDir n d mode hd hn hfree) path := grown_mkdir hpath hentry
      refine ⟨hgrown, terms_ret ⟨hgrown, ?_⟩⟩
      rintro _ ⟨⟩
      exact ⟨rfl, hstands⟩

theorem initDirectories_meets (allowed : Choice → Prop) {todo : List Path} (htodo : ∀ path ∈ todo, path ∈ dirs) :
    (terms allowed dirs).Meets
      (fun o fs' => Grown dirs fs fs' ∧ ∀ code, o = some code → code = 0 ∧ ∀ path ∈ todo, Stands fs' path)
      (initDirectories todo) fs := by
  induction todo generalizing fs with
  | nil =>
    refine terms_ret ⟨Grown.refl dirs fs, ?_⟩
    rintro _ ⟨⟩
    exact ⟨rfl, nofun⟩
  | cons path todo ih =>
    refine Terms.Meets.bind ((createDirIfNotExist_meets (htodo path (List.mem_cons_self ..))).mono ?_)
    rintro (_ | code) fs₁ ⟨hgrown, hstands⟩
    · exact ⟨hgrown, nofun⟩
    · refine (ih fun path hpath => htodo path (List.mem_cons_of_mem _ hpath)).mono ?_
      rintro o fs₂ ⟨hgrown', hstands'⟩
      refine ⟨hgrown.trans hgrown', ?_⟩
      rintro code' rfl
      obtain ⟨hcode, hall⟩ := hstands' code' rfl
      exact ⟨hcode, List.forall_mem_cons.2 ⟨hgrown'.stands (hstands code rfl).2, hall⟩⟩

/-- Whatever fails on the way, a start changes nothing that is there and makes nothing but directories; it goes
on only when each path leads to something. -/
theorem initDirectories_grown (sched : ℕ → Choice) (fs : FS) (dirs : List Path) :
    let o := run initExec sched (initDirectories dirs) 0 fs
    Grown dirs fs o.state ∧ ∀ code, o.result = some code → code = 0 ∧ ∀ path ∈ dirs, Stands o.state path :=
  ((initDirectories_meets (fun _ => True) fun _ h => h).run sched (fun _ => trivial) 0).1

end Runs

section Start

def homePath : Path := bytes "/srv/reportman"

def nameOf : Directory → Name
  | .reports => bytes "reports"
  | .dashboard => bytes "dashboard"
  | .backup => bytes "backup"

/-- Where the directories stand when `/srv/reportman` stands at `base`. -/
def place (base : Loc) (d : Directory) : Loc := nameOf d :: base

theorem path_eq (d : Directory) : d.path = homePath ++ slash :: nameOf d := by cases d <;> decide

theorem validName_nameOf (d : Directory) : ValidName (nameOf d) := by cases d <;> decide

/-- What has to be there before: `/srv/reportman`, and at the places of the three directories nothing or a
directory that is in order. -/
structure Tidy (base : Loc) (fs : FS) : Prop where
  home : fs.resolve homePath = some base
  isDir : fs.node base = some .dir
  free : ∀ d, fs.node (place base d) = none ∨ fs.node (place base d) = some .dir
  linkFree : LinkFree (Inside (place base)) fs
  sole : Sole (Inside (place base)) (Inside (place base)) fs
  short : ∀ d p, fs.node (p ++ place base d) ≠ none → ∀ e : Directory, (pathOf e.path p).length < pathSize

variable {base : Loc} {fs fs' : FS}

theorem place_apart {d e : Directory} {p : List Name} (h : p ++ place base d = place base e) : p = [] ∧ d = e := by
  have hlength := congrArg List.length h
  simp only [place, List.length_append, List.length_cons] at hlength
  obtain rfl : p = [] := List.length_eq_zero_iff.1 (by omega)
  have hname : nameOf d = nameOf e := (List.cons.inj h).1
  refine ⟨rfl, ?_⟩
  cases d <;> cases e <;> first | rfl | exact absurd hname (by decide)

theorem resolve_place (hhome : fs.resolve homePath = some base) (hdir : fs.node base = some .dir)
    (hfree : ∀ d, fs.node (place base d) = none ∨ fs.node (place base d) = some .dir) (d : Directory) :
    fs.resolve d.path = some (place base d) := by
  have hlink : ∀ l t, fs.resolve homePath = some l → fs.node (nameOf d :: l) ≠ some (.link t) := by
    intro l t hl
    obtain rfl : base = l := Option.some.inj (hhome.symm.trans hl)
    rcases hfree d with h | h <;> simp [place] at h <;> simp [h]
  rw [path_eq, fs.resolve_join (by decide) (validName_nameOf d) hlink, hhome, FS.child, Option.bind_some, if_pos hdir]
  rfl

theorem Tidy.resolves (h : Tidy base fs) (d : Directory) : fs.resolve d.path = some (place base d) :=
  resolve_place h.home h.isDir h.free d

/-- What is new stands at one of the three places. -/
theorem Tidy.made (h : Tidy base fs) {dirs : List Path} (hdirs : ∀ path ∈ dirs, ∃ d : Directory, path = d.path)
    (hg : Grown dirs fs fs') : (∀ d, fs'.node (place base d) = none ∨ fs'.node (place base d) = some .dir) ∧
      ∀ l, fs'.node l ≠ fs.node l → fs'.node l = some .dir ∧ ∃ d, l = place base d := by
  have hfree : ∀ d, fs'.node (place base d) = none ∨ fs'.node (place base d) = some .dir := by
    intro d
    by_cases hnew : fs'.node (place base d) = fs.node (place base d)
    · exact hnew ▸ h.free d
    · exact .inr (hg.made _ hnew).1
  have hdir : fs'.node base = some .dir := hg.persists.dirs _ h.isDir
  have hhome : fs'.resolve homePath = some base := fs.resolve_persists hg.persists h.home (by rw [hdir, h.isDir])
  refine ⟨hfree, fun l hnew => ?_⟩
  obtain ⟨hnode, path, hpath, hresolve⟩ := hg.made l hnew
  obtain ⟨d, rfl⟩ := hdirs path hpath
  exact ⟨hnode, d, Option.some.inj (hresolve.symm.trans (resolve_place hhome hdir hfree d))⟩

theorem Tidy.grown (h : Tidy base fs) {dirs : List Path} (hdirs : ∀ path ∈ dirs, ∃ d : Directory, path = d.path)
    (hg : Grown dirs fs fs') : Tidy base fs' where
  home := fs.resolve_persists hg.persists h.home (by rw [hg.persists.dirs _ h.isDir, h.isDir])
  isDir := hg.persists.dirs _ h.isDir
  free := (h.made hdirs hg).1
  linkFree l t hl hlink := by
    by_cases hnew : fs'.node l = fs.node l
    · exact h.linkFree l t hl (hnew ▸ hlink)
    · rw [(hg.made l hnew).1] at hlink
      cases hlink
  sole l l' i hl hl' hf hf' := by
    have hold : ∀ k, fs'.node k = some (.file i) → fs.node k = some (.file i) := by
      intro k hk
      by_cases hnew : fs'.node k = fs.node k
      · rw [← hnew, hk]
      · rw [(hg.made k hnew).1] at hk
        cases hk
    exact h.sole l l' i hl hl' (hold l hf) (hold l' hf')
  short d p hp e := by
    by_cases hnew : fs'.node (p ++ place base d) = fs.node (p ++ place base d)
    · exact h.short d p (hnew ▸ hp) e
    · obtain ⟨-, d', hd'⟩ := (h.made hdirs hg).2 _ hnew
      obtain ⟨rfl, -⟩ := place_apart hd'
      cases e <;> decide

theorem Tidy.plain (h : Tidy base fs) (hdirs : ∀ d, fs.node (place base d) = some .dir) : Plain (place base) fs where
  resolves := h.resolves
  isDir := hdirs
  apart d e hs := by
    obtain ⟨p, hp⟩ := hs
    exact (place_apart hp).2
  linkFree := h.linkFree
  sole := h.sole
  short := h.short

/-- In an orderly state a call that does what it is asked to do leaves the directory in its place. -/
theorem Tidy.createDirIfNotExist_returns (h : Tidy base fs) (d : Directory) (mode : ℕ) {dirs : List Path}
    (hpath : d.path ∈ dirs) :
    (terms Choice.clean dirs).Meets (fun o fs' => Grown dirs fs fs' ∧ o = some 0) (createDirIfNotExist d.path mode)
      fs := by
  have hstands : ∀ c : Choice, c.clean → fs.node (place base d) = some .dir →
      (initExec c (.access d.path) fs).1 ≠ -1 := by
    intro c hc hdir
    simp [initExec, show c.fails = false from hc, h.resolves d, hdir]
  refine terms_call fun c hc => ⟨Grown.refl dirs fs, ?_⟩
  change (terms Choice.clean dirs).Meets _ (if (initExec c (.stat d.path) fs).1.isSome then _ else _) fs
  have hstat : (initExec c (.stat d.path) fs).1 = typeAt fs (place base d) := by
    simp [initExec, exec, show c.fails = false from hc, h.resolves d]
  rw [hstat]
  rcases h.free d with hnone | hdir
  · rw [if_neg (by simp [typeAt, hnone])]
    refine terms_call fun c hc => ?_
    change Grown dirs fs (exec c (.mkdir d.path mode) fs).2 ∧ (terms Choice.clean dirs).Meets _
      (if (exec c (.mkdir d.path mode) fs).1 = -1 then exitFailure else return 0) (exec c (.mkdir d.path mode) fs).2
    have hvalid := validName_nameOf d
    have hentry : fs.resolveEntry (stripSlashes d.path) = some (nameOf d :: base) := by
      rw [path_eq, stripSlashes_join _ hvalid.1.1 hvalid.2, fs.resolveEntry_join (by decide) hvalid, h.home,
        FS.child, Option.bind_some, if_pos h.isDir]
    have hmade : exec c (.mkdir d.path mode) fs =
        (0, fs.addDir (nameOf d) base mode h.isDir hvalid hnone) := by
      have hok : fs.node base = some .dir ∧ ValidName (nameOf d) ∧ fs.node (nameOf d :: base) = none :=
        ⟨h.isDir, hvalid, hnone⟩
      simp [exec, show c.fails = false from hc, hentry, FS.makeDir, hok]
    have hgrown : Grown dirs fs (fs.addDir (nameOf d) base mode h.isDir hvalid hnone) :=
      (grown_mkdir hpath hentry).1
    rw [hmade]
    exact ⟨hgrown, terms_ret ⟨hgrown, rfl⟩⟩
  · rw [if_pos (by simp [typeAt, hdir])]
    refine terms_call fun c hc => ⟨Grown.refl dirs fs, ?_⟩
    change (terms Choice.clean dirs).Meets _ (if (initExec c (.access d.path) fs).1 = -1 then _ else _) fs
    rw [if_neg (hstands c hc hdir)]
    exact terms_ret ⟨Grown.refl dirs fs, rfl⟩

theorem Tidy.initDirectories_returns (h : Tidy base fs) {dirs todo : List Path}
    (hdirs : ∀ path ∈ dirs, ∃ d : Directory, path = d.path) (htodo : ∀ path ∈ todo, path ∈ dirs) :
    (terms Choice.clean dirs).Meets (fun o _ => o = some 0) (initDirectories todo) fs := by
  induction todo generalizing fs with
  | nil => exact terms_ret rfl
  | cons path todo ih =>
    obtain ⟨d, rfl⟩ := hdirs path (htodo path (List.mem_cons_self ..))
    refine Terms.Meets.bind ((h.createDirIfNotExist_returns d _ (htodo _ (List.mem_cons_self ..))).mono ?_)
    rintro _ fs₁ ⟨hgrown, rfl⟩
    exact ih (h.grown hdirs hgrown) fun path hpath => htodo path (List.mem_cons_of_mem _ hpath)

/-- The paths of `__directories`. -/
def paths : List Path := [Directory.reports.path, Directory.backup.path, Directory.dashboard.path]

theorem mem_paths (d : Directory) : d.path ∈ paths := by cases d <;> simp [paths]

theorem exists_of_mem_paths : ∀ path ∈ paths, ∃ d : Directory, path = d.path := by
  intro path hpath
  simp only [paths, List.mem_cons, List.not_mem_nil, or_false] at hpath
  rcases hpath with rfl | rfl | rfl
  · exact ⟨.reports, rfl⟩
  · exact ⟨.backup, rfl⟩
  · exact ⟨.dashboard, rfl⟩

/-- A start that goes on leaves the three directories as every run expects them, with what they held before. If
no call fails it does go on. -/
theorem daemonInitDirectories_plain (h : Tidy base fs) (sched : ℕ → Choice) :
    let o := run initExec sched daemonInitDirectories 0 fs
    (o.result = some () → Plain (place base) o.state ∧ contents (place base) o.state =
      fun d p => if p = [] then some .dir else contents (place base) fs d p) ∧
    ((∀ t, (sched t).clean) → o.result = some ()) := by
  intro o
  constructor
  · have hmeets : (terms (fun _ => True) paths).Meets
        (fun o fs' => o = some () → Grown paths fs fs' ∧ ∀ path ∈ paths, Stands fs' path)
        daemonInitDirectories fs := by
      refine Terms.Meets.bind ((initDirectories_meets (fun _ => True) fun _ h => h).mono ?_)
      rintro (_ | code) fs' ⟨hgrown, hstands⟩
      · exact nofun
      · obtain ⟨rfl, hall⟩ := hstands code rfl
        exact fun _ hsame _ => hsame ▸ ⟨hgrown, hall⟩
    intro hresult
    obtain ⟨hgrown, hstands⟩ : Grown paths fs o.state ∧ ∀ path ∈ paths, Stands o.state path :=
      (hmeets.run sched (fun _ => trivial) 0).1 hresult
    have htidy := h.grown exists_of_mem_paths hgrown
    have hdirs : ∀ d, o.state.node (place base d) = some .dir := by
      intro d
      obtain ⟨l, hl, hne⟩ := hstands d.path (mem_paths d)
      obtain rfl : place base d = l := Option.some.inj ((htidy.resolves d).symm.trans hl)
      exact (htidy.free d).resolve_left hne
    refine ⟨htidy.plain hdirs, ?_⟩
    funext d p
    by_cases hp : p = []
    · rw [if_pos hp, hp]
      exact o.state.entry_dir.2 (hdirs d)
    · rw [if_neg hp]
      have hsame : o.state.node (p ++ place base d) = fs.node (p ++ place base d) := by
        by_contra hnew
        obtain ⟨-, d', hd'⟩ := (h.made exists_of_mem_paths hgrown).2 _ hnew
        exact hp (place_apart hd').1
      unfold contents FS.tree FS.entry
      rw [hsame, hgrown.data]
  · intro hclean
    have hmeets : (terms Choice.clean paths).Meets (fun o _ => o = some ()) daemonInitDirectories fs := by
      refine Terms.Meets.bind ((h.initDirectories_returns exists_of_mem_paths fun _ h => h).mono ?_)
      rintro _ fs' rfl _ -
      rfl
    exact (hmeets.run sched hclean 0).1

end Start

theorem validName_srv : ValidName (bytes "srv") := by decide

theorem validName_reportman : ValidName (bytes "reportman") := by decide

theorem empty_srv : FS.empty.node [bytes "srv"] = none := by decide

def onlySrv : FS := FS.empty.addDir (bytes "srv") [] 0o755 FS.empty.node_root validName_srv empty_srv

theorem onlySrv_dir : onlySrv.node [bytes "srv"] = some .dir := by decide

theorem onlySrv_free : onlySrv.node [bytes "reportman", bytes "srv"] = none := by decide

/-- `/srv/reportman` is there and nothing below it. -/
def onlyHome : FS :=
  onlySrv.addDir (bytes "reportman") [bytes "srv"] 0o755 onlySrv_dir validName_reportman onlySrv_free

theorem onlyHome_short {l : Loc} (h : onlyHome.node l ≠ none) : l.length ≤ 2 := by
  have hkeys : ∀ k ∈ onlyHome.nodes.keys, k.length ≤ 2 := by decide
  exact hkeys l (onlyHome.mem_keys.1 h)

theorem onlyHome_below (d : Directory) (p : List Name) :
    onlyHome.node (p ++ place [bytes "reportman", bytes "srv"] d) = none := by
  by_contra h
  have hshort := onlyHome_short h
  simp [place] at hshort

theorem onlyHome_tidy : Tidy [bytes "reportman", bytes "srv"] onlyHome where
  home := by decide
  isDir := by decide
  free d := .inl (onlyHome_below d [])
  linkFree l t hl hlink := by
    obtain ⟨d, p, rfl⟩ := hl
    rw [onlyHome_below] at hlink
    cases hlink
  sole l l' i hl _ hf _ := by
    obtain ⟨d, p, rfl⟩ := hl
    rw [onlyHome_below] at hf
    cases hf
  short d p hp := absurd (onlyHome_below d p) hp

theorem daemonInitDirectories_plain_onlyHome :
    Plain (place [bytes "reportman", bytes "srv"])
      (run initExec (fun _ => Choice.plain) daemonInitDirectories 0 onlyHome).state :=
  have h := daemonInitDirectories_plain onlyHome_tidy fun _ => Choice.plain
  (h.1 (h.2 fun _ => rfl)).1

end Reportman.InitDirectories
