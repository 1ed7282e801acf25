import Mathlib
import Reportman.Timers
import Reportman.Frame

/-!
# The modes that the timers leave behind

The walks around a scheduled run give every entry of a tree one mode, directories and files alike,
and none of the modes has an execute bit. A call other than `chmod` changes the mode of nothing that
stands; so what a directory's owner and group may do after a run is what the last walk over it says.
-/
namespace Reportman.Modes
open Resumable FileSystem TransferFile TransferDirectory OverlayRun Directories Timers

/-- The terms of a program that nobody disturbs and none of whose calls fails. -/
def alone : Terms Sys Sys.Res Choice FS where
  exec := exec
  allowed := Choice.clean
  rely := Eq
  guarantee := fun _ _ _ _ => True
  rely_refl := fun _ => rfl
  rely_trans := Eq.trans

/-- Modes have changed only at `W`, and no file that stood has got a new name. -/
structure ModesKept (W : Loc → Prop) (fs fs' : FS) : Prop where
  persists : FS.Persists fs fs'
  next : fs.next ≤ fs'.next
  names : ∀ l i, i < fs.next → fs'.node l = some (.file i) → fs.node l = some (.file i)
  dirs : ∀ l, fs.node l = some .dir → ¬ W l → fs'.dirMode l = fs.dirMode l
  files : ∀ i, i < fs.next → (∀ l, W l → fs.node l ≠ some (.file i)) → fs'.fileMode i = fs.fileMode i

section Calls

variable {W V : Loc → Prop} {fs fs' fs'' : FS}

theorem ModesKept.refl (W : Loc → Prop) (fs : FS) : ModesKept W fs fs :=
  ⟨FS.Persists.refl fs, le_rfl, fun _ _ _ h => h, fun _ _ _ => rfl, fun _ _ _ => rfl⟩

theorem ModesKept.trans (h : ModesKept W fs fs') (h' : ModesKept W fs' fs'') : ModesKept W fs fs'' where
  persists := h.persists.trans h'.persists
  next := h.next.trans h'.next
  names := fun l i hi hl => h.names l i hi (h'.names l i (hi.trans_le h.next) hl)
  dirs := fun l hl hw => (h'.dirs l (h.persists.dirs l hl) hw).trans (h.dirs l hl hw)
  files := fun i hi hw =>
    (h'.files i (hi.trans_le h.next) fun l hl hn => hw l hl (h.names l i hi hn)).trans (h.files i hi hw)

theorem ModesKept.mono (h : ModesKept V fs fs') (hV : ∀ l, V l → W l) : ModesKept W fs fs' :=
  ⟨h.persists, h.next, h.names, fun l hl hw => h.dirs l hl fun hv => hw (hV l hv),
    fun i hi hw => h.files i hi fun l hv => hw l (hV l hv)⟩

/-- The calls of a run that copies: no mode is changed, and directories are made with the mode `07`. -/
def keepsModes : Sys → Bool
  | .chmod _ _ => false
  | .mkdir _ mode => mode = 0o7
  | _ => true

/-- What has been added has the modes that `mkdir` and `fopen` give. -/
structure Grown (fs fs' : FS) : Prop extends ModesKept (fun _ => False) fs fs' where
  newDirs : ∀ l, fs.node l ≠ some .dir → fs'.node l = some .dir → fs'.dirMode l = 0o7
  newFiles : ∀ i, fs.next ≤ i → i < fs'.next → fs'.fileMode i = 0o666

theorem Grown.refl (fs : FS) : Grown fs fs :=
  ⟨.refl _ fs, fun _ hl hl' => absurd hl' hl, fun _ hi hi' => absurd hi' hi.not_gt⟩

theorem Grown.trans (h : Grown fs fs') (h' : Grown fs' fs'') : Grown fs fs'' := by
  refine ⟨h.toModesKept.trans h'.toModesKept, fun l hl hl'' => ?_, fun i hi hi'' => ?_⟩
  · by_cases hl' : fs'.node l = some .dir
    · exact (h'.dirs l hl' not_false).trans (h.newDirs l hl hl')
    · exact h'.newDirs l hl' hl''
  · by_cases hi' : i < fs'.next
    · exact (h'.files i hi' fun _ hw => hw.elim).trans (h.newFiles i hi hi')
    · exact h'.newFiles i (not_lt.mp hi') hi''

theorem grown_write (i : ℕ) (content : Bytes) : Grown fs (fs.write i content) :=
  ⟨⟨⟨fun _ h => h, fun _ _ h => h⟩, le_rfl, fun _ _ _ h => h, fun _ _ _ => rfl, fun _ _ _ => rfl⟩,
    fun _ hl hl' => absurd hl' hl, fun _ hi hi' => absurd hi' hi.not_gt⟩

theorem grown_flush (c : Choice) (f : FILE) (k : ℕ) : Grown fs (f.flush c fs k).2 := by
  unfold FILE.flush
  rcases f.ino with _ | i
  · exact .refl fs
  · dsimp only
    split
    · exact .refl fs
    · exact grown_write i _

theorem grown_create {l : Loc} (h : fs.create l 0o666 = some fs') : Grown fs fs' := by
  rcases l with _ | ⟨n, d⟩
  · cases h
  simp only [FS.create] at h
  split_ifs at h with hok
  obtain rfl := Option.some.inj h
  have hnode : ∀ k, (fs.addFile n d 0o666 hok.1 hok.2.1 hok.2.2).node k =
      if k = n :: d then some (.file fs.next) else fs.node k := fun k => fs.node_addFile
  refine ⟨⟨⟨?_, ?_⟩, Nat.le_succ _, ?_, fun _ _ _ => rfl, ?_⟩, ?_, ?_⟩
  · intro k hk
    rw [hnode, if_neg (by rintro rfl; rw [hok.2.2] at hk; cases hk), hk]
  · intro k t hk
    rw [hnode, if_neg (by rintro rfl; rw [hok.2.2] at hk; cases hk), hk]
  · intro k i hi hk
    rw [hnode] at hk
    split_ifs at hk
    · cases hk
      exact absurd hi (lt_irrefl _)
    · exact hk
  · exact fun i hi _ => Function.update_of_ne hi.ne ..
  · intro k hk hk'
    rw [hnode] at hk'
    split_ifs at hk'
    · cases hk'
    · exact absurd hk' hk
  · intro i hi hi'
    obtain rfl : i = fs.next := le_antisymm (Nat.lt_succ_iff.mp hi') hi
    exact Function.update_self ..

theorem grown_makeDir {l : Loc} (h : fs.makeDir l 0o7 = some fs') : Grown fs fs' := by
  rcases l with _ | ⟨n, d⟩
  · cases h
  simp only [FS.makeDir] at h
  split_ifs at h with hok
  obtain rfl := Option.some.inj h
  have hnode : ∀ k, (fs.addDir n d 0o7 hok.1 hok.2.1 hok.2.2).node k =
      if k = n :: d then some .dir else fs.node k := fun k => fs.node_addDir
  have hne : ∀ k x, fs.node k = some x → k ≠ n :: d := by
    rintro k x hk rfl
    rw [hok.2.2] at hk
    cases hk
  refine ⟨⟨⟨?_, ?_⟩, le_rfl, ?_, ?_, fun _ _ _ => rfl⟩, ?_, fun _ hi hi' => absurd hi' hi.not_gt⟩
  · intro k hk
    rw [hnode, if_neg (hne k _ hk), hk]
  · intro k t hk
    rw [hnode, if_neg (hne k _ hk), hk]
  · intro k i _ hk
    rw [hnode] at hk
    split_ifs at hk
    · cases hk
    · exact hk
  · exact fun k hk _ => Function.update_of_ne (hne k _ hk) ..
  · intro k hk hk'
    rw [hnode] at hk'
    split_ifs at hk' with hkn
    · rw [hkn]
      exact Function.update_self ..
    · exact absurd hk' hk

/-- A removal that removes no directory. -/
theorem grown_remove (c : Choice) (path : Path)
    (hp : FS.Persists fs (exec c (.remove path) fs).2) : Grown fs (exec c (.remove path) fs).2 := by
  obtain he | ⟨n, d, hbelow, -, -, he⟩ := Faults.exec_remove_cases c path fs
  · rw [he]
    exact .refl fs
  rw [he] at hp ⊢
  have hnode : ∀ k, (fs.unlink n d hbelow).node k = if k = n :: d then none else fs.node k :=
    fun k => fs.node_unlink
  refine ⟨⟨hp, le_rfl, ?_, fun _ _ _ => rfl, fun _ _ _ => rfl⟩, ?_, fun _ hi hi' => absurd hi' hi.not_gt⟩
  · intro k i _ hk
    rw [hnode] at hk
    split_ifs at hk
    exact hk
  · intro k hk hk'
    rw [hnode] at hk'
    split_ifs at hk'
    exact absurd hk' hk

/-- No call but `chmod` changes the mode of what stands. -/
theorem exec_grown (c : Choice) {op : Sys} (hop : keepsModes op = true)
    (hp : FS.Persists fs (exec c op fs).2) : Grown fs (exec c op fs).2 := by
  cases op with
  | fopen path mode =>
    cases mode with
    | rb => exact .refl fs
    | wb =>
      simp only [exec]
      split_ifs
      · exact .refl fs
      unfold FS.openWrite
      rcases fs.resolve path with _ | l
      · exact .refl fs
      dsimp only
      rcases fs.node l with _ | _ | i | t
      · dsimp only
        rcases hc : fs.create l 0o666 with _ | fs₁
        · exact .refl fs
        · exact grown_create hc
      · exact .refl fs
      · exact grown_write i _
      · exact .refl fs
  | fread count f => exact .refl fs
  | fwrite buffer f =>
    simp only [exec]
    rcases f.mode with _ | _
    · exact .refl fs
    · exact grown_flush _ _ _
  | fseek f =>
    simp only [exec]
    split_ifs <;> exact grown_flush _ _ _
  | fclose f => exact grown_flush _ _ _
  | remove path => exact grown_remove c path hp
  | mkdir path mode =>
    obtain rfl : mode = 0o7 := of_decide_eq_true hop
    simp only [exec]
    split_ifs
    · exact .refl fs
    rcases hr : (fs.resolveEntry (stripSlashes path)).bind fun l => fs.makeDir l 0o7 with _ | fs₁
    · exact .refl fs
    · obtain ⟨l, -, hl⟩ := Option.bind_eq_some_iff.mp hr
      exact grown_makeDir hl
  | opendir path =>
    rw [Faults.exec_opendir_state]
    exact .refl fs
  | stat path => exact .refl fs
  | lstat path => exact .refl fs
  | chmod path mode => cases hop

end Calls

section Run

variable {F W : Loc → Prop} {fs fs₀ : FS} {α : Type} {Q : α → Prop}

theorem copyLoop_keepsModes (fuel : ℕ) (source dest : FILE) :
    (copyLoop fuel source dest).Always (fun op _ => keepsModes op = true) fun _ => True := by
  induction fuel generalizing source dest with
  | zero => trivial
  | succ fuel ih =>
    rw [copyLoop_succ]
    refine fun r => ⟨rfl, ?_⟩
    dsimp only
    split_ifs
    · exact fun w => ⟨rfl, ih _ _⟩
    · trivial

theorem hashLoop_keepsModes (fuel : ℕ) (source : FILE) (seen : Bytes) :
    (hashLoop fuel source seen).Always (fun op _ => keepsModes op = true) fun _ => True := by
  induction fuel generalizing source seen with
  | zero => trivial
  | succ fuel ih =>
    rw [hashLoop_succ]
    refine fun r => ⟨rfl, ?_⟩
    dsimp only
    split_ifs
    · exact ih _ _
    · trivial

theorem hashFile_keepsModes (sha256 : Bytes → Bytes) (fuel : ℕ) (source : FILE) :
    (hashFile sha256 fuel source).Always (fun op _ => keepsModes op = true) fun _ => True := by
  rw [hashFile_eq]
  exact fun r => ⟨rfl, (hashLoop_keepsModes fuel r.2 []).bind fun _ _ => trivial⟩

theorem transactTransferFile_keepsModes (sha256 : Bytes → Bytes) (fuel : ℕ) (source destination : Path)
    (method : TransferMethod) : (transactTransferFile sha256 fuel source destination method).Always
      (fun op _ => keepsModes op = true) fun _ => True := by
  rw [transactTransferFile_eq]
  refine fun r => ⟨rfl, ?_⟩
  rcases r with _ | s
  · trivial
  refine fun r => ⟨rfl, ?_⟩
  rcases r with _ | d
  · exact fun _ => ⟨rfl, trivial⟩
  refine (copyLoop_keepsModes fuel s d).bind fun x _ => ?_
  rw [verifyFiles_eq]
  refine Program.Always.bind (Q := fun _ => True) ((hashFile_keepsModes sha256 fuel x.1).bind fun _ _ =>
    (hashFile_keepsModes sha256 fuel x.2).bind fun _ _ => ?_) fun v _ => ?_
  · split_ifs <;> trivial
  · refine fun _ => ⟨rfl, fun _ => ⟨rfl, ?_⟩⟩
    split_ifs
    · trivial
    cases method with
    | transfer => exact fun _ => ⟨rfl, trivial⟩
    | backup => trivial

theorem transferDirectory_keepsModes (sha256 : Bytes → Bytes) (fuel stack : ℕ) (source destination : Path)
    (method : TransferMethod) :
    (TransferDirectory.transferDirectory (systemCalls sha256 fuel) stack source destination method).Always
      (fun op _ => keepsModes op = true) fun _ => True := by
  induction stack generalizing source destination with
  | zero => trivial
  | succ stack ih =>
    rw [transferDirectory_succ]
    refine fun _ => ⟨rfl, fun dir => ⟨rfl, ?_⟩⟩
    rcases dir with _ | entries
    · trivial
    change (entries.foldlM _ (0 : ℤ) : Prog ℤ).Always _ _
    generalize (0 : ℤ) = noErrors
    induction entries generalizing noErrors with
    | nil => trivial
    | cons name entries ihEntries =>
      rw [List.foldlM_cons]
      refine Program.Always.bind (Q := fun _ => True) ?_ fun errors _ => ihEntries errors
      by_cases hdots : name = dot ∨ name = dotDot
      · rw [processEntry_dots _ _ _ _ _ _ hdots]
        trivial
      · rw [processEntry_eq _ _ _ _ _ _ hdots]
        refine fun status => ⟨rfl, ?_⟩
        rcases status with _ | _ | _ | _
        · trivial
        · exact (ih _ _).bind fun _ _ => trivial
        all_goals
          refine (transactTransferFile_keepsModes sha256 fuel _ _ method).bind fun _ _ => ?_
          split_ifs <;> trivial

/-- What a program promises to its surroundings it also keeps when it is alone, and the modes too. -/
theorem alone_meets {post : Option α → FS → Prop} {p : Prog α} (h : (terms F W).Meets post p fs)
    (hp : p.Always (fun op _ => keepsModes op = true) Q) {V : Loc → Prop} (hm : ModesKept V fs₀ fs) :
    alone.Meets (fun o fs' => post o fs' ∧ ModesKept V fs₀ fs') p fs := by
  induction p generalizing fs with
  | ret a =>
    rintro _ rfl
    exact ⟨h fs (Keeps.refl F fs), hm⟩
  | halt =>
    rintro _ rfl
    exact ⟨h fs (Keeps.refl F fs), hm⟩
  | call op next ih =>
    rintro _ rfl c hc
    obtain ⟨hwithin, hnext⟩ := h fs (Keeps.refl F fs) c hc
    refine ⟨trivial, ih _ hnext (hp _).2 (hm.trans ?_)⟩
    exact (exec_grown c (hp (exec c op fs).1).1 hwithin.persists).toModesKept.mono nofun

end Run

section Walk

/-- The directories and files at `S` have the mode, and away from `V` everything is as it was. -/
structure Painted (mode : ℕ) (V : Loc → Prop) (fs₀ : FS) (S : Loc → Prop) (fs : FS) : Prop where
  node : fs.node = fs₀.node
  data : fs.data = fs₀.data
  next : fs.next = fs₀.next
  painted : ∀ k, S k → fs₀.node k = some .dir → fs.dirMode k = mode
  paintedFiles : ∀ k i, S k → fs₀.node k = some (.file i) → fs.fileMode i = mode
  outside : ∀ k, ¬ V k → fs.dirMode k = fs₀.dirMode k
  files : ∀ i, (∀ k, V k → fs₀.node k ≠ some (.file i)) → fs.fileMode i = fs₀.fileMode i

/-- The places that a walk from `root` comes to: only the root itself when a link leads to it. -/
def Walks (fs : FS) (root : Path) (l k : Loc) : Prop := k = l ∨ fs.resolveEntry root = some l ∧ l <:+ k

variable {mode : ℕ} {V S S' : Loc → Prop} {fs fs' fs₀ : FS} {root : Path} {l : Loc}

theorem node_suffix {j k : Loc} (h : fs.node k ≠ none) (hs : j <:+ k) : fs.node j ≠ none := by
  obtain ⟨p, rfl⟩ := hs
  induction p with
  | nil => exact h
  | cons n p ih => exact ih (by rw [fs.node_parent (n := n) (l := p ++ j) h]; simp)

/-- What lies above an entry is a directory. -/
theorem node_above {j k : Loc} (h : fs.node k ≠ none) (hs : j <:+ k) (hne : j ≠ k) : fs.node j = some .dir := by
  rcases Overlay.eq_or_cons_suffix hs with rfl | ⟨n, hn⟩
  · exact absurd rfl hne
  · exact fs.node_parent (n := n) (node_suffix h hn)

theorem Walks.below {k : Loc} (h : Walks fs root l k) : l <:+ k := by
  rcases h with rfl | ⟨-, h⟩
  · exact List.suffix_refl _
  · exact h

theorem Painted.start (mode : ℕ) (V : Loc → Prop) (fs : FS) : Painted mode V fs (fun _ => False) fs :=
  ⟨rfl, rfl, rfl, fun _ h => h.elim, fun _ _ h => h.elim, fun _ _ => rfl, fun _ _ => rfl⟩

theorem Painted.mono (h : Painted mode V fs₀ S fs) (hS : ∀ k, S' k → fs₀.node k ≠ none → S k) :
    Painted mode V fs₀ S' fs :=
  ⟨h.node, h.data, h.next, fun k hk hd => h.painted k (hS k hk (by simp [hd])) hd,
    fun k i hk hi => h.paintedFiles k i (hS k hk (by simp [hi])) hi, h.outside, h.files⟩

theorem Painted.modesKept (h : Painted mode V fs₀ S fs) : ModesKept V fs₀ fs where
  persists := (keeps_of_same (F := V) h.node h.data).persists
  next := h.next.ge
  names := fun l i _ hl => by rwa [h.node] at hl
  dirs := fun l _ => h.outside l
  files := fun i _ => h.files i

theorem Painted.resolve_root (h : Painted mode V fs₀ S fs) (hroot : fs₀.resolve root = some l) :
    fs.resolve root = some l :=
  fs₀.resolve_persists h.modesKept.persists hroot (by rw [h.node])

theorem Painted.linkFree (h : Painted mode V fs₀ S fs) (hlinks : LinkFree (l <:+ ·) fs₀) :
    LinkFree (l <:+ ·) fs := by
  intro k t hk
  rw [h.node]
  exact hlinks k t hk

theorem Painted.resolve (h : Painted mode V fs₀ S fs) (hroot : fs₀.resolve root = some l)
    (hlinks : LinkFree (l <:+ ·) fs₀) {q : List Name} (hq : fs₀.node (q ++ l) ≠ none) :
    fs.resolve (pathOf root q) = some (q ++ l) := by
  rw [resolve_pathOf (h.resolve_root hroot) q ((h.linkFree hlinks).below (fun p => List.suffix_append p l) q)
    (Frame.valid_of_node hq), if_pos]
  cases q with
  | nil => exact .inl rfl
  | cons n q => exact .inr (by rw [h.node]; exact fs₀.node_parent hq)

theorem Painted.lstat (h : Painted mode V fs₀ S fs) (hroot : fs₀.resolve root = some l)
    (hlinks : LinkFree (l <:+ ·) fs₀) {n : Name} {q : List Name} (hq : fs₀.node (n :: q ++ l) ≠ none)
    {c : Choice} (hc : c.clean) : exec c (.lstat (pathOf root q ++ slash :: n)) fs =
      (typeAt fs (n :: q ++ l), fs) := by
  have hentry := resolveEntry_pathOf (h.resolve_root hroot)
    ((h.linkFree hlinks).below (fun p => List.suffix_append p l) q) (Frame.valid_of_node hq)
  rw [if_pos (by rw [h.node]; exact fs₀.node_parent hq), pathOf] at hentry
  rw [Choice.clean] at hc
  simp only [exec, hc, Bool.false_eq_true, ↓reduceIte, hentry]

/-- One `chmod` of a walk. -/
theorem setPermissions_paints (h : Painted mode V fs₀ S fs) {path : Path} {k : Loc}
    (hpath : fs.resolve path = some k) (hV : V k)
    (hstands : fs₀.node k = some .dir ∨ ∃ i, fs₀.node k = some (.file i)) :
    alone.Meets (Terms.Returns fun r fs' => r = 0 ∧ Painted mode V fs₀ (fun j => j = k ∨ S j) fs')
      (setPermissions mode path) fs := by
  rw [setPermissions_eq]
  refine Terms.Meets.call ?_
  rintro _ rfl c hc
  have hc : c.fails = false := hc
  have hzero : ¬ (0 : ℤ) < 0 := lt_irrefl 0
  rcases hstands with hd | ⟨i, hi⟩
  · have hexec : exec c (.chmod path mode) fs = (0, fs.setDirMode k mode) := by
      simp only [exec, hc, Bool.false_eq_true, ↓reduceIte, hpath, h.node, hd]
    refine ⟨_, _, hexec, trivial, ?_⟩
    rw [if_neg hzero]
    rintro _ rfl
    refine ⟨rfl, h.node, h.data, h.next, ?_, ?_, ?_, h.files⟩
    · intro j hj hdj
      by_cases hjk : j = k
      · rw [hjk]
        exact Function.update_self ..
      · exact (Function.update_of_ne hjk ..).trans (h.painted j (hj.resolve_left hjk) hdj)
    · intro j i hj hi
      refine h.paintedFiles j i (hj.resolve_left ?_) hi
      rintro rfl
      rw [hd] at hi
      cases hi
    · intro j hj
      have hjk : j ≠ k := fun e => hj (e ▸ hV)
      exact (Function.update_of_ne hjk ..).trans (h.outside j hj)
  · have hexec : exec c (.chmod path mode) fs = (0, fs.setFileMode i mode) := by
      simp only [exec, hc, Bool.false_eq_true, ↓reduceIte, hpath, h.node, hi]
    refine ⟨_, _, hexec, trivial, ?_⟩
    rw [if_neg hzero]
    rintro _ rfl
    refine ⟨rfl, h.node, h.data, h.next, ?_, ?_, h.outside, ?_⟩
    · rintro j (rfl | hj) hdj
      · rw [hi] at hdj
        cases hdj
      · exact h.painted j hj hdj
    · intro j i' hj hi'
      by_cases hii : i' = i
      · rw [hii]
        exact Function.update_self ..
      · refine (Function.update_of_ne hii ..).trans (h.paintedFiles j i' (hj.resolve_left ?_) hi')
        rintro rfl
        rw [hi] at hi'
        cases hi'
        exact hii rfl
    · intro j hj
      have hji : j ≠ i := fun e => hj k hV (e ▸ hi)
      exact (Function.update_of_ne hji ..).trans (h.files j hj)

theorem ftwEntry_paints (hroot : fs₀.resolve root = some l) (hlinks : LinkFree (l <:+ ·) fs₀)
    (hV : ∀ k, l <:+ k → V k) {visit : Path → Prog ℤ} {q : List Name} {n : Name}
    (hentry : n = dot ∨ n = dotDot ∨ fs₀.node (n :: q ++ l) ≠ none)
    (hvisit : fs₀.node (n :: q ++ l) = some .dir →
      alone.Meets (Terms.Returns fun r fs' => r = 0 ∧ Painted mode V fs₀ (fun k => n :: q ++ l <:+ k ∨ S k) fs')
        (visit (pathOf root (n :: q))) fs) (h : Painted mode V fs₀ S fs) :
    alone.Meets (Terms.Returns fun r fs' => r = 0 ∧ Painted mode V fs₀ (fun k => n :: q ++ l <:+ k ∨ S k) fs')
      (ftwEntry (setPermissions mode) visit (pathOf root q) 0 n) fs := by
  by_cases hdots : n = dot ∨ n = dotDot
  · rw [ftwEntry, if_pos (.inr hdots)]
    rintro _ rfl
    refine ⟨rfl, h.mono ?_⟩
    -- no entry has one of the two names
    rintro k (hs | hk) hd
    · have hname := fs₀.node_valid (node_suffix hd hs)
      rcases hdots with rfl | rfl
      · exact absurd rfl hname.1.2.1
      · exact absurd rfl hname.1.2.2
    · exact hk
  have hskip : ¬ ((0 : ℤ) ≠ 0 ∨ n = dot ∨ n = dotDot) := by
    rw [not_or]
    exact ⟨fun h => h rfl, hdots⟩
  rw [not_or] at hdots
  have hne : fs₀.node (n :: q ++ l) ≠ none := (hentry.resolve_left hdots.1).resolve_left hdots.2
  rw [ftwEntry_eq _ _ _ hskip]
  refine Terms.Meets.call ?_
  rintro _ rfl c hc
  refine ⟨_, _, h.lstat hroot hlinks hne hc, trivial, ?_⟩
  have hresolve : fs.resolve (pathOf root q ++ slash :: n) = some (n :: q ++ l) :=
    h.resolve hroot hlinks hne
  have hbelow : l <:+ n :: q ++ l := List.suffix_append (n :: q) l
  rcases hx : fs₀.node (n :: q ++ l) with _ | _ | i | t
  · exact absurd hx hne
  · rw [typeAt, h.node, hx]
    exact hvisit hx
  · rw [typeAt, h.node, hx]
    refine (setPermissions_paints h hresolve (hV _ hbelow) (.inr ⟨i, hx⟩)).mono ?_
    rintro (_ | r) fs' ho
    · exact ho.elim
    refine ⟨ho.1, ho.2.mono ?_⟩
    -- below a file there is only the file
    rintro k (hs | hk) hd
    · by_cases hkn : n :: q ++ l = k
      · exact .inl hkn.symm
      · rw [node_above hd hs hkn] at hx
        cases hx
    · exact .inr hk
  · exact absurd hx (hlinks _ t hbelow)

theorem ftwDir_paints (hroot : fs₀.resolve root = some l) (hlinks : LinkFree (l <:+ ·) fs₀)
    (hV : ∀ k, l <:+ k → V k) (stack : ℕ) : ∀ (q : List Name) (S : Loc → Prop) (fs : FS),
      fs₀.node (q ++ l) = some .dir →
      (∀ p, q <:+ p → fs₀.node (p ++ l) ≠ none → p.length < stack + q.length) →
      Painted mode V fs₀ S fs →
      alone.Meets (Terms.Returns fun r fs' => r = 0 ∧ Painted mode V fs₀ (fun k => q ++ l <:+ k ∨ S k) fs')
        (ftwDir (setPermissions mode) stack (pathOf root q)) fs := by
  induction stack with
  | zero =>
    intro q S fs hq hheight _
    have := hheight q (List.suffix_refl q) (by simp [hq])
    omega
  | succ stack ih =>
    intro q S fs hq hheight h
    have hsome : fs₀.node (q ++ l) ≠ none := by simp [hq]
    rw [ftwDir_succ]
    refine Terms.Meets.call ?_
    rintro _ rfl c hc
    refine ⟨_, _, exec_opendir hc (h.resolve hroot hlinks hsome) (by rw [h.node, hq]), trivial, ?_⟩
    dsimp only
    refine Terms.Meets.bind_returns (Terms.Meets.foldlM_value (I := fun done r fs' => r = 0 ∧
      Painted mode V fs₀ (fun k => (∃ n ∈ done, n :: q ++ l <:+ k) ∨ S k) fs') ?_ ?_
      ⟨rfl, h.mono fun k hk _ => hk.resolve_left (by simp)⟩) ?_
    · rintro done b fs₁ _ h₁ rfl
      exact h₁
    · rintro done n rest hsplit r fs₁ ⟨rfl, h₁⟩
      have hentry : n = dot ∨ n = dotDot ∨ fs₀.node (n :: q ++ l) ≠ none := by
        have hn : n ∈ c.order (dot :: dotDot :: fs.names (q ++ l)) := by rw [hsplit]; simp
        have := (c.perm _).mem_iff.mp hn
        rw [List.mem_cons, List.mem_cons, fs.mem_names, h.node] at this
        exact this
      refine (ftwEntry_paints hroot hlinks hV hentry (fun hx => ih (n :: q) _ fs₁ hx ?_ h₁) h₁).mono ?_
      · intro p hp hsome
        have := hheight p ((List.suffix_cons n q).trans hp) hsome
        simp only [List.length_cons]
        omega
      rintro (_ | r) fs₂ ho
      · exact ho.elim
      refine ⟨ho.1, ho.2.mono ?_⟩
      rintro k (⟨m, hm, hs⟩ | hk) -
      · rcases List.mem_append.mp hm with hm | hm
        · exact .inr (.inl ⟨m, hm, hs⟩)
        · exact .inl (List.mem_singleton.mp hm ▸ hs)
      · exact .inr (.inr hk)
    · rintro r fs₁ ⟨rfl, h₁⟩
      rw [if_neg (fun h => h rfl)]
      have hresolve := h₁.resolve hroot hlinks hsome
      refine (setPermissions_paints h₁ hresolve (hV _ (List.suffix_append q l)) (.inl hq)).mono ?_
      rintro (_ | r) fs₂ ho
      · exact ho.elim
      refine ⟨ho.1, ho.2.mono ?_⟩
      rintro k (hs | hk) hd
      · rcases Overlay.eq_or_cons_suffix hs with rfl | ⟨n, hn⟩
        · exact .inl rfl
        have hlisted : n ∈ fs.names (q ++ l) :=
          fs.mem_names.mpr (by rw [h.node]; exact node_suffix hd hn)
        refine .inr (.inl ⟨n, (c.perm _).mem_iff.mpr ?_, hn⟩)
        exact List.mem_cons_of_mem _ (List.mem_cons_of_mem _ hlisted)
      · exact .inr (.inr hk)

/-- The last name of a path leads where the path leads, or it is a link. -/
theorem entry_or_link (path : Path) (n : Name) (hpath : path ≠ []) (hn : ValidName n)
    (h : fs.resolve (path ++ slash :: n) = some l) :
    fs.resolveEntry (path ++ slash :: n) = some l ∨
      ∃ k t, fs.resolveEntry (path ++ slash :: n) = some k ∧ fs.node k = some (.link t) := by
  obtain ⟨d, hd, hdir⟩ := fs.resolve_prefix hpath h
  by_cases hl : ∃ t, fs.node (n :: d) = some (.link t)
  · obtain ⟨t, ht⟩ := hl
    refine .inr ⟨n :: d, t, ?_, ht⟩
    rw [fs.resolveEntry_join hpath hn, hd]
    simp [FS.child, hdir]
  · refine .inl ?_
    rw [fs.resolveEntry_join hpath hn, ← fs.resolve_join hpath hn, h]
    intro d' t hd' ht
    rw [hd] at hd'
    cases hd'
    exact hl ⟨t, ht⟩

theorem directory_entry_or_link (d : Directory) (h : fs.resolve d.path = some l) :
    fs.resolveEntry d.path = some l ∨ ∃ k t, fs.resolveEntry d.path = some k ∧ fs.node k = some (.link t) := by
  have hbase : bytes "/srv/reportman" ≠ [] := by decide
  cases d
  · exact entry_or_link (bytes "/srv/reportman") (bytes "reports") hbase (by decide) h
  · exact entry_or_link (bytes "/srv/reportman") (bytes "dashboard") hbase (by decide) h
  · exact entry_or_link (bytes "/srv/reportman") (bytes "backup") hbase (by decide) h

/-- A walk gives the places it comes to the mode, and no others. -/
theorem nftw_paints (mode : ℕ) (hroot : fs.resolve root = some l) (hlinks : LinkFree (l <:+ ·) fs)
    (hdir : fs.node l = some .dir) (hentry : fs.resolveEntry root = some l ∨
      ∃ k t, fs.resolveEntry root = some k ∧ fs.node k = some (.link t)) {stack : ℕ}
    (hheight : ∀ p, fs.node (p ++ l) ≠ none → p.length < stack) :
    alone.Meets (Terms.Returns fun _ fs' => Painted mode (Walks fs root l) fs (Walks fs root l) fs')
      (nftw (setPermissions mode) stack root) fs := by
  rw [nftw_eq]
  refine Terms.Meets.call ?_
  rintro _ rfl c hc
  have hc : c.fails = false := hc
  rcases hentry with hentry | ⟨k, t, hentry, hlink⟩
  · have hlstat : exec c (.lstat root) fs = (some .directory, fs) := by
      simp only [exec, hc, Bool.false_eq_true, ↓reduceIte, hentry, typeAt, hdir]
    refine ⟨_, _, hlstat, trivial, (ftwDir_paints (V := Walks fs root l) hroot hlinks
      (fun k hk => .inr ⟨hentry, hk⟩) stack [] _ fs hdir (fun p _ hp => by simpa using hheight p hp)
      (.start mode _ fs)).mono ?_⟩
    rintro (_ | r) fs' ho
    · exact ho.elim
    refine ho.2.mono ?_
    rintro k (rfl | ⟨-, hk⟩) -
    · exact .inl (List.suffix_refl _)
    · exact .inl hk
  · have hlstat : exec c (.lstat root) fs = (some .symlink, fs) := by
      simp only [exec, hc, Bool.false_eq_true, ↓reduceIte, hentry, typeAt, hlink]
    refine ⟨_, _, hlstat, trivial, (setPermissions_paints (V := Walks fs root l) (.start mode _ fs) hroot
      (.inl rfl) (.inl hdir)).mono ?_⟩
    rintro (_ | r) fs' ho
    · exact ho.elim
    refine ho.2.mono ?_
    rintro j (rfl | ⟨hj, -⟩) -
    · exact .inl rfl
    · rw [hentry] at hj
      cases hj
      rw [hdir] at hlink
      cases hlink

end Walk

end Reportman.Modes
