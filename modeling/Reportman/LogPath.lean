import Mathlib
import Reportman.PathResolution
import Reportman.Settings

/-!
# Where the log path leads

`__get_path` looks at the path of the log before the daemon goes to `/`, and returns the path as it was given.
So a relative path names something else afterwards, and of a path in an existing directory nothing more is asked
than that the directory exists.
-/
namespace Reportman.LogPath
open FileSystem Settings

section Paths

/-- What is before the last slash, and what is after it. -/
def lastSlash : Path → Option (Path × Path)
  | [] => none
  | b :: p =>
      match lastSlash p with
      | some (directory, fileName) => some (b :: directory, fileName)
      | none => if b = slash then some ([], p) else none

def dirname (p : Path) : Path :=
  let stripped := stripSlashes p
  if stripped = [] then if p = [] then dot else [slash]
  else
    match lastSlash stripped with
    | none => dot
    | some (directory, _) => if stripSlashes directory = [] then [slash] else stripSlashes directory

/-- A byte string as the program's model of the arguments has it, with a character for each byte. -/
def text (p : Path) : String := .ofList (p.map fun b => Char.ofNat b.toNat)

variable {p directory fileName : Path}

theorem lastSlash_of_not_mem (h : slash ∉ p) : lastSlash p = none := by
  induction p with
  | nil => rfl
  | cons b p ih =>
    simp only [List.mem_cons, not_or] at h
    simp [lastSlash, ih h.2, Ne.symm h.1]

theorem lastSlash_append (directory : Path) (h : slash ∉ fileName) :
    lastSlash (directory ++ slash :: fileName) = some (directory, fileName) := by
  induction directory with
  | nil => simp [lastSlash, lastSlash_of_not_mem h]
  | cons b directory ih => simp [lastSlash, ih]

theorem exists_append_of_mem (h : slash ∈ p) :
    ∃ directory fileName, p = directory ++ slash :: fileName ∧ slash ∉ fileName := by
  induction p with
  | nil => simp at h
  | cons b p ih =>
    by_cases hp : slash ∈ p
    · obtain ⟨directory, fileName, rfl, hfile⟩ := ih hp
      exact ⟨b :: directory, fileName, rfl, hfile⟩
    · obtain rfl : slash = b := by simpa [hp] using h
      exact ⟨[], p, rfl, hp⟩

theorem lastSlash_eq_some (h : lastSlash p = some (directory, fileName)) :
    p = directory ++ slash :: fileName ∧ slash ∉ fileName := by
  by_cases hp : slash ∈ p
  · obtain ⟨d, f, rfl, hf⟩ := exists_append_of_mem hp
    rw [lastSlash_append d hf] at h
    obtain ⟨rfl, rfl⟩ := Prod.mk.inj (Option.some.inj h)
    exact ⟨rfl, hf⟩
  · rw [lastSlash_of_not_mem hp] at h
    cases h

theorem not_mem_of_lastSlash (h : lastSlash p = none) : slash ∉ p := by
  intro hp
  obtain ⟨d, f, rfl, hf⟩ := exists_append_of_mem hp
  rw [lastSlash_append d hf] at h
  cases h

/-- A name alone is in the current directory. -/
theorem dirname_of_not_mem (h : slash ∉ p) (hne : p ≠ []) : dirname p = dot := by
  have hlast : p.getLast hne ≠ slash := by
    intro heq
    exact h (heq ▸ List.getLast_mem hne)
  unfold dirname
  simp only [stripSlashes_of_last hne hlast, lastSlash_of_not_mem h]
  rw [if_neg hne]

/-- A name is in the directory before it, without the slashes between them. -/
theorem dirname_append (directory : Path) (h : slash ∉ fileName) (hne : fileName ≠ []) :
    dirname (directory ++ slash :: fileName) =
      if stripSlashes directory = [] then [slash] else stripSlashes directory := by
  have hlast : (directory ++ slash :: fileName).getLast (by simp) ≠ slash := by
    have hmem : (directory ++ slash :: fileName).getLast (by simp) ∈ fileName := by
      simp [List.getLast_cons hne]
    intro heq
    exact h (heq ▸ hmem)
  unfold dirname
  simp only [stripSlashes_of_last _ hlast, lastSlash_append directory h]
  rw [if_neg (by simp)]

theorem toNat_ofNat_byte (b : UInt8) : (Char.ofNat b.toNat).toNat = b.toNat := by
  have hb : b.toNat < 256 := b.toNat_lt
  have hvalid : b.toNat.isValidChar := .inl (by omega)
  rw [Char.ofNat, dif_pos hvalid]
  rfl

@[simp] theorem bytes_text (p : Path) : bytes (text p) = p := by
  have hbyte : ∀ b : UInt8, (Char.ofNat b.toNat).toNat.toUInt8 = b := by
    intro b
    rw [toNat_ofNat_byte]
    simp
  simp [bytes, text, Function.comp_def, hbyte]

theorem text_inj {p p' : Path} (h : text p = text p') : p = p' := by
  rw [← bytes_text p, h, bytes_text]

theorem ofNat_eq_slash_iff (b : UInt8) : Char.ofNat b.toNat = '/' ↔ b = slash := by
  constructor
  · intro h
    have hnat := congrArg Char.toNat h
    rw [toNat_ofNat_byte] at hnat
    exact UInt8.toNat_inj.1 hnat
  · rintro rfl
    rfl

theorem removeLastItemPath_ofList (d : List Char) {f : List Char} (hf : '/' ∉ f) :
    removeLastItemPath (.ofList (d ++ '/' :: f)) = some (.ofList d, .ofList f) := by
  have hreverse : (d ++ '/' :: f).reverse = f.reverse ++ '/' :: d.reverse := by simp
  have hplain : ∀ c ∈ f.reverse, decide (c ≠ '/') = true := by
    intro c hc
    have hne : c ≠ '/' := by
      rintro rfl
      exact hf (List.mem_reverse.1 hc)
    simpa using hne
  unfold removeLastItemPath
  rw [if_pos (by simp), String.toList_ofList, hreverse, List.dropWhile_append_of_pos hplain,
    List.takeWhile_append_of_pos hplain]
  simp

/-- The model of the arguments takes a path apart in the same way. -/
theorem removeLastItemPath_text (p : Path) :
    removeLastItemPath (text p) = (lastSlash p).map fun parts => (text parts.1, text parts.2) := by
  have hslash : ∀ q : Path, '/' ∈ q.map (fun b => Char.ofNat b.toNat) ↔ slash ∈ q := by
    intro q
    simp [List.mem_map, ofNat_eq_slash_iff]
  by_cases hp : slash ∈ p
  · obtain ⟨directory, fileName, rfl, hfile⟩ := exists_append_of_mem hp
    have htext : text (directory ++ slash :: fileName) = .ofList (directory.map (fun b => Char.ofNat b.toNat) ++
        '/' :: fileName.map fun b => Char.ofNat b.toNat) := by
      rw [text, List.map_append, List.map_cons]
      rfl
    rw [htext, removeLastItemPath_ofList _ (mt (hslash fileName).1 hfile), lastSlash_append directory hfile]
    rfl
  · unfold removeLastItemPath
    rw [lastSlash_of_not_mem hp, text, String.toList_ofList, if_neg (mt (hslash p).1 hp)]
    rfl

end Paths

section Worlds

/-- The file system, the current directory, and the directories that the process may write to. -/
structure World where
  fs : FS
  cwd : Loc
  cwd_dir : fs.node cwd = some .dir
  writable : Loc → Bool

variable (w : World) (p : Path)

/-- The place that a path names, whether something is there or not. -/
def World.named : Option Loc :=
  if p = [] then none else w.fs.walk FS.maxLinks (FS.linkStart w.cwd p) (components p)

/-- Something is there. -/
def World.found : Bool := ((w.named p).bind w.fs.node).isSome

/-- `chdir("/")`. -/
def World.becomeDaemon : World := ⟨w.fs, [], w.fs.node_root, w.writable⟩

/-- `access(path, W_OK)`, which is 0 if it is allowed. -/
def World.accessWrite : ℤ := if (w.named p).any w.writable && w.found p then 0 else -1

/-- The name that `realpath` gives to a place. -/
def realName (l : Loc) : Path := if l = [] then [slash] else l.reverse.flatMap (slash :: ·)

/-- What `__get_path` learns of the file system. -/
def World.pathCalls : PathCalls where
  realpath path := if w.found (bytes path) then (w.named (bytes path)).map fun l => text (realName l) else none
  parentExists path := if w.found (dirname (bytes path)) then 0 else -1
  parentWritable path := w.accessWrite (dirname (bytes path))

/-- The parent directory of a place exists, and the process may write to it. -/
def World.Writable (l : Loc) : Prop := w.fs.node l.tail = some .dir ∧ w.writable l.tail = true

/-- The same of the parent directory of a path, where it is read. -/
def World.ParentWritable : Prop :=
  ∃ d, w.named (dirname p) = some d ∧ w.fs.node d = some .dir ∧ w.writable d = true

/-- What is returned still names the file of the path in `/`, and it can be written; and a path that has a parent
directory to write to is accepted. -/
def World.Resolves : Prop :=
  (∀ out, getPath w.pathCalls (text p) = .ok out →
    ∃ l, w.named p = some l ∧ w.becomeDaemon.named (bytes out) = some l ∧ w.Writable l) ∧
  (p ≠ [] → w.ParentWritable p → ∃ out, getPath w.pathCalls (text p) = .ok out)

variable {w p} {directory fileName more : Path}

/-- From `/` a path names what it names to the rest of the daemon. -/
theorem named_becomeDaemon : w.becomeDaemon.named p = w.fs.resolve p := by
  have hstart : FS.linkStart [] p = [] := by simp [FS.linkStart]
  rw [World.named, FS.resolve, World.becomeDaemon, hstart]

theorem linkStart_dir : w.fs.node (FS.linkStart w.cwd p) = some .dir := w.fs.node_linkStart w.cwd_dir

/-- What is before a slash is the name of a directory. -/
theorem named_before_slash (hne : directory ≠ []) {l : Loc} (h : w.named (directory ++ slash :: more) = some l) :
    ∃ d, w.named directory = some d ∧ w.fs.node d = some .dir := by
  unfold World.named at h ⊢
  rw [if_neg (by simp)] at h
  rw [if_neg hne]
  have hstart : FS.linkStart w.cwd (directory ++ slash :: more) = FS.linkStart w.cwd directory := by
    simp [FS.linkStart, List.head?_append_of_ne_nil _ hne]
  rw [hstart, components_append] at h
  exact w.fs.walk_prefix _ _ _ _ linkStart_dir (components_ne_nil more) h

theorem found_before_slash (hne : directory ≠ []) {l : Loc} (h : w.named (directory ++ slash :: more) = some l) :
    w.found directory = true := by
  obtain ⟨d, hd, hnode⟩ := named_before_slash hne h
  simp [World.found, hd, hnode]

theorem exists_named_of_found (h : w.found p = true) : ∃ l, w.named p = some l := by
  unfold World.found at h
  cases hp : w.named p with
  | none => simp [hp] at h
  | some l => exact ⟨l, rfl⟩

theorem named_slash : w.named [slash] = some [] := by
  have hstart : FS.linkStart w.cwd [slash] = [] := rfl
  have hcomponents : components [slash] = [[], []] := rfl
  rw [World.named, if_neg (by simp), hstart, hcomponents, FS.walk_skip (.inl rfl), FS.walk_skip (.inl rfl),
    FS.walk_nil]

theorem named_dot : w.named dot = some w.cwd := by
  have hstart : FS.linkStart w.cwd dot = w.cwd := rfl
  have hcomponents : components dot = [dot] := rfl
  rw [World.named, if_neg (by simp [dot]), hstart, hcomponents, FS.walk_skip (.inr rfl), FS.walk_nil]

theorem found_slash : w.found [slash] = true := by
  simp [World.found, named_slash]

theorem found_dot : w.found dot = true := by
  simp [World.found, named_dot, w.cwd_dir]

theorem walk_replicate_nil (k m : ℕ) (l : Loc) : w.fs.walk k l (List.replicate m []) = some l := by
  induction m with
  | zero => exact FS.walk_nil
  | succ m ih => rw [List.replicate_succ, FS.walk_skip (.inl rfl), ih]

/-- Slashes behind the name of a directory change nothing. -/
theorem found_of_stripSlashes (hne : p ≠ []) {d : Loc}
    (h : w.named (if stripSlashes p = [] then [slash] else stripSlashes p) = some d) (hd : w.fs.node d = some .dir) :
    w.found p = true := by
  obtain ⟨k, hk⟩ := exists_stripSlashes p
  cases k with
  | zero =>
    rw [List.replicate_zero, List.append_nil] at hk
    rw [← hk, if_neg hne] at h
    simp [World.found, h, hd]
  | succ k =>
    have hcomponents : components p = components (stripSlashes p) ++ List.replicate (k + 1) [] := by
      rw [← components_replicate_slash, ← hk]
    have hnamed : w.named p = some d := by
      by_cases hempty : stripSlashes p = []
      · rw [if_pos hempty, named_slash] at h
        obtain rfl := Option.some.inj h
        rw [hempty, List.nil_append] at hk
        have hstart : FS.linkStart w.cwd p = [] := by rw [hk]; rfl
        have hall : components p = List.replicate (k + 2) [] := by rw [hcomponents, hempty]; rfl
        rw [World.named, if_neg hne, hstart, hall, walk_replicate_nil]
      · rw [if_neg hempty, World.named, if_neg hempty] at h
        have hstart : FS.linkStart w.cwd p = FS.linkStart w.cwd (stripSlashes p) := by
          have hhead := congrArg List.head? hk
          rw [List.head?_append_of_ne_nil _ hempty] at hhead
          rw [FS.linkStart, FS.linkStart, hhead]
        obtain ⟨k', hwalk⟩ := w.fs.walk_append_dir _ _ _ (List.replicate (k + 1) []) h hd
        rw [World.named, if_neg hne, hstart, hcomponents, hwalk, walk_replicate_nil]
    simp [World.found, hnamed, hd]

theorem found_stripSlashes (h : w.found p = true) (hne : stripSlashes p ≠ []) :
    w.found (stripSlashes p) = true := by
  obtain ⟨k, hk⟩ := exists_stripSlashes p
  cases k with
  | zero =>
    rw [List.replicate_zero, List.append_nil] at hk
    rwa [← hk]
  | succ k =>
    obtain ⟨l, hl⟩ := exists_named_of_found h
    rw [hk, List.replicate_succ] at hl
    exact found_before_slash hne hl

/-- Where the part before the last slash is found, `dirname` gives something that is found as well. -/
theorem found_dirname (hfile : slash ∉ fileName) (h : w.found directory = true) :
    w.found (dirname (directory ++ slash :: fileName)) = true := by
  have hstrip : ∀ d : Path, w.found d = true →
      w.found (if stripSlashes d = [] then [slash] else stripSlashes d) = true := by
    intro d hd
    split_ifs with hempty
    · exact found_slash
    · exact found_stripSlashes hd hempty
  by_cases hname : fileName = []
  · have hstripped : stripSlashes (directory ++ slash :: fileName) = stripSlashes directory := by
      rw [hname, stripSlashes, List.rdropWhile_concat_pos _ _ _ (by simp)]
      rfl
    unfold dirname
    simp only [hstripped]
    split_ifs with hempty hnil
    · simp at hnil
    · exact found_slash
    · have hfound := found_stripSlashes h hempty
      by_cases hslash : slash ∈ stripSlashes directory
      · obtain ⟨d, f, hsplit, hf⟩ := exists_append_of_mem hslash
        simp only [hsplit, lastSlash_append d hf]
        by_cases hd : d = []
        · rw [hd]
          exact found_slash
        · obtain ⟨l, hl⟩ := exists_named_of_found hfound
          rw [hsplit] at hl
          exact hstrip d (found_before_slash hd hl)
      · simp only [lastSlash_of_not_mem hslash]
        exact found_dot
  · rw [dirname_append directory hfile hname]
    exact hstrip directory h

/-- When the path is accepted. -/
def World.Accepts (w : World) (p : Path) : Prop :=
  match lastSlash p with
  | none => w.found p = true
  | some (directory, _) => w.found directory = true

theorem realpath_eq_none_iff (w : World) (p : Path) :
    w.pathCalls.realpath (text p) = none ↔ ¬ w.found p = true := by
  simp only [World.pathCalls, bytes_text]
  split_ifs with hfound
  · obtain ⟨l, hl⟩ := exists_named_of_found hfound
    simp [hl, hfound]
  · simp [hfound]

/-- The test for writing never refuses a path. -/
theorem not_hasWritePermissionToParent (w : World) (path : String) :
    hasWritePermissionToParent w.pathCalls path = false := by
  simp only [hasWritePermissionToParent, World.pathCalls, World.accessWrite, wOk]
  split_ifs <;> decide

theorem getPath_eq_ok_iff (w : World) (p : Path) (out : String) :
    getPath w.pathCalls (text p) = .ok out ↔ w.Accepts p ∧ out = text p := by
  have hreject : ∀ code : ℤ, (Except.error code : Except ℤ String) = .ok out ↔ False := fun code => by simp
  unfold getPath World.Accepts
  by_cases hempty : p = []
  · have hnot : w.found [] = false := rfl
    have htext : text p = "" := by rw [hempty]; rfl
    rw [if_pos htext, hempty]
    simp [lastSlash, hnot]
  have htext : text p ≠ "" := fun h => hempty (text_inj h)
  rw [if_neg htext, removeLastItemPath_text]
  cases hsplit : lastSlash p with
  | none =>
    simp only [Option.map_none, realpath_eq_none_iff]
    by_cases hfound : w.found p = true
    · simp [hfound, eq_comm]
    · simp [hfound]
  | some parts =>
    obtain ⟨directory, fileName⟩ := parts
    obtain ⟨hp, hfile⟩ := lastSlash_eq_some hsplit
    have houtput : text directory ++ "/" ++ text fileName = text p :=
      removeLastItemPath_append (by rw [removeLastItemPath_text, hsplit]; rfl)
    simp only [Option.map_some, houtput, realpath_eq_none_iff, not_hasWritePermissionToParent]
    by_cases hfound : w.found directory = true
    · have hparent : hasPathParent w.pathCalls (text p) = true := by
        have hdirname : w.found (dirname p) = true := hp ▸ found_dirname hfile hfound
        simp [hasPathParent, World.pathCalls, hdirname]
      simp [hfound, hparent, eq_comm]
    · simp [hfound]

/-- The path names the same file from `/` as from the current directory. -/
def World.Lasting (w : World) (p : Path) : Prop := w.becomeDaemon.named p = w.named p

/-- The path names a file in a directory that the process may write to. -/
def World.Loggable (w : World) (p : Path) : Prop := ∃ l, w.named p = some l ∧ w.Writable l

/-- A name alone: if it is there, it can be written and will be there, and if not, nothing can be made in the
current directory. A name behind the first and only slash: nothing can be made in the root. Any other path: if
the directory is there, the file can be written and will be there, and if not, no slash comes last behind
something that could be made. -/
def World.Settled (w : World) (p : Path) : Prop :=
  match lastSlash p with
  | none => p = [] ∨ if w.found p then w.Loggable p ∧ w.Lasting p else w.writable w.cwd = false
  | some ([], _) => w.writable [] = false
  | some (directory, fileName) =>
      if w.found directory then w.Loggable p ∧ w.Lasting p else fileName = [] → ¬ w.ParentWritable p

theorem resolves_iff (w : World) (p : Path) :
    w.Resolves p ↔
      (w.Accepts p → w.Loggable p ∧ w.Lasting p) ∧ (p ≠ [] → w.ParentWritable p → w.Accepts p) := by
  simp only [World.Resolves, getPath_eq_ok_iff]
  constructor
  · rintro ⟨hok, hall⟩
    constructor
    · intro haccepts
      obtain ⟨l, hnamed, hlater, hwritable⟩ := hok (text p) ⟨haccepts, rfl⟩
      rw [bytes_text] at hlater
      exact ⟨⟨l, hnamed, hwritable⟩, hlater.trans hnamed.symm⟩
    · intro hne hparent
      obtain ⟨out, haccepts, -⟩ := hall hne hparent
      exact haccepts
  · rintro ⟨hright, hall⟩
    constructor
    · rintro out ⟨haccepts, rfl⟩
      obtain ⟨⟨l, hnamed, hwritable⟩, hlasting⟩ := hright haccepts
      rw [bytes_text]
      exact ⟨l, hnamed, hlasting.trans hnamed, hwritable⟩
    · intro hne hparent
      exact ⟨text p, hall hne hparent, rfl⟩

theorem parentWritable_name (h : slash ∉ p) (hne : p ≠ []) : w.ParentWritable p ↔ w.writable w.cwd = true := by
  simp [World.ParentWritable, dirname_of_not_mem h hne, named_dot, w.cwd_dir]

theorem parentWritable_slash (h : slash ∉ fileName) :
    w.ParentWritable (slash :: fileName) ↔ w.writable [] = true := by
  have hdirname : dirname (slash :: fileName) = [slash] := by
    by_cases hname : fileName = []
    · rw [hname]
      rfl
    · exact dirname_append [] h hname
  simp [World.ParentWritable, hdirname, named_slash]

/-- A directory to write to is found under its name. -/
theorem found_of_parentWritable (hdirectory : directory ≠ []) (hfile : slash ∉ fileName) (hname : fileName ≠ [])
    (h : w.ParentWritable (directory ++ slash :: fileName)) : w.found directory = true := by
  obtain ⟨d, hnamed, hnode, -⟩ := h
  rw [dirname_append directory hfile hname] at hnamed
  exact found_of_stripSlashes hdirectory hnamed hnode

/-- The paths for which the right file will be written, and those that are refused for a reason. -/
theorem getPath_resolves_iff (w : World) (p : Path) : w.Resolves p ↔ w.Settled p := by
  have hnot : w.found [] = false := rfl
  rw [resolves_iff]
  unfold World.Accepts World.Settled
  cases hsplit : lastSlash p with
  | none =>
    by_cases hempty : p = []
    · simp [hempty, hnot]
    · have hparent := @parentWritable_name w p (not_mem_of_lastSlash hsplit) hempty
      by_cases hfound : w.found p = true
      · simp [hempty, hfound]
      · simp [hempty, hfound, hparent]
  | some parts =>
    obtain ⟨directory, fileName⟩ := parts
    obtain ⟨hp, hfile⟩ := lastSlash_eq_some hsplit
    have hne : p ≠ [] := by simp [hp]
    by_cases hdirectory : directory = []
    · have hparent : w.ParentWritable p ↔ w.writable [] = true := by
        rw [hp, hdirectory]
        exact parentWritable_slash hfile
      simp [hdirectory, hnot, hne, hparent]
    · have hfound : fileName ≠ [] → w.ParentWritable p → w.found directory = true := by
        intro hname hparent
        rw [hp] at hparent
        exact found_of_parentWritable hdirectory hfile hname hparent
      obtain ⟨b, rest, rfl⟩ := List.exists_cons_of_ne_nil hdirectory
      by_cases hthere : w.found (b :: rest) = true
      · simp [hthere]
      · simp only [hthere, Bool.false_eq_true, if_false, false_imp_iff, true_and]
        constructor
        · exact fun h _ hparent => h hne hparent
        · exact fun h _ hparent => hthere (hfound (fun hname => h hname hparent) hparent)

theorem empty_dir : FS.empty.node [] = some .dir := rfl

theorem empty_free : FS.empty.node [bytes "a"] = none := rfl

def onlyA : FS := FS.empty.addDir (bytes "a") [] 0o755 empty_dir validName_a empty_free

theorem onlyA_dir : onlyA.node [bytes "a"] = some .dir := rfl

/-- The directory `/a`, in which the user is, and nothing else. -/
def inA : World where
  fs := onlyA
  cwd := [bytes "a"]
  cwd_dir := onlyA_dir
  writable := fun _ => true

/-- "./log" is accepted. It names a file in `/a` when it is read, and one in `/` when it is opened. -/
theorem not_resolves_dot : inA.named (bytes "./log") = some [bytes "log", bytes "a"] ∧
    inA.becomeDaemon.named (bytes "./log") = some [bytes "log"] ∧ ¬ inA.Resolves (bytes "./log") := by
  have hnamed : inA.named (bytes "./log") = some [bytes "log", bytes "a"] := by decide
  have hlater : inA.becomeDaemon.named (bytes "./log") = some [bytes "log"] := by decide
  refine ⟨hnamed, hlater, fun ⟨hok, _⟩ => ?_⟩
  have haccepts : inA.Accepts (bytes "./log") := found_dot
  obtain ⟨l, hl, hl', -⟩ := hok _ ((getPath_eq_ok_iff inA _ _).2 ⟨haccepts, rfl⟩)
  rw [bytes_text, hlater] at hl'
  rw [hnamed, ← hl'] at hl
  revert hl
  decide

end Worlds

end Reportman.LogPath
