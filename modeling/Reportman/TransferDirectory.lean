import Mathlib
import Reportman.TransferFile

/-!
# Moving a directory

`transfer_directory` over the calls it makes, and the path strings it builds. The calls are a
parameter, so that the traversal can also be run over an idealised transaction. Paths go through
1024-byte buffers; as long as a joined path is shorter, it names the expected place.
-/
namespace Reportman.TransferDirectory
open Resumable FileSystem TransferFile

/-- `char src_path[1024]`. -/
def pathSize : ℕ := 1024

/-- `snprintf(path, 1024, "%s/%s", directory, name)`. -/
def joinPath (directory name : Path) : Path := (directory ++ slash :: name).take (pathSize - 1)

/-- What `transfer_directory` calls. -/
structure Calls (m : Type → Type) where
  mkdir : Path → ℕ → m ℤ
  opendir : Path → m (Option (List Name))
  stat : Path → m (Option FileType)
  transact : Path → Path → TransferMethod → m ℤ

section Source

variable {Op : Type} {Res : Op → Type} (sys : Calls (Program Op Res))

/-- The body of the `readdir` loop; `recurse` is the recursive call. -/
def processEntry (recurse : Path → Path → Program Op Res ℤ) (source destination : Path)
    (method : TransferMethod) (noErrors : ℤ) (name : Name) : Program Op Res ℤ :=
  if name = dot ∨ name = dotDot then return noErrors
  else do
    let srcPath := joinPath source name
    let destPath := joinPath destination name
    match ← sys.stat srcPath with
    | none => return noErrors
    | some .directory =>
        let errors ← recurse srcPath destPath
        return noErrors + errors
    | some _ =>
        let status ← sys.transact srcPath destPath method
        if status ≠ transactSuccess then return noErrors + 1 else return noErrors

/-- `stack` is the number of frames that still fit; without one the process dies. -/
def transferDirectory : ℕ → Path → Path → TransferMethod → Program Op Res ℤ
  | 0, _, _, _ => .halt
  | stack + 1, source, destination, method => do
      let _ ← sys.mkdir destination 0o7
      match ← sys.opendir source with
      | none => return 1
      | some entries =>
          entries.foldlM (processEntry sys
            (fun src dest => transferDirectory stack src dest method) source destination method) 0

theorem processEntry_dots (recurse : Path → Path → Program Op Res ℤ) (source destination : Path)
    (method : TransferMethod) (noErrors : ℤ) {name : Name} (h : name = dot ∨ name = dotDot) :
    processEntry sys recurse source destination method noErrors name = .ret noErrors := by
  rw [processEntry, if_pos h]
  rfl

theorem processEntry_eq (recurse : Path → Path → Program Op Res ℤ) (source destination : Path)
    (method : TransferMethod) (noErrors : ℤ) {name : Name} (h : ¬ (name = dot ∨ name = dotDot)) :
    processEntry sys recurse source destination method noErrors name =
      sys.stat (joinPath source name) >>= fun status =>
        match status with
        | none => .ret noErrors
        | some .directory =>
            recurse (joinPath source name) (joinPath destination name) >>= fun errors =>
              .ret (noErrors + errors)
        | some _ =>
            sys.transact (joinPath source name) (joinPath destination name) method >>= fun status =>
              if status ≠ transactSuccess then .ret (noErrors + 1) else .ret noErrors := by
  rw [processEntry, if_neg h]
  refine congrArg (sys.stat _ >>= ·) (funext fun status => ?_)
  rcases status with _ | _ | _ | _ <;> rfl

theorem transferDirectory_succ (stack : ℕ) (source destination : Path) (method : TransferMethod) :
    transferDirectory sys (stack + 1) source destination method =
      sys.mkdir destination 0o7 >>= fun _ => sys.opendir source >>= fun dir =>
        match dir with
        | none => .ret 1
        | some entries => entries.foldlM (processEntry sys
            (fun src dest => transferDirectory sys stack src dest method) source destination method)
            0 := rfl

end Source

/-- The calls of the program itself. -/
def systemCalls (sha256 : Bytes → Bytes) (fuel : ℕ) : Calls Prog where
  mkdir path mode := call (.mkdir path mode)
  opendir path := call (.opendir path)
  stat path := call (.stat path)
  transact := transactTransferFile sha256 fuel

section SystemCalls

variable (sha256 : Bytes → Bytes) (fuel : ℕ)

theorem systemCalls_mkdir (path : Path) (mode : ℕ) :
    (systemCalls sha256 fuel).mkdir path mode = Program.perform (Sys.mkdir path mode) := rfl

theorem systemCalls_opendir (path : Path) :
    (systemCalls sha256 fuel).opendir path = Program.perform (Sys.opendir path) := rfl

theorem systemCalls_stat (path : Path) :
    (systemCalls sha256 fuel).stat path = Program.perform (Sys.stat path) := rfl

end SystemCalls

/-- The path of the entry at relative path `p` below `root`, never cut. -/
def pathOf (root : Path) : List Name → Path
  | [] => root
  | n :: p => pathOf root p ++ slash :: n

theorem joinPath_eq {directory name : Path} (h : (directory ++ slash :: name).length < pathSize) :
    joinPath directory name = directory ++ slash :: name :=
  List.take_of_length_le (by omega)

theorem pathOf_ne_nil {root : Path} (h : root ≠ []) (p : List Name) : pathOf root p ≠ [] := by
  cases p <;> simp [pathOf, h]

theorem resolve_ne_nil {fs : FS} {path : Path} {l : Loc} (h : fs.resolve path = some l) :
    path ≠ [] := by
  rintro rfl
  simp [FS.resolve] at h

section Paths

variable {fs : FS} {root : Path} {l : Loc}

/-- Without links on the way a path resolves to its place if its parent is a directory, and
otherwise leads nowhere. -/
theorem resolve_pathOf (hroot : fs.resolve root = some l) (p : List Name)
    (hlf : ∀ q t, q ≠ [] → q <:+ p → fs.node (q ++ l) ≠ some (.link t))
    (hp : ∀ n ∈ p, ValidName n) :
    fs.resolve (pathOf root p) =
      if p = [] ∨ fs.node (p.tail ++ l) = some .dir then some (p ++ l) else none := by
  induction p with
  | nil => simpa [pathOf] using hroot
  | cons n p ih =>
    have ih := ih (fun q t hq hs => hlf q t hq (hs.trans (List.suffix_cons n p)))
      fun m hm => hp m (List.mem_cons_of_mem _ hm)
    have hne := pathOf_ne_nil (resolve_ne_nil hroot) p
    have hlink : ∀ d t, fs.resolve (pathOf root p) = some d → fs.node (n :: d) ≠ some (.link t) := by
      intro d t hd
      rw [ih] at hd
      split_ifs at hd
      cases hd
      exact hlf (n :: p) t (List.cons_ne_nil n p) (List.suffix_refl _)
    rw [pathOf, fs.resolve_join hne (hp n (List.mem_cons_self ..)) hlink, ih, FS.child]
    by_cases hdir : fs.node (p ++ l) = some .dir
    · have hpar : p = [] ∨ fs.node (p.tail ++ l) = some .dir := by
        cases p with
        | nil => exact .inl rfl
        | cons m p => exact .inr (fs.node_tail hdir)
      simp [hpar, hdir]
    · have hno : ¬ (n :: p = [] ∨ fs.node ((n :: p).tail ++ l) = some .dir) := by simpa using hdir
      rw [if_neg hno]
      split_ifs <;> simp [hdir]

theorem resolveEntry_pathOf (hroot : fs.resolve root = some l) {n : Name} {p : List Name}
    (hlf : ∀ q t, q ≠ [] → q <:+ p → fs.node (q ++ l) ≠ some (.link t))
    (hp : ∀ m ∈ n :: p, ValidName m) :
    fs.resolveEntry (pathOf root (n :: p)) =
      if fs.node (p ++ l) = some .dir then some (n :: p ++ l) else none := by
  have hne := pathOf_ne_nil (resolve_ne_nil hroot) p
  rw [pathOf, fs.resolveEntry_join hne (hp n (List.mem_cons_self ..)),
    resolve_pathOf hroot p hlf fun m hm => hp m (List.mem_cons_of_mem _ hm), FS.child]
  by_cases hdir : fs.node (p ++ l) = some .dir
  · have hpar : p = [] ∨ fs.node (p.tail ++ l) = some .dir := by
      cases p with
      | nil => exact .inl rfl
      | cons m p => exact .inr (fs.node_tail hdir)
    simp [hpar, hdir]
  · split_ifs <;> simp [hdir]

theorem stripSlashes_join (directory : Path) {n : Name} (hne : n ≠ []) (hs : slash ∉ n) :
    stripSlashes (directory ++ slash :: n) = directory ++ slash :: n := by
  refine stripSlashes_of_last (by simp) fun hlast => hs ?_
  rw [List.getLast_append_of_ne_nil _ (List.cons_ne_nil _ _), List.getLast_cons hne] at hlast
  exact hlast ▸ List.getLast_mem hne

/-- `mkdir` never makes anything where a path already leads to an entry. -/
theorem mkdir_existing (path : Path) (mode : ℕ) (h : fs.resolve path = some l)
    (hl : fs.node l ≠ none) :
    ((fs.resolveEntry (stripSlashes path)).bind fun l => fs.makeDir l mode) = none := by
  rw [Option.bind_eq_none_iff]
  intro d hd
  obtain ⟨k, hk⟩ := exists_stripSlashes path
  unfold FS.resolveEntry at hd
  rcases hrev : (components (stripSlashes path)).reverse with _ | ⟨n, above⟩
  · rw [hrev] at hd; cases hd
  rw [hrev] at hd
  dsimp only at hd
  split_ifs at hd with hn
  obtain ⟨e, he, hde⟩ := Option.bind_eq_some_iff.mp hd
  split_ifs at hde with hdir
  cases hde
  -- the entry is missing, so the path cannot lead past it
  simp only [FS.makeDir]
  rw [dif_neg]
  rintro ⟨-, -, hfree⟩
  have hcomps : components path = above.reverse ++ n :: List.replicate k [] := by
    have h1 : components (stripSlashes path) = above.reverse ++ [n] := by
      rw [← List.reverse_reverse (components _), hrev, List.reverse_cons]
    rw [hk, components_replicate_slash, h1, List.append_assoc]
    rfl
  have hne := resolve_ne_nil h
  unfold FS.resolve at h
  rw [if_neg hne, hcomps] at h
  obtain ⟨k', hk'⟩ := fs.walk_append_dir _ _ above.reverse (n :: List.replicate k []) he hdir
  rw [hk', FS.walk_leaf hn (by simp [hfree]) (by simp [hfree])] at h
  split_ifs at h
  cases h
  exact hl hfree

end Paths

end Reportman.TransferDirectory
