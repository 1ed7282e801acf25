import Mathlib
import Reportman.Directories
import Reportman.Faults

/-!
# Where a run can reach

Nothing in `transfer_directory` looks at symbolic links: `stat` and `fopen` follow them. So a run
stays inside its two trees only as far as no link leads out of them. In any state of the file system
and whatever calls fail, what a run creates or changes lies in the destination tree or is reached
through a link that stands there, and what it copies or removes lies in the source tree or is
reached through a link there. Joined paths may be cut at the end of a buffer; the last component is
then a name that was never enumerated, and may even be `..`.
-/
namespace Reportman.Containment
open Resumable FileSystem TransferFile TransferDirectory OverlayRun Directories Faults

/-- In the tree that hangs at `root`, or reached by names below it, on a path that passes a link in the tree. -/
inductive Reached (fs : FS) (root : Path) (l : Loc) : Prop
  | inside (rl : Loc) (hroot : fs.resolve root = some rl) (hl : rl <:+ l)
  | through (rl : Loc) (hroot : fs.resolve root = some rl) (p q : List Name) (t : Path)
      (hp : ∀ n ∈ p, ValidName n) (hq : q ≠ []) (hqp : q <:+ p) (hlink : fs.node (q ++ rl) = some (.link t))
      (hl : fs.resolve (pathOf root p) = some l ∨ fs.resolveEntry (pathOf root p) = some l)

/-- The file that a call opens for reading. -/
def opened : (op : Sys) → op.Res → Option ℕ
  | .fopen _ .rb, some f => f.ino
  | _, _ => none

/-- One call creates and changes files only in `dest`, removes them only from `source` and only
in a `TRANSFER`, and copies only from `source`. -/
structure Contained (dest source : Loc → Prop) (method : TransferMethod) (op : Sys) (res : op.Res)
    (fs fs' : FS) : Prop where
  created : ∀ l, fs.node l = none → fs'.node l ≠ none → dest l
  removed : ∀ l, fs.node l ≠ none → fs'.node l ≠ fs.node l →
    method = .transfer ∧ fs'.node l = none ∧ source l
  changed : ∀ i, fs'.data i ≠ fs.data i → ∃ l, fs'.node l = some (.file i) ∧ dest l
  copied : ∀ i, opened op res = some i → ∃ l, fs.node l = some (.file i) ∧ source l

/-- In a tree without links nothing else is reached. -/
theorem Reached.inside_of_linkFree {fs : FS} {root : Path} {l : Loc} (h : Reached fs root l) {rl : Loc}
    (hroot : fs.resolve root = some rl) (hlf : LinkFree (rl <:+ ·) fs) : rl <:+ l := by
  rcases h with ⟨rl', hr, hl⟩ | ⟨rl', hr, p, q, t, hp, hq, hqp, hlink, hl⟩
  · rw [hroot] at hr
    cases hr
    exact hl
  · rw [hroot] at hr
    cases hr
    exact absurd hlink (hlf _ t (List.suffix_append q rl))

section Paths

/-- A path below `root` as the buffers hold it: whole, or cut in its last component. -/
def Below (root path : Path) : Prop :=
  path.length < pathSize ∧ ∃ m q, path = pathOf root (m :: q) ∧ slash ∉ m ∧
    (∀ n ∈ q, ValidName n) ∧ (ValidName m ∨ path.length = pathSize - 1)

/-- Joining a name gives another such path. -/
theorem below_joinPath {root path : Path} {n : Name} (hroot : root.length + 1 < pathSize)
    (h : path = root ∨ Below root path) (hn : ValidName n) : Below root (joinPath path n) := by
  -- a full buffer stays as it is, a shorter path is a whole one
  obtain hfull | ⟨p, rfl, hp, hlen⟩ : (Below root path ∧ path.length = pathSize - 1) ∨
      ∃ p, path = pathOf root p ∧ (∀ m ∈ p, ValidName m) ∧ path.length + 1 < pathSize := by
    rcases h with rfl | ⟨hlen, m, q, hpath, hm, hq, hfull⟩
    · exact .inr ⟨[], rfl, by simp, hroot⟩
    · by_cases hfl : path.length = pathSize - 1
      · exact .inl ⟨⟨hlen, m, q, hpath, hm, hq, .inr hfl⟩, hfl⟩
      · refine .inr ⟨m :: q, hpath, ?_, by omega⟩
        intro k hk
        rcases List.mem_cons.mp hk with rfl | hk
        · exact hfull.resolve_right hfl
        · exact hq k hk
  · have heq : joinPath path n = path := by
      rw [joinPath, ← hfull.2, List.take_left]
    rw [heq]
    exact hfull.1
  · set k := pathSize - 1 - (pathOf root p).length - 1
    have heq : joinPath (pathOf root p) n = pathOf root (n.take k :: p) := by
      have hsplit : pathSize - 1 = (pathOf root p).length + (k + 1) := by omega
      rw [joinPath, hsplit, List.take_length_add_append, List.take_succ_cons]
      rfl
    have hjoined : (joinPath (pathOf root p) n).length =
        min (pathSize - 1) ((pathOf root p).length + (n.length + 1)) := by
      simp [joinPath]
    refine ⟨by omega, n.take k, p, heq, fun hs => hn.2 (List.mem_of_mem_take hs), hp, ?_⟩
    by_cases hk : n.length ≤ k
    · rw [List.take_of_length_le hk]
      exact .inl hn
    · exact .inr (by omega)

variable {fs : FS} {root path : Path} {l : Loc}

/-- The root leads to a directory when a path below it leads anywhere. -/
theorem resolve_root (hroot : root ≠ []) {m : Name} {p : List Name}
    (h : fs.resolve (pathOf root (m :: p)) = some l) :
    ∃ rl, fs.resolve root = some rl ∧ fs.node rl = some .dir := by
  induction p generalizing m l with
  | nil => exact fs.resolve_prefix hroot h
  | cons n p ih =>
    obtain ⟨d, hd, -⟩ := fs.resolve_prefix (pathOf_ne_nil hroot (n :: p)) h
    exact ih hd

/-- A whole path below the root leads inside or passes a link. -/
theorem reached_of_resolve (hroot : root ≠ []) {m : Name} {q : List Name}
    (hp : ∀ n ∈ m :: q, ValidName n) (h : fs.resolve (pathOf root (m :: q)) = some l) :
    Reached fs root l := by
  obtain ⟨rl, hrl, -⟩ := resolve_root hroot h
  by_cases hlink : ∀ q' t, q' ≠ [] → q' <:+ m :: q → fs.node (q' ++ rl) ≠ some (.link t)
  · rw [resolve_pathOf hrl _ hlink hp] at h
    obtain ⟨-, h⟩ := Option.ite_none_right_eq_some.mp h
    cases h
    exact .inside rl hrl (List.suffix_append _ rl)
  · push Not at hlink
    obtain ⟨q', t, hne, hsuf, hlink⟩ := hlink
    exact .through rl hrl _ q' t hp hne hsuf hlink (.inl h)

/-- What is not a directory is reached by a whole path. -/
theorem Below.reached (hpath : Below root path) (hroot : root ≠ [])
    (h : fs.resolve path = some l) (hdir : fs.node l ≠ some .dir) : Reached fs root l := by
  obtain ⟨-, m, q, rfl, hm, hq, -⟩ := hpath
  have hord : Ordinary m := by
    by_contra hord
    exact hdir (fs.resolve_not_ordinary (pathOf_ne_nil hroot q) hm hord h)
  refine reached_of_resolve hroot ?_ h
  intro n hn
  rcases List.mem_cons.mp hn with rfl | hn
  · exact ⟨hord, hm⟩
  · exact hq n hn

/-- The entry that a path below the root names. -/
theorem reached_of_resolveEntry (hroot : root ≠ []) {m : Name} {q : List Name} (hm : slash ∉ m)
    (hq : ∀ n ∈ q, ValidName n) (h : fs.resolveEntry (pathOf root (m :: q)) = some l) :
    Reached fs root l := by
  have hord : Ordinary m := by
    by_contra hord
    rw [pathOf, FS.resolveEntry, components_append, components_of_no_slash hm] at h
    simp [hord] at h
  have hentry := h
  rw [pathOf, fs.resolveEntry_join (pathOf_ne_nil hroot q) ⟨hord, hm⟩, FS.child] at hentry
  obtain ⟨d, hd, hl⟩ := Option.bind_eq_some_iff.mp hentry
  split_ifs at hl with hdir
  cases hl
  obtain ⟨rl, hrl, -⟩ : ∃ rl, fs.resolve root = some rl ∧ fs.node rl = some .dir := by
    cases q with
    | nil => exact ⟨d, hd, hdir⟩
    | cons n q => exact resolve_root hroot hd
  by_cases hlink : ∀ q' t, q' ≠ [] → q' <:+ q → fs.node (q' ++ rl) ≠ some (.link t)
  · rw [resolve_pathOf hrl _ hlink hq] at hd
    split_ifs at hd
    cases hd
    exact .inside rl hrl (List.suffix_append (m :: q) rl)
  · push Not at hlink
    obtain ⟨q', t, hne, hsuf, hlink⟩ := hlink
    exact .through rl hrl _ q' t (List.forall_mem_cons.mpr ⟨⟨hord, hm⟩, hq⟩) hne
      (hsuf.trans (List.suffix_cons m q)) hlink (.inr h)

theorem stripSlashes_slash (path : Path) : stripSlashes (path ++ [slash]) = stripSlashes path := by
  simp [stripSlashes]

/-- The directory that `mkdir` makes on a path below the root, or the root itself. -/
theorem Below.reached_mkdir (hpath : Below root path) (hroot : root ≠ [])
    (h : fs.resolveEntry (stripSlashes path) = some l) :
    Reached fs root l ∨ fs.resolveEntry (stripSlashes root) = some l := by
  obtain ⟨-, m, q, rfl, hm, hq, -⟩ := hpath
  by_cases hnil : m = []
  · -- the path was cut right behind a slash
    rw [hnil, pathOf, stripSlashes_slash] at h
    cases q with
    | nil => exact .inr h
    | cons n q =>
      have hn := hq n (List.mem_cons_self ..)
      rw [pathOf, stripSlashes_join _ hn.1.1 hn.2] at h
      exact .inl (reached_of_resolveEntry hroot hn.2 (fun k hk => hq k (List.mem_cons_of_mem _ hk)) h)
  · rw [pathOf, stripSlashes_join _ hnil hm] at h
    exact .inl (reached_of_resolveEntry hroot hm hq h)

/-- Reaching a place does not depend on what is or is not written there. -/
theorem Reached.stays {fs' : FS} (h : Reached fs root l) (hp : FS.Persists fs fs')
    (hroot : ∀ rl, fs.resolve root = some rl → fs'.resolve root = some rl)
    (hl : ∀ path, fs.resolve path = some l → fs'.resolve path = some l) : Reached fs' root l := by
  rcases h with ⟨rl, hr, hs⟩ | ⟨rl, hr, p, q, t, hnames, hq, hqp, hlink, hres⟩
  · exact .inside rl (hroot rl hr) hs
  · exact .through rl (hroot rl hr) p q t hnames hq hqp (hp.links _ _ hlink)
      (hres.imp (hl _) (fs.resolveEntry_persists hp))

theorem Reached.write (h : Reached fs root l) (j : ℕ) (content : Bytes) :
    Reached (fs.write j content) root l := by
  have hp : FS.Persists fs (fs.write j content) := ⟨fun _ h => h, fun _ _ h => h⟩
  have hstay : ∀ path k, fs.resolve path = some k → (fs.write j content).resolve path = some k :=
    fun path k hk => fs.resolve_persists hp hk rfl
  exact h.stays hp (hstay root) fun path => hstay path l

end Paths

section Calls

variable {r : Run} {fs fs' : FS}

/-- Where a run writes: what the destination reaches, and its own entry, which `mkdir` makes. -/
def InDest (fs : FS) (destination : Path) (l : Loc) : Prop :=
  Reached fs destination l ∨ fs.resolveEntry (stripSlashes destination) = some l

abbrev Confined (r : Run) (op : Sys) (res : op.Res) (fs fs' : FS) : Prop :=
  Contained (InDest fs r.destination) (Reached fs r.source) r.method op res fs fs'

theorem confined_same {op : Sys} {res : op.Res} (h : opened op res = none) :
    Confined r op res fs fs :=
  ⟨fun _ h0 hl => absurd h0 hl, fun _ _ hl => absurd rfl hl, fun _ hi => absurd rfl hi,
    fun i hi => by rw [h] at hi; cases hi⟩

/-- Rewriting a file that was opened on the destination side. -/
theorem confined_rewrite {op : Sys} {res : op.Res} (h : opened op res = none) {j : ℕ} {l : Loc}
    (hl : fs.node l = some (.file j)) (hr : Reached fs r.destination l) (a b : Bytes) :
    Confined r op res (fs.write j a) (fs.write j b) := by
  refine ⟨fun _ h0 hl => absurd h0 hl, fun _ _ hl => absurd rfl hl, fun i hi => ?_,
    fun i hi => by rw [h] at hi; cases hi⟩
  by_cases hij : i = j
  · subst hij
    exact ⟨l, hl, .inl (hr.write i a)⟩
  · exact absurd (by simp [Function.update_of_ne hij]) hi

/-- Opening a destination file for writing. -/
theorem openWrite_confined {path : Path} (hroot : r.destination ≠ []) (hpath : Below r.destination path)
    {j : ℕ} {fs₁ : FS} (ho : fs.openWrite path = (some ⟨some j, .wb, 0, []⟩, fs₁)) (res : Option FILE) :
    Confined r (.fopen path .wb) res fs fs₁ ∧
      ∃ l, fs₁.node l = some (.file j) ∧ Reached fs₁ r.destination l := by
  have hnot : opened (.fopen path .wb) res = none := rfl
  unfold FS.openWrite at ho
  rcases hr : fs.resolve path with _ | l
  · rw [hr] at ho; cases ho
  rw [hr] at ho
  dsimp only at ho
  rcases hn : fs.node l with _ | _ | i | t <;> rw [hn] at ho
  · -- a new file
    rcases l with _ | ⟨n, d⟩
    · simp at hn
    simp only [FS.create] at ho
    by_cases hok : fs.node d = some .dir ∧ ValidName n ∧ fs.node (n :: d) = none
    swap
    · rw [dif_neg hok] at ho
      cases ho
    rw [dif_pos hok] at ho
    cases ho
    have hreach := hpath.reached hroot hr (by simp [hn])
    have hnode : ∀ k, (fs.addFile n d 0o666 hok.1 hok.2.1 hok.2.2).node k =
        if k = n :: d then some (.file fs.next) else fs.node k := fun k => fs.node_addFile
    have hstay : ∀ path l, fs.resolve path = some l →
        (fs.addFile n d 0o666 hok.1 hok.2.1 hok.2.2).resolve path = some l := by
      intro path l h
      refine fs.resolve_stays keeps_addFile.persists h fun hd ht => ?_
      rw [hnode]
      split_ifs
      · simp
      · exact ⟨hd, ht⟩
    refine ⟨⟨?_, ?_, ?_, fun i hi => by cases hi⟩, n :: d, by rw [hnode, if_pos rfl], ?_⟩
    · intro k hk hk'
      rw [hnode] at hk'
      split_ifs at hk' with h
      · exact h ▸ .inl hreach
      · exact absurd hk hk'
    · intro k hk hk'
      rw [hnode] at hk'
      split_ifs at hk' with h
      · exact absurd (h ▸ hn) hk
      · exact absurd rfl hk'
    · intro i hi
      by_cases hij : i = fs.next
      · exact ⟨n :: d, by rw [hnode, if_pos rfl, hij], .inl hreach⟩
      · exact absurd (Function.update_of_ne hij ..) hi
    · exact hreach.stays keeps_addFile.persists (hstay _) fun path => hstay path _
  · cases ho
  · -- an existing file is cut to nothing
    cases ho
    have hreach := hpath.reached hroot hr (by simp [hn])
    have hself : fs.write j (fs.data j) = fs := write_self j
    refine ⟨?_, l, hn, ?_⟩
    · have := confined_rewrite (r := r) hnot hn hreach (fs.data j) []
      rwa [hself] at this
    · exact hreach.write j []
  · cases ho

theorem openRead_confined {path : Path} (hroot : r.source ≠ []) (hpath : Below r.source path)
    (c : Choice) : Confined r (.fopen path .rb) (exec c (.fopen path .rb) fs).1 fs fs := by
  refine ⟨fun _ h0 hl => absurd h0 hl, fun _ _ hl => absurd rfl hl, fun _ hi => absurd rfl hi, ?_⟩
  intro i hi
  simp only [exec] at hi
  split_ifs at hi
  · cases hi
  rcases hr : fs.resolve path with _ | l
  · simp [FS.openRead, hr, opened] at hi
  · rcases hn : fs.node l with _ | _ | j | t
    · simp [FS.openRead, hr, hn, opened] at hi
    · simp [FS.openRead, hr, hn, opened] at hi
    · simp only [FS.openRead, hr, hn, opened, Option.bind_some, Option.some.injEq] at hi
      exact ⟨l, hi ▸ hn, hpath.reached hroot hr (by simp [hn])⟩
    · simp [FS.openRead, hr, hn, opened] at hi

theorem mkdir_confined {path : Path} (hroot : r.destination ≠ [])
    (hpath : path = r.destination ∨ Below r.destination path) (c : Choice) :
    Confined r (.mkdir path 0o7) (exec c (.mkdir path 0o7) fs).1 fs (exec c (.mkdir path 0o7) fs).2 := by
  have hnot : opened (.mkdir path 0o7) (exec c (.mkdir path 0o7) fs).1 = none := rfl
  obtain he | ⟨n, d, hd, hn, hfree, hr, he⟩ := exec_mkdir_cases c path 0o7 fs
  · rw [he]
    exact confined_same hnot
  rw [he]
  have hnode : ∀ k, (fs.addDir n d 0o7 hd hn hfree).node k =
      if k = n :: d then some .dir else fs.node k := fun k => fs.node_addDir
  refine ⟨?_, ?_, fun _ hi => absurd rfl hi, fun i hi => by cases hi⟩
  · intro k hk hk'
    rw [hnode] at hk'
    split_ifs at hk' with h
    · subst h
      rcases hpath with rfl | hpath
      · exact .inr hr
      · exact hpath.reached_mkdir hroot hr
    · exact absurd hk hk'
  · intro k hk hk'
    rw [hnode] at hk'
    split_ifs at hk' with h
    · exact absurd (h ▸ hfree) hk
    · exact absurd rfl hk'

theorem remove_confined {path : Path} (hroot : r.source ≠ []) (hpath : Below r.source path)
    (hm : r.method = .transfer) (c : Choice) :
    Confined r (.remove path) (exec c (.remove path) fs).1 fs (exec c (.remove path) fs).2 := by
  have hnot : opened (.remove path) (exec c (.remove path) fs).1 = none := rfl
  obtain he | ⟨n, d, hbelow, hr, hsome, he⟩ := exec_remove_cases c path fs
  · rw [he]
    exact confined_same hnot
  rw [he]
  have hnode : ∀ k, (fs.unlink n d hbelow).node k = if k = n :: d then none else fs.node k :=
    fun k => fs.node_unlink
  refine ⟨?_, ?_, fun _ hi => absurd rfl hi, fun i hi => by cases hi⟩
  · intro k hk hk'
    rw [hnode] at hk'
    split_ifs at hk' with h
    · exact absurd rfl hk'
    · exact absurd hk hk'
  · intro k hk hk'
    rw [hnode] at hk' ⊢
    split_ifs at hk' ⊢ with h
    · obtain ⟨-, m, q, rfl, hm', hq, -⟩ := hpath
      exact ⟨hm, rfl, h ▸ reached_of_resolveEntry hroot hm' hq hr⟩
    · exact absurd rfl hk'

/-- Every call of a run is confined, whatever the state. -/
theorem containment_tour (hs : r.source ≠ []) (hd : r.destination ≠ [])
    (hslen : r.source.length + 1 < pathSize) (hdlen : r.destination.length + 1 < pathSize) :
    Tour (Confined r) (fun _ => True)
      (fun s d => (s = r.source ∨ Below r.source s) ∧ (d = r.destination ∨ Below r.destination d))
      (fun s d => Below r.source s ∧ Below r.destination d) r.method where
  mkdir := fun _ _ _ c hK _ => ⟨mkdir_confined hd hK.2 c, trivial⟩
  opendir := fun _ _ _ => confined_same rfl
  stat := fun _ _ _ => confined_same rfl
  entry := fun _ _ fs _ _ hK _ _ hn =>
    ⟨below_joinPath hslen hK.1 (fs.node_valid hn), below_joinPath hdlen hK.2 (fs.node_valid hn)⟩
  down := fun _ _ hE => ⟨.inr hE.1, .inr hE.2⟩
  file := by
    intro source destination fs l hE _ hl _ _
    refine ⟨trivial, ?_, openRead_confined hs hE.1, ?_, ?_⟩
    · intro op res fs hop
      refine confined_same ?_
      cases op <;> first | rfl | cases hop
    · intro c
      rcases exec_fopen_wb_cases c destination fs with ⟨j, fs₁, ho, he⟩ | he
      · rw [he]
        exact (openWrite_confined hd hE.2 ho _).1
      · rw [he]
        exact confined_same rfl
    · intro j fs₁ ho
      obtain ⟨-, l, hl, hreach⟩ := openWrite_confined hd hE.2 ho none
      refine ⟨?_, fun content => ⟨trivial, fun hm c => ⟨remove_confined hs hE.1 hm c, trivial⟩⟩⟩
      intro op res a b hop
      refine confined_rewrite ?_ hl hreach a b
      cases op <;> first | rfl | cases hop

end Calls

/-- In any state of the file system, with any faults and any enumeration, each call of a run
creates and changes files only where the destination tree reaches, copies only from where the
source tree reaches, and removes files only there and only in a `TRANSFER`. -/
theorem transferDirectory_contained (sha256 : Bytes → Bytes) (source destination : Path)
    (method : TransferMethod) (hs : source ≠ []) (hd : destination ≠ [])
    (hslen : source.length + 1 < pathSize) (hdlen : destination.length + 1 < pathSize) (fs : FS)
    (stack fuel : ℕ) (sched : ℕ → Choice) :
    ∀ e ∈ trace exec sched
        (transferDirectory (systemCalls sha256 fuel) stack source destination method) 0 fs,
      Contained (InDest e.before destination) (Reached e.before source) method e.op e.res e.before
        e.after := by
  have htour := containment_tour (r := ⟨source, destination, method, [], []⟩) hs hd hslen hdlen
  exact ((transferDirectory_faulty htour sha256 fuel stack source destination fs ⟨.inl rfl, .inl rfl⟩
    trivial).run sched (fun _ => trivial) 0).2

/-- A dashboard in which somebody has put a link to a file outside. -/
def linked : FS :=
  let outside := sample.addFile (bytes "x") [] 0o666 rfl (by decide) (by decide)
  outside.addLink (bytes "a") [bytes "dashboard", bytes "reportman", bytes "srv"] (bytes "/x")
    (by decide) validName_a (by decide)

/-- The call that overwrites the file outside. -/
theorem transferDirectory_contained_linked :
    ∃ e ∈ trace exec (fun _ => Choice.plain) (transferDirectory (systemCalls id 2) 2
        (Directory.path .reports) (Directory.path .dashboard) .backup) 0 linked,
      e.after.data 1 ≠ e.before.data 1 ∧
        Contained (InDest e.before (Directory.path .dashboard))
          (Reached e.before (Directory.path .reports)) .backup e.op e.res e.before e.after := by
  obtain ⟨e, he, hchanged⟩ : ∃ e ∈ trace exec (fun _ => Choice.plain)
      (transferDirectory (systemCalls id 2) 2 (Directory.path .reports)
        (Directory.path .dashboard) .backup) 0 linked,
      e.after.data 1 ≠ e.before.data 1 := by decide +kernel
  exact ⟨e, he, hchanged, transferDirectory_contained id _ _ .backup (by decide) (by decide) (by decide)
    (by decide) linked 2 2 _ e he⟩

/-- A backup through the link: the file outside is overwritten, so not every call stays in the two
trees. -/
theorem not_contained_in_trees :
    ¬ ∀ e ∈ trace exec (fun _ => Choice.plain) (transferDirectory (systemCalls id 2) 2
        (Directory.path .reports) (Directory.path .dashboard) .backup) 0 linked,
      Contained (standard .dashboard <:+ ·) (standard .reports <:+ ·) .backup e.op e.res e.before
        e.after := by
  intro h
  obtain ⟨e, he, hchanged, hkeys⟩ : ∃ e ∈ trace exec (fun _ => Choice.plain)
      (transferDirectory (systemCalls id 2) 2 (Directory.path .reports)
        (Directory.path .dashboard) .backup) 0 linked,
      e.after.data 1 ≠ e.before.data 1 ∧ ∀ l ∈ e.after.nodes.keys,
        e.after.node l = some (.file 1) → ¬ standard .dashboard <:+ l := by decide +kernel
  obtain ⟨l, hl, hd⟩ := (h e he).changed 1 hchanged
  exact hkeys l (e.after.mem_keys.mp (by simp [hl])) hl hd

end Reportman.Containment
