import Mathlib
import Reportman.Overlay

/-!
# The file system under the daemon

Directories, regular files and symbolic links, placed at locations. A location is the list of names
that leads to an entry from the root, innermost name first; it is what `realpath` would print. A
regular file is an inode number, so one file may stand at several locations, and an open stream
keeps its file after the name is gone. The structure carries what a Unix file system never breaks:
every entry lies in a directory, no entry is called `.` or `..`, and inode numbers are not reused.
-/
namespace Reportman.FileSystem
open Overlay (Entry Tree)

abbrev Bytes := List UInt8

/-- A C string without its terminator. -/
abbrev Path := Bytes
abbrev Name := Bytes
abbrev Loc := List Name

def slash : UInt8 := 47
def dot : Name := [46]
def dotDot : Name := [46, 46]

/-- The bytes of a string literal of the source. -/
def bytes (s : String) : Bytes := s.toList.map fun c => c.toNat.toUInt8

/-- A component that stands for an entry of its own. -/
def Ordinary (n : Name) : Prop := n ≠ [] ∧ n ≠ dot ∧ n ≠ dotDot

/-- What a directory entry can be called. -/
def ValidName (n : Name) : Prop := Ordinary n ∧ slash ∉ n

instance (n : Name) : Decidable (Ordinary n) := inferInstanceAs (Decidable (_ ∧ _))
instance (n : Name) : Decidable (ValidName n) := inferInstanceAs (Decidable (_ ∧ _))

/-- The name of the files of the samples. -/
theorem validName_a : ValidName (bytes "a") := by decide

inductive Node
  | dir
  | file (ino : ℕ)
  | link (target : Path)
  deriving DecidableEq, Repr

structure FS where
  nodes : AList fun _ : Loc => Node
  data : ℕ → Bytes
  next : ℕ
  dirMode : Loc → ℕ
  fileMode : ℕ → ℕ
  root : nodes.lookup [] = some .dir
  parent : ∀ n l, nodes.lookup (n :: l) ≠ none → nodes.lookup l = some .dir
  valid : ∀ n l, nodes.lookup (n :: l) ≠ none → ValidName n
  fresh : ∀ l i, nodes.lookup l = some (.file i) → i < next

namespace FS

def node (fs : FS) (l : Loc) : Option Node := fs.nodes.lookup l

/-- The name under which a location is a child of `l`. -/
def childOf (l : Loc) : Loc → Option Name
  | [] => none
  | n :: d => if d = l then some n else none

/-- The entries of a directory, in the order the file system happens to keep them. -/
def names (fs : FS) (l : Loc) : List Name := fs.nodes.keys.filterMap (childOf l)

/-- What stands at a location, a file with its content; links do not count. -/
def entry (fs : FS) (l : Loc) : Option (Entry Bytes) :=
  match fs.node l with
  | some .dir => some .dir
  | some (.file i) => some (.file (fs.data i))
  | _ => none

/-- The tree of directories and files that hangs at a location. -/
def tree (fs : FS) (l : Loc) : Tree Name Bytes := fun p => fs.entry (p ++ l)

/-- No path below any location is as long as this, and no file either. -/
def bound (fs : FS) : ℕ :=
  (fs.nodes.keys.map fun l => l.length + match fs.entry l with
    | some (.file c) => c.length
    | _ => 0).sum + 1

/-- Only a root directory. -/
def empty : FS where
  nodes := AList.insert [] .dir ∅
  data := fun _ => []
  next := 0
  dirMode := fun _ => 0o755
  fileMode := fun _ => 0
  root := AList.lookup_insert _
  parent := fun n l h => by
    rw [AList.lookup_insert_ne (List.cons_ne_nil n l)] at h
    exact absurd (AList.lookup_empty _) h
  valid := fun n l h => by
    rw [AList.lookup_insert_ne (List.cons_ne_nil n l)] at h
    exact absurd (AList.lookup_empty _) h
  fresh := fun l i h => by
    by_cases hl : l = []
    · subst hl
      rw [AList.lookup_insert] at h
      cases h
    · rw [AList.lookup_insert_ne hl, AList.lookup_empty] at h
      cases h

/-- A directory made in `l`. -/
def addDir (fs : FS) (n : Name) (l : Loc) (mode : ℕ) (hl : fs.node l = some .dir)
    (hn : ValidName n) (hfree : fs.node (n :: l) = none) : FS where
  nodes := fs.nodes.insert (n :: l) .dir
  data := fs.data
  next := fs.next
  dirMode := Function.update fs.dirMode (n :: l) mode
  fileMode := fs.fileMode
  root := by rw [AList.lookup_insert_ne (by simp)]; exact fs.root
  parent := fun m k h => by
    by_cases hk : m :: k = n :: l
    · obtain ⟨rfl, rfl⟩ := List.cons.inj hk
      rw [AList.lookup_insert_ne (List.cons_ne_self m k).symm]
      exact hl
    · rw [AList.lookup_insert_ne hk] at h
      have hp := fs.parent m k h
      rwa [AList.lookup_insert_ne (by rintro rfl; rw [node] at hfree; simp [hfree] at hp)]
  valid := fun m k h => by
    by_cases hk : m :: k = n :: l
    · obtain ⟨rfl, rfl⟩ := List.cons.inj hk
      exact hn
    · rw [AList.lookup_insert_ne hk] at h
      exact fs.valid m k h
  fresh := fun k i h => by
    by_cases hk : k = n :: l
    · subst hk; simp at h
    · rw [AList.lookup_insert_ne hk] at h
      exact fs.fresh k i h

/-- An empty file created in `l`, with an inode number never used before. -/
def addFile (fs : FS) (n : Name) (l : Loc) (mode : ℕ) (hl : fs.node l = some .dir)
    (hn : ValidName n) (hfree : fs.node (n :: l) = none) : FS where
  nodes := fs.nodes.insert (n :: l) (.file fs.next)
  data := Function.update fs.data fs.next []
  next := fs.next + 1
  dirMode := fs.dirMode
  fileMode := Function.update fs.fileMode fs.next mode
  root := by rw [AList.lookup_insert_ne (by simp)]; exact fs.root
  parent := fun m k h => by
    by_cases hk : m :: k = n :: l
    · obtain ⟨rfl, rfl⟩ := List.cons.inj hk
      rw [AList.lookup_insert_ne (List.cons_ne_self m k).symm]
      exact hl
    · rw [AList.lookup_insert_ne hk] at h
      have hp := fs.parent m k h
      rwa [AList.lookup_insert_ne (by rintro rfl; rw [node] at hfree; simp [hfree] at hp)]
  valid := fun m k h => by
    by_cases hk : m :: k = n :: l
    · obtain ⟨rfl, rfl⟩ := List.cons.inj hk
      exact hn
    · rw [AList.lookup_insert_ne hk] at h
      exact fs.valid m k h
  fresh := fun k i h => by
    by_cases hk : k = n :: l
    · subst hk
      rw [AList.lookup_insert] at h
      cases h
      exact Nat.lt_succ_self _
    · rw [AList.lookup_insert_ne hk] at h
      exact (fs.fresh k i h).trans (Nat.lt_succ_self _)

/-- A symbolic link put into `l`, as the users of the directories may do. -/
def addLink (fs : FS) (n : Name) (l : Loc) (target : Path) (hl : fs.node l = some .dir)
    (hn : ValidName n) (hfree : fs.node (n :: l) = none) : FS where
  nodes := fs.nodes.insert (n :: l) (.link target)
  data := fs.data
  next := fs.next
  dirMode := fs.dirMode
  fileMode := fs.fileMode
  root := by rw [AList.lookup_insert_ne (by simp)]; exact fs.root
  parent := fun m k h => by
    by_cases hk : m :: k = n :: l
    · obtain ⟨rfl, rfl⟩ := List.cons.inj hk
      rw [AList.lookup_insert_ne (List.cons_ne_self m k).symm]
      exact hl
    · rw [AList.lookup_insert_ne hk] at h
      have hp := fs.parent m k h
      rwa [AList.lookup_insert_ne (by rintro rfl; rw [node] at hfree; simp [hfree] at hp)]
  valid := fun m k h => by
    by_cases hk : m :: k = n :: l
    · obtain ⟨rfl, rfl⟩ := List.cons.inj hk
      exact hn
    · rw [AList.lookup_insert_ne hk] at h
      exact fs.valid m k h
  fresh := fun k i h => by
    by_cases hk : k = n :: l
    · subst hk; simp at h
    · rw [AList.lookup_insert_ne hk] at h
      exact fs.fresh k i h

/-- The entry `n` taken out of `l`; nothing may lie below it. -/
def unlink (fs : FS) (n : Name) (l : Loc) (hbelow : ∀ m, fs.node (m :: n :: l) = none) : FS where
  nodes := fs.nodes.erase (n :: l)
  data := fs.data
  next := fs.next
  dirMode := fs.dirMode
  fileMode := fs.fileMode
  root := by rw [AList.lookup_erase_ne (by simp)]; exact fs.root
  parent := fun m k h => by
    by_cases hk : m :: k = n :: l
    · rw [hk, AList.lookup_erase] at h
      exact absurd rfl h
    · rw [AList.lookup_erase_ne hk] at h
      have hp := fs.parent m k h
      rwa [AList.lookup_erase_ne (by rintro rfl; exact h (hbelow m))]
  valid := fun m k h => by
    by_cases hk : m :: k = n :: l
    · rw [hk, AList.lookup_erase] at h
      exact absurd rfl h
    · rw [AList.lookup_erase_ne hk] at h
      exact fs.valid m k h
  fresh := fun k i h => by
    by_cases hk : k = n :: l
    · rw [hk, AList.lookup_erase] at h
      cases h
    · rw [AList.lookup_erase_ne hk] at h
      exact fs.fresh k i h

/-- The content of an inode replaced. -/
def write (fs : FS) (i : ℕ) (content : Bytes) : FS :=
  { fs with data := Function.update fs.data i content }

def setDirMode (fs : FS) (l : Loc) (mode : ℕ) : FS :=
  { fs with dirMode := Function.update fs.dirMode l mode }

def setFileMode (fs : FS) (i : ℕ) (mode : ℕ) : FS :=
  { fs with fileMode := Function.update fs.fileMode i mode }

variable (fs : FS)

@[simp] theorem node_root : fs.node [] = some .dir := fs.root

theorem node_parent {n : Name} {l : Loc} (h : fs.node (n :: l) ≠ none) : fs.node l = some .dir :=
  fs.parent n l h

theorem node_valid {n : Name} {l : Loc} (h : fs.node (n :: l) ≠ none) : ValidName n :=
  fs.valid n l h

theorem node_fresh {l : Loc} {i : ℕ} (h : fs.node l = some (.file i)) : i < fs.next :=
  fs.fresh l i h

/-- Directories have no children once they are not directories. -/
theorem node_child_none {n : Name} {l : Loc} (h : fs.node l ≠ some .dir) :
    fs.node (n :: l) = none := by
  by_contra hne
  exact h (fs.node_parent hne)

theorem node_addDir {n : Name} {l k : Loc} {mode : ℕ} {hl hn hfree} :
    (fs.addDir n l mode hl hn hfree).node k = if k = n :: l then some .dir else fs.node k := by
  by_cases hk : k = n :: l
  · subst hk; simp [node, addDir]
  · simp [node, addDir, AList.lookup_insert_ne hk, hk]

theorem node_addFile {n : Name} {l k : Loc} {mode : ℕ} {hl hn hfree} :
    (fs.addFile n l mode hl hn hfree).node k =
      if k = n :: l then some (.file fs.next) else fs.node k := by
  by_cases hk : k = n :: l
  · subst hk; simp [node, addFile]
  · simp [node, addFile, AList.lookup_insert_ne hk, hk]

theorem node_unlink {n : Name} {l k : Loc} {hbelow} :
    (fs.unlink n l hbelow).node k = if k = n :: l then none else fs.node k := by
  by_cases hk : k = n :: l
  · subst hk; simp [node, unlink, AList.lookup_erase]
  · simp [node, unlink, AList.lookup_erase_ne hk, hk]

@[simp] theorem data_addDir {n : Name} {l : Loc} {mode : ℕ} {hl hn hfree} :
    (fs.addDir n l mode hl hn hfree).data = fs.data := rfl
@[simp] theorem data_addFile {n : Name} {l : Loc} {mode : ℕ} {hl hn hfree} :
    (fs.addFile n l mode hl hn hfree).data = Function.update fs.data fs.next [] := rfl
@[simp] theorem data_unlink {n : Name} {l : Loc} {hbelow} :
    (fs.unlink n l hbelow).data = fs.data := rfl
@[simp] theorem node_write (i : ℕ) (content : Bytes) (k : Loc) :
    (fs.write i content).node k = fs.node k := rfl
@[simp] theorem data_write (i : ℕ) (content : Bytes) :
    (fs.write i content).data = Function.update fs.data i content := rfl

theorem mem_keys {l : Loc} : fs.node l ≠ none ↔ l ∈ fs.nodes.keys := by
  rw [← AList.mem_keys, ← AList.lookup_isSome, node, Option.isSome_iff_ne_none]

/-- The names of a directory are the children that exist. -/
theorem mem_names {n : Name} {l : Loc} : n ∈ fs.names l ↔ fs.node (n :: l) ≠ none := by
  rw [fs.mem_keys]
  simp only [names, List.mem_filterMap]
  constructor
  · rintro ⟨k, hk, hc⟩
    cases k with
    | nil => simp [childOf] at hc
    | cons m d =>
      simp only [childOf, Option.ite_none_right_eq_some, Option.some.injEq] at hc
      obtain ⟨rfl, rfl⟩ := hc
      exact hk
  · exact fun hk => ⟨n :: l, hk, by simp [childOf]⟩

theorem names_nodup (l : Loc) : (fs.names l).Nodup := by
  refine List.Nodup.filterMap ?_ fs.nodes.nodupKeys
  intro k k' n hk hk'
  cases k with
  | nil => simp [childOf] at hk
  | cons m d =>
    cases k' with
    | nil => simp [childOf] at hk'
    | cons m' d' =>
      simp only [childOf, Option.mem_def, Option.ite_none_right_eq_some, Option.some.injEq] at hk hk'
      obtain ⟨rfl, rfl⟩ := hk
      obtain ⟨rfl, rfl⟩ := hk'
      rfl

theorem entry_dir {l : Loc} : fs.entry l = some .dir ↔ fs.node l = some .dir := by
  unfold entry
  split <;> simp_all

theorem entry_file {l : Loc} {i : ℕ} (h : fs.node l = some (.file i)) :
    fs.entry l = some (.file (fs.data i)) := by
  simp [entry, h]

theorem entry_none {l : Loc} (h : fs.node l = none) : fs.entry l = none := by
  simp [entry, h]

theorem node_of_entry_file {l : Loc} {c : Bytes} (h : fs.entry l = some (.file c)) :
    ∃ i, fs.node l = some (.file i) ∧ fs.data i = c := by
  unfold entry at h
  split at h
  · cases h
  · exact ⟨_, ‹_›, by cases h; rfl⟩
  · cases h

theorem node_of_entry_none {l : Loc} (h : fs.entry l = none)
    (hl : ∀ t, fs.node l ≠ some (.link t)) : fs.node l = none := by
  unfold entry at h
  rcases hn : fs.node l with _ | _ | i | t
  · rfl
  · simp [hn] at h
  · simp [hn] at h
  · exact absurd hn (hl t)

theorem length_lt_bound {l : Loc} (h : fs.node l ≠ none) : l.length < fs.bound := by
  have hmem := List.mem_map_of_mem (f := fun l => l.length + match fs.entry l with
    | some (.file c) => c.length
    | _ => 0) (fs.mem_keys.mp h)
  exact Nat.lt_succ_of_le ((Nat.le_add_right _ _).trans (List.le_sum_of_mem hmem))

theorem content_lt_bound {l : Loc} {c : Bytes} (h : fs.entry l = some (.file c)) :
    c.length < fs.bound := by
  have hn : fs.node l ≠ none := fun h0 => by simp [fs.entry_none h0] at h
  have hmem := List.mem_map_of_mem (f := fun l => l.length + match fs.entry l with
    | some (.file c) => c.length
    | _ => 0) (fs.mem_keys.mp hn)
  rw [h] at hmem
  exact Nat.lt_succ_of_le ((Nat.le_add_left _ _).trans (List.le_sum_of_mem hmem))

theorem tree_closed (l : Loc) : Overlay.Closed (fs.tree l) := by
  intro n p h
  have hn : fs.node (n :: (p ++ l)) ≠ none := by
    intro h0
    exact h (fs.entry_none h0)
  exact fs.entry_dir.mpr (fs.node_parent hn)

end FS

end Reportman.FileSystem
