import Mathlib
import Reportman.PathResolution
import Reportman.Resumable

/-!
# The calls the file programs make

Streams with the mode they were opened in, and the calls of stdio and of the kernel that
`directory_tool.c` uses. A stream lives in the process that opened it; only what it flushes reaches
the file system. Every call takes a `Choice` of the environment: whether it fails, how far a failing
call got, how much stdio writes through early, and in which order a directory is enumerated.
The process runs as root, so permissions never refuse a call; they are kept because the handlers
change them.
-/
namespace Reportman.FileSystem
open Resumable

inductive OpenMode
  | rb
  | wb
  deriving DecidableEq

/-- A stdio stream. `ino` is missing when the stream stands on a directory. Streams opened `"rb"`
only read and streams opened `"wb"` only write. -/
structure FILE where
  ino : Option ℕ
  mode : OpenMode
  pos : ℕ
  pending : Bytes
  deriving DecidableEq

inductive FileType
  | directory
  | regular
  | symlink
  deriving DecidableEq

/-- What the environment decides about one call. -/
structure Choice where
  fails : Bool
  amount : ℕ
  early : ℕ
  order : List Name → List Name
  perm : ∀ names, (order names).Perm names

/-- A call that does what it was asked to do. -/
def Choice.clean (c : Choice) : Prop := c.fails = false

/-- No fault, and directories enumerated as the file system keeps them. -/
def Choice.plain : Choice := ⟨false, 0, 0, id, fun names => List.Perm.refl names⟩

inductive Sys
  | fopen (path : Path) (mode : OpenMode)
  | fread (count : ℕ) (stream : FILE)
  | fwrite (buffer : Bytes) (stream : FILE)
  | fseek (stream : FILE)
  | fclose (stream : FILE)
  | remove (path : Path)
  | mkdir (path : Path) (mode : ℕ)
  | opendir (path : Path)
  | stat (path : Path)
  | lstat (path : Path)
  | chmod (path : Path) (mode : ℕ)

/-- Responses. A call that moves a stream also returns the stream as it then is. -/
abbrev Sys.Res : Sys → Type
  | .fopen _ _ => Option FILE
  | .fread _ _ => Bytes × FILE
  | .fwrite _ _ => ℕ × FILE
  | .fseek _ => ℤ × FILE
  | .fclose _ => ℤ
  | .remove _ => ℤ
  | .mkdir _ _ => ℤ
  | .opendir _ => Option (List Name)
  | .stat _ => Option FileType
  | .lstat _ => Option FileType
  | .chmod _ _ => ℤ

abbrev Prog := Program Sys Sys.Res

/-- `data` with `bs` written at offset `pos`; a gap is filled with zeros. -/
def overwrite (data : Bytes) (pos : ℕ) (bs : Bytes) : Bytes :=
  (data ++ List.replicate (pos - data.length) 0).take pos ++ bs ++ data.drop (pos + bs.length)

namespace FS

variable (fs : FS)

/-- A new file at a free place. -/
def create (l : Loc) (mode : ℕ) : Option FS :=
  match l with
  | [] => none
  | n :: d =>
      if h : fs.node d = some .dir ∧ ValidName n ∧ fs.node (n :: d) = none then
        some (fs.addFile n d mode h.1 h.2.1 h.2.2)
      else none

def makeDir (l : Loc) (mode : ℕ) : Option FS :=
  match l with
  | [] => none
  | n :: d =>
      if h : fs.node d = some .dir ∧ ValidName n ∧ fs.node (n :: d) = none then
        some (fs.addDir n d mode h.1 h.2.1 h.2.2)
      else none

theorem below_none_of_names_nil {l : Loc} (h : fs.names l = []) (m : Name) :
    fs.node (m :: l) = none := by
  by_contra hne
  have hm := (fs.mem_names).mpr hne
  simp [h] at hm

/-- `unlink` of a file or link, `rmdir` of an empty directory. -/
def removeAt (l : Loc) : Option FS :=
  match l with
  | [] => none
  | n :: d =>
      if h : fs.node (n :: d) ≠ none ∧ fs.names (n :: d) = [] then
        some (fs.unlink n d (fs.below_none_of_names_nil h.2))
      else none

def openRead (path : Path) : Option FILE :=
  (fs.resolve path).bind fun l =>
    match fs.node l with
    | some (.file i) => some ⟨some i, .rb, 0, []⟩
    | some .dir => some ⟨none, .rb, 0, []⟩
    | _ => none

/-- `"wb"`: an existing file is cut to nothing, a missing one is created. -/
def openWrite (path : Path) : Option FILE × FS :=
  match fs.resolve path with
  | none => (none, fs)
  | some l =>
      match fs.node l with
      | some (.file i) => (some ⟨some i, .wb, 0, []⟩, fs.write i [])
      | some _ => (none, fs)
      | none =>
          match fs.create l 0o666 with
          | some fs' => (some ⟨some fs.next, .wb, 0, []⟩, fs')
          | none => (none, fs)

end FS

/-- What a read of at most `count` bytes would give. -/
def FILE.read (f : FILE) (fs : FS) (count : ℕ) : Bytes :=
  match f.mode, f.ino with
  | .rb, some i => ((fs.data i).drop f.pos).take count
  | _, _ => []

/-- The first `k` pending bytes reach the file. The others stay in the buffer, unless the flush fails:
stdio empties the buffer all the same, and they are lost. -/
def FILE.flush (c : Choice) (f : FILE) (fs : FS) (k : ℕ) : FILE × FS :=
  match f.ino with
  | none => (f, fs)
  | some i =>
      let kept := if c.fails then [] else f.pending.drop k
      if f.pending.take k = [] then ({ f with pending := kept }, fs)
      else
        ({ f with pos := f.pos + (f.pending.take k).length, pending := kept },
          fs.write i (overwrite (fs.data i) f.pos (f.pending.take k)))

/-- How far a flush gets. -/
def Choice.flushed (c : Choice) (f : FILE) : ℕ := if c.fails then c.amount else f.pending.length

/-- What `readdir` hands over of a directory. A failure is that of `opendir`, or it comes behind some of
the entries and looks like their end. -/
def Choice.listed (c : Choice) (entries : List Name) : Option (List Name) :=
  if c.fails then
    match c.amount with
    | 0 => none
    | k + 1 => some (entries.take k)
  else some entries

def typeAt (fs : FS) (l : Loc) : Option FileType :=
  match fs.node l with
  | some .dir => some .directory
  | some (.file _) => some .regular
  | some (.link _) => some .symlink
  | none => none

/-- One call; `mkdir` looks past slashes at the end. A failing call of the kernel has no effect; a
failing call of stdio gets `c.amount` bytes far, and an enumeration that fails `c.amount` steps. -/
def exec (c : Choice) : (op : Sys) → FS → op.Res × FS
  | .fopen path .rb, fs => (if c.fails then none else fs.openRead path, fs)
  | .fopen path .wb, fs => if c.fails then (none, fs) else fs.openWrite path
  | .fread count f, fs =>
      let got := (f.read fs count).take (if c.fails then c.amount else count)
      ((got, { f with pos := f.pos + got.length }), fs)
  | .fwrite buffer f, fs =>
      match f.mode with
      | .rb => ((0, f), fs)
      | .wb =>
          let taken := if c.fails then buffer.take c.amount else buffer
          let out := FILE.flush c { f with pending := f.pending ++ taken } fs c.early
          ((taken.length, out.1), out.2)
  | .fseek f, fs =>
      let out := f.flush c fs (c.flushed f)
      if c.fails then ((-1, out.1), out.2) else ((0, { out.1 with pos := 0 }), out.2)
  | .fclose f, fs =>
      let out := f.flush c fs (c.flushed f)
      (if c.fails then -1 else 0, out.2)
  | .remove path, fs =>
      if c.fails then (-1, fs)
      else match (fs.resolveEntry path).bind fs.removeAt with
        | some fs' => (0, fs')
        | none => (-1, fs)
  | .mkdir path mode, fs =>
      if c.fails then (-1, fs)
      else match (fs.resolveEntry (stripSlashes path)).bind fun l => fs.makeDir l mode with
        | some fs' => (0, fs')
        | none => (-1, fs)
  | .opendir path, fs =>
      match fs.resolve path with
      | some l =>
          (if fs.node l = some .dir then c.listed (c.order (dot :: dotDot :: fs.names l)) else none, fs)
      | none => (none, fs)
  | .stat path, fs => (if c.fails then none else (fs.resolve path).bind (typeAt fs), fs)
  | .lstat path, fs =>
      (if c.fails then none
        else match fs.resolveEntry path with
          | some l => typeAt fs l
          | none => (fs.resolve path).bind (typeAt fs), fs)
  | .chmod path mode, fs =>
      if c.fails then (-1, fs)
      else match fs.resolve path with
        | none => (-1, fs)
        | some l =>
            match fs.node l with
            | some .dir => (0, fs.setDirMode l mode)
            | some (.file i) => (0, fs.setFileMode i mode)
            | _ => (-1, fs)

end Reportman.FileSystem
