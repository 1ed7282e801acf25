import Mathlib
import Reportman.Observed
import Reportman.Directories
import Reportman.Transaction

/-!
# What the returned number counts

`transfer_directory` adds up the directories it cannot open and the transactions that fail. An entry that
`stat` fails on is logged and passed over, and one that `readdir` does not hand over is not missed. The
others are processed under paths that a buffer may have cut, by transactions that may succeed without a copy.
-/
namespace Reportman.ErrorCount
open Resumable FileSystem TransferFile TransferDirectory Faults Transaction

inductive DirSys
  | mkdir (path : Path) (mode : ℕ)
  | opendir (path : Path)
  | stat (path : Path)
  | transact (source destination : Path) (method : TransferMethod)

abbrev DirSys.Res : DirSys → Type
  | .mkdir _ _ => ℤ
  | .opendir _ => Option (List Name)
  | .stat _ => Option FileType
  | .transact _ _ _ => ℤ

abbrev DirProg := Program DirSys DirSys.Res

/-- A call of the traversal, with the file system before and after it. -/
abbrev DirCall := Carried DirSys DirSys.Res FS

abbrev DirLog := List DirCall

def dirCalls : Calls DirProg where
  mkdir path mode := Program.perform (DirSys.mkdir path mode)
  opendir path := Program.perform (DirSys.opendir path)
  stat path := Program.perform (DirSys.stat path)
  transact source destination method := Program.perform (DirSys.transact source destination method)

/-- Each call as the program itself makes it. -/
def carriedOut (sha256 : Bytes → Bytes) (fuel : ℕ) : (op : DirSys) → Prog op.Res
  | .mkdir path mode => (systemCalls sha256 fuel).mkdir path mode
  | .opendir path => (systemCalls sha256 fuel).opendir path
  | .stat path => (systemCalls sha256 fuel).stat path
  | .transact source destination method => (systemCalls sha256 fuel).transact source destination method

theorem interpret_transferDirectory (sha256 : Bytes → Bytes) (fuel stack : ℕ) (source destination : Path)
    (method : TransferMethod) :
    (transferDirectory dirCalls stack source destination method).interpret (carriedOut sha256 fuel) =
      transferDirectory (systemCalls sha256 fuel) stack source destination method := by
  induction stack generalizing source destination with
  | zero => rfl
  | succ stack ih =>
    have hentry (noErrors : ℤ) (name : Name) :
        (processEntry dirCalls (fun src dest => transferDirectory dirCalls stack src dest method) source
          destination method noErrors name).interpret (carriedOut sha256 fuel) =
        processEntry (systemCalls sha256 fuel)
          (fun src dest => transferDirectory (systemCalls sha256 fuel) stack src dest method) source
          destination method noErrors name := by
      by_cases hdots : name = dot ∨ name = dotDot
      · rw [processEntry_dots _ _ _ _ _ _ hdots, processEntry_dots _ _ _ _ _ _ hdots]
        rfl
      · have hstat := Program.interpret_perform (carriedOut sha256 fuel) (.stat (joinPath source name))
        have htransact := Program.interpret_perform (carriedOut sha256 fuel)
          (.transact (joinPath source name) (joinPath destination name) method)
        rw [processEntry_eq _ _ _ _ _ _ hdots, processEntry_eq _ _ _ _ _ _ hdots, Program.interpret_bind]
        change (Program.perform (DirSys.stat _)).interpret _ >>= _ = _
        rw [hstat]
        refine congrArg (_ >>= ·) (funext fun status => ?_)
        rcases status with _ | _ | _ | _
        · rfl
        · dsimp only
          rw [Program.interpret_bind, ih]
          rfl
        all_goals
          dsimp only
          rw [Program.interpret_bind]
          change (Program.perform (DirSys.transact _ _ _)).interpret _ >>= _ = _
          rw [htransact]
          refine congrArg (_ >>= ·) (funext fun status => ?_)
          split_ifs <;> rfl
    rw [transferDirectory_succ, transferDirectory_succ, Program.interpret_bind]
    change (Program.perform (DirSys.mkdir destination 0o7)).interpret _ >>= _ = _
    rw [Program.interpret_perform]
    refine congrArg (_ >>= ·) (funext fun _ => ?_)
    rw [Program.interpret_bind]
    change (Program.perform (DirSys.opendir source)).interpret _ >>= _ = _
    rw [Program.interpret_perform]
    refine congrArg (_ >>= ·) (funext fun dir => ?_)
    cases dir with
    | none => rfl
    | some entries =>
      dsimp only
      rw [Program.interpret_foldlM]
      simp only [hentry]

/-- The entries of the directory that a path leads to. -/
def entriesAt (fs : FS) (path : Path) : List Name :=
  match fs.resolve path with
  | some l => fs.names l
  | none => []

/-- The call has failed. -/
def failed : DirCall → Bool
  | ⟨.mkdir _ _, _, _, _, _⟩ => false
  | ⟨.opendir _, entries, _, _, _⟩ => entries.isNone
  | ⟨.stat _, fileType, _, _, _⟩ => fileType.isNone
  | ⟨.transact _ _ _, status, _, _, _⟩ => status ≠ transactSuccess

/-- How many entries of a directory `readdir` has not handed over. -/
def unlisted : DirCall → ℕ
  | ⟨.opendir path, some entries, _, fs, _⟩ => (entriesAt fs path).countP (· ∉ entries)
  | _ => 0

/-- The entries that were not processed: those whose call failed, and those that were never seen. -/
def unprocessed (log : DirLog) : ℕ := log.countP failed + (log.map unlisted).sum

/-- The path has been examined, with an answer. -/
def Found (log : DirLog) (path : Path) : Prop :=
  ∃ fileType t fs fs', ⟨.stat path, some fileType, t, fs, fs'⟩ ∈ log

/-- What is found to be a directory has been opened, and everything else was handed over to be copied. -/
def Processed (method : TransferMethod) (log : DirLog) (source destination : Path) (fileType : FileType) : Prop :=
  if fileType = .directory then ∃ names t fs fs', ⟨.opendir source, some names, t, fs, fs'⟩ ∈ log
  else ∃ status t fs fs', ⟨.transact source destination method, status, t, fs, fs'⟩ ∈ log

/-- Every entry of the directories that were opened has been examined under its own path, and processed. -/
structure Examined (method : TransferMethod) (source destination : Path) (log : DirLog) : Prop where
  listed : ∀ path names t fs fs', ⟨.opendir path, some names, t, fs, fs'⟩ ∈ log →
    ∀ name ∈ entriesAt fs path, Found log (path ++ slash :: name)
  processed : ∀ path fileType t fs fs', ⟨.stat path, some fileType, t, fs, fs'⟩ ∈ log → ∃ x, path = source ++ x ∧
    Processed method log (source ++ x) (destination ++ x) fileType

/-- The whole tree has been gone through, and each of its files was copied. -/
structure Covered (method : TransferMethod) (source destination : Path) (log : DirLog) : Prop where
  entered : ∃ names t fs fs', ⟨.opendir source, some names, t, fs, fs'⟩ ∈ log
  examined : Examined method source destination log
  copied : ∀ src dest m status t fs fs', ⟨.transact src dest m, status, t, fs, fs'⟩ ∈ log →
    Copied fs fs' src dest

/-- The number is that of the entries that were not processed, and zero means that everything was copied. -/
def ExactCount (method : TransferMethod) (source destination : Path) (noErrors : ℤ) (log : DirLog) : Prop :=
  noErrors = unprocessed log ∧ (noErrors = 0 → Covered method source destination log)

/-- The call has failed, and is counted. -/
def counted : DirCall → Bool
  | ⟨.opendir _, entries, _, _, _⟩ => entries.isNone
  | ⟨.transact _ _ _, status, _, _, _⟩ => status ≠ transactSuccess
  | _ => false

/-- The call has failed, and the entry is passed over. -/
def passedOver : DirCall → Bool
  | ⟨.stat _, fileType, _, _, _⟩ => fileType.isNone
  | _ => false

theorem countP_failed (log : DirLog) : log.countP failed = log.countP counted + log.countP passedOver := by
  have hcall (call : DirCall) : (if failed call then 1 else 0) =
      (if counted call then 1 else 0) + if passedOver call then 1 else 0 := by
    obtain ⟨_ | _ | _ | _, answer, _, _, _⟩ := call
    · rfl
    · cases answer <;> rfl
    · cases answer <;> rfl
    · simp [failed, counted, passedOver]
  induction log with
  | nil => rfl
  | cons call log ih =>
    rw [List.countP_cons, List.countP_cons, List.countP_cons, ih, hcall]
    omega

section Conditions

variable (sched : ℕ → Choice) (source destination : Path) (log : DirLog)

/-- No entry is overlooked: `stat` answers, and `readdir` hands over all that is there. -/
structure Seen : Prop where
  examined : ∀ path t fs fs', ⟨.stat path, none, t, fs, fs'⟩ ∉ log
  listed : ∀ path names t fs fs', ⟨.opendir path, some names, t, fs, fs'⟩ ∈ log → entriesAt fs path ⊆ names

/-- A directory does not open, or a transaction is refused. -/
def Stopped : Prop :=
  (∃ path t fs fs', ⟨.opendir path, none, t, fs, fs'⟩ ∈ log) ∨
    ∃ src dest m status t fs fs', ⟨.transact src dest m, status, t, fs, fs'⟩ ∈ log ∧
      Refused (fun k => sched (t + k)) fs src dest

/-- No buffer cuts the path of an entry, nor the path to which a file is copied. -/
structure Fits : Prop where
  entries : ∀ path names t fs fs', ⟨.opendir path, some names, t, fs, fs'⟩ ∈ log →
    ∀ name ∈ entriesAt fs path, (path ++ slash :: name).length < pathSize
  copies : ∀ x fileType t fs fs', ⟨.stat (source ++ x), some fileType, t, fs, fs'⟩ ∈ log →
    fileType ≠ .directory → (destination ++ x).length < pathSize

/-- Every transaction delivers its file. -/
def Delivered : Prop :=
  ∀ src dest m status t fs fs', ⟨.transact src dest m, status, t, fs, fs'⟩ ∈ log →
    Delivers (fun k => sched (t + k)) fs src dest m

end Conditions

/-- What the transactions of a log say of themselves is true. -/
def Sound (sched : ℕ → Choice) (log : DirLog) : Prop :=
  ∀ src dest m status t fs fs', ⟨.transact src dest m, status, t, fs, fs'⟩ ∈ log →
    (status = transactSuccess ↔ ¬ Refused (fun k => sched (t + k)) fs src dest) ∧
      (status = transactSuccess →
        (Copied fs fs' src dest ↔ Delivers (fun k => sched (t + k)) fs src dest m))

/-- The paths of a log fit their buffers. -/
structure Short (log : DirLog) : Prop where
  stat : ∀ path fileType t fs fs', ⟨.stat path, fileType, t, fs, fs'⟩ ∈ log → path.length < pathSize
  transact : ∀ src dest m status t fs fs', ⟨.transact src dest m, status, t, fs, fs'⟩ ∈ log →
    dest.length < pathSize

section Paths

/-- The path as a buffer holds it, or the path itself. -/
def Held (path held : Path) : Prop := held = path ∨ held = path.take (pathSize - 1)

theorem joinPath_length (directory name : Path) : (joinPath directory name).length < pathSize := by
  have hsize : 0 < pathSize := by decide
  simp only [joinPath, List.length_take]
  omega

/-- What is joined to a path that has been cut is cut off as well. -/
theorem Held.joinPath {path held : Path} (h : Held path held) (name : Path) :
    TransferDirectory.joinPath held name = (path ++ slash :: name).take (pathSize - 1) := by
  rcases h with rfl | rfl
  · rfl
  · rw [TransferDirectory.joinPath, List.take_append, List.take_append, List.take_take, List.length_take,
      Nat.min_self]
    by_cases hle : path.length ≤ pathSize - 1
    · rw [Nat.min_eq_right hle]
    · have hzero : pathSize - 1 - min (pathSize - 1) path.length = pathSize - 1 - path.length := by omega
      rw [hzero]

theorem Held.eq {path held : Path} (h : Held path held) (hlen : path.length < pathSize) : held = path := by
  rcases h with rfl | rfl
  · rfl
  · exact List.take_of_length_le (by omega)

end Paths

section Logs

variable {sched : ℕ → Choice} {method : TransferMethod} {source destination : Path} {log log' : DirLog}

/-- Nothing in the log keeps an entry from being processed. -/
structure Clear (source destination : Path) (log : DirLog) : Prop where
  seen : Seen log
  opened : ∀ path t fs fs', ⟨.opendir path, none, t, fs, fs'⟩ ∉ log
  fits : Fits source destination log

theorem Clear.anti (h : Clear source destination log') (hle : log ⊆ log') : Clear source destination log where
  seen :=
    { examined := fun path t fs fs' hmem => h.seen.examined path t fs fs' (hle hmem)
      listed := fun path names t fs fs' hmem => h.seen.listed path names t fs fs' (hle hmem) }
  opened := fun path t fs fs' hmem => h.opened path t fs fs' (hle hmem)
  fits :=
    { entries := fun path names t fs fs' hmem => h.fits.entries path names t fs fs' (hle hmem)
      copies := fun x fileType t fs fs' hmem => h.fits.copies x fileType t fs fs' (hle hmem) }

/-- What holds of all paths below two directories holds of those below their entries. -/
theorem Clear.entry (h : Clear source destination log) (name : Name) :
    Clear (source ++ slash :: name) (destination ++ slash :: name) log where
  seen := h.seen
  opened := h.opened
  fits :=
    { entries := h.fits.entries
      copies := fun x fileType t fs fs' hmem hne => by
        have hfit := h.fits.copies (slash :: name ++ x) fileType t fs fs' (by rwa [← List.append_assoc]) hne
        simpa only [List.append_assoc] using hfit }

theorem Found.mono {path : Path} (h : log ⊆ log') (hp : Found log path) : Found log' path := by
  obtain ⟨fileType, t, fs, fs', hstat⟩ := hp
  exact ⟨fileType, t, fs, fs', h hstat⟩

theorem Processed.mono {src dest : Path} {fileType : FileType} (h : log ⊆ log')
    (hp : Processed method log src dest fileType) : Processed method log' src dest fileType := by
  unfold Processed at hp ⊢
  split_ifs at hp ⊢
  · obtain ⟨names, t, fs, fs', hopened⟩ := hp
    exact ⟨names, t, fs, fs', h hopened⟩
  · obtain ⟨status, t, fs, fs', hdone⟩ := hp
    exact ⟨status, t, fs, fs', h hdone⟩

theorem Examined.nil : Examined method source destination [] := ⟨by simp, by simp⟩

theorem Examined.append (h : Examined method source destination log)
    (h' : Examined method source destination log') : Examined method source destination (log ++ log') where
  listed := by
    intro path names t fs fs' hmem name hname
    rcases List.mem_append.mp hmem with hmem | hmem
    · exact (h.listed path names t fs fs' hmem name hname).mono (List.subset_append_left _ _)
    · exact (h'.listed path names t fs fs' hmem name hname).mono (List.subset_append_right _ _)
  processed := by
    intro path fileType t fs fs' hmem
    rcases List.mem_append.mp hmem with hmem | hmem
    · obtain ⟨x, hx, hp⟩ := h.processed path fileType t fs fs' hmem
      exact ⟨x, hx, hp.mono (List.subset_append_left _ _)⟩
    · obtain ⟨x, hx, hp⟩ := h'.processed path fileType t fs fs' hmem
      exact ⟨x, hx, hp.mono (List.subset_append_right _ _)⟩

theorem Examined.entry {name : Name}
    (h : Examined method (source ++ slash :: name) (destination ++ slash :: name) log) :
    Examined method source destination log where
  listed := h.listed
  processed := by
    intro path fileType t fs fs' hmem
    obtain ⟨x, hx, hp⟩ := h.processed path fileType t fs fs' hmem
    refine ⟨slash :: name ++ x, by simp [hx], ?_⟩
    simpa only [List.append_assoc] using hp

/-- An entry that is examined and then processed below. -/
theorem Examined.cons {x : Path} {fileType : FileType} {t : ℕ} {fs fs' : FS}
    (h : Examined method source destination log)
    (hp : Processed method log (source ++ x) (destination ++ x) fileType) :
    Examined method source destination (⟨.stat (source ++ x), some fileType, t, fs, fs'⟩ :: log) where
  listed := by
    intro path names t fs fs' hmem name hname
    rcases List.mem_cons.mp hmem with hmem | hmem
    · cases hmem
    · exact (h.listed path names t fs fs' hmem name hname).mono (List.subset_cons_self _ _)
  processed := by
    intro path fileType t fs fs' hmem
    rcases List.mem_cons.mp hmem with hmem | hmem
    · cases hmem
      exact ⟨x, rfl, hp.mono (List.subset_cons_self _ _)⟩
    · obtain ⟨y, hy, hp⟩ := h.processed path fileType t fs fs' hmem
      exact ⟨y, hy, hp.mono (List.subset_cons_self _ _)⟩

theorem Sound.append (h : Sound sched log) (h' : Sound sched log') : Sound sched (log ++ log') := by
  intro src dest m status t fs fs' hmem
  rcases List.mem_append.mp hmem with hmem | hmem
  · exact h src dest m status t fs fs' hmem
  · exact h' src dest m status t fs fs' hmem

theorem Short.append (h : Short log) (h' : Short log') : Short (log ++ log') where
  stat := by
    intro path fileType t fs fs' hmem
    rcases List.mem_append.mp hmem with hmem | hmem
    · exact h.stat path fileType t fs fs' hmem
    · exact h'.stat path fileType t fs fs' hmem
  transact := by
    intro src dest m status t fs fs' hmem
    rcases List.mem_append.mp hmem with hmem | hmem
    · exact h.transact src dest m status t fs fs' hmem
    · exact h'.transact src dest m status t fs fs' hmem

end Logs

section Traversal

/-- A traversal of `source`: the number is that of the counted failures, and nothing that can be seen there is
left out. -/
structure Traversed (sched : ℕ → Choice) (method : TransferMethod) (source destination : Path) (noErrors : ℤ)
    (log : DirLog) : Prop where
  exact : noErrors = log.countP counted
  sound : Sound sched log
  short : Short log
  entered : (∃ names t fs fs', ⟨.opendir source, some names, t, fs, fs'⟩ ∈ log) ∨
    ∃ t fs fs', ⟨.opendir source, none, t, fs, fs'⟩ ∈ log
  covered : Clear source destination log → Examined method source destination log

/-- The loop over the entries of `source`, of which `done` are done. -/
structure Underway (sched : ℕ → Choice) (method : TransferMethod) (source destination : Path) (done : List Name)
    (noErrors : ℤ) (log : DirLog) : Prop where
  exact : noErrors = log.countP counted
  sound : Sound sched log
  short : Short log
  covered : Clear source destination log →
    (∀ name ∈ done, ¬ (name = dot ∨ name = dotDot) → (source ++ slash :: name).length < pathSize) →
    Examined method source destination log ∧
      ∀ name ∈ done, ¬ (name = dot ∨ name = dotDot) → Found log (source ++ slash :: name)

variable {sched : ℕ → Choice} {method : TransferMethod} {source destination held : Path} {done : List Name}
  {noErrors noErrors' : ℤ} {log log' : DirLog} {sha256 : Bytes → Bytes} {fuel : ℕ}

theorem Underway.next {name : Name} (h : Underway sched method source destination done noErrors log)
    (hexact : noErrors' = noErrors + log'.countP counted) (hsound : Sound sched log') (hshort : Short log')
    (hcovered : Clear source destination log' →
        (¬ (name = dot ∨ name = dotDot) → (source ++ slash :: name).length < pathSize) →
      Examined method source destination log' ∧
        (¬ (name = dot ∨ name = dotDot) → Found log' (source ++ slash :: name))) :
    Underway sched method source destination (done ++ [name]) noErrors' (log ++ log') where
  exact := by rw [hexact, h.exact, List.countP_append, Nat.cast_add]
  sound := h.sound.append hsound
  short := h.short.append hshort
  covered := by
    intro hclear hfit
    have hleft : log ⊆ log ++ log' := List.subset_append_left _ _
    have hright : log' ⊆ log ++ log' := List.subset_append_right _ _
    obtain ⟨hexamined, hdone⟩ := h.covered (hclear.anti hleft) fun other hother =>
      hfit other (List.mem_append_left _ hother)
    obtain ⟨hexamined', hname⟩ := hcovered (hclear.anti hright) (hfit name (by simp))
    refine ⟨hexamined.append hexamined', fun other hother hdots => ?_⟩
    rcases List.mem_append.mp hother with hother | hother
    · exact (hdone other hother hdots).mono hleft
    · rw [List.mem_singleton.mp hother] at hdots ⊢
      exact (hname hdots).mono hright

/-- A `stat` that finds something other than a directory has found a file. -/
theorem fileAt_of_stat {c : Choice} {path : Path} {fs : FS} {fileType : FileType}
    (h : (exec c (.stat path) fs).1 = some fileType) (hne : fileType ≠ .directory) :
    ∃ i, NoLoss.fileAt fs path = some i := by
  obtain ⟨l, hl, hsome, hdir⟩ := stat_answers h
  rcases hn : fs.node l with _ | _ | i | target
  · exact absurd hn hsome
  · exact absurd (hdir.mp hn) hne
  · exact ⟨i, NoLoss.fileAt_eq.mpr ⟨l, hl, hn⟩⟩
  · exact absurd hn (fs.resolve_not_link hl target)

/-- A file has been handed over to a transaction. -/
theorem Underway.file {name : Name} {t : ℕ} {fs fs' : FS} {status : ℤ}
    (h : Underway sched method source destination done noErrors log) (hheld : Held destination held)
    (hdots : ¬ (name = dot ∨ name = dotDot)) (fileType : FileType) (hne : fileType ≠ .directory)
    (hsound : (status = transactSuccess ↔
        ¬ Refused (fun k => sched (t + 1 + k)) fs (joinPath source name) (joinPath held name)) ∧
      (status = transactSuccess → (Copied fs fs' (joinPath source name) (joinPath held name) ↔
        Delivers (fun k => sched (t + 1 + k)) fs (joinPath source name) (joinPath held name) method))) :
    Underway sched method source destination (done ++ [name])
      (noErrors + if status ≠ transactSuccess then 1 else 0)
      (log ++ [⟨.stat (joinPath source name), some fileType, t, fs, fs⟩,
        ⟨.transact (joinPath source name) (joinPath held name) method, status, t + 1, fs, fs'⟩]) := by
  refine h.next ?_ ?_ ?_ fun hclear hfit => ?_
  · by_cases hdone : status = transactSuccess <;> simp [counted, hdone]
  · intro src dest m status' t' fs₁ fs₂ hmem
    rcases List.mem_cons.mp hmem with hmem | hmem
    · cases hmem
    · cases List.mem_singleton.mp hmem
      exact hsound
  · refine ⟨fun path fileType' t' fs₁ fs₂ hmem => ?_, fun src dest m status' t' fs₁ fs₂ hmem => ?_⟩
    · rcases List.mem_cons.mp hmem with hmem | hmem
      · cases hmem
        exact joinPath_length source name
      · cases List.mem_singleton.mp hmem
    · rcases List.mem_cons.mp hmem with hmem | hmem
      · cases hmem
      · cases List.mem_singleton.mp hmem
        exact joinPath_length held name
  · have hjoin : joinPath source name = source ++ slash :: name := joinPath_eq (hfit hdots)
    rw [hjoin] at hclear ⊢
    have hdest := hclear.fits.copies (slash :: name) fileType t fs fs (List.mem_cons_self ..) hne
    have hjoin' : joinPath held name = destination ++ slash :: name :=
      (hheld.joinPath name).trans (List.take_of_length_le (by omega))
    refine ⟨Examined.cons ⟨by simp, by simp⟩ ?_, fun _ => ⟨fileType, t, fs, fs, List.mem_cons_self ..⟩⟩
    rw [Processed, if_neg hne, hjoin']
    exact ⟨status, t + 1, fs, fs', List.mem_singleton_self _⟩

/-- One entry. -/
theorem processEntry_carries (hsha : ∀ bs, sha256 bs = sha256 [] → bs = [])
    {recurse : Path → Path → DirProg ℤ} (hheld : Held destination held)
    (hrecurse : ∀ src dest dst t fs, Held dest dst → (recurse src dst).Carries exec sched (carriedOut sha256 fuel)
      (fun errors log _ _ => Traversed sched method src dest errors log) t fs)
    (h : Underway sched method source destination done noErrors log) (name : Name) (t : ℕ) (fs : FS) :
    (processEntry dirCalls recurse source held method noErrors name).Carries exec sched (carriedOut sha256 fuel)
      (fun noErrors' log' _ _ =>
        Underway sched method source destination (done ++ [name]) noErrors' (log ++ log')) t fs := by
  by_cases hdots : name = dot ∨ name = dotDot
  · rw [processEntry_dots _ _ _ _ _ _ hdots]
    refine h.next (by simp) (by simp [Sound]) ⟨by simp, by simp⟩ fun _ _ => ⟨.nil, ?_⟩
    exact fun hnot => absurd hdots hnot
  rw [processEntry_eq _ _ _ _ _ _ hdots]
  intro status t₁ fs₁ hstat
  obtain ⟨hstatus, rfl, rfl⟩ : (exec (sched t) (.stat (joinPath source name)) fs).1 = status ∧ t + 1 = t₁ ∧
      fs = fs₁ := by
    cases hstat
    exact ⟨rfl, rfl, rfl⟩
  have hfile (fileType : FileType) (hne : fileType ≠ .directory)
      (hstatus : (exec (sched t) (.stat (joinPath source name)) fs).1 = some fileType) :
      (dirCalls.transact (joinPath source name) (joinPath held name) method >>= fun status =>
        if status ≠ transactSuccess then .ret (noErrors + 1) else .ret noErrors).Carries exec sched
        (carriedOut sha256 fuel) (fun noErrors' log' _ _ => Underway sched method source destination (done ++ [name])
          noErrors' (log ++ ⟨.stat (joinPath source name), some fileType, t, fs, fs⟩ :: log')) (t + 1) fs := by
    intro status t₂ fs₂ htransact
    obtain ⟨i, hi⟩ := fileAt_of_stat hstatus hne
    have hnext := h.file hheld hdots fileType hne (transactTransferFile_copied_iff sha256 hsha hi htransact)
    change Program.Carries _ _ _ _ (if status ≠ transactSuccess then .ret (noErrors + 1) else .ret noErrors) _ _
    split_ifs with hdone
    · rwa [if_pos hdone] at hnext
    · rwa [if_neg hdone, add_zero] at hnext
  have hshort : Short [(⟨.stat (joinPath source name), status, t, fs, fs⟩ : DirCall)] := by
    refine ⟨fun path fileType t fs fs' hmem => ?_, by simp⟩
    cases List.mem_singleton.mp hmem
    exact joinPath_length source name
  have hsound : Sound sched [(⟨.stat (joinPath source name), status, t, fs, fs⟩ : DirCall)] := by simp [Sound]
  rcases status with _ | _ | fileType
  · -- passed over
    refine h.next (by simp [counted]) hsound hshort fun hclear _ => ?_
    exact absurd (List.mem_singleton_self _) (hclear.seen.examined _ t fs fs)
  · refine (hrecurse _ (destination ++ slash :: name) _ _ _ (.inr (hheld.joinPath name))).bind ?_
    intro errors below t₂ fs₂ hbelow
    change Underway sched method source destination (done ++ [name]) (noErrors + errors)
      (log ++ ⟨.stat (joinPath source name), some .directory, t, fs, fs⟩ :: (below ++ []))
    rw [List.append_nil]
    refine h.next (by simp [hbelow.exact, counted]) (hsound.append hbelow.sound) (hshort.append hbelow.short) ?_
    intro hclear hfit
    have hjoin : joinPath source name = source ++ slash :: name := joinPath_eq (hfit hdots)
    have hexamined := hbelow.covered
    have hentered := hbelow.entered
    rw [hjoin] at hclear hexamined hentered ⊢
    have hsub := List.subset_cons_self
      (⟨.stat (source ++ slash :: name), some .directory, t, fs, fs⟩ : DirCall) below
    refine ⟨Examined.cons (hexamined ((hclear.anti hsub).entry name)).entry ?_, fun _ =>
      ⟨.directory, t, fs, fs, List.mem_cons_self ..⟩⟩
    rw [Processed, if_pos rfl]
    rcases hentered with hopened | ⟨t, fs, fs', hunopened⟩
    · exact hopened
    · exact absurd (hsub hunopened) (hclear.opened _ t fs fs')
  · exact hfile .regular (by decide) hstatus
  · exact hfile .symlink (by decide) hstatus

variable (method) in
theorem transferDirectory_carries (hsha : ∀ bs, sha256 bs = sha256 [] → bs = []) (stack : ℕ) :
    ∀ (source destination held : Path) (t : ℕ) (fs : FS), Held destination held →
      (transferDirectory dirCalls stack source held method).Carries exec sched (carriedOut sha256 fuel)
        (fun noErrors log _ _ => Traversed sched method source destination noErrors log) t fs := by
  induction stack with
  | zero => exact fun _ _ _ _ _ _ => trivial
  | succ stack ih =>
    intro source destination held t fs hheld
    rw [transferDirectory_succ]
    intro made t₁ fs₁ _ dir t₂ fs₂ hdir
    have hanswer : (exec (sched t₁) (.opendir source) fs₁).1 = dir := by
      cases hdir
      rfl
    cases dir with
    | none =>
      refine ⟨by simp [counted], by simp [Sound], ⟨by simp, by simp⟩, .inr ⟨t₁, fs₁, fs₂, by simp⟩, ?_⟩
      exact fun hclear => absurd (by simp) (hclear.opened source t₁ fs₁ fs₂)
    | some entries =>
      have hstart : Underway sched method source destination [] 0 [] :=
        ⟨by simp, by simp [Sound], ⟨by simp, by simp⟩, fun _ _ => ⟨.nil, by simp⟩⟩
      refine (Program.Carries.foldlM (I := fun done noErrors log _ =>
        Underway sched method source destination done noErrors log) (fun done name _ _ noErrors log t fs h =>
          processEntry_carries hsha hheld (fun src dest dst t fs hheld => ih src dest dst t fs hheld) h name t fs)
        hstart).mono ?_
      intro noErrors log t₃ fs₃ hdone
      rw [List.nil_append] at hdone
      have hlater : log ⊆ ⟨.mkdir held 0o7, made, t, fs, fs₁⟩ ::
          ⟨.opendir source, some entries, t₁, fs₁, fs₂⟩ :: log :=
        fun call hcall => List.mem_cons_of_mem _ (List.mem_cons_of_mem _ hcall)
      have hlisted : (⟨.opendir source, some entries, t₁, fs₁, fs₂⟩ : DirCall) ∈
          ⟨.mkdir held 0o7, made, t, fs, fs₁⟩ :: ⟨.opendir source, some entries, t₁, fs₁, fs₂⟩ :: log := by simp
      obtain ⟨l, hl, -, hentries⟩ := opendir_answers hanswer
      have hnames : entriesAt fs₁ source = fs₁.names l := by rw [entriesAt, hl]
      refine ⟨by simp [hdone.exact, counted], ?_, ?_, .inl ⟨entries, t₁, fs₁, fs₂, hlisted⟩, ?_⟩
      · have hfirst : Sound sched [⟨.mkdir held 0o7, made, t, fs, fs₁⟩,
            (⟨.opendir source, some entries, t₁, fs₁, fs₂⟩ : DirCall)] := by simp [Sound]
        exact hfirst.append hdone.sound
      · have hfirst : Short [⟨.mkdir held 0o7, made, t, fs, fs₁⟩,
            (⟨.opendir source, some entries, t₁, fs₁, fs₂⟩ : DirCall)] := ⟨by simp, by simp⟩
        exact hfirst.append hdone.short
      intro hclear
      obtain ⟨hexamined, hall⟩ := hdone.covered (hclear.anti hlater) fun name hname hdots =>
        hclear.fits.entries source entries t₁ fs₁ fs₂ hlisted name
          (hnames ▸ fs₁.mem_names.mpr (hentries name hname hdots))
      refine ⟨fun path names t' fs' fs'' hmem name hname => ?_, fun path fileType t' fs' fs'' hmem => ?_⟩
      · rcases List.mem_cons.mp hmem with hmem | hmem
        · cases hmem
        rcases List.mem_cons.mp hmem with hmem | hmem
        · cases hmem
          have hvalid := fs₁.node_valid (fs₁.mem_names.mp (hnames ▸ hname))
          have hin := hclear.seen.listed source entries t₁ fs₁ fs₂ hlisted hname
          exact (hall name hin (not_or.mpr hvalid.1.2)).mono hlater
        · exact (hexamined.listed path names t' fs' fs'' hmem name hname).mono hlater
      · rcases List.mem_cons.mp hmem with hmem | hmem
        · cases hmem
        rcases List.mem_cons.mp hmem with hmem | hmem
        · cases hmem
        · obtain ⟨x, hx, hp⟩ := hexamined.processed path fileType t' fs' fs'' hmem
          exact ⟨x, hx, hp.mono hlater⟩

end Traversal

section Claim

variable {sched : ℕ → Choice} {method : TransferMethod} {source destination : Path} {noErrors : ℤ}
  {sha256 : Bytes → Bytes} {fuel stack : ℕ} {fs : FS}

/-- The calls of a run of `transfer_directory`. -/
def dirLog (sha256 : Bytes → Bytes) (fuel stack : ℕ) (source destination : Path) (method : TransferMethod)
    (sched : ℕ → Choice) (fs : FS) : DirLog :=
  (transferDirectory dirCalls stack source destination method).carried exec sched (carriedOut sha256 fuel) 0 fs

/-- Nothing that is counted has failed exactly where nothing stops the traversal. -/
theorem counted_eq_zero_iff {log : DirLog} (h : Sound sched log) : log.countP counted = 0 ↔ ¬ Stopped sched log := by
  rw [List.countP_eq_zero]
  constructor
  · rintro hnone (⟨path, t, fs, fs', hmem⟩ | ⟨src, dest, m, status, t, fs, fs', hmem, hrefused⟩)
    · exact hnone _ hmem rfl
    · have hstatus : status ≠ transactSuccess := fun hs => (h _ _ _ _ _ _ _ hmem).1.mp hs hrefused
      exact hnone _ hmem (by simp [counted, hstatus])
  · rintro hstopped ⟨_ | path | _ | ⟨src, dest, m⟩, answer, t, fs, fs'⟩ hmem hcounted
    · cases hcounted
    · obtain rfl := Option.isNone_iff_eq_none.mp hcounted
      exact hstopped (.inl ⟨path, t, fs, fs', hmem⟩)
    · cases hcounted
    · refine hstopped (.inr ⟨src, dest, m, answer, t, fs, fs', hmem, ?_⟩)
      by_contra hnot
      have hstatus : answer = transactSuccess := (h _ _ _ _ _ _ _ hmem).1.mpr hnot
      simp [counted, hstatus] at hcounted

/-- Where no entry is overlooked, only the counted failures leave one unprocessed, and conversely. -/
theorem unprocessed_eq_iff (log : DirLog) : unprocessed log = log.countP counted ↔ Seen log := by
  have hfailed := countP_failed log
  rw [unprocessed, hfailed]
  have hsum : log.countP counted + log.countP passedOver + (log.map unlisted).sum = log.countP counted ↔
      log.countP passedOver = 0 ∧ (log.map unlisted).sum = 0 := by omega
  rw [hsum, List.countP_eq_zero, List.sum_eq_zero_iff]
  constructor
  · rintro ⟨hpassed, hlisted⟩
    refine ⟨fun path t fs fs' hmem => hpassed _ hmem rfl, fun path names t fs fs' hmem name hname => ?_⟩
    have hzero := hlisted _ (List.mem_map_of_mem hmem)
    rw [unlisted, List.countP_eq_zero] at hzero
    simpa using hzero name hname
  · intro hseen
    constructor
    · rintro ⟨_ | _ | path | _, answer, t, fs, fs'⟩ hmem hpassed
      · cases hpassed
      · cases hpassed
      · obtain rfl := Option.isNone_iff_eq_none.mp hpassed
        exact hseen.examined path t fs fs' hmem
      · cases hpassed
    · intro n hn
      obtain ⟨⟨_ | path | _ | _, answer, t, fs, fs'⟩, hmem, rfl⟩ := List.mem_map.mp hn
      · rfl
      · cases answer with
        | none => rfl
        | some names =>
          rw [unlisted, List.countP_eq_zero]
          intro name hname
          simpa using hseen.listed path names t fs fs' hmem hname
      · rfl
      · rfl

variable (sha256) in
/-- The number is exact where no entry is overlooked, and either it is not zero, or all paths fit their
buffers and all copies arrive. -/
theorem transferDirectory_exactCount_iff (hsha : ∀ bs, sha256 bs = sha256 [] → bs = [])
    (hreturns : (run exec sched (transferDirectory (systemCalls sha256 fuel) stack source destination method) 0
      fs).result = some noErrors) :
    let log := dirLog sha256 fuel stack source destination method sched fs
    ExactCount method source destination noErrors log ↔
      Seen log ∧ (Stopped sched log ∨ Fits source destination log ∧ Delivered sched log) := by
  intro log
  rw [← interpret_transferDirectory] at hreturns
  have htraversed : Traversed sched method source destination noErrors log :=
    (transferDirectory_carries method hsha stack source destination destination 0 fs (.inl rfl)).run hreturns
  have hstopped := counted_eq_zero_iff htraversed.sound
  have hzero : noErrors = 0 ↔ log.countP counted = 0 := by
    rw [htraversed.exact, Nat.cast_eq_zero]
  rw [ExactCount, htraversed.exact, Nat.cast_inj, eq_comm, unprocessed_eq_iff, Nat.cast_eq_zero, hstopped]
  refine and_congr_right fun hseen => ?_
  rw [← imp_iff_not_or.trans (by rw [not_not] : _ ↔ Stopped sched log ∨ _)]
  refine imp_congr_right fun hgoes => ?_
  have hcopied (src dest : Path) (m : TransferMethod) (status : ℤ) (t : ℕ) (fs fs' : FS)
      (hmem : (⟨.transact src dest m, status, t, fs, fs'⟩ : DirCall) ∈ log) :
      Copied fs fs' src dest ↔ Delivers (fun k => sched (t + k)) fs src dest m := by
    obtain ⟨hstatus, hcopied⟩ := htraversed.sound src dest m status t fs fs' hmem
    exact hcopied (hstatus.mpr fun hrefused => hgoes (.inr ⟨src, dest, m, status, t, fs, fs', hmem, hrefused⟩))
  have hopened (path : Path) (t : ℕ) (fs fs' : FS) : (⟨.opendir path, none, t, fs, fs'⟩ : DirCall) ∉ log :=
    fun hmem => hgoes (.inl ⟨path, t, fs, fs', hmem⟩)
  constructor
  · intro hcovered
    refine ⟨⟨fun path names t fs fs' hmem name hname => ?_, fun x fileType t fs fs' hmem hne => ?_⟩, ?_⟩
    · obtain ⟨fileType, t, fs, fs', hstat⟩ := hcovered.examined.listed path names t fs fs' hmem name hname
      exact htraversed.short.stat _ _ t fs fs' hstat
    · obtain ⟨y, hy, hp⟩ := hcovered.examined.processed _ fileType t fs fs' hmem
      obtain rfl := List.append_cancel_left hy
      rw [Processed, if_neg hne] at hp
      obtain ⟨status, t, fs, fs', hdone⟩ := hp
      exact htraversed.short.transact _ _ _ _ t fs fs' hdone
    · exact fun src dest m status t fs fs' hmem =>
        (hcopied src dest m status t fs fs' hmem).mp (hcovered.copied src dest m status t fs fs' hmem)
  · rintro ⟨hfits, hdelivered⟩
    refine ⟨htraversed.entered.resolve_right ?_, htraversed.covered ⟨hseen, hopened, hfits⟩, ?_⟩
    · rintro ⟨t, fs, fs', hmem⟩
      exact hopened source t fs fs' hmem
    · exact fun src dest m status t fs fs' hmem =>
        (hcopied src dest m status t fs fs' hmem).mpr (hdelivered src dest m status t fs fs' hmem)

end Claim


/-- Two calls fail: the `mkdir` and the `stat` of the one report. -/
def unexamined (t : ℕ) : Choice :=
  if t = 0 ∨ t = 2 then ⟨true, 0, 0, id, fun names => List.Perm.refl names⟩ else Choice.plain

/-- No error is reported, and the report is not in the backup. -/
theorem not_exactCount_unexamined :
    (run exec unexamined (transferDirectory (systemCalls id 2) 1 Directories.Directory.reports.path
      Directories.Directory.dashboard.path .backup) 0 Directories.sample).result = some 0 ∧
    ¬ ExactCount .backup Directories.Directory.reports.path Directories.Directory.dashboard.path 0
      (dirLog id 2 1 Directories.Directory.reports.path Directories.Directory.dashboard.path .backup unexamined
        Directories.sample) := by
  have hlost : unprocessed (dirLog id 2 1 Directories.Directory.reports.path Directories.Directory.dashboard.path
      .backup unexamined Directories.sample) = 1 := by decide +kernel
  refine ⟨by decide +kernel, fun h => ?_⟩
  have hexact := h.1
  rw [hlost] at hexact
  exact absurd hexact (by decide)

/-- The one report is empty, so that a backup of it succeeds. -/
def emptied : FS := Directories.sample.write 0 []

theorem transferDirectory_exactCount_emptied :
    let log := dirLog id 2 1 Directories.Directory.reports.path Directories.Directory.dashboard.path .backup
      (fun _ => Choice.plain) emptied
    ExactCount .backup Directories.Directory.reports.path Directories.Directory.dashboard.path 0 log ↔
      Seen log ∧ (Stopped (fun _ => Choice.plain) log ∨ Fits Directories.Directory.reports.path
        Directories.Directory.dashboard.path log ∧ Delivered (fun _ => Choice.plain) log) :=
  transferDirectory_exactCount_iff id (fun _ h => h) (by decide +kernel)

end Reportman.ErrorCount
