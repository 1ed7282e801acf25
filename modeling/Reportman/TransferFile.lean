import Mathlib
import Reportman.Footprint

/-!
# Moving one file

`transact_transfer_file` with `verify_files` and `hash_file`, and what they do when no call fails:
the destination ends with the content of the source, and a `TRANSFER` removes the source exactly
when its digest is that of the empty string. The destination is opened `"wb"`, so `hash_file` reads
nothing from it and every digest is compared with the empty one.
-/
namespace Reportman.TransferFile
open Resumable FileSystem

inductive TransferMethod
  | backup
  | transfer
  deriving DecidableEq

def transactSuccess : ℤ := 0
def transactErrOpen : ℤ := -1
def transactHashFailed : ℤ := -2

/-- `char buffer[1024]`. -/
def bufferSize : ℕ := 1024

def call (op : Sys) : Prog op.Res := Program.perform op

/-- `while ((bytes = fread(...)) > 0) fwrite(...)`; the results of the writes are not looked at. -/
def copyLoop : ℕ → FILE → FILE → Prog (FILE × FILE)
  | 0, _, _ => .halt
  | fuel + 1, source, dest => do
      let (buffer, source) ← call (.fread bufferSize source)
      if buffer.length > 0 then do
        let (_, dest) ← call (.fwrite buffer dest)
        copyLoop fuel source dest
      else return (source, dest)

/-- The bytes that reach `SHA256_Update`, after those in `seen`. -/
def hashLoop : ℕ → FILE → Bytes → Prog (Bytes × FILE)
  | 0, _, _ => .halt
  | fuel + 1, source, seen => do
      let (buffer, source) ← call (.fread bufferSize source)
      if buffer.length ≠ 0 then hashLoop fuel source (seen ++ buffer)
      else return (seen, source)

theorem copyLoop_succ (fuel : ℕ) (source dest : FILE) :
    copyLoop (fuel + 1) source dest = .call (.fread bufferSize source) fun r =>
      if r.1.length > 0 then .call (.fwrite r.1 dest) fun w => copyLoop fuel r.2 w.2
      else .ret (r.2, dest) := rfl

theorem hashLoop_succ (fuel : ℕ) (source : FILE) (seen : Bytes) :
    hashLoop (fuel + 1) source seen = .call (.fread bufferSize source) fun r =>
      if r.1.length ≠ 0 then hashLoop fuel r.2 (seen ++ r.1) else .ret (seen, r.2) := rfl

section Source

-- `sha256` stands for the digest of all bytes given to one context.
variable (sha256 : Bytes → Bytes) (fuel : ℕ)

/-- A failing `fseek` is only logged. -/
def hashFile (source : FILE) : Prog (Bytes × FILE) := do
  let (_, source) ← call (.fseek source)
  let (seen, source) ← hashLoop fuel source []
  return (sha256 seen, source)

def verifyFiles (source dest : FILE) : Prog (ℤ × FILE × FILE) := do
  let (sourceHash, source) ← hashFile sha256 fuel source
  let (destHash, dest) ← hashFile sha256 fuel dest
  if sourceHash = destHash then return (0, source, dest) else return (-1, source, dest)

def transactTransferFile (sourcePath destPath : Path) (method : TransferMethod) : Prog ℤ := do
  match ← call (.fopen sourcePath .rb) with
  | none => return transactErrOpen
  | some source =>
      match ← call (.fopen destPath .wb) with
      | none =>
          let _ ← call (.fclose source)
          return transactErrOpen
      | some dest =>
          let (source, dest) ← copyLoop fuel source dest
          let (verdict, source, dest) ← verifyFiles sha256 fuel source dest
          if verdict < 0 then
            let _ ← call (.fclose dest)
            let _ ← call (.fclose source)
            return transactHashFailed
          else
            let _ ← call (.fclose dest)
            let _ ← call (.fclose source)
            match method with
            | .transfer =>
                let _ ← call (.remove sourcePath)
                return transactSuccess
            | .backup => return transactSuccess

theorem hashFile_eq (source : FILE) :
    hashFile sha256 fuel source = .call (.fseek source) fun r =>
      hashLoop fuel r.2 [] >>= fun h => .ret (sha256 h.1, h.2) := rfl

theorem verifyFiles_eq (source dest : FILE) :
    verifyFiles sha256 fuel source dest =
      hashFile sha256 fuel source >>= fun s => hashFile sha256 fuel dest >>= fun d =>
        if s.1 = d.1 then .ret (0, s.2, d.2) else .ret (-1, s.2, d.2) := rfl

/-- What follows the verification. -/
def finish (sourcePath : Path) (method : TransferMethod) (v : ℤ × FILE × FILE) : Prog ℤ :=
  .call (.fclose v.2.2) fun _ => .call (.fclose v.2.1) fun _ =>
    if v.1 < 0 then .ret transactHashFailed
    else match method with
      | .transfer => .call (.remove sourcePath) fun _ => .ret transactSuccess
      | .backup => .ret transactSuccess

theorem transactTransferFile_eq (sourcePath destPath : Path) (method : TransferMethod) :
    transactTransferFile sha256 fuel sourcePath destPath method =
      .call (.fopen sourcePath .rb) fun source =>
        match source with
        | none => .ret transactErrOpen
        | some source => .call (.fopen destPath .wb) fun dest =>
            match dest with
            | none => .call (.fclose source) fun _ => .ret transactErrOpen
            | some dest => copyLoop fuel source dest >>= fun s =>
                verifyFiles sha256 fuel s.1 s.2 >>= finish sourcePath method := by
  unfold transactTransferFile call
  simp only [Program.perform_bind]
  refine congrArg (Program.call _) (funext fun source => ?_)
  rcases source with _ | source
  · rfl
  refine congrArg (Program.call (Sys.fopen destPath .wb)) (funext fun dest => ?_)
  rcases dest with _ | dest
  · rfl
  refine congrArg (copyLoop fuel source dest >>= ·) (funext fun s => ?_)
  refine congrArg (verifyFiles sha256 fuel s.1 s.2 >>= ·) (funext fun v => ?_)
  unfold finish
  split_ifs <;> cases method <;> rfl

/-- More fuel only carries the loops further. -/
theorem copyLoop_cut {fuel fuel' : ℕ} (hle : fuel ≤ fuel') (source dest : FILE) :
    Program.Cut (copyLoop fuel source dest) (copyLoop fuel' source dest) := by
  induction fuel generalizing fuel' source dest with
  | zero => exact .halt _
  | succ fuel ih =>
    obtain ⟨fuel', rfl⟩ : ∃ k, fuel' = k + 1 := ⟨fuel' - 1, by omega⟩
    rw [copyLoop_succ, copyLoop_succ]
    refine .call fun r => ?_
    split_ifs
    · exact .call fun w => ih (by omega) _ _
    · exact .refl _

theorem hashLoop_cut {fuel fuel' : ℕ} (hle : fuel ≤ fuel') (source : FILE) (seen : Bytes) :
    Program.Cut (hashLoop fuel source seen) (hashLoop fuel' source seen) := by
  induction fuel generalizing fuel' source seen with
  | zero => exact .halt _
  | succ fuel ih =>
    obtain ⟨fuel', rfl⟩ : ∃ k, fuel' = k + 1 := ⟨fuel' - 1, by omega⟩
    rw [hashLoop_succ, hashLoop_succ]
    refine .call fun r => ?_
    split_ifs
    · exact ih (by omega) _ _
    · exact .refl _

theorem verifyFiles_cut {fuel fuel' : ℕ} (hle : fuel ≤ fuel') (source dest : FILE) :
    Program.Cut (verifyFiles sha256 fuel source dest) (verifyFiles sha256 fuel' source dest) := by
  have hhash (file : FILE) : Program.Cut (hashFile sha256 fuel file) (hashFile sha256 fuel' file) :=
    .call fun r => (hashLoop_cut hle r.2 []).bind fun _ => .refl _
  rw [verifyFiles_eq, verifyFiles_eq]
  exact (hhash source).bind fun s => (hhash dest).bind fun d => .refl _

theorem transactTransferFile_cut {fuel fuel' : ℕ} (hle : fuel ≤ fuel') (sourcePath destPath : Path)
    (method : TransferMethod) : Program.Cut (transactTransferFile sha256 fuel sourcePath destPath method)
      (transactTransferFile sha256 fuel' sourcePath destPath method) := by
  rw [transactTransferFile_eq, transactTransferFile_eq]
  refine .call fun source => ?_
  cases source with
  | none => exact .refl _
  | some source =>
    refine .call fun dest => ?_
    cases dest with
    | none => exact .refl _
    | some dest =>
      exact (copyLoop_cut hle source dest).bind fun s => (verifyFiles_cut sha256 hle s.1 s.2).bind fun _ => .refl _

end Source

/-- Whether `transact_transfer_file` takes a source with this content away: it compares the digest
of what it re-read with the digest of nothing. -/
def gone (sha256 : Bytes → Bytes) (c : Bytes) : Bool := sha256 c = sha256 []

section CleanCalls

variable {c : Choice} {fs : FS}

theorem exec_fread (hc : c.clean) (f : FILE) (n : ℕ) :
    exec c (.fread n f) fs = ((f.read fs n, { f with pos := f.pos + (f.read fs n).length }), fs) := by
  have hlen : (f.read fs n).take n = f.read fs n := by
    rw [List.take_eq_self_iff]
    unfold FILE.read
    split <;> simp
  rw [Choice.clean] at hc
  simp only [exec, hc, Bool.false_eq_true, ↓reduceIte, hlen]

@[simp] theorem write_self (i : ℕ) : fs.write i (fs.data i) = fs := by
  simp [FS.write]

theorem overwrite_end (data bs : Bytes) : overwrite data data.length bs = data ++ bs := by
  simp [overwrite]

/-- Flushing at the end of the file appends. -/
theorem flush_eq (c : Choice) {f : FILE} {j : ℕ} (hj : f.ino = some j) (hp : f.pos = (fs.data j).length)
    (k : ℕ) : f.flush c fs k = ({ f with
        pos := f.pos + (f.pending.take k).length
        pending := if c.fails then [] else f.pending.drop k },
      fs.write j (fs.data j ++ f.pending.take k)) := by
  unfold FILE.flush
  rw [hj]
  dsimp only
  by_cases h : f.pending.take k = []
  · rw [if_pos h, h, List.append_nil, write_self, List.length_nil, Nat.add_zero]
  · rw [if_neg h, hp, overwrite_end]

/-- Nothing pending, nothing to flush. -/
theorem flush_nil {f : FILE} (h : f.pending = []) (c : Choice) (k : ℕ) : f.flush c fs k = (f, fs) := by
  obtain ⟨ino, mode, pos, pending⟩ := f
  obtain rfl : pending = [] := h
  unfold FILE.flush
  cases ino <;> simp

theorem exec_fwrite (hc : c.clean) {f : FILE} (hf : f.mode = .wb) (buffer : Bytes) :
    exec c (.fwrite buffer f) fs =
      let out := FILE.flush c { f with pending := f.pending ++ buffer } fs c.early
      ((buffer.length, out.1), out.2) := by
  rw [Choice.clean] at hc
  simp only [exec, hf, hc, Bool.false_eq_true, ↓reduceIte]

theorem exec_fclose_nil (f : FILE) (h : f.pending = []) : (exec c (.fclose f) fs).2 = fs := by
  simp [exec, flush_nil h]

theorem exec_fseek_nil (hc : c.clean) (f : FILE) (h : f.pending = []) :
    exec c (.fseek f) fs = ((0, { f with pos := 0 }), fs) := by
  rw [Choice.clean] at hc
  simp [exec, flush_nil h, hc]

end CleanCalls

/-- A copy under way: the source still has its content `c`, the destination stands at `ld` as inode
`j`, and the rest of the footprint is as it was in `fs₀`. No file in `D`, where the destination is,
has another name in the footprint. -/
structure Copying (D F : Loc → Prop) (fs₀ : FS) (ls ld : Loc) (i j : ℕ) (c : Bytes) (fs : FS) :
    Prop where
  part : ∀ l, D l → F l
  target : D ld
  frame : Keeps (fun l => F l ∧ l ≠ ld) fs₀ fs
  sole : Sole D F fs
  source : fs.node ls = some (.file i)
  content : fs.data i = c
  dest : fs.node ld = some (.file j)

/-- The stream has taken `got`, part of it perhaps still pending. -/
structure Took (j : ℕ) (got : Bytes) (f : FILE) (fs : FS) : Prop where
  ino : f.ino = some j
  mode : f.mode = .wb
  pos : f.pos = (fs.data j).length
  got : fs.data j ++ f.pending = got

section Copying

variable {D F W : Loc → Prop} {fs₀ fs fs' : FS} {ls ld : Loc} {i j : ℕ} {c : Bytes}

theorem Copying.stable (h : Copying D F fs₀ ls ld i j c fs) (hls : F ls) (hld : F ld)
    (hr : Keeps F fs fs') : Copying D F fs₀ ls ld i j c fs' where
  part := h.part
  target := h.target
  frame := h.frame.trans (hr.mono fun _ hl => hl.1)
  sole := hr.sole h.part h.sole
  source := by rw [hr.node ls hls, h.source]
  content := by rw [hr.data ls i hls h.source, h.content]
  dest := by rw [hr.node ld hld, h.dest]

theorem Took.stable {got : Bytes} {f : FILE} (h : Took j got f fs) (hld : F ld)
    (hd : fs.node ld = some (.file j)) (hr : Keeps F fs fs') : Took j got f fs' where
  ino := h.ino
  mode := h.mode
  pos := by rw [hr.data ld j hld hd, h.pos]
  got := by rw [hr.data ld j hld hd, h.got]

/-- The two files of a copy are different files. -/
theorem Copying.ne (h : Copying D F fs₀ ls ld i j c fs) (hls : F ls) (hne : ld ≠ ls) : i ≠ j := by
  rintro rfl
  exact hne (h.sole ld ls i h.target hls h.dest h.source).symm

theorem Copying.write (h : Copying D F fs₀ ls ld i j c fs) (hls : F ls) (hne : ld ≠ ls)
    (content : Bytes) : Copying D F fs₀ ls ld i j c (fs.write j content) where
  part := h.part
  target := h.target
  frame := h.frame.trans <| keeps_write fun l hl hj =>
    hl.2 (h.sole ld l j h.target hl.1 h.dest hj)
  sole := h.sole
  source := h.source
  content := by rw [FS.data_write, Function.update_of_ne (h.ne hls hne), h.content]
  dest := h.dest

theorem Took.flush {got : Bytes} {f : FILE} (h : Took j got f fs) {ch : Choice} (hch : ch.clean) (k : ℕ) :
    Took j got (f.flush ch fs k).1 (f.flush ch fs k).2 := by
  rw [Choice.clean] at hch
  rw [flush_eq ch h.ino h.pos, hch]
  constructor
  · exact h.ino
  · exact h.mode
  · simp [h.pos]
  · simp [List.append_assoc, h.got]

theorem Copying.flush {got : Bytes} {f : FILE} (h : Copying D F fs₀ ls ld i j c fs)
    (ht : Took j got f fs) (hls : F ls) (hne : ld ≠ ls) (ch : Choice) (k : ℕ) :
    Copying D F fs₀ ls ld i j c (f.flush ch fs k).2 := by
  rw [flush_eq ch ht.ino ht.pos]
  exact h.write hls hne _

theorem Took.within {got : Bytes} {f : FILE} (ht : Took j got f fs) (hw : W ld)
    (hd : fs.node ld = some (.file j)) (ch : Choice) (k : ℕ) : Within W fs (f.flush ch fs k).2 := by
  rw [flush_eq ch ht.ino ht.pos]
  exact within_write hw hd

theorem read_source (h : Copying D F fs₀ ls ld i j c fs) (pos n : ℕ) :
    FILE.read ⟨some i, .rb, pos, []⟩ fs n = (c.drop pos).take n := by
  simp [FILE.read, h.content]

/-- The copy loop takes everything from `pos` on. -/
theorem copyLoop_meets (hls : F ls) (hld : F ld) (hw : W ld) (hne : ld ≠ ls) (fuel : ℕ) :
    ∀ (pos : ℕ) (dest : FILE) (fs : FS), pos ≤ c.length → c.length - pos < fuel →
      Copying D F fs₀ ls ld i j c fs → Took j (c.take pos) dest fs →
      (terms F W).Meets (Terms.Returns fun r fs' => Copying D F fs₀ ls ld i j c fs' ∧
          Took j c r.2 fs' ∧ r.1 = ⟨some i, .rb, c.length, []⟩)
        (copyLoop fuel ⟨some i, .rb, pos, []⟩ dest) fs := by
  induction fuel with
  | zero => intro pos dest fs _ hf; omega
  | succ fuel ih =>
    intro pos dest fs hpos hfuel h ht
    rw [copyLoop_succ]
    refine Terms.Meets.call fun fs₁ hr₁ ch₁ hc₁ => ?_
    have h₁ := h.stable hls hld hr₁
    have ht₁ := ht.stable hld h.dest hr₁
    refine ⟨_, _, exec_fread hc₁ _ _, Within.refl W fs₁, ?_⟩
    dsimp only
    rw [read_source h₁]
    have hlen : ((c.drop pos).take bufferSize).length = min bufferSize (c.length - pos) := by simp
    by_cases hend : pos = c.length
    · -- end of file: the loop stops
      rw [if_neg (by rw [hlen]; omega)]
      refine Terms.Meets.ret fun fs₂ hr₂ => ⟨h₁.stable hls hld hr₂, ?_, by simp [hend]⟩
      simpa [hend] using ht₁.stable hld h₁.dest hr₂
    · rw [if_pos (by rw [hlen, bufferSize]; omega)]
      refine Terms.Meets.call fun fs₂ hr₂ ch₂ hc₂ => ?_
      have h₂ := h₁.stable hls hld hr₂
      have ht₂ := ht₁.stable hld h₁.dest hr₂
      have hmore : Took j (c.take (pos + ((c.drop pos).take bufferSize).length))
          { dest with pending := dest.pending ++ (c.drop pos).take bufferSize } fs₂ := by
        refine ⟨ht₂.ino, ht₂.mode, ht₂.pos, ?_⟩
        rw [← List.append_assoc, ht₂.got, List.take_add, hlen]
        simp [List.take_eq_take_iff]
      refine ⟨_, _, exec_fwrite hc₂ ht₂.mode _, hmore.within hw h₂.dest _ _, ?_⟩
      refine ih _ _ _ ?_ ?_ (h₂.flush hmore hls hne _ _) (hmore.flush hc₂ _)
      · omega
      · rw [hlen, bufferSize]; omega

/-- Hashing a readable stream gives all bytes from `pos` on. -/
theorem hashLoop_meets_rb {I : FS → Prop} (hI : ∀ fs fs', I fs → Keeps F fs fs' → I fs')
    (hd : ∀ fs, I fs → fs.data i = c) (fuel : ℕ) :
    ∀ (pos : ℕ) (seen : Bytes) (fs : FS), pos ≤ c.length → c.length - pos < fuel → I fs →
      (terms F W).Meets (Terms.Returns fun r fs' => I fs' ∧ r.1 = seen ++ c.drop pos ∧
          r.2 = ⟨some i, .rb, c.length, []⟩)
        (hashLoop fuel ⟨some i, .rb, pos, []⟩ seen) fs := by
  induction fuel with
  | zero => intro pos seen fs _ hf; omega
  | succ fuel ih =>
    intro pos seen fs hpos hfuel h
    rw [hashLoop_succ]
    refine Terms.Meets.call fun fs₁ hr₁ ch₁ hc₁ => ?_
    have h₁ := hI _ _ h hr₁
    refine ⟨_, _, exec_fread hc₁ _ _, Within.refl W fs₁, ?_⟩
    have hread : FILE.read ⟨some i, .rb, pos, []⟩ fs₁ bufferSize = (c.drop pos).take bufferSize := by
      simp [FILE.read, hd fs₁ h₁]
    dsimp only
    rw [hread]
    have hlen : ((c.drop pos).take bufferSize).length = min bufferSize (c.length - pos) := by simp
    by_cases hend : pos = c.length
    · rw [if_neg (by rw [hlen]; omega)]
      exact Terms.Meets.ret fun fs₂ hr₂ => ⟨hI _ _ h₁ hr₂, by simp [hend], by simp [hend]⟩
    · rw [if_pos (by rw [hlen, bufferSize]; omega)]
      refine (ih _ _ _ (by omega) (by rw [hlen, bufferSize]; omega) h₁).mono ?_
      rintro (_ | r) fs' hr
      · exact hr.elim
      · refine ⟨hr.1, ?_, hr.2.2⟩
        rw [hr.2.1, hlen, List.append_assoc, List.append_cancel_left_eq]
        conv_rhs => rw [← List.take_append_drop bufferSize (c.drop pos), List.drop_drop]
        congr 1
        rw [List.drop_eq_drop_iff]
        omega

/-- Hashing a stream opened `"wb"` gives nothing: the first `fread` fails. -/
theorem hashLoop_meets_wb {I : FS → Prop} (hI : ∀ fs fs', I fs → Keeps F fs fs' → I fs')
    {fuel : ℕ} (hfuel : 0 < fuel) {f : FILE} (hf : f.mode = .wb) (seen : Bytes) {fs : FS}
    (h : I fs) :
    (terms F W).Meets (Terms.Returns fun r fs' => I fs' ∧ r = (seen, f)) (hashLoop fuel f seen) fs := by
  obtain ⟨fuel, rfl⟩ := Nat.exists_eq_succ_of_ne_zero hfuel.ne'
  rw [hashLoop_succ]
  refine Terms.Meets.call fun fs₁ hr₁ ch₁ hc₁ => ?_
  refine ⟨_, _, exec_fread hc₁ _ _, Within.refl W fs₁, ?_⟩
  have hread : FILE.read f fs₁ bufferSize = [] := by simp [FILE.read, hf]
  dsimp only
  rw [hread, if_neg (by simp)]
  exact Terms.Meets.ret fun fs₂ hr₂ => ⟨hI _ _ (hI _ _ h hr₁) hr₂, rfl⟩

theorem hashFile_meets_rb {I : FS → Prop} (hI : ∀ fs fs', I fs → Keeps F fs fs' → I fs')
    (hd : ∀ fs, I fs → fs.data i = c) (sha256 : Bytes → Bytes) {fuel : ℕ} (hfuel : c.length < fuel)
    (pos : ℕ) {fs : FS} (h : I fs) :
    (terms F W).Meets (Terms.Returns fun r fs' => I fs' ∧ r = (sha256 c, ⟨some i, .rb, c.length, []⟩))
      (hashFile sha256 fuel ⟨some i, .rb, pos, []⟩) fs := by
  rw [hashFile_eq]
  refine Terms.Meets.call fun fs₁ hr₁ ch₁ hc₁ => ?_
  refine ⟨_, _, exec_fseek_nil hc₁ _ rfl, Within.refl W fs₁, ?_⟩
  refine Terms.Meets.bind_returns
    (hashLoop_meets_rb hI hd fuel 0 [] fs₁ (Nat.zero_le _) (by omega) (hI _ _ h hr₁)) ?_
  rintro ⟨seen, f⟩ fs' ⟨h', hseen, hf⟩
  refine Terms.Meets.ret fun fs₂ hr₂ => ⟨hI _ _ h' hr₂, ?_⟩
  simp only [List.drop_zero, List.nil_append] at hseen hf
  rw [hseen, hf]

/-- `fseek` flushes the destination; nothing comes back from it. -/
theorem hashFile_meets_wb (hls : F ls) (hld : F ld) (hw : W ld) (hne : ld ≠ ls)
    (sha256 : Bytes → Bytes) {fuel : ℕ} (hfuel : 0 < fuel) {dest : FILE} {fs : FS}
    (h : Copying D F fs₀ ls ld i j c fs) (ht : Took j c dest fs) :
    (terms F W).Meets (Terms.Returns fun r fs' => (Copying D F fs₀ ls ld i j c fs' ∧ fs'.data j = c) ∧
        r.1 = sha256 [] ∧ r.2.pending = [])
      (hashFile sha256 fuel dest) fs := by
  rw [hashFile_eq]
  refine Terms.Meets.call fun fs₁ hr₁ ch₁ hc₁ => ?_
  have h₁ := h.stable hls hld hr₁
  have ht₁ := ht.stable hld h.dest hr₁
  have hc : ch₁.fails = false := hc₁
  have he : exec ch₁ (.fseek dest) fs₁ =
      ((0, { dest with pos := 0, pending := [] }), fs₁.write j c) := by
    simp [exec, Choice.flushed, hc, flush_eq ch₁ ht₁.ino ht₁.pos, ht₁.got]
  refine ⟨_, _, he, within_write hw h₁.dest, ?_⟩
  have hI : ∀ fs fs' : FS, (Copying D F fs₀ ls ld i j c fs ∧ fs.data j = c) → Keeps F fs fs' →
      (Copying D F fs₀ ls ld i j c fs' ∧ fs'.data j = c) := fun fs fs' h hr =>
    ⟨h.1.stable hls hld hr, by rw [hr.data ld j hld h.1.dest, h.2]⟩
  have h₂ : Copying D F fs₀ ls ld i j c (fs₁.write j c) ∧ (fs₁.write j c).data j = c :=
    ⟨h₁.write hls hne c, by simp⟩
  refine Terms.Meets.bind_returns
    (hashLoop_meets_wb hI hfuel (f := { dest with pos := 0, pending := [] }) ht₁.mode [] h₂) ?_
  rintro ⟨seen, f⟩ fs' ⟨h', hr⟩
  cases hr
  exact Terms.Meets.ret fun fs₂ hr₂ => ⟨hI _ _ h' hr₂, rfl, rfl⟩

end Copying

/-- What a fault-free transaction into an openable destination leaves behind. -/
structure Landed (D F : Loc → Prop) (fs₀ : FS) (ls ld : Loc) (c : Bytes) (removed : Bool) (fs : FS) :
    Prop where
  part : ∀ l, D l → F l
  frame : Keeps (fun l => F l ∧ l ≠ ld ∧ (removed = true → l ≠ ls)) fs₀ fs
  sole : Sole D F fs
  dest : fs.entry ld = some (.file c)
  source : removed = true → fs.node ls = none

/-- Whether the transaction takes its source away. -/
def removes (sha256 : Bytes → Bytes) (method : TransferMethod) (c : Bytes) : Bool :=
  method = .transfer && gone sha256 c

section Transaction

variable {D F W : Loc → Prop} {fs₀ fs fs' : FS} {ls ld : Loc} {i j : ℕ} {c : Bytes}

theorem Landed.stable {removed : Bool} (h : Landed D F fs₀ ls ld c removed fs) (hls : F ls)
    (hld : F ld) (hr : Keeps F fs fs') : Landed D F fs₀ ls ld c removed fs' where
  part := h.part
  frame := h.frame.trans (hr.mono fun _ hl => hl.1)
  sole := hr.sole h.part h.sole
  dest := by rw [hr.entry hld, h.dest]
  source := fun hx => by rw [hr.node ls hls, h.source hx]

theorem Copying.landed (h : Copying D F fs₀ ls ld i j c fs) (hj : fs.data j = c) :
    Landed D F fs₀ ls ld c false fs where
  part := h.part
  frame := h.frame.mono fun _ hl => ⟨hl.1, hl.2.1⟩
  sole := h.sole
  dest := by rw [fs.entry_file h.dest, hj]
  source := fun hx => by cases hx

/-- Removing the source of a finished copy. -/
theorem Copying.unlink {n : Name} {d : Loc} {hbelow} (h : Copying D F fs₀ (n :: d) ld i j c fs)
    (hj : fs.data j = c) (hne : ld ≠ n :: d) :
    Landed D F fs₀ (n :: d) ld c true (fs.unlink n d hbelow) := by
  refine ⟨h.part, ?_, (within_unlink (W := (· = n :: d)) rfl h.source).sole D F h.sole, ?_,
    fun _ => ?_⟩
  · exact (h.frame.mono fun l hl => ⟨hl.1, hl.2.1⟩).trans
      ((keeps_unlink h.source).mono fun l hl => hl.2.2 rfl)
  · rw [FS.entry_file _ (i := j) (by rw [FS.node_unlink, if_neg hne, h.dest]), FS.data_unlink, hj]
  · rw [FS.node_unlink, if_pos rfl]

/-- Opening `"wb"` a place where no directory stands. -/
theorem openWrite_opens {path : Path} (hQ : fs.resolve path = some ld)
    (hd : fs.node ld ≠ some .dir) (hl : ∀ t, fs.node ld ≠ some (.link t)) :
    ∃ j fs', fs.openWrite path = (some ⟨some j, .wb, 0, []⟩, fs') ∧
      fs'.node ld = some (.file j) ∧ fs'.data j = [] ∧ Within (· = ld) fs fs' := by
  unfold FS.openWrite
  simp only [hQ]
  rcases hn : fs.node ld with _ | _ | j | t
  · -- nothing there yet: a file is created
    obtain hdir | ⟨n, d, rfl, hv, hdir⟩ := fs.resolve_place hQ
    · exact absurd hdir hd
    · have hok : fs.node d = some .dir ∧ ValidName n ∧ fs.node (n :: d) = none := ⟨hdir, hv, hn⟩
      simp only [FS.create, dif_pos hok]
      refine ⟨_, _, rfl, ?_, ?_, within_addFile rfl⟩
      · rw [FS.node_addFile, if_pos rfl]
      · simp
  · exact absurd hn hd
  · exact ⟨j, _, rfl, hn, by simp, within_write rfl hn⟩
  · exact absurd hn (hl t)

/-- A new copy begins. -/
theorem Copying.start (hD : ∀ l, D l → F l) (hld : D ld) (hs : Sole D F fs) (hls : F ls)
    (hne : ld ≠ ls) (hsrc : fs.node ls = some (.file i)) (hc : fs.data i = c)
    (hw : Within (· = ld) fs fs') (hdst : fs'.node ld = some (.file j)) :
    Copying D F fs ls ld i j c fs' := by
  have hr : Keeps (fun l => F l ∧ l ≠ ld) fs fs' :=
    hw.keeps (fun l hl => hl.2) <| hs.symm.mono (fun l hl => hl.1) (by rintro _ rfl; exact hld)
  have hls' : F ls ∧ ls ≠ ld := ⟨hls, hne.symm⟩
  exact ⟨hD, hld, hr, hw.sole D F hs, by rw [hr.node ls hls', hsrc],
    by rw [hr.data ls i hls' hsrc, hc], hdst⟩

theorem exec_remove_file {ch : Choice} (hc : ch.clean) {path : Path} {n : Name} {d : Loc}
    (hE : fs.resolveEntry path = some (n :: d)) (hf : fs.node (n :: d) = some (.file i)) :
    ∃ hbelow, exec ch (.remove path) fs = (0, fs.unlink n d hbelow) := by
  have hnames : fs.names (n :: d) = [] := by
    rw [List.eq_nil_iff_forall_not_mem]
    intro m hm
    exact (fs.mem_names).mp hm (fs.node_child_none (by rw [hf]; simp))
  have hok : fs.node (n :: d) ≠ none ∧ fs.names (n :: d) = [] := ⟨by simp [hf], hnames⟩
  rw [Choice.clean] at hc
  refine ⟨fs.below_none_of_names_nil hnames, ?_⟩
  simp only [exec, hc, hE, FS.removeAt, dif_pos hok, Option.bind_some, Bool.false_eq_true, ↓reduceIte]

theorem finish_meets (sha256 : Bytes → Bytes) {path : Path} {method : TransferMethod}
    {v : ℤ × FILE × FILE} (hv : v.1 = if gone sha256 c then 0 else -1) (h1 : v.2.1.pending = [])
    (h2 : v.2.2.pending = []) (hE : method = .transfer → fs₀.resolveEntry path = some ls)
    (hls : F ls) (hld : F ld) (hWs : method = .transfer → W ls) (hne : ld ≠ ls)
    (h : Copying D F fs₀ ls ld i j c fs) (hj : fs.data j = c) :
    (terms F W).Meets (Terms.Returns fun _ fs' =>
        Landed D F fs₀ ls ld c (removes sha256 method c) fs') (finish path method v) fs := by
  have hI : ∀ fs fs' : FS, (Copying D F fs₀ ls ld i j c fs ∧ fs.data j = c) → Keeps F fs fs' →
      (Copying D F fs₀ ls ld i j c fs' ∧ fs'.data j = c) := fun fs fs' h hr =>
    ⟨h.1.stable hls hld hr, by rw [hr.data ld j hld h.1.dest, h.2]⟩
  refine Terms.Meets.call fun fs₁ hr₁ ch₁ _ => ?_
  have k₁ := hI _ _ ⟨h, hj⟩ hr₁
  refine ⟨_, fs₁, Prod.ext rfl (exec_fclose_nil _ h2), Within.refl W fs₁, ?_⟩
  refine Terms.Meets.call fun fs₂ hr₂ ch₂ _ => ?_
  have k₂ := hI _ _ k₁ hr₂
  refine ⟨_, fs₂, Prod.ext rfl (exec_fclose_nil _ h1), Within.refl W fs₂, ?_⟩
  by_cases hg : gone sha256 c = true
  · rw [if_neg (by rw [hv, if_pos hg]; decide)]
    cases method with
    | backup =>
      refine Terms.Meets.ret fun fs₃ hr₃ => ?_
      have k₃ := hI _ _ k₂ hr₃
      exact k₃.1.landed k₃.2
    | transfer =>
      have hrm : removes sha256 .transfer c = true := by simp [removes, hg]
      rw [hrm]
      refine Terms.Meets.call fun fs₃ hr₃ ch₃ hc₃ => ?_
      have k₃ := hI _ _ k₂ hr₃
      have hE₃ := fs₀.resolveEntry_persists k₃.1.frame.persists (hE rfl)
      cases ls with
      | nil => exact absurd k₃.1.source (by simp)
      | cons n d =>
        obtain ⟨hbelow, he⟩ := exec_remove_file hc₃ hE₃ k₃.1.source
        refine ⟨_, _, he, within_unlink (hWs rfl) k₃.1.source, ?_⟩
        exact Terms.Meets.ret fun fs₄ hr₄ => (k₃.1.unlink k₃.2 hne).stable hls hld hr₄
  · rw [if_pos (by rw [hv, if_neg hg]; decide)]
    have hrm : removes sha256 method c = false := by simp [removes, hg]
    rw [hrm]
    refine Terms.Meets.ret fun fs₃ hr₃ => ?_
    have k₃ := hI _ _ k₂ hr₃
    exact k₃.1.landed k₃.2

theorem exec_fopen_rb {ch : Choice} (hc : ch.clean) {path : Path} (hP : fs.resolve path = some ls)
    (hf : fs.node ls = some (.file i)) :
    exec ch (.fopen path .rb) fs = (some ⟨some i, .rb, 0, []⟩, fs) := by
  rw [Choice.clean] at hc
  simp [exec, hc, FS.openRead, hP, hf]

theorem exec_fopen_wb {ch : Choice} (hc : ch.clean) (path : Path) :
    exec ch (.fopen path .wb) fs = fs.openWrite path := by
  rw [Choice.clean] at hc
  simp [exec, hc]

/-- A transaction whose destination can be opened: it ends with the source's content, and nothing
else of the footprint has changed but the source that a `TRANSFER` removes. -/
theorem transactTransferFile_opens (sha256 : Bytes → Bytes) {fuel : ℕ} {sourcePath destPath : Path}
    {method : TransferMethod} (hls : F ls) (hD : ∀ l, D l → F l) (hld : D ld)
    (hW : W ld) (hWs : method = .transfer → W ls) (hne : ld ≠ ls) (hs : Sole D F fs)
    (hP : fs.resolve sourcePath = some ls) (hsrc : fs.entry ls = some (.file c))
    (hE : method = .transfer → fs.resolveEntry sourcePath = some ls)
    (hQ : fs.resolve destPath = some ld) (hdir : fs.node ld ≠ some .dir)
    (hlink : ∀ t, fs.node ld ≠ some (.link t)) (hfuel : c.length < fuel) :
    (terms F W).Meets (Terms.Returns fun _ fs' =>
        Landed D F fs ls ld c (removes sha256 method c) fs')
      (transactTransferFile sha256 fuel sourcePath destPath method) fs := by
  obtain ⟨i, hi, hc⟩ := fs.node_of_entry_file hsrc
  have hDld := hld
  replace hld := hD ld hDld
  rw [transactTransferFile_eq]
  refine Terms.Meets.call fun fs₁ hr₁ ch₁ hc₁ => ?_
  have hi₁ : fs₁.node ls = some (.file i) := by rw [hr₁.node ls hls, hi]
  have hP₁ := fs.resolve_persists hr₁.persists hP (hr₁.node ls hls)
  refine ⟨_, _, exec_fopen_rb hc₁ hP₁ hi₁, Within.refl W fs₁, ?_⟩
  refine Terms.Meets.call fun fs₂ hr₂ ch₂ hc₂ => ?_
  have hr := hr₁.trans hr₂
  have hQ₂ := fs.resolve_persists hr.persists hQ (hr.node ld hld)
  obtain ⟨j, fs₃, he, hj, hnil, hw⟩ := openWrite_opens hQ₂
    (by rwa [hr.node ld hld]) (by simpa only [hr.node ld hld] using hlink)
  refine ⟨_, _, (exec_fopen_wb hc₂ _).trans he, hw.mono (by rintro _ rfl; exact hW), ?_⟩
  have hcopy₂ : Copying D F fs₂ ls ld i j c fs₃ := Copying.start hD hDld (hr.sole hD hs) hls hne
    (by rw [hr.node ls hls, hi]) (by rw [hr.data ls i hls hi, hc]) hw hj
  have hcopy : Copying D F fs ls ld i j c fs₃ :=
    { hcopy₂ with frame := (hr.mono fun _ hl => hl.1).trans hcopy₂.frame }
  have htook : Took j (c.take 0) ⟨some j, .wb, 0, []⟩ fs₃ := ⟨rfl, rfl, by simp [hnil], by simp [hnil]⟩
  refine Terms.Meets.bind_returns
    (copyLoop_meets hls hld hW hne fuel 0 _ fs₃ (Nat.zero_le _) (by omega) hcopy htook) ?_
  rintro ⟨source, dest⟩ fs₄ ⟨h₄, ht₄, hsource⟩
  dsimp only at hsource ht₄ ⊢
  subst hsource
  rw [verifyFiles_eq]
  simp only [bind_assoc]
  -- the source is re-read in full, the destination not at all
  refine Terms.Meets.bind_returns (hashFile_meets_rb
    (I := fun fs' => Copying D F fs ls ld i j c fs' ∧ Took j c dest fs')
    (fun _ _ h hr => ⟨h.1.stable hls hld hr, h.2.stable hld h.1.dest hr⟩)
    (fun _ h => h.1.content) sha256 hfuel c.length ⟨h₄, ht₄⟩) ?_
  rintro ⟨sourceHash, source⟩ fs₅ ⟨⟨h₅, ht₅⟩, hr₅⟩
  cases hr₅
  refine Terms.Meets.bind_returns
    (hashFile_meets_wb hls hld hW hne sha256 (Nat.zero_lt_of_lt hfuel) h₅ ht₅) ?_
  rintro ⟨destHash, dest'⟩ fs₆ ⟨⟨h₆, hj₆⟩, hhash, hpend⟩
  dsimp only at hhash hpend ⊢
  subst hhash
  by_cases hg : sha256 c = sha256 []
  · rw [if_pos hg]
    exact finish_meets sha256 (by simp [gone, hg]) rfl hpend hE hls hld hWs hne h₆ hj₆
  · rw [if_neg hg]
    exact finish_meets sha256 (by simp [gone, hg]) rfl hpend hE hls hld hWs hne h₆ hj₆

/-- A transaction whose destination cannot be opened changes nothing. -/
theorem transactTransferFile_blocked (sha256 : Bytes → Bytes) {fuel : ℕ}
    {sourcePath destPath : Path} {method : TransferMethod} (hls : F ls)
    (hP : fs.resolve sourcePath = some ls) (hsrc : fs.entry ls = some (.file c))
    (hQ : ∀ fs', Keeps F fs fs' → fs'.openWrite destPath = (none, fs')) :
    (terms F W).Meets (Terms.Returns fun _ fs' => Keeps F fs fs')
      (transactTransferFile sha256 fuel sourcePath destPath method) fs := by
  obtain ⟨i, hi, hc⟩ := fs.node_of_entry_file hsrc
  rw [transactTransferFile_eq]
  refine Terms.Meets.call fun fs₁ hr₁ ch₁ hc₁ => ?_
  have hi₁ : fs₁.node ls = some (.file i) := by rw [hr₁.node ls hls, hi]
  have hP₁ := fs.resolve_persists hr₁.persists hP (hr₁.node ls hls)
  refine ⟨_, _, exec_fopen_rb hc₁ hP₁ hi₁, Within.refl W fs₁, ?_⟩
  refine Terms.Meets.call fun fs₂ hr₂ ch₂ hc₂ => ?_
  have hr := hr₁.trans hr₂
  refine ⟨_, _, (exec_fopen_wb hc₂ _).trans (hQ fs₂ hr), Within.refl W fs₂, ?_⟩
  refine Terms.Meets.call fun fs₃ hr₃ ch₃ _ => ?_
  refine ⟨_, fs₃, Prod.ext rfl (exec_fclose_nil _ rfl), Within.refl W fs₃, ?_⟩
  exact Terms.Meets.ret fun fs₄ hr₄ => (hr.trans hr₃).trans hr₄

end Transaction

end Reportman.TransferFile
