import Mathlib
import Reportman.TransferDirectory

/-!
# Runs in which calls fail

Rules for a run whose calls may all fail, each in its own way. What holds then is what every single
call preserves: `G` is a condition on each call with the states around it, `I` an invariant between
the calls. A transaction writes one file, the one its second argument opens; all its other effect is
the `remove` at its end.
-/
namespace Reportman.Faults
open Resumable FileSystem TransferFile TransferDirectory

/-- A condition on single calls. -/
abbrev CallCondition := (op : Sys) → op.Res → FS → FS → Prop

/-- The terms of a run that nobody disturbs and whose calls may fail. -/
def faulty (G : CallCondition) : Terms Sys Sys.Res Choice FS where
  exec := exec
  allowed := fun _ => True
  rely := Eq
  guarantee := G
  rely_refl := fun _ => rfl
  rely_trans := Eq.trans

/-- The calls that work on an open stream. -/
def onStream : Sys → Bool
  | .fread _ _ => true
  | .fwrite _ _ => true
  | .fseek _ => true
  | .fclose _ => true
  | _ => false

/-- Only the content of inode `j` has changed. -/
def Rewrites (j : ℕ) (fs fs' : FS) : Prop := ∃ content, fs' = fs.write j content

/-- The source stream: nothing to flush. -/
structure Reads (f : FILE) : Prop where
  mode : f.mode = .rb
  pending : f.pending = []

/-- The destination stream, on inode `j`. -/
structure Writes (j : ℕ) (f : FILE) : Prop where
  mode : f.mode = .wb
  ino : f.ino = some j

theorem Rewrites.refl (j : ℕ) (fs : FS) : Rewrites j fs fs := ⟨fs.data j, (write_self j).symm⟩

theorem write_write (fs : FS) (j : ℕ) (a b : Bytes) : (fs.write j a).write j b = fs.write j b := by
  simp [FS.write]

theorem Rewrites.trans {j : ℕ} {a b c : FS} (h : Rewrites j a b) (h' : Rewrites j b c) :
    Rewrites j a c := by
  obtain ⟨x, rfl⟩ := h
  obtain ⟨y, rfl⟩ := h'
  exact ⟨y, write_write a j x y⟩

section Calls

variable {G : CallCondition} {α : Type} {post : Option α → FS → Prop} {fs : FS} {j : ℕ}

theorem faulty_ret {a : α} (h : post (some a) fs) :
    (faulty G).Meets post (Program.ret a : Prog α) fs := by
  rintro _ rfl
  exact h

theorem faulty_halt (h : post none fs) : (faulty G).Meets post (Program.halt : Prog α) fs := by
  rintro _ rfl
  exact h

/-- One call, whatever the environment chooses. -/
theorem faulty_call {op : Sys} {next : op.Res → Prog α}
    (h : ∀ c, G op (exec c op fs).1 fs (exec c op fs).2 ∧
      (faulty G).Meets post (next (exec c op fs).1) (exec c op fs).2) :
    (faulty G).Meets post (.call op next) fs := by
  rintro _ rfl c -
  exact h c

theorem flush_reads (c : Choice) (fs : FS) {f : FILE} (h : Reads f) (k : ℕ) : f.flush c fs k = (f, fs) :=
  flush_nil h.pending c k

theorem flush_writes (c : Choice) (fs : FS) {f : FILE} (h : Writes j f) (k : ℕ) :
    Writes j (f.flush c fs k).1 ∧ Rewrites j fs (f.flush c fs k).2 := by
  unfold FILE.flush
  rw [h.ino]
  dsimp only
  split
  · exact ⟨⟨h.mode, rfl⟩, Rewrites.refl j fs⟩
  · exact ⟨⟨h.mode, rfl⟩, _, rfl⟩

theorem exec_fread_state (fs : FS) (c : Choice) (n : ℕ) (f : FILE) : (exec c (.fread n f) fs).2 = fs := rfl

theorem exec_fread_reads (fs : FS) (c : Choice) (n : ℕ) {f : FILE} (h : Reads f) :
    Reads (exec c (.fread n f) fs).1.2 := ⟨h.mode, h.pending⟩

theorem exec_fwrite_writes (fs : FS) (c : Choice) (buffer : Bytes) {f : FILE} (h : Writes j f) :
    Writes j (exec c (.fwrite buffer f) fs).1.2 ∧ Rewrites j fs (exec c (.fwrite buffer f) fs).2 := by
  have hf : ∀ pending, Writes j { f with mode := .wb, pending } := fun _ => ⟨rfl, h.ino⟩
  simp only [exec, h.mode]
  exact flush_writes c fs (hf _) _

theorem exec_fseek_writes (fs : FS) (c : Choice) {f : FILE} (h : Writes j f) :
    Writes j (exec c (.fseek f) fs).1.2 ∧ Rewrites j fs (exec c (.fseek f) fs).2 := by
  obtain ⟨h₁, h₂⟩ := flush_writes c fs h (c.flushed f)
  simp only [exec]
  split_ifs
  · exact ⟨h₁, h₂⟩
  · exact ⟨⟨h₁.mode, h₁.ino⟩, h₂⟩

theorem exec_fseek_reads (fs : FS) (c : Choice) {f : FILE} (h : Reads f) :
    Reads (exec c (.fseek f) fs).1.2 ∧ (exec c (.fseek f) fs).2 = fs := by
  simp only [exec, flush_reads c fs h]
  split_ifs
  · exact ⟨h, rfl⟩
  · exact ⟨⟨h.mode, h.pending⟩, rfl⟩

theorem exec_fclose_writes (fs : FS) (c : Choice) {f : FILE} (h : Writes j f) :
    Rewrites j fs (exec c (.fclose f) fs).2 := (flush_writes c fs h _).2

theorem exec_fclose_reads (fs : FS) (c : Choice) {f : FILE} (h : Reads f) :
    (exec c (.fclose f) fs).2 = fs := exec_fclose_nil f h.pending

/-- `fopen(path, "wb")` opens a file or leaves everything as it is. -/
theorem openWrite_cases (fs : FS) (path : Path) :
    (∃ j fs₁, fs.openWrite path = (some ⟨some j, .wb, 0, []⟩, fs₁)) ∨
      fs.openWrite path = (none, fs) := by
  unfold FS.openWrite
  rcases fs.resolve path with _ | l
  · exact .inr rfl
  · dsimp only
    rcases fs.node l with _ | _ | j | t
    · dsimp only
      rcases fs.create l 0o666 with _ | fs₁
      · exact .inr rfl
      · exact .inl ⟨_, _, rfl⟩
    · exact .inr rfl
    · exact .inl ⟨_, _, rfl⟩
    · exact .inr rfl

theorem exec_fopen_wb_cases (c : Choice) (path : Path) (fs : FS) :
    (∃ j fs₁, fs.openWrite path = (some ⟨some j, .wb, 0, []⟩, fs₁) ∧
      exec c (.fopen path .wb) fs = (some ⟨some j, .wb, 0, []⟩, fs₁)) ∨
      exec c (.fopen path .wb) fs = (none, fs) := by
  simp only [exec]
  split_ifs
  · exact .inr rfl
  · rcases openWrite_cases fs path with ⟨j, fs₁, hw⟩ | hw
    · exact .inl ⟨j, fs₁, hw, hw⟩
    · exact .inr hw

/-- `mkdir` makes the directory its path names, or nothing happens. -/
theorem exec_mkdir_cases (c : Choice) (path : Path) (mode : ℕ) (fs : FS) :
    (exec c (.mkdir path mode) fs).2 = fs ∨ ∃ n d hd hn hfree,
      fs.resolveEntry (stripSlashes path) = some (n :: d) ∧
        (exec c (.mkdir path mode) fs).2 = fs.addDir n d mode hd hn hfree := by
  simp only [exec]
  split_ifs
  · exact .inl rfl
  rcases hr : fs.resolveEntry (stripSlashes path) with _ | _ | ⟨n, d⟩
  · exact .inl rfl
  · exact .inl rfl
  · by_cases hok : fs.node d = some .dir ∧ ValidName n ∧ fs.node (n :: d) = none
    · refine .inr ⟨n, d, hok.1, hok.2.1, hok.2.2, rfl, ?_⟩
      simp only [Option.bind_some, FS.makeDir, dif_pos hok]
    · refine .inl ?_
      simp only [Option.bind_some, FS.makeDir, dif_neg hok]

/-- `remove` takes away the entry its path names, or nothing happens. -/
theorem exec_remove_cases (c : Choice) (path : Path) (fs : FS) :
    (exec c (.remove path) fs).2 = fs ∨ ∃ n d hbelow, fs.resolveEntry path = some (n :: d) ∧
      fs.node (n :: d) ≠ none ∧ (exec c (.remove path) fs).2 = fs.unlink n d hbelow := by
  simp only [exec]
  split_ifs
  · exact .inl rfl
  rcases hr : fs.resolveEntry path with _ | _ | ⟨n, d⟩
  · exact .inl rfl
  · exact .inl rfl
  · by_cases hok : fs.node (n :: d) ≠ none ∧ fs.names (n :: d) = []
    · refine .inr ⟨n, d, fs.below_none_of_names_nil hok.2, rfl, hok.1, ?_⟩
      simp only [Option.bind_some, FS.removeAt, dif_pos hok]
    · refine .inl ?_
      simp only [Option.bind_some, FS.removeAt, dif_neg hok]

end Calls

section Transaction

variable {G : CallCondition} {fs fs₁ : FS} {j : ℕ}

/-- The calls on streams may rewrite inode `j`. -/
def Rewritable (G : CallCondition) (j : ℕ) (fs₁ : FS) : Prop :=
  ∀ op res a b, onStream op = true → G op res (fs₁.write j a) (fs₁.write j b)

theorem Rewritable.at (hG : Rewritable G j fs₁) {op : Sys} {res : op.Res} {a b : FS}
    (hop : onStream op = true) (ha : Rewrites j fs₁ a) (hb : Rewrites j fs₁ b) : G op res a b := by
  obtain ⟨x, rfl⟩ := ha
  obtain ⟨y, rfl⟩ := hb
  exact hG op res x y hop

theorem copyLoop_faulty (hG : Rewritable G j fs₁) (fuel : ℕ) :
    ∀ (source dest : FILE) (fs : FS), Reads source → Writes j dest → Rewrites j fs₁ fs →
      (faulty G).Meets (fun o fs' => Rewrites j fs₁ fs' ∧
          ∀ r, o = some r → Reads r.1 ∧ Writes j r.2)
        (copyLoop fuel source dest) fs := by
  induction fuel with
  | zero => exact fun _ _ _ _ _ h => faulty_halt ⟨h, fun r hr => by cases hr⟩
  | succ fuel ih =>
    intro source dest fs hs hd h
    rw [copyLoop_succ]
    refine faulty_call fun c => ⟨hG.at rfl h h, ?_⟩
    rw [exec_fread_state]
    have hs' := exec_fread_reads fs c bufferSize hs
    split_ifs
    · refine faulty_call fun c' => ?_
      obtain ⟨hd', hw⟩ := exec_fwrite_writes fs c' _ hd
      exact ⟨hG.at rfl h (h.trans hw), ih _ _ _ hs' hd' (h.trans hw)⟩
    · exact faulty_ret ⟨h, fun r hr => by cases hr; exact ⟨hs', hd⟩⟩

/-- Hashing reads only; it may stop anywhere. -/
theorem hashLoop_faulty (hG : Rewritable G j fs₁) (h : Rewrites j fs₁ fs) (fuel : ℕ) :
    ∀ (f : FILE) (seen : Bytes), (faulty G).Meets
      (fun o fs' => fs' = fs ∧ ∀ r, o = some r → ∃ pos, r.2 = { f with pos })
      (hashLoop fuel f seen) fs := by
  induction fuel with
  | zero => exact fun _ _ => faulty_halt ⟨rfl, fun r hr => by cases hr⟩
  | succ fuel ih =>
    intro f seen
    rw [hashLoop_succ]
    refine faulty_call fun c => ⟨hG.at rfl h h, ?_⟩
    rw [exec_fread_state]
    split_ifs
    · refine (ih _ _).mono fun o fs' ho => ⟨ho.1, fun r hr => ?_⟩
      obtain ⟨pos, hp⟩ := ho.2 r hr
      exact ⟨pos, by rw [hp]; rfl⟩
    · exact faulty_ret ⟨rfl, fun r hr => by cases hr; exact ⟨_, rfl⟩⟩

theorem hashFile_faulty (hG : Rewritable G j fs₁) (sha256 : Bytes → Bytes) (fuel : ℕ) {f : FILE}
    (h : Rewrites j fs₁ fs) (hf : Reads f ∨ Writes j f) :
    (faulty G).Meets (fun o fs' => Rewrites j fs₁ fs' ∧
        ∀ r, o = some r → (Reads f → Reads r.2) ∧ (Writes j f → Writes j r.2))
      (hashFile sha256 fuel f) fs := by
  rw [hashFile_eq]
  refine faulty_call fun c => ?_
  have hstep : Rewrites j fs (exec c (.fseek f) fs).2 := by
    rcases hf with hf | hf
    · rw [(exec_fseek_reads fs c hf).2]
      exact Rewrites.refl j fs
    · exact (exec_fseek_writes fs c hf).2
  refine ⟨hG.at rfl h (h.trans hstep), Terms.Meets.bind ?_⟩
  refine (hashLoop_faulty hG (h.trans hstep) fuel _ []).mono ?_
  rintro (_ | r) fs' ⟨rfl, hr⟩
  · exact ⟨h.trans hstep, fun r hr => by cases hr⟩
  · rw [Terms.enters_some]
    refine faulty_ret ⟨h.trans hstep, fun s hs => ?_⟩
    cases hs
    obtain ⟨pos, hp⟩ := hr r rfl
    rw [hp]
    refine ⟨fun hf => ?_, fun hf => ?_⟩
    · exact ⟨(exec_fseek_reads fs c hf).1.mode, (exec_fseek_reads fs c hf).1.pending⟩
    · exact ⟨(exec_fseek_writes fs c hf).1.mode, (exec_fseek_writes fs c hf).1.ino⟩

theorem verifyFiles_faulty (hG : Rewritable G j fs₁) (sha256 : Bytes → Bytes) (fuel : ℕ)
    {source dest : FILE} (h : Rewrites j fs₁ fs) (hs : Reads source) (hd : Writes j dest) :
    (faulty G).Meets (fun o fs' => Rewrites j fs₁ fs' ∧
        ∀ v, o = some v → Reads v.2.1 ∧ Writes j v.2.2)
      (verifyFiles sha256 fuel source dest) fs := by
  rw [verifyFiles_eq]
  refine Terms.Meets.bind ((hashFile_faulty hG sha256 fuel h (.inl hs)).mono ?_)
  rintro (_ | s) fs' ⟨h', hs'⟩
  · exact ⟨h', fun v hv => by cases hv⟩
  refine Terms.Meets.bind ((hashFile_faulty hG sha256 fuel h' (.inr hd)).mono ?_)
  rintro (_ | d) fs'' ⟨h'', hd''⟩
  · exact ⟨h'', fun v hv => by cases hv⟩
  have hstreams := And.intro ((hs' s rfl).1 hs) ((hd'' d rfl).2 hd)
  rw [Terms.enters_some]
  split_ifs
  · exact faulty_ret ⟨h'', fun v hv => by cases hv; exact hstreams⟩
  · exact faulty_ret ⟨h'', fun v hv => by cases hv; exact hstreams⟩

/-- What must be known of the two paths for a transaction between them to keep `G` and `I`. -/
structure Licence (G : CallCondition) (I : FS → Prop) (sourcePath destPath : Path)
    (method : TransferMethod) (fs : FS) : Prop where
  here : I fs
  idle : ∀ op res fs, onStream op = true → G op res fs fs
  openSource : ∀ c, G (.fopen sourcePath .rb) (exec c (.fopen sourcePath .rb) fs).1 fs fs
  openDest : ∀ c, G (.fopen destPath .wb) (exec c (.fopen destPath .wb) fs).1 fs
    (exec c (.fopen destPath .wb) fs).2
  opened : ∀ j fs₁, fs.openWrite destPath = (some ⟨some j, .wb, 0, []⟩, fs₁) →
    Rewritable G j fs₁ ∧ ∀ content, I (fs₁.write j content) ∧
      (method = .transfer → ∀ c, G (.remove sourcePath)
        (exec c (.remove sourcePath) (fs₁.write j content)).1 (fs₁.write j content)
        (exec c (.remove sourcePath) (fs₁.write j content)).2 ∧
        I (exec c (.remove sourcePath) (fs₁.write j content)).2)

theorem transactTransferFile_faulty {I : FS → Prop} {sourcePath destPath : Path}
    {method : TransferMethod} (h : Licence G I sourcePath destPath method fs)
    (sha256 : Bytes → Bytes) (fuel : ℕ) :
    (faulty G).Meets (fun _ fs' => I fs')
      (transactTransferFile sha256 fuel sourcePath destPath method) fs := by
  rw [transactTransferFile_eq]
  refine faulty_call fun c₁ => ⟨h.openSource c₁, ?_⟩
  have hsource : ∀ f, (exec c₁ (.fopen sourcePath .rb) fs).1 = some f → Reads f := by
    intro f hf
    simp only [exec, FS.openRead] at hf
    split_ifs at hf
    obtain ⟨l, -, hl⟩ := Option.bind_eq_some_iff.mp hf
    split at hl <;> cases hl <;> exact ⟨rfl, rfl⟩
  rcases hopen : (exec c₁ (.fopen sourcePath .rb) fs).1 with _ | source
  · exact faulty_ret h.here
  have hs := hsource source hopen
  refine faulty_call fun c₂ => ⟨h.openDest c₂, ?_⟩
  obtain ⟨j, fs₁, hw, he⟩ | he := exec_fopen_wb_cases c₂ destPath fs
  · obtain ⟨hG, hI⟩ := h.opened j fs₁ hw
    simp only [show (exec c₁ (.fopen sourcePath .rb) fs).2 = fs from rfl, he]
    refine Terms.Meets.bind ((copyLoop_faulty hG fuel source _ fs₁ hs ⟨rfl, rfl⟩
      (Rewrites.refl j fs₁)).mono ?_)
    rintro (_ | s) fs₂ ⟨h₂, hs₂⟩
    · obtain ⟨content, rfl⟩ := h₂
      exact (hI content).1
    obtain ⟨hs₂, hd₂⟩ := hs₂ s rfl
    refine Terms.Meets.bind ((verifyFiles_faulty hG sha256 fuel h₂ hs₂ hd₂).mono ?_)
    rintro (_ | v) fs₃ ⟨h₃, hv⟩
    · obtain ⟨content, rfl⟩ := h₃
      exact (hI content).1
    obtain ⟨hvs, hvd⟩ := hv v rfl
    -- both streams are closed, and then the source may be removed
    rw [Terms.enters_some]
    unfold finish
    refine faulty_call fun c₃ => ?_
    have h₄ := h₃.trans (exec_fclose_writes fs₃ c₃ hvd)
    refine ⟨hG.at rfl h₃ h₄, faulty_call fun c₄ => ?_⟩
    rw [exec_fclose_reads _ c₄ hvs]
    refine ⟨hG.at rfl h₄ h₄, ?_⟩
    obtain ⟨content, hc⟩ := h₄
    rw [hc]
    split_ifs
    · exact faulty_ret (hI content).1
    · cases method with
      | backup => exact faulty_ret (hI content).1
      | transfer =>
        refine faulty_call fun c₅ => ⟨((hI content).2 rfl c₅).1, ?_⟩
        exact faulty_ret ((hI content).2 rfl c₅).2
  · simp only [show (exec c₁ (.fopen sourcePath .rb) fs).2 = fs from rfl, he]
    refine faulty_call fun c₃ => ?_
    rw [exec_fclose_reads fs c₃ hs]
    exact ⟨h.idle _ _ fs rfl, faulty_ret h.here⟩

end Transaction

section Traversal

variable {G : CallCondition} {I : FS → Prop} {K E : Path → Path → Prop} {method : TransferMethod}

/-- What must be known of the pairs of paths that a traversal comes to: `K` are those of the
directories it goes into, `E` those of the entries it finds there. -/
structure Tour (G : CallCondition) (I : FS → Prop) (K E : Path → Path → Prop)
    (method : TransferMethod) : Prop where
  mkdir : ∀ source destination fs c, K source destination → I fs →
    G (.mkdir destination 0o7) (exec c (.mkdir destination 0o7) fs).1 fs
      (exec c (.mkdir destination 0o7) fs).2 ∧ I (exec c (.mkdir destination 0o7) fs).2
  opendir : ∀ path res fs, G (.opendir path) res fs fs
  stat : ∀ path res fs, G (.stat path) res fs fs
  entry : ∀ source destination fs l n, K source destination → I fs → fs.resolve source = some l →
    fs.node (n :: l) ≠ none → E (joinPath source n) (joinPath destination n)
  down : ∀ source destination, E source destination → K source destination
  file : ∀ source destination fs l, E source destination → I fs → fs.resolve source = some l →
    fs.node l ≠ none → fs.node l ≠ some .dir → Licence G I source destination method fs

/-- A `stat` that answers has found an entry of that type. -/
theorem stat_answers {c : Choice} {path : Path} {fs : FS} {t : FileType}
    (h : (exec c (.stat path) fs).1 = some t) :
    ∃ l, fs.resolve path = some l ∧ fs.node l ≠ none ∧ (fs.node l = some .dir ↔ t = .directory) := by
  simp only [exec] at h
  split_ifs at h
  obtain ⟨l, hl, ht⟩ := Option.bind_eq_some_iff.mp h
  refine ⟨l, hl, ?_⟩
  unfold typeAt at ht
  rcases hn : fs.node l with _ | _ | i | target <;> rw [hn] at ht <;> cases ht <;> simp

theorem exec_opendir_state (c : Choice) (path : Path) (fs : FS) :
    (exec c (.opendir path) fs).2 = fs := by
  simp only [exec]
  rcases fs.resolve path with _ | l <;> rfl

/-- Only what is in the directory is handed over. -/
theorem listed_subset {c : Choice} {names entries : List Name} (h : c.listed names = some entries) :
    entries ⊆ names := by
  unfold Choice.listed at h
  split_ifs at h
  · split at h
    · cases h
    · obtain rfl := Option.some.inj h
      exact List.take_subset ..
  · obtain rfl := Option.some.inj h
    exact List.Subset.refl _

/-- An `opendir` that answers lists the entries of a directory. -/
theorem opendir_answers {c : Choice} {path : Path} {fs : FS} {entries : List Name}
    (h : (exec c (.opendir path) fs).1 = some entries) :
    ∃ l, fs.resolve path = some l ∧ fs.node l = some .dir ∧
      ∀ n ∈ entries, ¬ (n = dot ∨ n = dotDot) → fs.node (n :: l) ≠ none := by
  simp only [exec] at h
  rcases hl : fs.resolve path with _ | l
  · rw [hl] at h; cases h
  rw [hl] at h
  dsimp only at h
  split_ifs at h with hdir
  refine ⟨l, rfl, hdir, fun n hn hdots => ?_⟩
  have hmem := listed_subset h hn
  rw [(c.perm _).mem_iff, List.mem_cons, List.mem_cons] at hmem
  rw [← fs.mem_names]
  tauto

theorem transferDirectory_faulty (h : Tour G I K E method) (sha256 : Bytes → Bytes) (fuel : ℕ)
    (stack : ℕ) : ∀ (source destination : Path) (fs : FS), K source destination → I fs →
      (faulty G).Meets (fun _ fs' => I fs')
        (transferDirectory (systemCalls sha256 fuel) stack source destination method) fs := by
  induction stack with
  | zero => exact fun _ _ _ _ hI => faulty_halt hI
  | succ stack ih =>
    intro source destination fs hK hI
    rw [transferDirectory_succ, systemCalls_mkdir, Program.perform_bind]
    refine faulty_call fun c₁ => ⟨(h.mkdir source destination fs c₁ hK hI).1, ?_⟩
    have hI₁ := (h.mkdir source destination fs c₁ hK hI).2
    generalize (exec c₁ (.mkdir destination 0o7) fs).2 = fs₁ at hI₁ ⊢
    rw [systemCalls_opendir, Program.perform_bind]
    refine faulty_call fun c₂ => ?_
    rw [exec_opendir_state]
    refine ⟨h.opendir .., ?_⟩
    rcases hdir : (exec c₂ (.opendir source) fs₁).1 with _ | entries
    · exact faulty_ret hI₁
    obtain ⟨l, hl, -, hentries⟩ := opendir_answers hdir
    refine Terms.Meets.foldlM_invariant (fun s s' hs (hr : s = s') => hr ▸ hs) ?_ hI₁
    intro n hn errors fs₂ hI₂
    by_cases hdots : n = dot ∨ n = dotDot
    · rw [processEntry_dots _ _ _ _ _ _ hdots]
      exact faulty_ret hI₂
    -- the pair of paths of the entry is one of the tour
    have hE := h.entry source destination fs₁ l n hK hI₁ hl (hentries n hn hdots)
    rw [processEntry_eq _ _ _ _ _ _ hdots, systemCalls_stat, Program.perform_bind]
    refine faulty_call fun c₃ => ⟨h.stat .., ?_⟩
    rw [show (exec c₃ (.stat (joinPath source n)) fs₂).2 = fs₂ from rfl]
    rcases hstat : (exec c₃ (.stat (joinPath source n)) fs₂).1 with _ | t
    · exact faulty_ret hI₂
    obtain ⟨k, hk, hne, hdir⟩ := stat_answers hstat
    by_cases ht : t = .directory
    · subst ht
      refine Terms.Meets.bind ((ih _ _ fs₂ (h.down _ _ hE) hI₂).mono ?_)
      rintro (_ | sub) fs₃ hI₃
      · exact hI₃
      · rw [Terms.enters_some]
        exact faulty_ret hI₃
    · have hlicence := h.file _ _ fs₂ k hE hI₂ hk hne (fun hd => ht (hdir.mp hd))
      have hfile : (faulty G).Meets (fun _ fs' => I fs')
          (transactTransferFile sha256 fuel (joinPath source n) (joinPath destination n) method >>=
            fun status => if status ≠ transactSuccess then Program.ret (errors + 1)
              else Program.ret errors) fs₂ := by
        refine Terms.Meets.bind ((transactTransferFile_faulty hlicence sha256 fuel).mono ?_)
        rintro (_ | status) fs₃ hI₃
        · exact hI₃
        · rw [Terms.enters_some]
          split_ifs
          · exact faulty_ret hI₃
          · exact faulty_ret hI₃
      cases t with
      | directory => exact absurd rfl ht
      | regular => exact hfile
      | symlink => exact hfile

end Traversal

end Reportman.Faults
