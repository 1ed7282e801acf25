import Mathlib
import Reportman.Archive
import Reportman.Concurrent
import Reportman.Recovery

/-!
# Runs that interfere

Nothing keeps two runs on the same directories apart: a timer may fire in the middle of another run, a client may
ask for a third, the users go on changing the reports, any of the calls may fail and any of the runs may be killed.
Files on the dashboard and in the backup directory come to no harm that lasts: what a name stands for never
changes, the reports belong to their users, and the next backup and transfer that are let alone archive them all.
-/
namespace Reportman.Interference
open Resumable FileSystem TransferFile TransferDirectory Directories EntryPoints Overlay Faults
open Archive (Agrees History view)
open Concurrent (Request source destination)

section Names

def kindOf : Node → FileType
  | .dir => .directory
  | .file _ => .regular
  | .link _ => .symlink

/-- What the names stand for, in whichever of the directories they are found. -/
structure Naming where
  kind : List Name → Option FileType
  plain : ∀ p, kind p ≠ some .symlink
  valid : ∀ p, kind p ≠ none → ∀ n ∈ p, ValidName n
  short : ∀ p, kind p ≠ none → ∀ d : Directory, (pathOf d.path p).length < pathSize

variable (N : Naming) (place : Directory → Loc)

/-- The directories are in order, and so are the names in them. -/
structure Orderly (fs : FS) : Prop where
  plain : Plain place fs
  named : ∀ d p x, fs.node (p ++ place d) = some x → N.kind p = some (kindOf x)

/-- No report is stored in inode `j`, and none will be. -/
def Spared (j : ℕ) (fs : FS) : Prop := j < fs.next ∧ ∀ p, fs.node (p ++ place .reports) ≠ some (.file j)

/-- What all that are at work may rely on. -/
def Respects (fs fs' : FS) : Prop :=
  Orderly N place fs → Orderly N place fs' ∧ ∀ j, Spared place j fs → Spared place j fs'

/-- A run respects the order and does not touch the reports. -/
def Harmless (fs fs' : FS) : Prop :=
  Respects N place fs fs' ∧ (Orderly N place fs → contents place fs' .reports = contents place fs .reports)

theorem Respects.refl (fs : FS) : Respects N place fs fs := fun h => ⟨h, fun _ hj => hj⟩

theorem Respects.trans {a b c : FS} (h : Respects N place a b) (h' : Respects N place b c) :
    Respects N place a c := by
  intro ha
  obtain ⟨hb, hab⟩ := h ha
  obtain ⟨hc, hbc⟩ := h' hb
  exact ⟨hc, fun j hj => hbc j (hab j hj)⟩

/-- The terms of a run among others. -/
def amongOthers : Terms Sys Sys.Res Choice FS where
  exec := exec
  allowed := fun _ => True
  rely := Respects N place
  guarantee := fun _ _ => Harmless N place
  rely_refl := Respects.refl N place
  rely_trans := Respects.trans N place

/-- Among the others a run is sure of the order, and of the inode it has open. -/
def Own (j : ℕ) (fs : FS) : Prop := Orderly N place fs ∧ Spared place j fs

theorem orderly_stable : (amongOthers N place).Stable (Orderly N place) := fun _ _ h hr => (hr h).1

theorem own_stable (j : ℕ) : (amongOthers N place).Stable (Own N place j) :=
  fun _ _ h hr => ⟨(hr h.1).1, (hr h.1).2 j h.2⟩

end Names

section Changes

variable {N : Naming} {place : Directory → Loc} {fs fs' : FS} {p : List Name} {d : Directory} {j : ℕ}

theorem Harmless.refl (fs : FS) : Harmless N place fs fs := ⟨Respects.refl N place fs, fun _ => rfl⟩

theorem persists_of_node (hnode : fs'.node = fs.node) : FS.Persists fs fs' := by
  refine ⟨fun l hl => ?_, fun l t hl => ?_⟩
  · rw [hnode, hl]
  · rw [hnode, hl]

/-- The order is in the names. -/
theorem Orderly.of_node (h : Orderly N place fs) (hnode : fs'.node = fs.node) : Orderly N place fs' := by
  have hplain := h.plain
  refine ⟨⟨fun d => ?_, fun d => ?_, hplain.apart, fun l t hl => ?_, fun l l' i hl hl' => ?_, fun d p => ?_⟩, ?_⟩
  · exact fs.resolve_persists (persists_of_node hnode) (hplain.resolves d) (by rw [hnode])
  · rw [hnode]
    exact hplain.isDir d
  · rw [hnode]
    exact hplain.linkFree l t hl
  · rw [hnode]
    exact hplain.sole l l' i hl hl'
  · rw [hnode]
    exact hplain.short d p
  · intro d p
    rw [hnode]
    exact h.named d p

theorem harmless_of_same (hnode : fs'.node = fs.node) (hdata : fs'.data = fs.data) (hnext : fs'.next = fs.next) :
    Harmless N place fs fs' := by
  refine ⟨fun h => ⟨h.of_node hnode, fun j hj => ?_⟩, fun h => ?_⟩
  · rw [Spared, hnode, hnext]
    exact hj
  · funext p
    simp only [contents, FS.tree, FS.entry, hnode, hdata]

/-- Whoever writes to a file respects the order. -/
theorem respects_write (fs : FS) (j : ℕ) (content : Bytes) : Respects N place fs (fs.write j content) :=
  fun h => ⟨h.of_node rfl, fun _ hj => hj⟩

/-- Where no report is stored anything may be written. -/
theorem harmless_write (hj : Spared place j fs) (content : Bytes) : Harmless N place fs (fs.write j content) := by
  refine ⟨respects_write fs j content, fun _ => ?_⟩
  refine contents_eq_of_keeps (keeps_write fun l hl => ?_)
  obtain ⟨p, rfl⟩ := hl
  exact hj.2 p

theorem harmless_rewrites (hj : Spared place j fs) (h : Rewrites j fs fs') : Harmless N place fs fs' := by
  obtain ⟨content, rfl⟩ := h
  exact harmless_write hj content

/-- A change in one place, out of the reports, that keeps to what the name stands for. -/
theorem harmless_at (hd : d ≠ .reports) (hw : Within (· = p ++ place d) fs fs') (hnext : fs.next ≤ fs'.next)
    (hx : ∀ x, fs'.node (p ++ place d) = some x → N.kind p = some (kindOf x)) : Harmless N place fs fs' := by
  suffices hall : Orderly N place fs → Orderly N place fs' ∧ Keeps (place .reports <:+ ·) fs fs' by
    refine ⟨fun h => ⟨(hall h).1, fun j hj => ⟨hj.1.trans_le hnext, fun q => ?_⟩⟩,
      fun h => contents_eq_of_keeps (hall h).2⟩
    rw [(hall h).2.node _ (List.suffix_append ..)]
    exact hj.2 q
  intro h
  have hplain := h.plain
  have hdirs : ∀ e, fs'.node (place e) = some .dir := fun e => hw.persists.dirs _ (hplain.isDir e)
  have hnamed : ∀ e q x, fs'.node (q ++ place e) = some x → N.kind q = some (kindOf x) := by
    intro e q x hq
    by_cases hl : q ++ place e = p ++ place d
    · obtain rfl : e = d := hplain.unique (List.suffix_append q _) (hl ▸ List.suffix_append ..)
      obtain rfl := List.append_cancel_right hl
      exact hx x hq
    · rw [hw.node _ hl] at hq
      exact h.named e q x hq
  refine ⟨⟨⟨fun e => ?_, hdirs, hplain.apart, ?_, hw.sole _ _ hplain.sole, fun e q hq => ?_⟩, hnamed⟩, ?_⟩
  · exact fs.resolve_persists hw.persists (hplain.resolves e) ((hdirs e).trans (hplain.isDir e).symm)
  · rintro l t ⟨e, q, rfl⟩ ht
    exact N.plain q (hnamed e q _ ht)
  · obtain ⟨x, hx⟩ := Option.ne_none_iff_exists'.1 hq
    exact N.short q (by simp [hnamed e q x hx])
  · refine hw.keeps ?_ (hplain.sole.mono (fun _ hl => ⟨.reports, hl⟩) ?_)
    · rintro l hl rfl
      exact hd (hplain.unique (List.suffix_append p _) hl)
    · rintro _ rfl
      exact ⟨d, List.suffix_append ..⟩

end Changes

section Calls

variable {N : Naming} {place : Directory → Loc} {fs fs' : FS} {p : List Name} {d : Directory} {j : ℕ} {n : Name}

theorem Orderly.below (h : Orderly N place fs) (d : Directory) (p q : List Name) (t : Path) (hq : q ≠ [])
    (hs : q <:+ p) : fs.node (q ++ place d) ≠ some (.link t) :=
  h.plain.linkFree.below (fun _ => ⟨d, List.suffix_append ..⟩) p q t hq hs

/-- A path below one of the directories leads to its place or nowhere. -/
theorem Orderly.resolve (h : Orderly N place fs) (hp : N.kind p ≠ none) {l : Loc}
    (hl : fs.resolve (pathOf d.path p) = some l) : l = p ++ place d := by
  rw [resolve_pathOf (h.plain.resolves d) p (h.below d p) (N.valid p hp)] at hl
  split_ifs at hl
  exact (Option.some.inj hl).symm

theorem Orderly.resolveEntry (h : Orderly N place fs) (hp : N.kind (n :: p) ≠ none) {l : Loc}
    (hl : fs.resolveEntry (pathOf d.path (n :: p)) = some l) : l = n :: p ++ place d := by
  rw [resolveEntry_pathOf (h.plain.resolves d) (h.below d p) (N.valid _ hp)] at hl
  split_ifs at hl
  exact (Option.some.inj hl).symm

/-- What is called a file is one, if it is there. -/
theorem Orderly.file (h : Orderly N place fs) (hp : N.kind p = some .regular) :
    fs.node (p ++ place d) = none ∨ ∃ i, fs.node (p ++ place d) = some (.file i) := by
  rcases hx : fs.node (p ++ place d) with _ | _ | i | t
  · exact .inl rfl
  · have hkind := h.named d p _ hx
    rw [hp] at hkind
    cases hkind
  · exact .inr ⟨i, rfl⟩
  · have hkind := h.named d p _ hx
    rw [hp] at hkind
    cases hkind

theorem mkdir_harmless (h : Orderly N place fs) (hd : d ≠ .reports) (hp : N.kind p = some .directory) (c : Choice) :
    Harmless N place fs (exec c (.mkdir (pathOf d.path p) 0o7) fs).2 := by
  obtain he | ⟨m, k, hk, hm, hfree, hr, he⟩ := exec_mkdir_cases c (pathOf d.path p) 0o7 fs
  · rw [he]
    exact .refl fs
  have hplace : m :: k = p ++ place d := by
    cases p with
    | nil =>
      have hno := mkdir_existing (pathOf d.path []) 0o7 (h.plain.resolves d) (by simp [h.plain.isDir d])
      rw [hr, Option.bind_some, FS.makeDir, dif_pos ⟨hk, hm, hfree⟩] at hno
      cases hno
    | cons n p =>
      have hkind : N.kind (n :: p) ≠ none := by simp [hp]
      obtain ⟨hn, hslash⟩ := N.valid _ hkind n (List.mem_cons_self ..)
      rw [pathOf, stripSlashes_join _ hn.1 hslash, ← pathOf] at hr
      exact h.resolveEntry hkind hr
  rw [he]
  refine harmless_at hd (within_addDir hplace) le_rfl fun x hx => ?_
  rw [FS.node_addDir, if_pos hplace.symm] at hx
  cases hx
  exact hp

theorem openWrite_next {path : Path} {f : FILE} (ho : fs.openWrite path = (some f, fs')) : fs.next ≤ fs'.next := by
  unfold FS.openWrite at ho
  rcases hr : fs.resolve path with _ | l
  · rw [hr] at ho
    cases ho
  rw [hr] at ho
  dsimp only at ho
  rcases hl : fs.node l with _ | _ | i | t
  · rw [hl] at ho
    rcases l with _ | ⟨m, k⟩
    · cases ho
    simp only [FS.create] at ho
    split_ifs at ho
    · cases ho
      exact Nat.le_succ _
    · cases ho
  · rw [hl] at ho
    cases ho
  · rw [hl] at ho
    cases ho
    exact le_rfl
  · rw [hl] at ho
    cases ho

/-- What is opened for writing is a file that no report is stored in. -/
theorem openWrite_harmless (h : Orderly N place fs) (hd : d ≠ .reports) (hp : N.kind p = some .regular)
    (ho : fs.openWrite (pathOf d.path p) = (some ⟨some j, .wb, 0, []⟩, fs')) :
    Harmless N place fs fs' ∧ Spared place j fs' := by
  have hresolve : fs.resolve (pathOf d.path p) = some (p ++ place d) := by
    cases hr : fs.resolve (pathOf d.path p) with
    | none =>
      rw [FS.openWrite, hr] at ho
      cases ho
    | some l => rw [h.resolve (by simp [hp]) hr]
  obtain ⟨j', fs'', he, hj, -, hw⟩ := openWrite_opens hresolve
    (by rcases h.file (d := d) hp with hn | ⟨i, hn⟩ <;> simp [hn])
    (by rcases h.file (d := d) hp with hn | ⟨i, hn⟩ <;> simp [hn])
  rw [he] at ho
  cases ho
  have hharmless : Harmless N place fs fs' := by
    refine harmless_at hd hw (openWrite_next he) fun x hx => ?_
    rw [hj] at hx
    cases hx
    exact hp
  have hplain := (hharmless.1 h).1.plain
  refine ⟨hharmless, fs'.node_fresh hj, fun q hq => hd ?_⟩
  -- a file has one name in the directories
  have hsame := hplain.sole _ _ j ⟨d, List.suffix_append ..⟩ ⟨.reports, List.suffix_append ..⟩ hj hq
  exact hplain.unique (List.suffix_append p _) (hsame ▸ List.suffix_append ..)

theorem remove_harmless (h : Orderly N place fs) (hd : d ≠ .reports) (hp : N.kind p = some .regular) (c : Choice) :
    Harmless N place fs (exec c (.remove (pathOf d.path p)) fs).2 := by
  obtain he | ⟨m, k, hbelow, hr, hne, he⟩ := exec_remove_cases c (pathOf d.path p) fs
  · rw [he]
    exact .refl fs
  rcases p with _ | ⟨n, p⟩
  · have hkind := h.named d [] _ (h.plain.isDir d)
    rw [hp] at hkind
    cases hkind
  have hplace := h.resolveEntry (by simp [hp]) hr
  obtain ⟨i, hi⟩ := (h.file (d := d) hp).resolve_left (hplace ▸ hne)
  rw [he]
  refine harmless_at hd (within_unlink hplace (hplace ▸ hi)) le_rfl fun x hx => ?_
  rw [FS.node_unlink, if_pos hplace.symm] at hx
  cases hx

/-- The answers tell what the names stand for. -/
theorem stat_named (h : Orderly N place fs) (hp : N.kind p ≠ none) {c : Choice} {t : FileType}
    (ht : (exec c (.stat (pathOf d.path p)) fs).1 = some t) :
    (N.kind p = some .directory ↔ t = .directory) ∧ (t ≠ .directory → N.kind p = some .regular) := by
  obtain ⟨l, hl, hne, hdir⟩ := stat_answers ht
  obtain rfl := h.resolve hp hl
  obtain ⟨x, hx⟩ := Option.ne_none_iff_exists'.1 hne
  have hkind := h.named d p x hx
  rw [hx] at hdir
  rw [← hdir, hkind]
  rcases x with _ | i | t'
  · exact ⟨⟨fun _ => rfl, fun _ => rfl⟩, fun hno => absurd (hdir.1 rfl) hno⟩
  · exact ⟨⟨nofun, nofun⟩, fun _ => rfl⟩
  · exact absurd hkind (N.plain p)

theorem opendir_named (h : Orderly N place fs) (hp : N.kind p ≠ none) {c : Choice} {entries : List Name}
    (hentries : (exec c (.opendir (pathOf d.path p)) fs).1 = some entries) (hn : n ∈ entries)
    (hdots : ¬ (n = dot ∨ n = dotDot)) : N.kind (n :: p) ≠ none := by
  obtain ⟨l, hl, -, hall⟩ := opendir_answers hentries
  obtain rfl := h.resolve hp hl
  obtain ⟨x, hx⟩ := Option.ne_none_iff_exists'.1 (hall n hn hdots)
  rw [h.named d (n :: p) x hx]
  simp

end Calls

section Transaction

variable {N : Naming} {place : Directory → Loc} {fs : FS} {j : ℕ} {I : FS → Prop}

/-- `I` is what a run is sure of, with all the order. -/
structure Sure (N : Naming) (place : Directory → Loc) (I : FS → Prop) : Prop where
  stable : (amongOthers N place).Stable I
  orderly : ∀ fs, I fs → Orderly N place fs

theorem sure_orderly : Sure N place (Orderly N place) := ⟨orderly_stable N place, fun _ h => h⟩

theorem sure_own (j : ℕ) : Sure N place (Own N place j) := ⟨own_stable N place j, fun _ h => h.1⟩

theorem Sure.keeps (hI : Sure N place I) {fs' : FS} (h : I fs) (hharmless : Harmless N place fs fs') :
    Harmless N place fs fs' ∧ I fs' := ⟨hharmless, hI.stable _ _ h hharmless.1⟩

/-- A harmless call. -/
theorem Sure.call (hI : Sure N place I) {α : Type} {post : Option α → FS → Prop} {op : Sys} {next : op.Res → Prog α}
    (h : I fs) (hop : ∀ c fs, I fs → Harmless N place fs (exec c op fs).2)
    (hnext : ∀ c fs, I fs → I (exec c op fs).2 →
      (amongOthers N place).Meets post (next (exec c op fs).1) (exec c op fs).2) :
    (amongOthers N place).Meets post (.call op next) fs :=
  Terms.Meets.keep_call hI.stable h (fun c fs hfs => hI.keeps hfs (hop c fs hfs)) hnext

theorem copyLoop_safe (fuel : ℕ) : ∀ (source dest : FILE) (fs : FS), Reads source → Writes j dest →
    Own N place j fs → (amongOthers N place).Meets
      (Terms.Keeping (Own N place j) fun r => Reads r.1 ∧ Writes j r.2) (copyLoop fuel source dest) fs := by
  induction fuel with
  | zero => exact fun _ _ _ _ _ h => Terms.Meets.keep_halt (own_stable N place j) h
  | succ fuel ih =>
    intro source dest fs hs hd h
    rw [copyLoop_succ]
    refine (sure_own j).call h (fun _ fs _ => .refl fs) fun c fs h _ => ?_
    have hs' := exec_fread_reads fs c bufferSize hs
    split_ifs
    · refine (sure_own j).call h (fun c fs h => ?_) fun c fs _ h => ?_
      · exact harmless_rewrites h.2 (exec_fwrite_writes fs c _ hd).2
      · exact ih _ _ _ hs' (exec_fwrite_writes fs c _ hd).1 h
    · exact Terms.Meets.keep_ret (own_stable N place j) h ⟨hs', hd⟩

theorem hashLoop_safe (hI : Sure N place I) (fuel : ℕ) : ∀ (f : FILE) (seen : Bytes) (fs : FS), I fs →
    (amongOthers N place).Meets (Terms.Keeping I fun r => ∃ pos, r.2 = { f with pos }) (hashLoop fuel f seen) fs := by
  induction fuel with
  | zero => exact fun _ _ _ h => Terms.Meets.keep_halt hI.stable h
  | succ fuel ih =>
    intro f seen fs h
    rw [hashLoop_succ]
    refine hI.call h (fun _ fs _ => .refl fs) fun c fs _ h => ?_
    split_ifs
    · refine (ih _ _ _ h).keep_mono ?_
      rintro r ⟨pos, hr⟩
      exact ⟨pos, hr⟩
    · exact Terms.Meets.keep_ret hI.stable h ⟨_, rfl⟩

theorem hashFile_reads_safe (hI : Sure N place I) (sha256 : Bytes → Bytes) (fuel : ℕ) {f : FILE} (hf : Reads f)
    (h : I fs) : (amongOthers N place).Meets (Terms.Keeping I fun r => Reads r.2) (hashFile sha256 fuel f) fs := by
  rw [hashFile_eq]
  refine hI.call h (fun c fs _ => ?_) fun c fs _ h => ?_
  · rw [(exec_fseek_reads fs c hf).2]
    exact .refl fs
  · refine (hashLoop_safe hI fuel _ [] _ h).keep_bind (fun _ h => h) fun r fs' hr h => ?_
    obtain ⟨pos, hpos⟩ := hr
    have hreads := (exec_fseek_reads fs c hf).1
    exact Terms.Meets.keep_ret hI.stable h (hpos ▸ ⟨hreads.mode, hreads.pending⟩)

theorem hashFile_writes_safe (sha256 : Bytes → Bytes) (fuel : ℕ) {f : FILE} (hf : Writes j f)
    (h : Own N place j fs) : (amongOthers N place).Meets (Terms.Keeping (Own N place j) fun r => Writes j r.2)
      (hashFile sha256 fuel f) fs := by
  rw [hashFile_eq]
  refine (sure_own j).call h (fun c fs h => ?_) fun c fs _ h => ?_
  · exact harmless_rewrites h.2 (exec_fseek_writes fs c hf).2
  · refine (hashLoop_safe (sure_own j) fuel _ [] _ h).keep_bind (fun _ h => h) fun r fs' hr h => ?_
    obtain ⟨pos, hpos⟩ := hr
    have hwrites := (exec_fseek_writes fs c hf).1
    exact Terms.Meets.keep_ret (own_stable N place j) h (hpos ▸ ⟨hwrites.mode, hwrites.ino⟩)

theorem verifyFiles_safe (sha256 : Bytes → Bytes) (fuel : ℕ) {source dest : FILE} (hs : Reads source)
    (hd : Writes j dest) (h : Own N place j fs) : (amongOthers N place).Meets
      (Terms.Keeping (Own N place j) fun v => Reads v.2.1 ∧ Writes j v.2.2) (verifyFiles sha256 fuel source dest)
      fs := by
  rw [verifyFiles_eq]
  refine (hashFile_reads_safe (sure_own j) sha256 fuel hs h).keep_bind (fun _ h => h) fun s fs hs h => ?_
  refine (hashFile_writes_safe sha256 fuel hd h).keep_bind (fun _ h => h) fun d fs hd h => ?_
  split_ifs
  · exact Terms.Meets.keep_ret (own_stable N place j) h ⟨hs, hd⟩
  · exact Terms.Meets.keep_ret (own_stable N place j) h ⟨hs, hd⟩

theorem opened_reads {c : Choice} {path : Path} {f : FILE} (h : (exec c (.fopen path .rb) fs).1 = some f) :
    Reads f := by
  simp only [exec] at h
  split_ifs at h
  obtain ⟨l, -, hl⟩ := Option.bind_eq_some_iff.mp h
  rcases hn : fs.node l with _ | _ | i | t
  · rw [hn] at hl
    cases hl
  · rw [hn] at hl
    cases hl
    exact ⟨rfl, rfl⟩
  · rw [hn] at hl
    cases hl
    exact ⟨rfl, rfl⟩
  · rw [hn] at hl
    cases hl

/-- A transaction out of `s` and into `d`; only what is taken away must not be a report. -/
theorem transactTransferFile_safe {s d : Directory} {p : List Name} {method : TransferMethod}
    (hd : d ≠ .reports) (hs : method = .transfer → s ≠ .reports) (hp : N.kind p = some .regular)
    (sha256 : Bytes → Bytes) (fuel : ℕ) (h : Orderly N place fs) : (amongOthers N place).Meets
      (Terms.Keeping (Orderly N place) fun _ => True)
      (transactTransferFile sha256 fuel (pathOf s.path p) (pathOf d.path p) method) fs := by
  rw [transactTransferFile_eq]
  refine sure_orderly.call h (fun _ fs _ => .refl fs) fun c₁ fs₁ _ h => ?_
  rcases hopen : (exec c₁ (.fopen (pathOf s.path p) .rb) fs₁).1 with _ | source
  · exact Terms.Meets.keep_ret sure_orderly.stable h trivial
  have hreads := opened_reads hopen
  have hopens : ∀ c fs, Orderly N place fs → Harmless N place fs (exec c (.fopen (pathOf d.path p) .wb) fs).2 ∧
      ∀ f, (exec c (.fopen (pathOf d.path p) .wb) fs).1 = some f →
        ∃ j, Writes j f ∧ Spared place j (exec c (.fopen (pathOf d.path p) .wb) fs).2 := by
    intro c fs h
    obtain ⟨j, fs', ho, he⟩ | he := exec_fopen_wb_cases c (pathOf d.path p) fs
    · obtain ⟨hharmless, hspared⟩ := openWrite_harmless h hd hp ho
      rw [he]
      refine ⟨hharmless, ?_⟩
      rintro _ ⟨⟩
      exact ⟨j, ⟨rfl, rfl⟩, hspared⟩
    · rw [he]
      exact ⟨.refl fs, nofun⟩
  refine sure_orderly.call h (fun c fs h => (hopens c fs h).1) fun c₂ fs₂ h₁ h => ?_
  rcases hopen₂ : (exec c₂ (.fopen (pathOf d.path p) .wb) fs₂).1 with _ | dest
  · refine sure_orderly.call h (fun c fs _ => ?_) fun _ _ _ h => Terms.Meets.keep_ret sure_orderly.stable h trivial
    rw [exec_fclose_reads fs c hreads]
    exact .refl fs
  obtain ⟨j, hwrites, hspared⟩ := (hopens c₂ fs₂ h₁).2 dest hopen₂
  have howned : ∀ fs, Own N place j fs → Orderly N place fs := fun _ h => h.1
  refine (copyLoop_safe fuel source dest _ hreads hwrites ⟨h, hspared⟩).keep_bind howned fun r fs hr h => ?_
  refine (verifyFiles_safe sha256 fuel hr.1 hr.2 h).keep_bind howned fun v fs hv h => ?_
  unfold finish
  refine (sure_own j).call h (fun c fs h => harmless_rewrites h.2 (exec_fclose_writes fs c hv.2)) fun _ fs _ h => ?_
  refine (sure_own j).call h (fun c fs _ => ?_) fun _ fs _ h => ?_
  · rw [exec_fclose_reads fs c hv.1]
    exact .refl fs
  split_ifs
  · exact Terms.Meets.keep_ret sure_orderly.stable h.1 trivial
  cases method with
  | backup => exact Terms.Meets.keep_ret sure_orderly.stable h.1 trivial
  | transfer =>
    refine sure_orderly.call h.1 (fun c fs h => remove_harmless h (hs rfl) hp c) fun _ _ _ h => ?_
    exact Terms.Meets.keep_ret sure_orderly.stable h trivial

end Transaction

section Runs

variable {N : Naming} {place : Directory → Loc} {fs : FS} {s d : Directory} {method : TransferMethod}
  {sha256 : Bytes → Bytes} {stack fuel : ℕ} {α β : Type}

/-- A run among others that keeps the order. -/
def Safe (N : Naming) (place : Directory → Loc) (p : Prog α) (fs : FS) : Prop :=
  (amongOthers N place).Meets (Terms.Keeping (Orderly N place) fun _ => True) p fs

theorem safe_ret (a : α) (h : Orderly N place fs) : Safe N place (Program.ret a : Prog α) fs :=
  Terms.Meets.keep_ret sure_orderly.stable h trivial

theorem safe_bind {p : Prog α} {f : α → Prog β} (hp : Safe N place p fs)
    (hf : ∀ a fs, Orderly N place fs → Safe N place (f a) fs) : Safe N place (p >>= f) fs :=
  hp.keep_bind (fun _ h => h) fun a fs _ h => hf a fs h

theorem safe_foldlM {γ : Type} {f : β → γ → Prog β} {l : List γ}
    (hf : ∀ x ∈ l, ∀ b fs, Orderly N place fs → Safe N place (f b x) fs) (b : β) (h : Orderly N place fs) :
    Safe N place (l.foldlM f b) fs := by
  induction l generalizing b fs with
  | nil => exact safe_ret b h
  | cons x l ih =>
    rw [List.foldlM_cons]
    exact safe_bind (hf x (List.mem_cons_self ..) b fs h) fun b fs h =>
      ih (fun y hy => hf y (List.mem_cons_of_mem _ hy)) b h

theorem safe_quiet {op : Sys} {next : op.Res → Prog α} (h : Orderly N place fs)
    (hop : ∀ c fs, (exec c op fs).2.node = fs.node ∧ (exec c op fs).2.data = fs.data ∧
      (exec c op fs).2.next = fs.next)
    (hnext : ∀ c fs, Orderly N place fs → Orderly N place (exec c op fs).2 →
      Safe N place (next (exec c op fs).1) (exec c op fs).2) : Safe N place (.call op next) fs :=
  sure_orderly.call h (fun c fs _ => harmless_of_same (hop c fs).1 (hop c fs).2.1 (hop c fs).2.2) hnext

theorem transferDirectory_safe (hd : d ≠ .reports) (hs : method = .transfer → s ≠ .reports) (sha256 : Bytes → Bytes)
    (fuel stack : ℕ) : ∀ (p : List Name) (fs : FS), N.kind p = some .directory → Orderly N place fs →
      Safe N place (transferDirectory (systemCalls sha256 fuel) stack (pathOf s.path p) (pathOf d.path p) method)
        fs := by
  induction stack with
  | zero => exact fun _ _ _ h => Terms.Meets.keep_halt sure_orderly.stable h
  | succ stack ih =>
    intro p fs hp h
    have hkind : N.kind p ≠ none := by simp [hp]
    rw [transferDirectory_succ, systemCalls_mkdir, Program.perform_bind]
    refine sure_orderly.call h (fun c fs h => mkdir_harmless h hd hp c) fun _ fs _ h => ?_
    rw [systemCalls_opendir, Program.perform_bind]
    refine safe_quiet h (fun c fs => by simp [exec_opendir_state]) fun c fs₁ h₁ h => ?_
    rcases hdir : (exec c (.opendir (pathOf s.path p)) fs₁).1 with _ | entries
    · exact safe_ret _ h
    refine safe_foldlM (fun n hn errors fs h => ?_) 0 h
    by_cases hdots : n = dot ∨ n = dotDot
    · rw [processEntry_dots _ _ _ _ _ _ hdots]
      exact safe_ret _ h
    have hentry : N.kind (n :: p) ≠ none := opendir_named h₁ hkind hdir hn hdots
    rw [processEntry_eq _ _ _ _ _ _ hdots, joinPath_eq (N.short _ hentry s), joinPath_eq (N.short _ hentry d),
      ← pathOf, ← pathOf, systemCalls_stat, Program.perform_bind]
    refine safe_quiet h (fun c fs => ⟨rfl, rfl, rfl⟩) fun c fs₂ h₂ h => ?_
    rcases hstat : (exec c (.stat (pathOf s.path (n :: p))) fs₂).1 with _ | t
    · exact safe_ret _ h
    obtain ⟨hdirectory, hfile⟩ := stat_named h₂ hentry hstat
    by_cases ht : t = .directory
    · subst ht
      exact safe_bind (ih (n :: p) _ (hdirectory.2 rfl) h) fun _ _ h => safe_ret _ h
    · have htransact : Safe N place (transactTransferFile sha256 fuel (pathOf s.path (n :: p))
          (pathOf d.path (n :: p)) method >>= fun status =>
            if status ≠ transactSuccess then Program.ret (errors + 1) else Program.ret errors)
          (exec c (.stat (pathOf s.path (n :: p))) fs₂).2 := by
        refine safe_bind (transactTransferFile_safe hd hs (hfile ht) sha256 fuel h) fun status fs h => ?_
        split_ifs
        · exact safe_ret _ h
        · exact safe_ret _ h
      cases t with
      | directory => exact absurd rfl ht
      | regular => exact htransact
      | symlink => exact htransact

/-- Walks that change permissions do no harm. -/
theorem walk_safe {Q : α → Prop} {p : Prog α} (hp : p.Always (fun op _ => Recovery.walking op = true) Q)
    (h : Orderly N place fs) : Safe N place p fs := by
  induction p generalizing fs with
  | ret a => exact safe_ret a h
  | halt => exact Terms.Meets.keep_halt sure_orderly.stable h
  | call op next ih =>
    refine safe_quiet h (fun c fs => ?_) fun c fs _ h => ih _ (hp _).2 h
    exact Recovery.exec_walking (hp (exec c op fs).1).1 c fs

theorem moveDirectory_safe (hd : d ≠ .reports) (hs : method = .transfer → s ≠ .reports) (h : Orderly N place fs) :
    Safe N place (moveDirectory sha256 stack fuel s d method) fs :=
  transferDirectory_safe hd hs sha256 fuel stack [] fs (h.named s [] _ (h.plain.isDir s)) h

theorem timerRun_safe (method : TransferMethod) (h : Orderly N place fs) :
    Safe N place (Timers.timerRun Timers.scheduled stack sha256 fuel method) fs := by
  have hwalk : ∀ mode path fs, Orderly N place fs →
      Safe N place (Timers.nftw (Timers.setPermissions mode) stack path) fs :=
    fun mode path fs h => walk_safe (Recovery.nftw_walking mode stack path) h
  cases method with
  | backup =>
    have hmove : ∀ fs, Orderly N place fs →
        Safe N place (moveDirectory sha256 stack fuel .reports .dashboard .backup) fs :=
      fun fs h => moveDirectory_safe (by decide) nofun h
    refine safe_bind (safe_bind (hwalk 0o440 _ _ h) fun _ _ h => ?_) fun _ _ h => ?_
    · exact safe_bind (hwalk 0o440 _ _ h) fun _ _ h => safe_ret _ h
    refine safe_bind (hmove _ h) fun _ _ h => safe_bind (hwalk 0o440 _ _ h) fun _ _ h => ?_
    exact safe_bind (hwalk 0o660 _ _ h) fun _ _ h => safe_ret _ h
  | transfer =>
    have hmove : ∀ fs, Orderly N place fs →
        Safe N place (moveDirectory sha256 stack fuel .dashboard .backup .transfer) fs :=
      fun fs h => moveDirectory_safe (by decide) (fun _ => by decide) h
    refine safe_bind (safe_bind (hwalk 0o440 _ _ h) fun _ _ h => safe_ret _ h) fun _ _ h => ?_
    refine safe_bind (hmove _ h) fun _ _ h => ?_
    exact safe_bind (hwalk 0o660 _ _ h) fun _ _ h => safe_ret _ h

/-- Of all that can be asked for, only `--transfer` on the command line takes reports away. -/
theorem entryRun_safe {e : EntryPoint} (hkeeps : (e, method) ≠ (.commandLine, .transfer)) (h : Orderly N place fs) :
    Safe N place (entryRun sha256 stack fuel e method) fs := by
  have hd : (moves e method).2 ≠ .reports := by cases e <;> cases method <;> decide
  have hs : method = .transfer → (moves e method).1 ≠ .reports := by
    rintro rfl
    cases e <;> first | decide | exact absurd rfl hkeeps
  have hmove : Safe N place (moveDirectory sha256 stack fuel (moves e method).1 (moves e method).2 method) fs :=
    moveDirectory_safe hd hs h
  cases e with
  | client =>
    obtain ⟨answer, ha⟩ := handleCommand_request sha256 stack fuel [] [] method
    have hrun : entryRun sha256 stack fuel .client method =
        handleCommand sha256 stack fuel [] [] (request method) >>= fun _ => .ret () := by
      cases method <;> rfl
    rw [hrun, ha]
    exact safe_bind (safe_bind hmove fun _ _ h => safe_ret _ h) fun _ _ h => safe_ret _ h
  | commandLine =>
    cases method with
    | backup => exact safe_bind hmove fun _ _ h => safe_ret _ h
    | transfer => exact safe_bind hmove fun _ _ h => safe_ret _ h
  | timer =>
    cases method with
    | backup => exact timerRun_safe .backup h
    | transfer => exact timerRun_safe .transfer h

end Runs

section World

variable {ι : Type} (N : Naming) (place : Directory → Loc)

/-- All that is ever asked for, as far as it has come, and the reports as their users have left them. -/
structure World (ι : Type) where
  runs : Pool ι Sys Sys.Res Unit FS
  reports : Tree Name Bytes

/-- Any run makes a call, which may fail; any run is killed; or the users do something. -/
inductive Step [DecidableEq ι] : World ι → World ι → Prop
  | call {w : World ι} {runs : Pool ι Sys Sys.Res Unit FS} (h : Pool.Step exec (fun _ => True) w.runs runs) :
      Step w { w with runs }
  | kill (w : World ι) (i : ι) :
      Step w { w with runs := ⟨Function.update w.runs.programs i .halt, w.runs.state⟩ }
  | user (w : World ι) (fs : FS) (h : Respects N place w.runs.state fs) :
      Step w ⟨⟨w.runs.programs, fs⟩, contents place fs .reports⟩

variable {N place} {w w' : World ι} {fs : FS} {sha256 : Bytes → Bytes} {stack fuel : ℕ} {requests : ι → Request}

/-- All runs are safe, and the reports are as their users have left them. -/
def InOrder (N : Naming) (place : Directory → Loc) (w : World ι) : Prop :=
  w.runs.Meets (fun _ => amongOthers N place) (fun _ => Terms.Keeping (Orderly N place) fun _ => True)
    fun fs => Orderly N place fs ∧ contents place fs .reports = w.reports

theorem compatible (X : Tree Name Bytes) : Pool.Compatible exec (fun _ => True)
    (fun _ : ι => amongOthers N place) fun fs => Orderly N place fs ∧ contents place fs .reports = X where
  exec _ := rfl
  allowed _ _ _ := trivial
  shared _ _ _ _ _ h hguarantee := ⟨(hguarantee.1 h.1).1, (hguarantee.2 h.1).trans h.2⟩
  rely _ _ _ _ _ _ _ _ hguarantee := hguarantee.1

theorem InOrder.step [DecidableEq ι] (h : InOrder N place w) (hstep : Step N place w w') : InOrder N place w' := by
  cases hstep with
  | call hcall => exact Pool.Meets.step h (compatible _) hcall
  | kill i =>
    refine ⟨fun k => ?_, h.shared⟩
    by_cases hk : k = i
    · subst hk
      change (amongOthers N place).Meets _ (Function.update w.runs.programs k .halt k) _
      rw [Function.update_self]
      exact Terms.Meets.keep_halt sure_orderly.stable h.shared.1
    · change (amongOthers N place).Meets _ (Function.update w.runs.programs i .halt k) _
      rw [Function.update_of_ne hk]
      exact h.each k
  | user fs hrespects =>
    exact ⟨fun k => (h.each k).stable hrespects, (hrespects h.shared.1).1, rfl⟩

theorem InOrder.run [DecidableEq ι] (h : InOrder N place w) (hrun : Relation.ReflTransGen (Step N place) w w') :
    InOrder N place w' := by
  induction hrun with
  | refl => exact h
  | tail _ hstep ih => exact ih.step hstep

theorem inOrder_started (hkeeps : ∀ i, requests i ≠ (.commandLine, .transfer)) (h : Orderly N place fs) :
    InOrder N place ⟨Concurrent.started sha256 stack fuel requests fs, contents place fs .reports⟩ :=
  ⟨fun i => entryRun_safe (hkeeps i) h, h, rfl⟩

theorem Orderly.agrees (h : Orderly N place fs) : Agrees (contents place fs) := by
  intro d e p hp
  by_contra hdir
  rw [Bool.not_eq_false, isDir_iff] at hdir
  obtain ⟨c, hc⟩ := isFile_iff.1 hp
  obtain ⟨i, hi, -⟩ := fs.node_of_entry_file hc
  have hfile := h.named d p _ hi
  rw [h.named e p _ (fs.entry_dir.1 hdir)] at hfile
  cases hfile

/-- Whatever runs and users do to the directories at the same time, the reports are what their users have made of
them, and a backup and a transfer that are then let alone archive them all. -/
theorem runs_archive [DecidableEq ι] (hkeeps : ∀ i, requests i ≠ (.commandLine, .transfer))
    (h : Orderly N place fs) (hrun : Relation.ReflTransGen (Step N place)
      ⟨Concurrent.started sha256 stack fuel requests fs, contents place fs .reports⟩ w) :
    Plain place w.runs.state ∧ Agrees (contents place w.runs.state) ∧
      contents place w.runs.state .reports = w.reports ∧
      ∀ fs', History place sha256 w.runs.state [.backup, .transfer] fs' → ∀ p,
        contents place fs' .backup p = (w.reports p).or (view (contents place w.runs.state) p) := by
  obtain ⟨horderly, hreports⟩ := ((inOrder_started hkeeps h).run hrun).shared
  refine ⟨horderly.plain, horderly.agrees, hreports, fun fs' hhistory p => ?_⟩
  have hstore := congrArg (fun A => A.archived p) (hhistory.refines horderly.plain horderly.agrees)
  rw [← hreports]
  exact hstore

/-- The one report of the sample. -/
def oneReport : Naming where
  kind p := if p = [] then some .directory else if p = [bytes "a"] then some .regular else none
  plain p := by split_ifs <;> simp
  valid p hp := by
    split_ifs at hp with hroot hreport
    · simp [hroot]
    · simpa [hreport] using validName_a
    · exact absurd rfl hp
  short p hp d := by
    split_ifs at hp with hroot hreport
    · rw [hroot]
      cases d <;> decide
    · rw [hreport]
      cases d <;> decide
    · exact absurd rfl hp

theorem sample_orderly : Orderly oneReport standard sample := by
  refine ⟨sample_plain, fun d p x hx => ?_⟩
  have hall := sample_forall (P := fun l => ∀ d : Directory, standard d <:+ l →
    (l = standard d ∧ sample.node l = some .dir) ∨ (l = bytes "a" :: standard d ∧ sample.node l = some (.file 0)))
    (by decide) (by simp [hx] : sample.node (p ++ standard d) ≠ none) d (List.suffix_append ..)
  rw [hx] at hall
  rcases hall with ⟨hroot, hdir⟩ | ⟨hreport, hfile⟩
  · obtain rfl := List.append_left_eq_self.1 hroot
    cases hdir
    rfl
  · obtain rfl : p = [bytes "a"] := List.append_cancel_right (hreport : p ++ standard d = [bytes "a"] ++ standard d)
    cases hfile
    rfl

/-- A client's backup and the scheduled one, … -/
def twoBackups : World Bool :=
  ⟨Concurrent.started id 8 8 Concurrent.backups sample, contents standard sample .reports⟩

/-- … which take turns until the scheduled one fails to open its source … -/
def turns : List (Bool × Choice) :=
  let failing : Choice := { Choice.plain with fails := true }
  List.replicate 4 (true, .plain) ++ List.replicate 9 (false, .plain) ++ List.replicate 2 (true, .plain) ++
    List.replicate 2 (false, .plain) ++ [(false, failing)]

def interrupted : World Bool :=
  { twoBackups with runs := turns.foldl (fun P t => Pool.turn exec P t.1 t.2) twoBackups.runs }

/-- … and the client's is killed … -/
def killed : World Bool :=
  { interrupted with runs := ⟨Function.update interrupted.runs.programs true .halt, interrupted.runs.state⟩ }

/-- … and after that the report is changed. -/
def changed : World Bool :=
  ⟨⟨killed.runs.programs, killed.runs.state.write 0 [2]⟩, contents standard (killed.runs.state.write 0 [2]) .reports⟩

/-- After a scheduled backup that is then let alone … -/
def backedUp : FS :=
  Retention.afterRun id .backup changed.runs.state.bound changed.runs.state.bound (fun _ => Choice.plain)
    changed.runs.state

/-- … and after a transfer. -/
def moved : FS := Retention.afterRun id .transfer backedUp.bound backedUp.bound (fun _ => Choice.plain) backedUp

/-- What the client's backup has begun is empty, and in the end the changed report is there. -/
theorem runs_archive_changed : Relation.ReflTransGen (Step oneReport standard) twoBackups changed ∧
    contents standard killed.runs.state .backup [bytes "a"] = some (.file []) ∧
    contents standard moved .backup [bytes "a"] = some (.file [2]) := by
  have hturns : Relation.ReflTransGen (Step oneReport standard) twoBackups interrupted :=
    Relation.ReflTransGen.lift (fun runs => { twoBackups with runs }) (fun _ _ h => .call h) _ _
      (Pool.turns_reach turns fun _ _ => trivial)
  have hkill : Step oneReport standard interrupted killed := .kill interrupted true
  have huser : Step oneReport standard killed changed := .user killed _ (respects_write killed.runs.state 0 [2])
  have hrun := (hturns.tail hkill).tail huser
  have hbackup : Archive.Step standard id changed.runs.state .backup backedUp :=
    .backup changed.runs.state changed.runs.state.bound changed.runs.state.bound _ le_rfl le_rfl fun _ => rfl
  have htransfer : Archive.Step standard id backedUp .transfer moved :=
    .transfer backedUp backedUp.bound backedUp.bound _ le_rfl le_rfl fun _ => rfl
  have hhistory : History standard id changed.runs.state [.backup, .transfer] moved :=
    .cons hbackup (.cons htransfer (.nil _))
  have hkeeps : ∀ client, Concurrent.backups client ≠ (.commandLine, .transfer) := by decide
  have harchived := (runs_archive hkeeps sample_orderly hrun).2.2.2 moved hhistory [bytes "a"]
  have hempty : contents standard killed.runs.state .backup [bytes "a"] = some (.file []) := by decide +kernel
  exact ⟨hrun, hempty, harchived.trans (by decide +kernel)⟩

end World

end Reportman.Interference
