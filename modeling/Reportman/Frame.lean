import Mathlib
import Reportman.Directories
import Reportman.Faults

/-!
# What a run leaves alone

Whatever calls fail, a run between two disjoint trees touches only two kinds of places: the paths of
the destination that are also paths of the source, where it makes directories and writes files, and,
for a `TRANSFER`, the files of the source, which it may take away. `Framed` says this about a state
of the run and the state it began in; it is an invariant of every single call.
-/
namespace Reportman.Frame
open Resumable FileSystem TransferFile TransferDirectory OverlayRun Directories Faults Overlay

/-- Files whose content the run may have changed: those at a path of the source, and new ones. -/
def Written (r : Run) (fs₀ : FS) (i : ℕ) : Prop :=
  fs₀.next ≤ i ∨ ∃ p, fs₀.node (p ++ r.ld) = some (.file i) ∧ fs₀.node (p ++ r.ls) ≠ none

/-- A directory, or a file that the run has created. -/
def New (fs₀ : FS) : Option Node → Prop
  | some .dir => True
  | some (.file i) => fs₀.next ≤ i
  | _ => False

/-- How a location may differ from what it was. -/
inductive Kept (r : Run) (fs₀ : FS) (l : Loc) (now : Option Node) : Prop
  | same (h : now = fs₀.node l)
  | created (p : List Name) (hl : l = p ++ r.ld) (hp : fs₀.node (p ++ r.ls) ≠ none)
      (free : fs₀.node l = none) (new : New fs₀ now)
  | removed (p : List Name) (hl : l = p ++ r.ls) (i : ℕ) (file : fs₀.node l = some (.file i))
      (hm : r.method = .transfer) (gone : now = none)

structure Framed (r : Run) (fs₀ fs : FS) : Prop where
  kept : ∀ l, Kept r fs₀ l (fs.node l)
  data : ∀ i, fs.data i ≠ fs₀.data i → Written r fs₀ i
  next : fs₀.next ≤ fs.next

section Framed

variable {r : Run} {fs₀ fs fs' : FS}

theorem Framed.start : Framed r fs₀ fs₀ :=
  ⟨fun _ => .same rfl, fun _ h => absurd rfl h, le_rfl⟩

theorem Framed.persists (h : Framed r fs₀ fs) : FS.Persists fs₀ fs := by
  constructor
  · intro l hl
    rcases h.kept l with hs | ⟨p, _, _, hf, _⟩ | ⟨p, _, i, hf, _, _⟩
    · rw [hs, hl]
    · rw [hf] at hl; cases hl
    · rw [hf] at hl; cases hl
  · intro l t hl
    rcases h.kept l with hs | ⟨p, _, _, hf, _⟩ | ⟨p, _, i, hf, _, _⟩
    · rw [hs, hl]
    · rw [hf] at hl; cases hl
    · rw [hf] at hl; cases hl

theorem Framed.linkFree (h : Framed r fs₀ fs) (h₀ : Ready r fs₀) : LinkFree r.footprint fs := by
  intro l t hl ht
  rcases h.kept l with hs | ⟨p, _, _, _, hn⟩ | ⟨p, _, i, _, _, hn⟩
  · exact h₀.linkFree l t hl (hs ▸ ht)
  · rw [ht] at hn; exact hn
  · rw [ht] at hn; cases hn

/-- Below the source only files have gone. -/
theorem Framed.source_node (h : Framed r fs₀ fs) (h₀ : Ready r fs₀) {p : List Name}
    (hp : fs.node (p ++ r.ls) ≠ none) : fs.node (p ++ r.ls) = fs₀.node (p ++ r.ls) := by
  rcases h.kept (p ++ r.ls) with hs | ⟨q, hl, _, _, _⟩ | ⟨q, _, i, _, _, hn⟩
  · exact hs
  · exact absurd hl (h₀.apart p q)
  · exact absurd hn hp

theorem Framed.dest_node (h : Framed r fs₀ fs) (h₀ : Ready r fs₀) (p : List Name) :
    fs.node (p ++ r.ld) = fs₀.node (p ++ r.ld) ∨
      (fs₀.node (p ++ r.ls) ≠ none ∧ fs₀.node (p ++ r.ld) = none ∧ New fs₀ (fs.node (p ++ r.ld))) := by
  rcases h.kept (p ++ r.ld) with hs | ⟨q, hl, hq, hf, hn⟩ | ⟨q, hl, i, _, _, _⟩
  · exact .inl hs
  · rw [List.append_cancel_right hl]
    exact .inr ⟨hq, List.append_cancel_right hl ▸ hf, List.append_cancel_right hl ▸ hn⟩
  · exact absurd hl.symm (h₀.apart q p)

theorem Framed.resolve_source (h : Framed r fs₀ fs) (h₀ : Ready r fs₀) :
    fs.resolve r.source = some r.ls :=
  fs₀.resolve_persists h.persists h₀.source (by rw [h₀.sourceDir, h.persists.dirs _ h₀.sourceDir])

theorem Framed.resolve_dest (h : Framed r fs₀ fs) (h₀ : Ready r fs₀) :
    fs.resolve r.destination = some r.ld := by
  refine fs₀.resolve_persists h.persists h₀.dest ?_
  rcases h.dest_node h₀ [] with hs | ⟨-, hf, -⟩
  · exact hs
  · exact absurd hf h₀.destStands

/-- Writing into a file that may be written. -/
theorem Framed.write (h : Framed r fs₀ fs) {j : ℕ} (hj : Written r fs₀ j) (content : Bytes) :
    Framed r fs₀ (fs.write j content) := by
  refine ⟨h.kept, fun i hi => ?_, h.next⟩
  by_cases hij : i = j
  · exact hij ▸ hj
  · rw [FS.data_write, Function.update_of_ne hij] at hi
    exact h.data i hi

/-- A new entry at a path of the source. -/
theorem Framed.create (h : Framed r fs₀ fs) (h₀ : Ready r fs₀) {p : List Name}
    (hp : fs₀.node (p ++ r.ls) ≠ none) (hfree : fs.node (p ++ r.ld) = none)
    (hnode : ∀ l, l ≠ p ++ r.ld → fs'.node l = fs.node l) (hnew : New fs₀ (fs'.node (p ++ r.ld)))
    (hdata : ∀ i, fs'.data i ≠ fs.data i → fs.next ≤ i) (hnext : fs.next ≤ fs'.next) :
    Framed r fs₀ fs' := by
  refine ⟨fun l => ?_, fun i hi => ?_, h.next.trans hnext⟩
  · by_cases hl : l = p ++ r.ld
    · refine .created p hl hp ?_ (hl ▸ hnew)
      rcases h.dest_node h₀ p with hs | ⟨-, hf, -⟩
      · rw [hl, ← hs, hfree]
      · rw [hl, hf]
    · rw [hnode l hl]
      exact h.kept l
  · by_cases hsame : fs'.data i = fs.data i
    · exact h.data i (hsame ▸ hi)
    · exact .inl (h.next.trans (hdata i hsame))

/-- A file of the source taken away. -/
theorem Framed.unlink (h : Framed r fs₀ fs) (h₀ : Ready r fs₀) (hm : r.method = .transfer) {n : Name}
    {p : List Name} {i : ℕ} {hbelow} (hf : fs.node (n :: (p ++ r.ls)) = some (.file i)) :
    Framed r fs₀ (fs.unlink n (p ++ r.ls) hbelow) := by
  refine ⟨fun l => ?_, h.data, h.next⟩
  rw [FS.node_unlink]
  split_ifs with hl
  · refine .removed (n :: p) hl i ?_ hm rfl
    have hs := h.source_node h₀ (p := n :: p) (by simp [hf])
    rw [hl, ← hf]
    exact hs.symm
  · exact h.kept l

/-- Each file of the source is as it was, or has been taken away by a `TRANSFER`. -/
theorem Framed.source_file (h : Framed r fs₀ fs) (h₀ : Ready r fs₀) {p : List Name} {c : Bytes}
    (hp : fs₀.tree r.ls p = some (.file c)) :
    fs.tree r.ls p = some (.file c) ∨ (r.method = .transfer ∧ fs.tree r.ls p = none) := by
  obtain ⟨i, hi, hc⟩ := fs₀.node_of_entry_file hp
  have hdata : fs.data i = c := by
    by_contra hne
    rcases h.data i (by rwa [hc]) with hnew | ⟨q, hq, -⟩
    · exact absurd (fs₀.node_fresh hi) (not_lt.mpr hnew)
    · exact h₀.apart p q (h₀.sole _ _ i (List.suffix_append q r.ld) (r.footprint_source p) hq hi)
  rcases h.kept (p ++ r.ls) with hs | ⟨q, hl, _, _, _⟩ | ⟨q, _, i, _, hm, hn⟩
  · refine .inl ?_
    rw [FS.tree, fs.entry_file (hs.trans hi), hdata]
  · exact absurd hl (h₀.apart p q)
  · exact .inr ⟨hm, fs.entry_none hn⟩

/-- What is no path of the source is as it was in the destination. -/
theorem Framed.dest_rest (h : Framed r fs₀ fs) (h₀ : Ready r fs₀) {p : List Name}
    (hp : fs₀.tree r.ls p = none) : fs.tree r.ld p = fs₀.tree r.ld p := by
  have hnone := fs₀.node_of_entry_none hp fun t => h₀.linkFree _ t (r.footprint_source p)
  have hs := (h.dest_node h₀ p).resolve_right fun hc => hc.1 hnone
  unfold FS.tree FS.entry
  rw [hs]
  rcases hn : fs₀.node (p ++ r.ld) with _ | _ | i | t
  · rfl
  · rfl
  · dsimp only
    by_contra hne
    rcases h.data i (by simpa using hne) with hnew | ⟨q, hq, hqs⟩
    · exact absurd (fs₀.node_fresh hn) (not_lt.mpr hnew)
    · have heq := h₀.sole _ _ i (List.suffix_append q r.ld) (r.footprint_dest p) hq hn
      exact hqs (List.append_cancel_right heq ▸ hnone)
  · rfl

/-- Entries appear only at paths of the source, below the destination. -/
theorem Framed.new_entry (h : Framed r fs₀ fs) (h₀ : Ready r fs₀) {l : Loc} (hl : fs.node l ≠ none)
    (h0 : fs₀.node l = none) : ∃ p, l = p ++ r.ld ∧ fs₀.tree r.ls p ≠ none := by
  rcases h.kept l with hs | ⟨p, he, hp, _, _⟩ | ⟨p, _, i, _, _, hn⟩
  · exact absurd (hs.trans h0) hl
  · exact ⟨p, he, fun hn => hp (fs₀.node_of_entry_none hn fun t => h₀.linkFree _ t (r.footprint_source p))⟩
  · exact absurd hn hl

end Framed

section Tour

variable {r : Run} {fs₀ fs : FS}

/-- The pairs of paths a run comes to. -/
def Visits (r : Run) (fs₀ : FS) (source destination : Path) : Prop :=
  ∃ p, source = pathOf r.source p ∧ destination = pathOf r.destination p ∧
    fs₀.node (p ++ r.ls) ≠ none

theorem valid_of_node {l : Loc} {p : List Name} (h : fs₀.node (p ++ l) ≠ none) :
    ∀ n ∈ p, ValidName n := by
  induction p with
  | nil => simp
  | cons n p ih =>
    intro m hm
    rcases List.mem_cons.mp hm with rfl | hm
    · exact fs₀.node_valid h
    · have hd : fs₀.node (p ++ l) = some .dir := fs₀.node_parent h
      exact ih (by rw [hd]; simp) m hm

theorem Framed.resolve_sourcePath (h : Framed r fs₀ fs) (h₀ : Ready r fs₀) {p : List Name} {l : Loc}
    (hp : fs₀.node (p ++ r.ls) ≠ none) (hl : fs.resolve (pathOf r.source p) = some l) :
    l = p ++ r.ls := by
  rw [resolve_pathOf (h.resolve_source h₀) p ((h.linkFree h₀).below r.footprint_source p)
    (valid_of_node hp)] at hl
  split_ifs at hl
  cases hl
  rfl

theorem Framed.resolve_destPath (h : Framed r fs₀ fs) (h₀ : Ready r fs₀) {p : List Name} {l : Loc}
    (hp : fs₀.node (p ++ r.ls) ≠ none) (hl : fs.resolve (pathOf r.destination p) = some l) :
    l = p ++ r.ld := by
  rw [resolve_pathOf (h.resolve_dest h₀) p ((h.linkFree h₀).below r.footprint_dest p)
    (valid_of_node hp)] at hl
  split_ifs at hl
  cases hl
  rfl

/-- `mkdir` on the destination side. -/
theorem Framed.mkdir (h : Framed r fs₀ fs) (h₀ : Ready r fs₀) {p : List Name}
    (hp : fs₀.node (p ++ r.ls) ≠ none) (c : Choice) :
    Framed r fs₀ (exec c (.mkdir (pathOf r.destination p) 0o7) fs).2 := by
  obtain he | ⟨n, d, hd, hn, hfree, hr, he⟩ := exec_mkdir_cases c (pathOf r.destination p) 0o7 fs
  · rw [he]
    exact h
  rw [he]
  cases p with
  | nil =>
    have hstands : fs.node r.ld ≠ none := by
      rcases h.dest_node h₀ [] with hs | ⟨-, hf, -⟩
      · exact fun hn => h₀.destStands (hs.symm.trans hn)
      · exact absurd hf h₀.destStands
    have hno := mkdir_existing (pathOf r.destination []) 0o7 (h.resolve_dest h₀) hstands
    rw [hr, Option.bind_some, FS.makeDir, dif_pos ⟨hd, hn, hfree⟩] at hno
    cases hno
  | cons m p =>
    have hvalid := valid_of_node hp
    obtain ⟨hm, hs⟩ := hvalid m (List.mem_cons_self ..)
    rw [pathOf, stripSlashes_join _ hm.1 hs, ← pathOf,
      resolveEntry_pathOf (h.resolve_dest h₀) ((h.linkFree h₀).below r.footprint_dest p) hvalid] at hr
    split_ifs at hr
    obtain ⟨rfl, rfl⟩ := List.cons.inj (Option.some.inj hr : m :: (p ++ r.ld) = n :: d)
    refine h.create h₀ (p := m :: p) hp hfree (fun l hl => ?_) ?_ (fun i hi => absurd rfl hi) le_rfl
    · rw [FS.node_addDir]
      exact if_neg hl
    · rw [List.cons_append, FS.node_addDir, if_pos rfl]
      trivial

/-- What opening a destination file does. -/
theorem Framed.openWrite (h : Framed r fs₀ fs) (h₀ : Ready r fs₀) {p : List Name}
    (hp : fs₀.node (p ++ r.ls) ≠ none) {j : ℕ} {fs₁ : FS}
    (ho : fs.openWrite (pathOf r.destination p) = (some ⟨some j, .wb, 0, []⟩, fs₁)) :
    Framed r fs₀ fs₁ ∧ Written r fs₀ j ∧ ∀ l, l ≠ p ++ r.ld → fs₁.node l = fs.node l := by
  unfold FS.openWrite at ho
  rcases hr : fs.resolve (pathOf r.destination p) with _ | l
  · rw [hr] at ho; cases ho
  obtain rfl := h.resolve_destPath h₀ hp hr
  rw [hr] at ho
  dsimp only at ho
  rcases hn : fs.node (p ++ r.ld) with _ | _ | i | t <;> rw [hn] at ho
  · -- a new file
    rcases p with _ | ⟨n, p⟩
    · rcases hz : r.ld with _ | ⟨n, d⟩
      · rw [hz] at hn; simp at hn
      · rcases h.dest_node h₀ [] with hs | ⟨-, hf, -⟩
        · exact absurd (hs.symm.trans hn) h₀.destStands
        · exact absurd hf h₀.destStands
    simp only [List.cons_append, FS.create] at ho
    by_cases hok : fs.node (p ++ r.ld) = some .dir ∧ ValidName n ∧ fs.node (n :: (p ++ r.ld)) = none
    swap
    · rw [dif_neg hok] at ho
      cases ho
    rw [dif_pos hok] at ho
    cases ho
    refine ⟨?_, .inl h.next, fun l hl => keeps_addFile.node l hl⟩
    refine h.create h₀ (p := n :: p) hp hn (fun l hl => keeps_addFile.node l hl) ?_ ?_
      (Nat.le_succ _)
    · rw [List.cons_append, FS.node_addFile, if_pos rfl]
      exact h.next
    · intro i hi
      by_cases hij : i = fs.next
      · exact hij.ge
      · exact absurd (Function.update_of_ne hij ..) hi
  · cases ho
  · -- a file that was there
    cases ho
    have hw : Written r fs₀ j := by
      rcases h.dest_node h₀ p with hs | ⟨-, -, hnew⟩
      · exact .inr ⟨p, hs.symm.trans hn, hp⟩
      · rw [hn] at hnew
        exact .inl hnew
    exact ⟨h.write hw [], hw, fun _ _ => rfl⟩
  · cases ho

/-- Every call of a run keeps the frame. -/
theorem tour (h₀ : Ready r fs₀) : Tour (fun _ _ fs fs' => Framed r fs₀ fs → Framed r fs₀ fs')
    (Framed r fs₀) (Visits r fs₀) (Visits r fs₀) r.method where
  mkdir := by
    rintro _ _ fs c ⟨p, rfl, rfl, hp⟩ h
    exact ⟨fun h => h.mkdir h₀ hp c, h.mkdir h₀ hp c⟩
  opendir := fun _ _ _ => id
  stat := fun _ _ _ => id
  entry := by
    rintro _ _ fs l n ⟨p, rfl, rfl, hp⟩ h hl hn
    obtain rfl := h.resolve_sourcePath h₀ hp hl
    have hnode : fs₀.node (n :: p ++ r.ls) ≠ none := by
      rw [← h.source_node h₀ (p := n :: p) hn]
      exact hn
    obtain ⟨hs, hd⟩ := h₀.short (n :: p) hnode
    exact ⟨n :: p, joinPath_eq hs, joinPath_eq hd, hnode⟩
  down := fun _ _ => id
  file := by
    rintro _ _ fs l ⟨p, rfl, rfl, hp⟩ h hl hne hdir
    obtain rfl := h.resolve_sourcePath h₀ hp hl
    refine ⟨h, fun _ _ _ _ => id, fun _ => id, fun c h => ?_, fun j fs₁ ho => ?_⟩
    · rcases exec_fopen_wb_cases c (pathOf r.destination p) fs with ⟨j, fs₁, ho, he⟩ | he
      · rw [he]
        exact (h.openWrite h₀ hp ho).1
      · rw [he]
        exact h
    · obtain ⟨h₁, hw, hnode⟩ := h.openWrite h₀ hp ho
      have hwrite : ∀ content, Framed r fs₀ (fs₁.write j content) := fun content => h₁.write hw content
      refine ⟨fun _ _ _ b _ _ => hwrite b, fun content => ⟨hwrite content, fun hm c => ?_⟩⟩
      have hremove : Framed r fs₀ (exec c (.remove (pathOf r.source p)) (fs₁.write j content)).2 := by
        have hfile : (fs₁.write j content).node (p ++ r.ls) = fs.node (p ++ r.ls) :=
          hnode _ (h₀.apart p p)
        obtain he | ⟨n, d, hbelow, hr, hsome, he⟩ :=
          exec_remove_cases c (pathOf r.source p) (fs₁.write j content)
        · rw [he]
          exact hwrite content
        rw [he]
        rcases p with _ | ⟨m, p⟩
        · exact absurd (h.persists.dirs _ h₀.sourceDir) hdir
        rw [resolveEntry_pathOf ((hwrite content).resolve_source h₀)
          (((hwrite content).linkFree h₀).below r.footprint_source p) (valid_of_node hp)] at hr
        split_ifs at hr
        obtain ⟨rfl, rfl⟩ := List.cons.inj (Option.some.inj hr : m :: (p ++ r.ls) = n :: d)
        rcases hn : fs.node (m :: p ++ r.ls) with _ | _ | i | t
        · exact absurd hn hne
        · exact absurd hn hdir
        · exact (hwrite content).unlink h₀ hm (hfile.trans hn)
        · exact absurd hn (h.linkFree h₀ _ t (r.footprint_source _))
      exact ⟨fun _ => hremove, hremove⟩

end Tour

/-- What holds of the two trees in every state of a run, whatever has failed. -/
structure FrameKept (r : Run) (fs₀ fs : FS) : Prop where
  sourceFile : ∀ p c, fs₀.tree r.ls p = some (.file c) →
    fs.tree r.ls p = some (.file c) ∨ (r.method = .transfer ∧ fs.tree r.ls p = none)
  destRest : ∀ p, fs₀.tree r.ls p = none → fs.tree r.ld p = fs₀.tree r.ld p
  newEntry : ∀ l, fs.node l ≠ none → fs₀.node l = none →
    ∃ p, l = p ++ r.ld ∧ fs₀.tree r.ls p ≠ none
  directory : ∀ l, fs₀.node l = some .dir → fs.node l = some .dir

/-- The frame of a run in which any calls may fail: it holds at the end, and it holds in every state
on the way, also when the run does not return. -/
theorem transferDirectory_frame (sha256 : Bytes → Bytes) (r : Run) (fs : FS) (h : Ready r fs)
    (stack fuel : ℕ) (sched : ℕ → Choice) :
    let transfer := transferDirectory (systemCalls sha256 fuel) stack r.source r.destination r.method
    FrameKept r fs (run exec sched transfer 0 fs).state ∧
      ∀ e ∈ trace exec sched transfer 0 fs, FrameKept r fs e.after := by
  intro transfer
  have hkept : ∀ fs', Framed r fs fs' → FrameKept r fs fs' := fun fs' hf =>
    ⟨fun _ _ => hf.source_file h, fun _ => hf.dest_rest h, fun _ => hf.new_entry h, hf.persists.dirs⟩
  have hstart : Visits r fs r.source r.destination := ⟨[], rfl, rfl, by
    have hd := h.sourceDir
    simp [hd]⟩
  have hmeets := transferDirectory_faulty (tour h) sha256 fuel stack _ _ fs hstart Framed.start
  obtain ⟨hend, htrace⟩ := hmeets.run sched (fun _ => trivial) 0
  refine ⟨hkept _ hend, fun e he => hkept _ ?_⟩
  exact (trace_invariant exec sched htrace Framed.start e he).2

theorem transferDirectory_frame_sample :
    let r := runOf standard .reports .dashboard .transfer
    let transfer := transferDirectory (systemCalls id sample.bound) sample.bound r.source
      r.destination r.method
    FrameKept r sample (run exec (fun _ => Choice.plain) transfer 0 sample).state ∧
      ∀ e ∈ trace exec (fun _ => Choice.plain) transfer 0 sample, FrameKept r sample e.after :=
  transferDirectory_frame id _ sample (sample_plain.ready .reports .dashboard (by decide) .transfer) _ _ _

end Reportman.Frame
