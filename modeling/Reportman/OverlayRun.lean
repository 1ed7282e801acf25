import Mathlib
import Reportman.TransferDirectory

/-!
# A fault-free run lays the source over the destination

The traversal visits relative paths; the invariant says which ones are done. A done path of the
destination has its value in the overlay, a done path of the source is what the method leaves of
it, and every other path is as it was at the start. Both values are fixed by the two trees at the
start, so the order of the visits does not matter.
-/
namespace Reportman.OverlayRun
open Resumable FileSystem TransferFile TransferDirectory Overlay

/-- One run of `transfer_directory`: its arguments and the locations they name. -/
structure Run where
  source : Path
  destination : Path
  method : TransferMethod
  ls : Loc
  ld : Loc

/-- The two trees. -/
def Run.footprint (r : Run) (l : Loc) : Prop := r.ls <:+ l ∨ r.ld <:+ l

/-- Where the run may write. -/
def Run.writes (r : Run) (l : Loc) : Prop := r.ld <:+ l ∨ (r.method = .transfer ∧ r.ls <:+ l)

/-- What a run needs of the state it starts in: two disjoint trees of regular files and
directories, named by its arguments, whose joined paths fit the path buffers. -/
structure Ready (r : Run) (fs : FS) : Prop where
  sourceApart : ¬ r.ls <:+ r.ld
  destApart : ¬ r.ld <:+ r.ls
  sole : Sole (r.ld <:+ ·) r.footprint fs
  linkFree : LinkFree r.footprint fs
  source : fs.resolve r.source = some r.ls
  dest : fs.resolve r.destination = some r.ld
  sourceDir : fs.node r.ls = some .dir
  destStands : fs.node r.ld ≠ none
  short : ∀ p, fs.node (p ++ r.ls) ≠ none →
    (pathOf r.source p).length < pathSize ∧ (pathOf r.destination p).length < pathSize

/-- What the method leaves of a source tree `S` that was laid over `X`. -/
def leftover (sha256 : Bytes → Bytes) (method : TransferMethod) (S X : Tree Name Bytes) :
    Tree Name Bytes :=
  match method with
  | .backup => S
  | .transfer => drained (gone sha256) S X

/-- The relative paths in `done` have been dealt with, the others are as in `fs₀`. -/
structure Progress (sha256 : Bytes → Bytes) (r : Run) (fs₀ : FS) (done : Set (List Name)) (fs : FS) :
    Prop where
  sole : Sole (r.ld <:+ ·) r.footprint fs
  linkFree : LinkFree r.footprint fs
  source : fs.resolve r.source = some r.ls
  dest : fs.resolve r.destination = some r.ld
  sourceDone : ∀ p ∈ done,
    fs.tree r.ls p = leftover sha256 r.method (fs₀.tree r.ls) (fs₀.tree r.ld) p
  sourceRest : ∀ p ∉ done, fs.tree r.ls p = fs₀.tree r.ls p
  destDone : ∀ p ∈ done, fs.tree r.ld p = overlay (fs₀.tree r.ls) (fs₀.tree r.ld) p
  destRest : ∀ p ∉ done, fs.tree r.ld p = fs₀.tree r.ld p

section Progress

variable {sha256 : Bytes → Bytes} {r : Run} {fs₀ fs fs' : FS} {done : Set (List Name)}

theorem Run.footprint_source (r : Run) (p : List Name) : r.footprint (p ++ r.ls) :=
  .inl (List.suffix_append p r.ls)

theorem Run.footprint_dest (r : Run) (p : List Name) : r.footprint (p ++ r.ld) :=
  .inr (List.suffix_append p r.ld)

/-- The two trees share no location. -/
theorem Ready.apart (h : Ready r fs₀) (p q : List Name) : p ++ r.ls ≠ q ++ r.ld := by
  intro he
  rcases List.suffix_or_suffix_of_suffix (List.suffix_append p r.ls)
    (he ▸ List.suffix_append q r.ld) with hs | hs
  · exact h.sourceApart hs
  · exact h.destApart hs

theorem Ready.start (h : Ready r fs₀) : Progress sha256 r fs₀ ∅ fs₀ where
  sole := h.sole
  linkFree := h.linkFree
  source := h.source
  dest := h.dest
  sourceDone := fun _ hp => hp.elim
  sourceRest := fun _ _ => rfl
  destDone := fun _ hp => hp.elim
  destRest := fun _ _ => rfl

theorem Progress.stable (h : Progress sha256 r fs₀ done fs) (hr : Keeps r.footprint fs fs') :
    Progress sha256 r fs₀ done fs' := by
  have hs : ∀ p, fs'.tree r.ls p = fs.tree r.ls p := fun p => hr.entry (r.footprint_source p)
  have hd : ∀ p, fs'.tree r.ld p = fs.tree r.ld p := fun p => hr.entry (r.footprint_dest p)
  refine ⟨hr.sole (fun _ => .inr) h.sole, hr.linkFree h.linkFree, ?_, ?_, ?_, ?_, ?_, ?_⟩
  · exact fs.resolve_persists hr.persists h.source
      (hr.node r.ls (r.footprint_source []))
  · exact fs.resolve_persists hr.persists h.dest (hr.node r.ld (r.footprint_dest []))
  · exact fun p hp => (hs p).trans (h.sourceDone p hp)
  · exact fun p hp => (hs p).trans (h.sourceRest p hp)
  · exact fun p hp => (hd p).trans (h.destDone p hp)
  · exact fun p hp => (hd p).trans (h.destRest p hp)

theorem leftover_of_not_file {method : TransferMethod} {S X : Tree Name Bytes} {p : List Name}
    (h : isFile (S p) = false) : leftover sha256 method S X p = S p := by
  cases method with
  | backup => rfl
  | transfer => exact drained_of_not_file h

theorem leftover_file {method : TransferMethod} {S X : Tree Name Bytes} {p : List Name} {c : Bytes}
    (h : S p = some (.file c)) :
    leftover sha256 method S X p =
      if removes sha256 method c && lands X p then none else some (.file c) := by
  cases method with
  | backup => simp [leftover, removes, h]
  | transfer => simp [leftover, removes, drained_file h]

/-- Paths where the source has nothing may be counted as done. -/
theorem Progress.extend {more : Set (List Name)} (h : Progress sha256 r fs₀ done fs)
    (hsub : done ⊆ more) (hnone : ∀ p ∈ more, p ∉ done → fs₀.tree r.ls p = none) :
    Progress sha256 r fs₀ more fs := by
  refine ⟨h.sole, h.linkFree, h.source, h.dest, ?_, ?_, ?_, ?_⟩
  · intro p hp
    by_cases hd : p ∈ done
    · exact h.sourceDone p hd
    · have hn := hnone p hp hd
      rw [h.sourceRest p hd, leftover_of_not_file (by simp [hn, isFile])]
  · exact fun p hp => h.sourceRest p fun hd => hp (hsub hd)
  · intro p hp
    by_cases hd : p ∈ done
    · exact h.destDone p hd
    · rw [h.destRest p hd, overlay_none (hnone p hp hd)]
  · exact fun p hp => h.destRest p fun hd => hp (hsub hd)

/-- Directories of the source stay directories. -/
theorem Progress.source_dir (h : Progress sha256 r fs₀ done fs) {p : List Name}
    (hp : fs₀.tree r.ls p = some .dir) : fs.node (p ++ r.ls) = some .dir := by
  rw [← fs.entry_dir]
  by_cases hd : p ∈ done
  · exact (h.sourceDone p hd).trans (by rw [leftover_of_not_file (by simp [hp, isFile]), hp])
  · exact (h.sourceRest p hd).trans hp

/-- In a finished directory, the destination is a directory exactly when nothing at or above it
was a file. -/
theorem Progress.dest_dir_iff (h : Progress sha256 r fs₀ done fs) {p : List Name} (hp : p ∈ done)
    (hs : fs₀.tree r.ls p = some .dir) (n : Name) :
    fs.node (p ++ r.ld) = some .dir ↔ clear (fs₀.tree r.ld) (n :: p) = true := by
  rw [← fs.entry_dir, clear_cons, ← isDir_overlay_iff (fs₀.tree_closed r.ld) hs]
  rw [← h.destDone p hp]
  rfl

/-- The names on the way to an entry are valid. -/
theorem valid_of_tree {l : Loc} {p : List Name} (h : fs₀.tree l p ≠ none) :
    ∀ n ∈ p, ValidName n := by
  induction p with
  | nil => simp
  | cons n p ih =>
    intro m hm
    have hn : fs₀.node (n :: (p ++ l)) ≠ none := fun h0 => h (fs₀.entry_none h0)
    rcases List.mem_cons.mp hm with rfl | hm
    · exact fs₀.node_valid hn
    · refine ih ?_ m hm
      rw [fs₀.tree_closed l n p h]
      simp

theorem node_of_tree {l : Loc} {p : List Name} (h : fs₀.tree l p ≠ none) :
    fs₀.node (p ++ l) ≠ none := fun h0 => h (fs₀.entry_none h0)

/-- One more path is done when it has got its two final values and nothing else has moved. -/
theorem Progress.update (h : Progress sha256 r fs₀ done fs) (h₀ : Ready r fs₀) {p : List Name}
    {b : Bool} (hp : p ≠ [])
    (hf : Keeps (fun l => r.footprint l ∧ l ≠ p ++ r.ld ∧ (b = true → l ≠ p ++ r.ls)) fs fs')
    (hsole : Sole (r.ld <:+ ·) r.footprint fs')
    (hd : fs'.tree r.ld p = overlay (fs₀.tree r.ls) (fs₀.tree r.ld) p)
    (hdn : overlay (fs₀.tree r.ls) (fs₀.tree r.ld) p ≠ none)
    (hs : fs'.tree r.ls p = leftover sha256 r.method (fs₀.tree r.ls) (fs₀.tree r.ld) p)
    (hb : b = true → fs'.node (p ++ r.ls) = none) :
    Progress sha256 r fs₀ (insert p done) fs' := by
  have hsrc : ∀ q, q ≠ p → fs'.tree r.ls q = fs.tree r.ls q := fun q hq =>
    hf.entry ⟨r.footprint_source q, h₀.apart q p, fun _ he => hq (List.append_cancel_right he)⟩
  have hdst : ∀ q, q ≠ p → fs'.tree r.ld q = fs.tree r.ld q := fun q hq =>
    hf.entry ⟨r.footprint_dest q, fun he => hq (List.append_cancel_right he),
      fun _ he => h₀.apart p q he.symm⟩
  have hroot : fs'.node r.ld = fs.node r.ld :=
    hf.node r.ld ⟨r.footprint_dest [], fun he => hp (by simpa using he.symm),
      fun _ he => h₀.apart p [] he.symm⟩
  have hdir : fs.node r.ls = some .dir :=
    h.source_dir (p := []) ((fs₀.entry_dir).mpr h₀.sourceDir)
  refine ⟨hsole, ?_, ?_, ?_, ?_, ?_, ?_, ?_⟩
  · intro l t hl ht
    by_cases h1 : l = p ++ r.ld
    · subst h1
      refine hdn (hd ▸ ?_)
      simp [FS.tree, FS.entry, ht]
    by_cases h2 : b = true ∧ l = p ++ r.ls
    · rw [h2.2, hb h2.1] at ht
      cases ht
    · rw [hf.node l ⟨hl, h1, fun hb he => h2 ⟨hb, he⟩⟩] at ht
      exact h.linkFree l t hl ht
  · exact fs.resolve_persists hf.persists h.source (by rw [hdir, hf.persists.dirs _ hdir])
  · exact fs.resolve_persists hf.persists h.dest hroot
  · intro q hq
    by_cases hqp : q = p
    · rw [hqp, hs]
    · rw [hsrc q hqp, h.sourceDone q (hq.resolve_left hqp)]
  · intro q hq
    rw [hsrc q fun he => hq (.inl he), h.sourceRest q fun hd => hq (.inr hd)]
  · intro q hq
    by_cases hqp : q = p
    · rw [hqp, hd]
    · rw [hdst q hqp, h.destDone q (hq.resolve_left hqp)]
  · intro q hq
    rw [hdst q fun he => hq (.inl he), h.destRest q fun hd => hq (.inr hd)]

/-- One more path is done when both trees already have its final values. -/
theorem Progress.settle (h : Progress sha256 r fs₀ done fs) {p : List Name} (hp : p ∉ done)
    (hd : fs₀.tree r.ld p = overlay (fs₀.tree r.ls) (fs₀.tree r.ld) p)
    (hs : fs₀.tree r.ls p = leftover sha256 r.method (fs₀.tree r.ls) (fs₀.tree r.ld) p) :
    Progress sha256 r fs₀ (insert p done) fs := by
  refine ⟨h.sole, h.linkFree, h.source, h.dest, ?_, ?_, ?_, ?_⟩
  · rintro q (rfl | hq)
    · rw [h.sourceRest q hp, hs]
    · exact h.sourceDone q hq
  · exact fun q hq => h.sourceRest q fun hd => hq (.inr hd)
  · rintro q (rfl | hq)
    · rw [h.destRest q hp, hd]
    · exact h.destDone q hq
  · exact fun q hq => h.destRest q fun hd => hq (.inr hd)

theorem exec_mkdir {ch : Choice} (hc : ch.clean) (path : Path) (mode : ℕ) :
    exec ch (.mkdir path mode) fs =
      match (fs.resolveEntry (stripSlashes path)).bind fun l => fs.makeDir l mode with
      | some fs' => (0, fs')
      | none => (-1, fs) := by
  rw [Choice.clean] at hc
  cases hmade : (fs.resolveEntry (stripSlashes path)).bind fun l => fs.makeDir l mode with
  | none => simp only [exec, hc, hmade, Bool.false_eq_true, ↓reduceIte]
  | some fs' => simp only [exec, hc, hmade, Bool.false_eq_true, ↓reduceIte]

/-- `mkdir` of a destination directory. -/
theorem mkdir_meets (fuel : ℕ) (h₀ : Ready r fs₀) (h : Progress sha256 r fs₀ done fs)
    {q : List Name} (hq : fs₀.tree r.ls q = some .dir) (hqd : q ∉ done)
    (hpar : ∀ n p, q = n :: p → p ∈ done) :
    (terms r.footprint r.writes).Meets
      (Terms.Returns fun _ fs' => Progress sha256 r fs₀ (insert q done) fs')
      ((systemCalls sha256 fuel).mkdir (pathOf r.destination q) 0o7) fs := by
  refine Terms.Meets.call fun fs₁ hr₁ ch₁ hc₁ => ?_
  have h₁ := h.stable hr₁
  have hleft : fs₀.tree r.ls q = leftover sha256 r.method (fs₀.tree r.ls) (fs₀.tree r.ld) q :=
    (leftover_of_not_file (by simp [hq, isFile])).symm
  -- when nothing is made, the overlay has what the destination had
  have same : fs₀.tree r.ld q = overlay (fs₀.tree r.ls) (fs₀.tree r.ld) q →
      (fs₁.resolveEntry (stripSlashes (pathOf r.destination q))).bind
        (fun l => fs₁.makeDir l 0o7) = none →
      ∃ res fs₂, exec ch₁ (.mkdir (pathOf r.destination q) 0o7) fs₁ = (res, fs₂) ∧
        Within r.writes fs₁ fs₂ ∧ (terms r.footprint r.writes).Meets
          (Terms.Returns fun _ fs' => Progress sha256 r fs₀ (insert q done) fs')
          (Program.ret res) fs₂ := by
    intro hd hnone
    refine ⟨-1, fs₁, (exec_mkdir hc₁ _ _).trans (by rw [hnone]), Within.refl _ fs₁, ?_⟩
    exact Terms.Meets.ret fun fs₂ hr₂ => (h₁.settle hqd hd hleft).stable hr₂
  cases q with
  | nil =>
    have hstands : fs₁.tree r.ld [] ≠ none := by
      rw [h₁.destRest [] hqd]
      intro hn
      exact h₀.destStands (fs₀.node_of_entry_none hn fun t => h₀.linkFree _ t (r.footprint_dest []))
    refine same ?_ (mkdir_existing _ _ h₁.dest fun hn => hstands (fs₁.entry_none hn))
    rw [overlay_dir hq, ← h₁.destRest [] hqd]
    simp [hstands]
  | cons n p =>
    have hp : p ∈ done := hpar n p rfl
    have hpd : fs₀.tree r.ls p = some .dir := fs₀.tree_closed r.ls n p (by simp [hq])
    have hqne : fs₀.tree r.ls (n :: p) ≠ none := by simp [hq]
    have hvalid := valid_of_tree hqne
    have hdiriff := h₁.dest_dir_iff hp hpd n
    have hpath : stripSlashes (pathOf r.destination (n :: p)) = pathOf r.destination (n :: p) :=
      stripSlashes_join _ (hvalid n (List.mem_cons_self ..)).1.1 (hvalid n (List.mem_cons_self ..)).2
    have hentry := resolveEntry_pathOf h₁.dest (h₁.linkFree.below r.footprint_dest p) hvalid
    have hrest : fs₁.entry (n :: p ++ r.ld) = fs₀.tree r.ld (n :: p) := h₁.destRest _ hqd
    by_cases hclear : clear (fs₀.tree r.ld) (n :: p) = true
    · rw [if_pos (hdiriff.mpr hclear)] at hentry
      by_cases hfree : fs₀.tree r.ld (n :: p) = none
      · -- the directory is made
        have hnode : fs₁.node (n :: p ++ r.ld) = none :=
          fs₁.node_of_entry_none (hrest.trans hfree) fun t => h₁.linkFree _ t (r.footprint_dest _)
        have hok : fs₁.node (p ++ r.ld) = some .dir ∧ ValidName n ∧
            fs₁.node (n :: (p ++ r.ld)) = none :=
          ⟨hdiriff.mpr hclear, hvalid n (List.mem_cons_self ..), hnode⟩
        have hw : Within (· = n :: p ++ r.ld) fs₁ (fs₁.addDir n (p ++ r.ld) 0o7 hok.1 hok.2.1 hok.2.2) :=
          within_addDir rfl
        refine ⟨0, _, (exec_mkdir hc₁ _ _).trans ?_,
          hw.mono (by rintro _ rfl; exact .inl (List.suffix_append ..)), ?_⟩
        · rw [hpath, hentry]
          simp only [Option.bind_some, List.cons_append, FS.makeDir, dif_pos hok]
        · refine Terms.Meets.ret fun fs₂ hr₂ => ?_
          have hover : overlay (fs₀.tree r.ls) (fs₀.tree r.ld) (n :: p) = some .dir := by
            rw [overlay_dir hq, hclear, hfree]; rfl
          refine (h₁.update h₀ (b := false) (by simp) (keeps_addDir.mono fun l hl => hl.2.1)
            (hw.sole _ _ h₁.sole) ?_ (by simp [hover]) ?_ (by simp)).stable hr₂
          · rw [hover]
            exact (FS.entry_dir _).mpr (by rw [FS.node_addDir]; simp)
          · rw [← hleft, ← h₁.sourceRest _ hqd]
            exact keeps_addDir.entry (h₀.apart (n :: p) (n :: p))
      · refine same (by rw [overlay_dir hq]; simp [hfree]) ?_
        rw [hpath, hentry, Option.bind_some]
        simp only [List.cons_append, FS.makeDir]
        rw [dif_neg]
        rintro ⟨-, -, hn⟩
        exact hfree (hrest ▸ fs₁.entry_none hn)
    · refine same (by rw [overlay_dir hq]; simp [hclear]) ?_
      rw [hpath, hentry, if_neg (fun hd => hclear (hdiriff.mp hd))]
      rfl

/-- The path of a source entry leads to its place. -/
theorem Progress.resolve_source (h : Progress sha256 r fs₀ done fs) {p : List Name}
    (hp : fs₀.tree r.ls p ≠ none) : fs.resolve (pathOf r.source p) = some (p ++ r.ls) := by
  rw [resolve_pathOf h.source p (h.linkFree.below r.footprint_source p) (valid_of_tree hp), if_pos]
  cases p with
  | nil => exact .inl rfl
  | cons n p => exact .inr (h.source_dir (fs₀.tree_closed r.ls n p hp))

/-- A file of the source that the traversal comes to. -/
theorem transact_meets (h₀ : Ready r fs₀) (h : Progress sha256 r fs₀ done fs) {fuel : ℕ} {n : Name}
    {p : List Name} {c : Bytes} (hf : fs₀.tree r.ls (n :: p) = some (.file c))
    (hnd : n :: p ∉ done) (hp : p ∈ done) (hfuel : c.length < fuel) :
    (terms r.footprint r.writes).Meets
      (Terms.Returns fun _ fs' => Progress sha256 r fs₀ (insert (n :: p) done) fs')
      (transactTransferFile sha256 fuel (pathOf r.source (n :: p)) (pathOf r.destination (n :: p))
        r.method) fs := by
  have hne : fs₀.tree r.ls (n :: p) ≠ none := by simp [hf]
  have hpd : fs₀.tree r.ls p = some .dir := fs₀.tree_closed r.ls n p hne
  have hvalid := valid_of_tree hne
  have hsrc : fs.entry (n :: p ++ r.ls) = some (.file c) := (h.sourceRest _ hnd).trans hf
  have hdst : ∀ fs', Progress sha256 r fs₀ done fs' →
      fs'.entry (n :: p ++ r.ld) = fs₀.tree r.ld (n :: p) := fun fs' h' => h'.destRest _ hnd
  have hQ : ∀ fs', Progress sha256 r fs₀ done fs' → fs'.resolve (pathOf r.destination (n :: p)) =
      if clear (fs₀.tree r.ld) (n :: p) = true then some (n :: p ++ r.ld) else none := by
    intro fs' h'
    rw [resolve_pathOf h'.dest _ (h'.linkFree.below r.footprint_dest _) hvalid]
    simp only [List.tail_cons, reduceCtorEq, false_or, h'.dest_dir_iff hp hpd n]
  by_cases hl : lands (fs₀.tree r.ld) (n :: p) = true
  · have hclear : clear (fs₀.tree r.ld) (n :: p) = true := by
      simp only [lands, Bool.and_eq_true] at hl
      exact hl.1
    have hnotdir : fs.node (n :: p ++ r.ld) ≠ some .dir := by
      rw [Ne, ← fs.entry_dir, hdst fs h, ← isDir_iff]
      simp only [lands, Bool.and_eq_true, Bool.not_eq_true'] at hl
      simp [hl.2]
    have hE : fs.resolveEntry (pathOf r.source (n :: p)) = some (n :: p ++ r.ls) := by
      rw [resolveEntry_pathOf h.source (h.linkFree.below r.footprint_source p) hvalid, if_pos (h.source_dir hpd)]
    refine (transactTransferFile_opens sha256 (r.footprint_source _) (fun _ => .inr)
      (List.suffix_append ..) (.inl (List.suffix_append ..)) (fun hm => .inr ⟨hm, List.suffix_append ..⟩)
      (h₀.apart _ _).symm h.sole (h.resolve_source hne) hsrc (fun _ => hE)
      (by rw [hQ fs h, if_pos hclear]) hnotdir (fun t => h.linkFree _ t (r.footprint_dest _))
      hfuel).mono ?_
    rintro (_ | status) fs' ho
    · exact ho.elim
    have hover : overlay (fs₀.tree r.ls) (fs₀.tree r.ld) (n :: p) = some (.file c) := by
      rw [overlay_file hf, if_pos hl]
    have hleft : leftover sha256 r.method (fs₀.tree r.ls) (fs₀.tree r.ld) (n :: p) =
        if removes sha256 r.method c then none else some (.file c) := by
      rw [leftover_file hf, hl, Bool.and_true]
    refine h.update h₀ (List.cons_ne_nil n p) ho.frame ho.sole (ho.dest.trans hover.symm)
      (by simp [hover]) ?_ ho.source
    rw [hleft]
    cases hb : removes sha256 r.method c with
    | true => exact fs'.entry_none (ho.source hb)
    | false =>
      refine (ho.frame.entry ⟨r.footprint_source _, h₀.apart _ _, ?_⟩).trans hsrc
      simp [hb]
  · -- a directory, or a file further up, keeps the destination from being opened
    have hblocked : ∀ fs', Keeps r.footprint fs fs' →
        fs'.openWrite (pathOf r.destination (n :: p)) = (none, fs') := by
      intro fs' hr
      have h' := h.stable hr
      unfold FS.openWrite
      rw [hQ fs' h']
      by_cases hclear : clear (fs₀.tree r.ld) (n :: p) = true
      · have hdir : fs'.node (n :: p ++ r.ld) = some .dir := by
          rw [← fs'.entry_dir, hdst fs' h', ← isDir_iff]
          simpa [lands, hclear] using hl
        simp only [if_pos hclear, hdir]
      · simp only [if_neg hclear]
    refine (transactTransferFile_blocked sha256 (r.footprint_source _) (h.resolve_source hne) hsrc
      hblocked).mono ?_
    rintro (_ | status) fs' ho
    · exact ho.elim
    · refine (h.stable ho).settle hnd ?_ ?_
      · rw [overlay_file hf, if_neg hl]
      · rw [leftover_file hf, hf]
        simp [hl]

theorem exec_stat {ch : Choice} (hc : ch.clean) (path : Path) :
    exec ch (.stat path) fs = ((fs.resolve path).bind (typeAt fs), fs) := by
  rw [Choice.clean] at hc
  simp [exec, hc]

theorem exec_opendir {ch : Choice} (hc : ch.clean) {path : Path} {l : Loc}
    (h : fs.resolve path = some l) (hd : fs.node l = some .dir) :
    exec ch (.opendir path) fs = (some (ch.order (dot :: dotDot :: fs.names l)), fs) := by
  rw [Choice.clean] at hc
  simp [exec, Choice.listed, hc, h, hd]

/-- The paths at and below `q`. -/
def below (q : List Name) : Set (List Name) := {p | q <:+ p}

/-- The paths below the children of `q` that have been enumerated. -/
def seen (q : List Name) (names : List Name) : Set (List Name) := {p | ∃ n ∈ names, n :: q <:+ p}

theorem seen_append (q : List Name) (names : List Name) (n : Name) :
    seen q (names ++ [n]) = seen q names ∪ below (n :: q) := by
  ext p
  simp [seen, below, or_and_right, exists_or]

/-- Two children of one directory have nothing below both. -/
theorem eq_of_suffix_child {q p : List Name} {m n : Name} (hm : m :: q <:+ p) (hn : n :: q <:+ p) :
    m = n := by
  have hlen : (m :: q).length = (n :: q).length := rfl
  have h := List.suffix_of_suffix_length_le hm hn hlen.le
  exact (List.cons.inj (h.eq_of_length hlen)).1

/-- What a directory lists that has not been dealt with is what the source has in it. -/
theorem Progress.mem_names (h : Progress sha256 r fs₀ done fs) {q : List Name} {n : Name} (hnd : n :: q ∉ done) :
    n ∈ fs.names (q ++ r.ls) ↔ fs₀.tree r.ls (n :: q) ≠ none := by
  have hrest : fs.entry (n :: q ++ r.ls) = fs₀.tree r.ls (n :: q) := h.sourceRest _ hnd
  rw [fs.mem_names, ← hrest]
  exact not_congr ⟨fs.entry_none, fun he =>
    fs.node_of_entry_none he fun t => h.linkFree _ t (r.footprint_source (n :: q))⟩

/-- A listing has each name once. -/
theorem listing_nodup {l : Loc} {entries : List Name} (hperm : entries.Perm (dot :: dotDot :: fs.names l)) :
    entries.Nodup := by
  have hno : ∀ n, ¬ ValidName n → n ∉ fs.names l := fun n hn hm => hn (fs.node_valid (fs.mem_names.mp hm))
  rw [hperm.nodup_iff]
  refine List.nodup_cons.mpr ⟨?_, List.nodup_cons.mpr ⟨hno _ (by decide), fs.names_nodup _⟩⟩
  rw [List.mem_cons, not_or]
  exact ⟨by decide, hno _ (by decide)⟩

/-- Nothing below an entry that has not been listed before has been dealt with. -/
theorem not_below_child {q : List Name} {names : List Name} {n : Name} (hdisj : ∀ p ∈ done, p ∉ below q)
    (hfresh : n ∉ names) : ∀ p ∈ insert q done ∪ seen q names, p ∉ below (n :: q) := by
  rintro p ((rfl | hp) | ⟨m, hm, hmp⟩) hb
  · exact absurd hb.length_le (by simp)
  · exact hdisj p hp ((List.suffix_cons n q).trans hb)
  · exact hfresh (eq_of_suffix_child hmp hb ▸ hm)

/-- The names of the directory itself and of the one above it are none of the source. -/
theorem Progress.skip_dots (h : Progress sha256 r fs₀ done fs) {q : List Name} {n : Name}
    (hdots : n = dot ∨ n = dotDot) : Progress sha256 r fs₀ (done ∪ below (n :: q)) fs := by
  refine h.extend Set.subset_union_left ?_
  rintro p (hp | hp) hnot
  · exact absurd hp hnot
  · by_contra hsome
    have hv := valid_of_tree ((fs₀.tree_closed r.ls).above hsome hp) n (List.mem_cons_self ..)
    rcases hdots with rfl | rfl
    · exact absurd hv (by decide)
    · exact absurd hv (by decide)

/-- A directory is done when it is itself and all that it lists. -/
theorem Progress.finish {q entries : List Name} (h : Progress sha256 r fs₀ (insert q done ∪ seen q entries) fs)
    (hall : ∀ n, fs₀.tree r.ls (n :: q) ≠ none → n ∈ entries) : Progress sha256 r fs₀ (done ∪ below q) fs := by
  refine h.extend ?_ ?_
  · rintro p ((rfl | hp) | ⟨n, -, hn⟩)
    · exact .inr (List.suffix_refl _)
    · exact .inl hp
    · exact .inr ((List.suffix_cons n q).trans hn)
  · rintro p (hp | hp) hnot
    · exact absurd (.inl (.inr hp)) hnot
    · by_contra hsome
      rcases eq_or_cons_suffix hp with rfl | ⟨n, hn⟩
      · exact hnot (.inl (.inl rfl))
      · exact hnot (.inr ⟨n, hall n ((fs₀.tree_closed r.ls).above hsome hn), hn⟩)

/-- A file is done with everything below it, where there is nothing. -/
theorem Progress.below_file {p : List Name} {c : Bytes} (h : Progress sha256 r fs₀ (insert p done) fs)
    (hp : fs₀.tree r.ls p = some (.file c)) : Progress sha256 r fs₀ (done ∪ below p) fs := by
  refine h.extend ?_ ?_
  · rintro k (rfl | hk)
    · exact .inr (List.suffix_refl _)
    · exact .inl hk
  · rintro k (hk | hk) hnot
    · exact absurd (.inr hk) hnot
    · exact (fs₀.tree_closed r.ls).below_file hp hk fun he => hnot (.inl he)

/-- The body of the loop at an entry of the source, given what the recursive call does. -/
theorem processEntry_meets (h₀ : Ready r fs₀) (h : Progress sha256 r fs₀ done fs) {fuel : ℕ}
    (hfuel : ∀ p c, fs₀.tree r.ls p = some (.file c) → c.length < fuel) {n : Name} {q : List Name}
    (hne : fs₀.tree r.ls (n :: q) ≠ none) (hnd : ∀ p ∈ done, p ∉ below (n :: q)) (hq : q ∈ done)
    (recurse : Path → Path → Prog ℤ)
    (hrec : ∀ fs, fs₀.tree r.ls (n :: q) = some .dir → Progress sha256 r fs₀ done fs →
      (terms r.footprint r.writes).Meets
        (Terms.Returns fun _ fs' => Progress sha256 r fs₀ (done ∪ below (n :: q)) fs')
        (recurse (pathOf r.source (n :: q)) (pathOf r.destination (n :: q))) fs) (errors : ℤ) :
    (terms r.footprint r.writes).Meets
      (Terms.Returns fun _ fs' => Progress sha256 r fs₀ (done ∪ below (n :: q)) fs')
      (processEntry (systemCalls sha256 fuel) recurse (pathOf r.source q) (pathOf r.destination q)
        r.method errors n) fs := by
  have hvalid : ValidName n := valid_of_tree hne n (List.mem_cons_self ..)
  have hdots : ¬ (n = dot ∨ n = dotDot) := by
    rintro (hn | hn)
    · exact hvalid.1.2.1 hn
    · exact hvalid.1.2.2 hn
  have hself : n :: q ∉ done := fun hd => hnd _ hd (List.suffix_refl _)
  obtain ⟨hs, hd⟩ := h₀.short (n :: q) (node_of_tree hne)
  rw [processEntry_eq _ _ _ _ _ _ hdots, joinPath_eq hs, joinPath_eq hd, systemCalls_stat,
    Program.perform_bind]
  refine Terms.Meets.call fun fs₁ hr₁ ch₁ hc₁ => ?_
  have h₁ := h.stable hr₁
  refine ⟨_, _, exec_stat hc₁ _, Within.refl _ fs₁, ?_⟩
  rw [← pathOf, ← pathOf, h₁.resolve_source hne, Option.bind_some]
  have hentry : fs₁.entry (n :: q ++ r.ls) = fs₀.tree r.ls (n :: q) := h₁.sourceRest _ hself
  rcases hx : fs₀.tree r.ls (n :: q) with _ | _ | c
  · exact absurd hx hne
  · -- a directory: the recursive call
    have hnode : fs₁.node (n :: q ++ r.ls) = some .dir := fs₁.entry_dir.mp (hentry.trans hx)
    simp only [typeAt, hnode]
    refine Terms.Meets.bind_returns (hrec fs₁ hx h₁) fun _ fs₂ h₂ => ?_
    exact Terms.Meets.ret fun fs₃ hr₃ => h₂.stable hr₃
  · -- a file: the transaction
    obtain ⟨i, hnode, -⟩ := fs₁.node_of_entry_file (hentry.trans hx)
    simp only [typeAt, hnode]
    refine Terms.Meets.bind_returns (transact_meets h₀ h₁ hx hself hq (hfuel _ _ hx))
      fun status fs₂ h₂ => ?_
    split_ifs
    · exact Terms.Meets.ret fun fs₃ hr₃ => (h₂.below_file hx).stable hr₃
    · exact Terms.Meets.ret fun fs₃ hr₃ => (h₂.below_file hx).stable hr₃

/-- The directory at `q` is done with everything below it, in whatever order its entries come. -/
theorem transferDirectory_meets (h₀ : Ready r fs₀) {fuel : ℕ}
    (hfuel : ∀ p c, fs₀.tree r.ls p = some (.file c) → c.length < fuel) (stack : ℕ) :
    ∀ (q : List Name) (done : Set (List Name)) (fs : FS), fs₀.tree r.ls q = some .dir →
      (∀ p ∈ below q, fs₀.tree r.ls p ≠ none → p.length < q.length + stack) →
      (∀ p ∈ done, p ∉ below q) → (∀ n p, q = n :: p → p ∈ done) →
      Progress sha256 r fs₀ done fs →
      (terms r.footprint r.writes).Meets
        (Terms.Returns fun _ fs' => Progress sha256 r fs₀ (done ∪ below q) fs')
        (transferDirectory (systemCalls sha256 fuel) stack (pathOf r.source q)
          (pathOf r.destination q) r.method) fs := by
  induction stack with
  | zero =>
    intro q done fs hq hheight
    exact absurd (hheight q (List.suffix_refl q) (by simp [hq])) (by simp)
  | succ stack ih =>
    intro q done fs hq hheight hdisj hpar h
    have hqd : q ∉ done := fun hd => hdisj q hd (List.suffix_refl q)
    rw [transferDirectory_succ]
    refine Terms.Meets.bind_returns (mkdir_meets fuel h₀ h hq hqd hpar) fun _ fs₁ h₁ => ?_
    refine Terms.Meets.call fun fs₂ hr₂ ch₂ hc₂ => ?_
    have h₂ := h₁.stable hr₂
    have hqne : fs₀.tree r.ls q ≠ none := by simp [hq]
    refine ⟨_, _, exec_opendir hc₂ (h₂.resolve_source hqne) (h₂.source_dir hq), Within.refl _ fs₂, ?_⟩
    set entries := ch₂.order (dot :: dotDot :: fs₂.names (q ++ r.ls)) with hentries
    have hperm : entries.Perm (dot :: dotDot :: fs₂.names (q ++ r.ls)) := ch₂.perm _
    -- what the directory lists is what the source has, each name once
    have hlisted : ∀ n, n ∈ fs₂.names (q ++ r.ls) ↔ fs₀.tree r.ls (n :: q) ≠ none := by
      refine fun n => h₂.mem_names ?_
      rintro (he | hd)
      · exact List.cons_ne_self n q he
      · exact hdisj _ hd (List.suffix_cons n q)
    have hnodup : entries.Nodup := listing_nodup hperm
    have hloop := Terms.Meets.foldlM (T := terms r.footprint r.writes) (b := (0 : ℤ)) (s := fs₂)
      (I := fun names fs' => Progress sha256 r fs₀ (insert q done ∪ seen q names) fs')
      (f := processEntry (systemCalls sha256 fuel) (fun src dest =>
        transferDirectory (systemCalls sha256 fuel) stack src dest r.method) (pathOf r.source q)
        (pathOf r.destination q) r.method) (l := entries)
      (fun _ _ _ h hr => h.stable hr) ?_ (by simpa [seen] using h₂)
    · refine hloop.mono ?_
      rintro (_ | errors) fs' ho
      · exact ho.elim
      refine Progress.finish ho fun n hn => ?_
      exact hperm.mem_iff.mpr (List.mem_cons_of_mem _ (List.mem_cons_of_mem _ ((hlisted n).mpr hn)))
    · -- one entry
      intro names n rest hsplit errors fs₃ h₃
      rw [seen_append, ← Set.union_assoc]
      have hfresh : n ∉ names := by
        rw [hsplit, List.nodup_append] at hnodup
        exact fun hm => hnodup.2.2 n hm n (List.mem_cons_self ..) rfl
      by_cases hdots : n = dot ∨ n = dotDot
      · rw [processEntry_dots _ _ _ _ _ _ hdots]
        exact Terms.Meets.ret fun fs₄ hr₄ => (h₃.skip_dots hdots).stable hr₄
      · have hmem : n ∈ dot :: dotDot :: fs₂.names (q ++ r.ls) :=
          hperm.mem_iff.mp (by rw [hsplit]; simp)
        have hne : fs₀.tree r.ls (n :: q) ≠ none := by
          rw [← hlisted]
          simpa only [List.mem_cons, ← or_assoc, hdots, false_or] using hmem
        have hdone := not_below_child hdisj hfresh
        refine processEntry_meets h₀ h₃ hfuel hne hdone (.inl (.inl rfl)) _ ?_ errors
        intro fs₄ hdir h₄
        refine ih (n :: q) _ fs₄ hdir ?_ hdone ?_ h₄
        · intro p hp hsome
          have := hheight p ((List.suffix_cons n q).trans hp) hsome
          simp only [List.length_cons]
          omega
        · intro m p he
          obtain ⟨rfl, rfl⟩ := List.cons.inj he
          exact .inl (.inl rfl)

/-- A fault-free run, begun while the trees are still as they were. -/
theorem run_meets_from (h₀ : Ready r fs₀) {stack fuel : ℕ} (hstack : fs₀.bound ≤ stack)
    (hfuel : fs₀.bound ≤ fuel) (h : Progress sha256 r fs₀ ∅ fs) :
    (terms r.footprint r.writes).Meets
      (Terms.Returns fun _ fs' => Progress sha256 r fs₀ Set.univ fs')
      (transferDirectory (systemCalls sha256 fuel) stack r.source r.destination r.method) fs := by
  have hcontent : ∀ p c, fs₀.tree r.ls p = some (.file c) → c.length < fuel :=
    fun p c hc => (fs₀.content_lt_bound hc).trans_le hfuel
  have hheight : ∀ p, fs₀.tree r.ls p ≠ none → p.length < stack := by
    intro p hp
    have hlen := fs₀.length_lt_bound (node_of_tree hp)
    rw [List.length_append] at hlen
    omega
  have hall : (terms r.footprint r.writes).Meets
      (Terms.Returns fun _ fs' => Progress sha256 r fs₀ (∅ ∪ below []) fs')
      (transferDirectory (systemCalls sha256 fuel) stack r.source r.destination r.method) fs :=
    transferDirectory_meets h₀ hcontent stack [] ∅ fs (fs₀.entry_dir.mpr h₀.sourceDir)
      (fun p _ hp => by simpa using hheight p hp) (fun p hp => hp.elim) (fun _ _ he => by cases he) h
  refine hall.mono ?_
  rintro (_ | errors) fs' ho
  · exact ho.elim
  · have huniv : ∅ ∪ below [] = Set.univ := by ext p; simp [below]
    exact huniv ▸ ho

/-- A fault-free run, from start to end. -/
theorem run_meets (h₀ : Ready r fs₀) {stack fuel : ℕ} (hstack : fs₀.bound ≤ stack)
    (hfuel : fs₀.bound ≤ fuel) :
    (terms r.footprint r.writes).Meets
      (Terms.Returns fun _ fs' => Progress sha256 r fs₀ Set.univ fs')
      (transferDirectory (systemCalls sha256 fuel) stack r.source r.destination r.method) fs₀ :=
  run_meets_from h₀ hstack hfuel h₀.start

/-- What is left when everything is done. -/
theorem Progress.source_univ (h : Progress sha256 r fs₀ Set.univ fs) :
    fs.tree r.ls = leftover sha256 r.method (fs₀.tree r.ls) (fs₀.tree r.ld) :=
  funext fun p => h.sourceDone p (Set.mem_univ p)

theorem Progress.dest_univ (h : Progress sha256 r fs₀ Set.univ fs) :
    fs.tree r.ld = overlay (fs₀.tree r.ls) (fs₀.tree r.ld) :=
  funext fun p => h.destDone p (Set.mem_univ p)

end Progress

end Reportman.OverlayRun
