import Mathlib

/-!
# Overlaying one directory tree on another

A tree is a partial map from relative paths to entries; a path is written innermost name first, so
that `n :: p` is the child `n` of `p`. `overlay S X` is `S` laid over `X`: what `S` has appears in
the result unless a file meets a directory, and then everything from that place on is left as `X`
has it. Each value of the overlay is given by the two trees alone, so no order of copying enters.
-/
namespace Reportman.Overlay

inductive Entry (C : Type)
  | dir
  | file (content : C)
  deriving DecidableEq, Repr

/-- A tree over names `N` and file contents `C`. -/
abbrev Tree (N C : Type) := List N → Option (Entry C)

variable {N C : Type}

def isFile : Option (Entry C) → Bool
  | some (.file _) => true
  | _ => false

def isDir : Option (Entry C) → Bool
  | some .dir => true
  | _ => false

/-- No file of `X` stands strictly above the path. -/
def clear (X : Tree N C) : List N → Bool
  | [] => true
  | _ :: p => clear X p && !isFile (X p)

/-- A file can be put at the path: nothing above it is a file and it is no directory. -/
def lands (X : Tree N C) (p : List N) : Bool := clear X p && !isDir (X p)

def overlay (S X : Tree N C) (p : List N) : Option (Entry C) :=
  match S p with
  | none => X p
  | some .dir => if clear X p && (X p).isNone then some .dir else X p
  | some (.file c) => if lands X p then some (.file c) else X p

/-- The source once the files that `gone` selects have been moved out of it. -/
def drained (gone : C → Bool) (S X : Tree N C) (p : List N) : Option (Entry C) :=
  match S p with
  | some (.file c) => if gone c && lands X p then none else some (.file c)
  | e => e

/-- Every entry lies in a directory. -/
def Closed (X : Tree N C) : Prop := ∀ n p, X (n :: p) ≠ none → X p = some .dir

theorem overlay_none {S X : Tree N C} {p : List N} (h : S p = none) : overlay S X p = X p := by
  simp [overlay, h]

theorem overlay_dir {S X : Tree N C} {p : List N} (h : S p = some .dir) :
    overlay S X p = if clear X p && (X p).isNone then some .dir else X p := by
  simp [overlay, h]

theorem overlay_file {S X : Tree N C} {p : List N} {c : C} (h : S p = some (.file c)) :
    overlay S X p = if lands X p then some (.file c) else X p := by
  simp [overlay, h]

theorem drained_of_not_file {gone : C → Bool} {S X : Tree N C} {p : List N}
    (h : isFile (S p) = false) : drained gone S X p = S p := by
  unfold drained
  cases hs : S p with
  | none => rfl
  | some e => cases e <;> simp_all [isFile]

theorem drained_file {gone : C → Bool} {S X : Tree N C} {p : List N} {c : C}
    (h : S p = some (.file c)) :
    drained gone S X p = if gone c && lands X p then none else some (.file c) := by
  simp [drained, h]

theorem isDir_iff {e : Option (Entry C)} : isDir e = true ↔ e = some .dir := by
  rcases e with _ | _ | _ <;> simp [isDir]

theorem isFile_iff {e : Option (Entry C)} : isFile e = true ↔ ∃ c, e = some (.file c) := by
  rcases e with _ | _ | _ <;> simp [isFile]

/-- In a closed tree nothing stands below a file. -/
theorem Closed.eq_none_of_not_clear {X : Tree N C} (hX : Closed X) {p : List N}
    (h : clear X p = false) : X p = none := by
  induction p with
  | nil => simp [clear] at h
  | cons n p ih =>
    by_contra hne
    have hd := hX n p hne
    simp only [clear, hd, isFile, Bool.not_false, Bool.and_true] at h
    rw [ih h] at hd
    cases hd

/-- Where the source has a directory, the result has one exactly when nothing at or above the
path is a file of the target. -/
theorem isDir_overlay_iff {S X : Tree N C} (hX : Closed X) {p : List N}
    (hS : S p = some .dir) : overlay S X p = some .dir ↔ clear X p = true ∧ isFile (X p) = false := by
  rw [overlay_dir hS]
  cases hc : clear X p with
  | false => simp [hX.eq_none_of_not_clear hc]
  | true => rcases hx : X p with _ | _ | _ <;> simp [isFile]

theorem clear_cons {X : Tree N C} {n : N} {p : List N} :
    clear X (n :: p) = true ↔ clear X p = true ∧ isFile (X p) = false := by
  simp [clear]

/-- Where a closed tree has an entry, it has one at every place above. -/
theorem Closed.above {X : Tree N C} (hX : Closed X) {q p : List N} (hp : X p ≠ none) (h : q <:+ p) :
    X q ≠ none := by
  obtain ⟨t, rfl⟩ := h
  induction t with
  | nil => exact hp
  | cons n t ih => exact ih (by rw [hX n (t ++ q) hp]; simp)

/-- What lies below a path is the path itself or lies below a child of it. -/
theorem eq_or_cons_suffix {q p : List N} (h : q <:+ p) : q = p ∨ ∃ n, n :: q <:+ p := by
  obtain ⟨t, rfl⟩ := h
  rcases List.eq_nil_or_concat t with rfl | ⟨t, n, rfl⟩
  · exact .inl rfl
  · exact .inr ⟨n, ⟨t, by simp⟩⟩

/-- Strictly above an entry there are directories. -/
theorem Closed.dir_above {X : Tree N C} (hX : Closed X) {q p : List N} (hp : X p ≠ none)
    (h : q <:+ p) (hne : q ≠ p) : X q = some .dir := by
  rcases eq_or_cons_suffix h with rfl | ⟨n, hn⟩
  · exact absurd rfl hne
  · exact hX n q (hX.above hp hn)

/-- Below a file there is nothing. -/
theorem Closed.below_file {X : Tree N C} (hX : Closed X) {q p : List N} {c : C}
    (hq : X q = some (.file c)) (h : q <:+ p) (hne : p ≠ q) : X p = none := by
  by_contra hp
  have hd := hX.dir_above hp h hne.symm
  rw [hq] at hd
  cases hd

theorem clear_iff {X : Tree N C} {p : List N} :
    clear X p = true ↔ ∀ q, q <:+ p → q ≠ p → isFile (X q) = false := by
  induction p with
  | nil => simp +contextual [clear]
  | cons n p ih =>
    rw [clear_cons, ih]
    constructor
    · rintro ⟨habove, hp⟩ q hq hne
      rcases List.suffix_cons_iff.mp hq with rfl | hq
      · exact absurd rfl hne
      · by_cases hqp : q = p
        · rw [hqp, hp]
        · exact habove q hq hqp
    · intro h
      refine ⟨fun q hq hne => h q (hq.trans (List.suffix_cons n p)) ?_, h p (List.suffix_cons n p) ?_⟩
      · rintro rfl
        exact absurd hq.length_le (by simp)
      · exact (List.cons_ne_self n p).symm

/-- One tree has a file where the other has a directory. -/
def conflict (S X : Tree N C) (q : List N) : Prop :=
  (isFile (S q) = true ∧ isDir (X q) = true) ∨ (isDir (S q) = true ∧ isFile (X q) = true)

/-- At and below a conflict the target is left as it was; everywhere else the source comes first. -/
theorem overlay_eq {S X : Tree N C} (hS : Closed S) {p : List N} :
    ((∃ q, q <:+ p ∧ conflict S X q) → overlay S X p = X p) ∧
      ((∀ q, q <:+ p → ¬ conflict S X q) → overlay S X p = (S p).or (X p)) := by
  cases hs : S p with
  | none => simp [overlay_none hs]
  | some e =>
    have habove : ∀ q, q <:+ p → q ≠ p → isDir (S q) = true := fun q hq hne =>
      isDir_iff.mpr (hS.dir_above (by simp [hs]) hq hne)
    constructor
    · rintro ⟨q, hq, hconf⟩
      by_cases hqp : q = p
      · subst hqp
        cases e with
        | dir =>
          have hx : isFile (X q) = true := by
            rcases hconf with ⟨hf, -⟩ | ⟨-, hx⟩
            · simp [hs, isFile] at hf
            · exact hx
          obtain ⟨c, hx⟩ := isFile_iff.mp hx
          rw [overlay_dir hs, hx]
          simp
        | file c =>
          have hx : isDir (X q) = true := by
            rcases hconf with ⟨-, hx⟩ | ⟨hd, -⟩
            · exact hx
            · simp [hs, isDir] at hd
          rw [overlay_file hs]
          simp [lands, hx]
      · -- strictly above there is a directory of the source, so it is a file of the target
        have hfile : isFile (X q) = true := by
          have hd := isDir_iff.mp (habove q hq hqp)
          simpa [conflict, hd, isFile, isDir] using hconf
        have hc : clear X p = false := by
          rw [Bool.eq_false_iff]
          intro hc
          rw [clear_iff.mp hc q hq hqp] at hfile
          cases hfile
        cases e with
        | dir => rw [overlay_dir hs]; simp [hc]
        | file c => rw [overlay_file hs]; simp [lands, hc]
    · intro hno
      have hc : clear X p = true := by
        rw [clear_iff]
        intro q hq hne
        rw [Bool.eq_false_iff]
        exact fun hf => hno q hq (.inr ⟨habove q hq hne, hf⟩)
      have hp := hno p (List.suffix_refl p)
      cases e with
      | dir =>
        rw [overlay_dir hs, hc]
        rcases hx : X p with _ | _ | c
        · simp
        · simp
        · exact absurd (.inr ⟨by simp [hs, isDir], by simp [hx, isFile]⟩) hp
      | file c =>
        rw [overlay_file hs, if_pos]
        · rfl
        · rcases hx : X p with _ | _ | d
          · simp [lands, hc, hx, isDir]
          · exact absurd (.inl ⟨by simp [hs, isFile], by simp [hx, isDir]⟩) hp
          · simp [lands, hc, hx, isDir]

end Reportman.Overlay
