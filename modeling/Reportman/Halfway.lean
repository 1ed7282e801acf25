import Mathlib
import Reportman.Overlay

/-!
# Overlays that were broken off

`S` is being laid over `X`, and some of its files are to be taken away once they have landed. Whatever has been
done when this is broken off, what is left to do is still the same: laying the rest of the source over what has
come of the target gives the overlay of the two trees at the beginning.
-/
namespace Reportman.Overlay

variable {N C : Type} {gone : C → Bool} {S X S' X' : Tree N C} {p q : List N}

/-- What may have become of a place of the target where the source has `s`: a new directory, or a file with any
content. -/
inductive Meanwhile (s x : Option (Entry C)) : Option (Entry C) → Prop
  | same : Meanwhile s x x
  | made (hs : s = some .dir) (hx : x = none) : Meanwhile s x (some .dir)
  | written (hs : isFile s = true) (hx : isDir x = false) (c : C) : Meanwhile s x (some (.file c))

structure Halfway (gone : C → Bool) (S X S' X' : Tree N C) : Prop where
  source : ∀ p, S' p = S p ∨ (S' p = none ∧ ∃ c, S p = some (.file c) ∧ gone c = true ∧ lands X p = true ∧
    X' p = some (.file c))
  dest : ∀ p, Meanwhile (S p) (X p) (X' p)

theorem Meanwhile.write {s x x' : Option (Entry C)} (h : Meanwhile s x x') (hs : isFile s = true)
    (hx' : isDir x' = false) (c : C) : Meanwhile s x (some (.file c)) := by
  refine .written hs ?_ c
  cases h with
  | same => exact hx'
  | made hs' hx => simp [hx, isDir]
  | written _ hx _ => exact hx

theorem Meanwhile.make {s x : Option (Entry C)} (h : Meanwhile s x none) (hs : s = some .dir) :
    Meanwhile s x (some .dir) := by
  cases h with
  | same => exact .made hs rfl

/-- Where the source has a directory, no file comes or goes. -/
theorem Meanwhile.isFile_eq {s x x' : Option (Entry C)} (h : Meanwhile s x x') (hs : s = some .dir) :
    isFile x' = isFile x := by
  cases h with
  | same => rfl
  | made _ hx => simp [hx, isFile]
  | written hs' _ _ => simp [hs, isFile] at hs'

theorem Meanwhile.isDir_eq {s x x' : Option (Entry C)} (h : Meanwhile s x x') (hs : isFile s = true) :
    isDir x' = isDir x := by
  cases h with
  | same => rfl
  | made hs' _ => simp [hs', isFile] at hs
  | written _ hx _ => exact hx.symm

namespace Halfway

theorem clear_eq (h : Halfway gone S X S' X') (hS : Closed S) (hp : S p ≠ none) : clear X' p = clear X p := by
  rw [Bool.eq_iff_iff, clear_iff, clear_iff]
  refine forall_congr' fun q => forall_congr' fun hq => forall_congr' fun hne => ?_
  rw [(h.dest q).isFile_eq (hS.dir_above hp hq hne)]

theorem lands_eq (h : Halfway gone S X S' X') (hS : Closed S) {c : C} (hp : S p = some (.file c)) :
    lands X' p = lands X p := by
  rw [lands, lands, h.clear_eq hS (by simp [hp]), (h.dest p).isDir_eq (by simp [hp, isFile])]

/-- Where nothing lands the target stays as it was. -/
theorem stays (h : Halfway gone S X S' X') (hS : Closed S) (hX : Closed X) (hX' : Closed X') {c : C}
    (hp : S p = some (.file c)) (hl : lands X p = false) : X' p = X p := by
  have hclear := h.clear_eq hS (p := p) (by simp [hp])
  cases hc : clear X p with
  | false => rw [hX.eq_none_of_not_clear hc, hX'.eq_none_of_not_clear (hclear.trans hc)]
  | true =>
    have hdir : X p = some .dir := by simpa [lands, hc, isDir_iff] using hl
    have hd := h.dest p
    rw [hdir] at hd ⊢
    generalize X' p = x' at hd
    cases hd with
    | same => rfl
    | made _ hx => cases hx
    | written _ hx _ => cases hx

/-- The rest of the source over what has come of the target. -/
theorem overlay_eq (h : Halfway gone S X S' X') (hS : Closed S) (hX : Closed X) (hX' : Closed X') :
    overlay S' X' = overlay S X := by
  funext p
  cases hs : S p with
  | none =>
    have hnone : S' p = none := (h.source p).elim (·.trans hs) (·.1)
    have hd := h.dest p
    rw [hs] at hd
    rw [overlay_none hnone, overlay_none hs]
    generalize X' p = x' at hd
    cases hd with
    | same => rfl
    | made hs' _ => cases hs'
    | written hs' _ _ => cases hs'
  | some e =>
    cases e with
    | dir =>
      have hs' : S' p = some .dir := by
        rcases h.source p with hsame | ⟨-, c, hfile, -⟩
        · exact hsame.trans hs
        · rw [hs] at hfile
          cases hfile
      rw [overlay_dir hs', overlay_dir hs, h.clear_eq hS (by simp [hs])]
      have hd := h.dest p
      rw [hs] at hd
      cases hc : clear X p with
      | false => rw [hX.eq_none_of_not_clear hc, hX'.eq_none_of_not_clear ((h.clear_eq hS (by simp [hs])).trans hc)]
      | true =>
        generalize X' p = x' at hd
        cases hd with
        | same => rfl
        | made _ hx => simp [hx]
        | written hs' _ _ => cases hs'
    | file c =>
      rw [overlay_file hs]
      rcases h.source p with hsame | ⟨hnone, c', hfile, -, hl, hx⟩
      · have hs' := hsame.trans hs
        rw [overlay_file hs', h.lands_eq hS hs]
        split_ifs with hl
        · rfl
        · exact h.stays hS hX hX' hs (Bool.eq_false_iff.2 hl)
      · rw [overlay_none hnone, if_pos hl, hx, ← hfile, hs]

/-- … and what it takes away of the source. -/
theorem drained_eq (h : Halfway gone S X S' X') (hS : Closed S) : drained gone S' X' = drained gone S X := by
  funext p
  rcases h.source p with hsame | ⟨hnone, c, hfile, hg, hl, -⟩
  · unfold drained
    rw [hsame]
    cases hs : S p with
    | none => rfl
    | some e =>
      cases e with
      | dir => rfl
      | file c => rw [h.lands_eq hS hs]
  · rw [drained_of_not_file (by simp [hnone, isFile]), hnone, drained_file hfile, hg, hl]
    rfl

end Halfway

end Reportman.Overlay
