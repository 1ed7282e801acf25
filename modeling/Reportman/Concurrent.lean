import Mathlib
import Reportman.EntryPoints
import Reportman.Parallel

/-!
# Runs at the same time

The daemon runs what its clients request, and `reportman_fm` what its timers ask for, in two processes that know
nothing of each other. Runs that do not write where another one works come out, call by call in any order, as if
each were alone. The backup of a client and the scheduled one are such a pair, and there is no other.
-/
namespace Reportman.Concurrent
open Resumable FileSystem TransferFile TransferDirectory OverlayRun Directories EntryPoints Overlay

abbrev Request := EntryPoint × TransferMethod

def source (r : Request) : Directory := (moves r.1 r.2).1

def destination (r : Request) : Directory := (moves r.1 r.2).2

def requested (place : Directory → Loc) (r : Request) : Run := runOf place (source r) (destination r) r.2

/-- What is at work in one of the two runs is not written in the other. -/
def Apart (r r' : Request) : Prop :=
  destination r' ≠ source r ∧ destination r' ≠ destination r ∧
    (r'.2 = .transfer → source r' ≠ source r ∧ source r' ≠ destination r)

/-- Only a client's backup and the scheduled one leave each other alone. -/
theorem apart_iff (r r' : Request) : Apart r r' ∧ Apart r' r ↔
    r.2 = .backup ∧ r'.2 = .backup ∧ (r.1 = .client ∧ r'.1 = .timer ∨ r.1 = .timer ∧ r'.1 = .client) := by
  obtain ⟨entry, method⟩ := r
  obtain ⟨entry', method'⟩ := r'
  cases entry <;> cases method <;> cases entry' <;> cases method' <;> simp [Apart, source, destination, moves]

variable {place : Directory → Loc} {fs : FS}

theorem Apart.disjoint {r r' : Request} (h : Apart r r') (hp : Plain place fs) (l : Loc)
    (hl : (requested place r).footprint l) : ¬ (requested place r').writes l := by
  obtain ⟨hsource, hdest, htransfer⟩ := h
  rintro (hw | ⟨hmethod, hw⟩)
  · rcases hl with hl | hl
    · exact hsource (hp.unique hw hl)
    · exact hdest (hp.unique hw hl)
  · rcases hl with hl | hl
    · exact (htransfer hmethod).1 (hp.unique hw hl)
    · exact (htransfer hmethod).2 (hp.unique hw hl)

/-- No file of the three directories has a second name in them. -/
def Shared (place : Directory → Loc) (fs : FS) : Prop := Sole (Inside place) (Inside place) fs

variable {ι : Type} (sha256 : Bytes → Bytes) (stack fuel : ℕ) (requests : ι → Request)

/-- All requests at their beginning. -/
def started (fs : FS) : Pool ι Sys Sys.Res Unit FS :=
  ⟨fun i => entryRun sha256 stack fuel (requests i).1 (requests i).2, fs⟩

def requestTerms (place : Directory → Loc) (r : Request) : Terms Sys Sys.Res Choice FS :=
  terms (requested place r).footprint (requested place r).writes

variable {sha256 stack fuel requests}

theorem inside_footprint {r : Request} {l : Loc} (h : (requested place r).footprint l) : Inside place l :=
  h.elim (⟨source r, ·⟩) (⟨destination r, ·⟩)

theorem inside_writes {r : Request} {l : Loc} (h : (requested place r).writes l) : Inside place l :=
  h.elim (⟨destination r, ·⟩) fun hs => ⟨source r, hs.2⟩

theorem requestTerms_compatible (hp : Plain place fs)
    (hapart : ∀ i j, i ≠ j → Apart (requests j) (requests i)) :
    Pool.Compatible exec Choice.clean (fun i => requestTerms place (requests i)) (Shared place) where
  exec _ := rfl
  allowed _ _ hc := hc
  shared _ _ _ _ _ hshared hwithin := hwithin.sole _ _ hshared
  rely i j hij _ _ _ _ hshared hwithin :=
    hwithin.keeps ((hapart i j hij).disjoint hp) (hshared.mono (fun _ => inside_footprint) fun _ => inside_writes)

/-- What is known of the requests while they are running. -/
theorem started_meets (hp : Plain place fs) (hstack : fs.bound ≤ stack) (hfuel : fs.bound ≤ fuel) :
    Pool.Meets (fun i => requestTerms place (requests i))
      (fun i => Terms.Returns fun _ fs' => Progress sha256 (requested place (requests i)) fs Set.univ fs')
      (Shared place) (started sha256 stack fuel requests fs) :=
  ⟨fun i => entryRun_meets hp (requests i).1 (requests i).2 hstack hfuel, hp.sole⟩

/-- The backup of a client and the scheduled one. -/
def backups (client : Bool) : Request := (if client then .client else .timer, .backup)

theorem backups_apart (i j : Bool) (hij : i ≠ j) : Apart (backups j) (backups i) := by
  refine ((apart_iff _ _).2 ⟨?_, ?_, ?_⟩).1
  · rfl
  · rfl
  · revert i j
    decide

end Reportman.Concurrent
