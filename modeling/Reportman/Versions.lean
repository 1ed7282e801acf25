import Mathlib

/-!
# A store of versions

What a user keeps changing is copied to a store from time to time, over what the store has, and what is stored
is copied to an archive from time to time. The archive then has the newest version of everything that was there
at some copy before the last time the store was archived.
-/
namespace Reportman.Versions

variable {K V : Type}

inductive Event (K V : Type)
  | backup
  | transfer
  | user (current : K → Option V)

/-- What there is now, the newest versions that are stored, and the versions that are archived. -/
structure Store (K V : Type) where
  current : K → Option V
  stored : K → Option V
  archived : K → Option V

def Store.step (A : Store K V) : Event K V → Store K V
  | .backup => { A with stored := fun k => (A.current k).or (A.stored k) }
  | .transfer => { A with archived := A.stored }
  | .user current => { A with current := current }

def Store.run (A : Store K V) (events : List (Event K V)) : Store K V := events.foldl Store.step A

/-- What there is at each backup. -/
def backups : (K → Option V) → List (Event K V) → List (K → Option V)
  | _, [] => []
  | current, .backup :: events => current :: backups current events
  | current, .transfer :: events => backups current events
  | _, .user current :: events => backups current events

/-- The last of the versions that there are of `k`, or else the old one. -/
def newest (versions : List (K → Option V)) (old : K → Option V) (k : K) : Option V :=
  (versions.filterMap (· k)).getLast?.or (old k)

variable {A : Store K V} {events before after : List (Event K V)}

theorem newest_cons (version : K → Option V) (versions : List (K → Option V)) (old : K → Option V) (k : K) :
    newest (version :: versions) old k = newest versions (fun k => (version k).or (old k)) k := by
  unfold newest
  cases hv : version k with
  | none => simp [hv]
  | some v =>
    have hhead : List.filterMap (· k) (version :: versions) = v :: versions.filterMap (· k) := by simp [hv]
    rw [hhead, List.getLast?_cons]
    cases (versions.filterMap (· k)).getLast? with
    | none => simp [hv]
    | some newer => rfl

theorem run_stored (k : K) : (A.run events).stored k = newest (backups A.current events) A.stored k := by
  induction events generalizing A with
  | nil => rfl
  | cons event events ih =>
    cases event with
    | backup => exact ih.trans (newest_cons ..).symm
    | transfer => exact ih
    | user current => exact ih

theorem run_archived (hafter : .transfer ∉ after) : (A.run after).archived = A.archived := by
  induction after generalizing A with
  | nil => rfl
  | cons event events ih =>
    rw [List.mem_cons, not_or] at hafter
    cases event with
    | backup => exact ih hafter.2
    | transfer => exact absurd rfl hafter.1
    | user current => exact ih hafter.2

/-- What is archived is what was the newest version at the last transfer. -/
theorem run_transfer_archived (hafter : .transfer ∉ after) (k : K) :
    (A.run (before ++ .transfer :: after)).archived k = newest (backups A.current before) A.stored k := by
  have hrun : A.run (before ++ .transfer :: after) = ((A.run before).step .transfer).run after := by
    simp [Store.run]
  rw [hrun, run_archived hafter]
  exact run_stored k

end Reportman.Versions
