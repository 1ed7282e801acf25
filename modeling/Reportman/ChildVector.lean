import Mathlib
import Reportman.Settings

/-!
# The bounds of a child's argument vector

The new process counts the entries of `extra_args` up to a `NULL`, declares an array for them and the fixed
ones, and fills it. What it finds when it reads behind the entries is up to the environment.
-/
namespace Reportman.ChildVector
open Resumable Daemon Arguments

/-- What is passed for `extra_args`: nothing, `__directories`, or a list that ends with `NULL`. -/
inductive ExtraArgs
  | null
  | directories
  | terminated (args : List String)
  deriving DecidableEq, Repr

/-- The array's entries; `NULL` is `none`. -/
def ExtraArgs.cells : ExtraArgs → List (Option String)
  | .null => []
  | .directories => Settings.directories.map some
  | .terminated args => args.map some ++ [none]

/-- How many arguments there are. -/
def ExtraArgs.count : ExtraArgs → ℕ
  | .null => 0
  | .directories => Settings.directories.length
  | .terminated args => args.length

inductive VectorSys
  | readExtra (i : ℕ)
  | declare (length : ℕ)
  | store (i : ℕ) (value : Option String)
  | execv

abbrev VectorSys.Res : VectorSys → Type
  | .readExtra _ => Option String
  | .declare _ | .store _ _ | .execv => Unit

abbrev VectorProg := Program VectorSys VectorSys.Res

/-- The local array: its declared length, and the memory from its first entry on. -/
structure Args where
  length : ℕ
  entry : ℕ → Option String

/-- `found` is what a read behind the entries of `extra_args` gives. -/
def vectorExec (extraArgs : ExtraArgs) (found : Option String) : (op : VectorSys) → Args → op.Res × Args
  | .readExtra i, s => ((extraArgs.cells[i]?).getD found, s)
  | .declare length, s => ((), { s with length := length })
  | .store i value, s => ((), { s with entry := Function.update s.entry i value })
  | .execv, s => ((), s)

def sys (op : VectorSys) : VectorProg op.Res := Program.perform op

def countArgs (argCount : ℕ) : VectorProg ℕ :=
  .call (.readExtra argCount) fun
    | none => .ret argCount
    | some _ => if h : argCount > dMaxInterprocessArguments then .halt else countArgs (argCount + 1)
termination_by dMaxInterprocessArguments + 1 - argCount
decreasing_by omega

def fixedArgs : ℕ := 6

/-- `args[0]` to `args[5]`. -/
def fixedVector (c : ChildName) (parentRead childWrite : ℤ) : List (Option String) :=
  [some c.executable, some "--from-daemon", some "--d-to-c", some (toString parentRead), some "--c-to-d",
    some (toString childWrite)]

def storeFrom : ℕ → List (Option String) → VectorProg Unit
  | _, [] => return ()
  | i, value :: values => do
      sys (.store i value)
      storeFrom (i + 1) values

/-- The second loop, of which `left` rounds are left. -/
def copyExtra (i : ℕ) : ℕ → VectorProg Unit
  | 0 => return ()
  | left + 1 => do
      let arg ← sys (.readExtra i)
      sys (.store (i + fixedArgs) arg)
      copyExtra (i + 1) left

/-- `start_child_process` in the child, from the counting on. -/
def childVector (c : ChildName) (parentRead childWrite : ℤ) (extraArgs : ExtraArgs) : VectorProg Unit := do
  let argCount ← if extraArgs ≠ .null then countArgs 0 else pure 0
  sys (.declare (argCount + fixedArgs))
  storeFrom 0 (fixedVector c parentRead childWrite)
  copyExtra 0 argCount
  sys (.store (argCount + fixedArgs) none)
  sys .execv

section Runs

variable (extraArgs : ExtraArgs) (sched : ℕ → Option String)

theorem run_storeFrom (i : ℕ) (values : List (Option String)) (t : ℕ) (s : Args) :
    ∃ t', run (vectorExec extraArgs) sched (storeFrom i values) t s = ⟨some (), t', s.length,
      fun j => if j < i then s.entry j else (values[j - i]?).getD (s.entry j)⟩ := by
  induction values generalizing i t s with
  | nil => exact ⟨t, by simp [storeFrom, run]⟩
  | cons value values ih =>
    obtain ⟨t', hrun⟩ := ih (i + 1) (t + 1) { s with entry := Function.update s.entry i value }
    refine ⟨t', hrun.trans ?_⟩
    congr 2
    funext j
    have hother (hne : j ≠ i) : Function.update s.entry i value j = s.entry j := Function.update_of_ne hne _ _
    rcases lt_trichotomy j i with hlt | rfl | hgt
    · rw [if_pos (by omega), if_pos hlt]
      exact hother hlt.ne
    · simp
    · have hshift : j - i = (j - (i + 1)) + 1 := by omega
      rw [if_neg (by omega), if_neg (by omega), hshift, List.getElem?_cons_succ]
      simp only [hother hgt.ne']

variable {args : List String}

theorem cells_terminated {i : ℕ} (h : i < args.length) :
    (ExtraArgs.terminated args).cells[i]? = some (some args[i]) := by
  simp [ExtraArgs.cells, List.getElem?_append_left, h]

theorem cells_terminated_length : (ExtraArgs.terminated args).cells[args.length]? = some none := by
  simp [ExtraArgs.cells]

variable {extraArgs} in
theorem run_copyExtra (hcells : ∀ i (h : i < args.length), extraArgs.cells[i]? = some (some args[i]))
    (left : ℕ) {i : ℕ} (h : i + left = args.length) (t : ℕ) (s : Args) :
    ∃ t', run (vectorExec extraArgs) sched (copyExtra i left) t s = ⟨some (), t', s.length,
      fun j => if j < i + fixedArgs then s.entry j else (args[j - fixedArgs]?.map some).getD (s.entry j)⟩ := by
  induction left generalizing i t s with
  | zero =>
    obtain ⟨length, entry⟩ := s
    refine ⟨t, ?_⟩
    simp only [copyExtra, Program.pure_eq, run]
    congr 2
    funext j
    split_ifs with hj
    · rfl
    · rw [List.getElem?_eq_none (by omega), Option.map_none, Option.getD_none]
  | succ left ih =>
    have hi : i < args.length := by omega
    obtain ⟨t', hrun⟩ := ih (i := i + 1) (by omega) (t + 2)
      { s with entry := Function.update s.entry (i + fixedArgs) (some args[i]) }
    have hread : (extraArgs.cells[i]?).getD (sched t) = some args[i] := by
      rw [hcells i hi, Option.getD_some]
    refine ⟨t', ?_⟩
    change run _ _ (copyExtra (i + 1) left) (t + 2) { s with
      entry := Function.update s.entry (i + fixedArgs) ((extraArgs.cells[i]?).getD (sched t)) } = _
    rw [hread, hrun]
    congr 2
    funext j
    have hother (hne : j ≠ i + fixedArgs) :
        Function.update s.entry (i + fixedArgs) (some args[i]) j = s.entry j := Function.update_of_ne hne _ _
    rcases lt_trichotomy j (i + fixedArgs) with hlt | rfl | hgt
    · rw [if_pos (by omega), if_pos hlt]
      exact hother hlt.ne
    · simp [hi]
    · rw [if_neg (by omega), if_neg (by omega)]
      simp only [hother hgt.ne']

theorem run_countArgs (hmax : args.length ≤ dMaxInterprocessArguments + 1) {k : ℕ} (hk : k ≤ args.length)
    (t : ℕ) (s : Args) :
    ∃ t', run (vectorExec (.terminated args)) sched (countArgs k) t s = ⟨some args.length, t', s⟩ := by
  induction hleft : args.length - k generalizing k t with
  | zero =>
    obtain rfl : k = args.length := by omega
    refine ⟨t + 1, ?_⟩
    rw [countArgs]
    simp only [run, vectorExec, cells_terminated_length, Option.getD_some]
  | succ left ih =>
    have hlt : k < args.length := by omega
    obtain ⟨t', hrun⟩ := ih (k := k + 1) (by omega) (t + 1) (by omega)
    refine ⟨t', ?_⟩
    rw [countArgs]
    simp only [run, vectorExec, cells_terminated hlt, Option.getD_some]
    rw [dif_neg (by omega)]
    exact hrun

/-- A list that is too long is given up in the middle, and nothing is stored. -/
theorem trace_countArgs (hmax : dMaxInterprocessArguments + 1 < args.length) {β : Type} (f : ℕ → VectorProg β)
    {k : ℕ} (hk : k ≤ dMaxInterprocessArguments + 1) (t : ℕ) (s : Args) :
    ∀ e ∈ trace (vectorExec (.terminated args)) sched (countArgs k >>= f) t s,
      ∃ i ≤ dMaxInterprocessArguments + 1, e.op = .readExtra i := by
  induction hleft : dMaxInterprocessArguments + 1 - k generalizing k t with
  | zero =>
    rw [countArgs]
    simp only [Program.call_bind, trace, vectorExec, cells_terminated (show k < args.length by omega),
      Option.getD_some]
    rw [dif_pos (by omega)]
    rintro e he
    obtain rfl := List.mem_singleton.mp he
    exact ⟨k, hk, rfl⟩
  | succ left ih =>
    have hlater := ih (k := k + 1) (by omega) (t + 1) (by omega)
    rw [countArgs]
    simp only [Program.call_bind, trace, vectorExec, cells_terminated (show k < args.length by omega),
      Option.getD_some]
    rw [dif_neg (by omega)]
    intro e he
    rcases List.mem_cons.mp he with rfl | he
    · exact ⟨k, hk, rfl⟩
    · exact hlater e he

section Vector

variable (c : ChildName) (parentRead childWrite : ℤ)

/-- What is left to do once the arguments are counted. -/
def fillVector (argCount : ℕ) : VectorProg Unit := do
  sys (.declare (argCount + fixedArgs))
  storeFrom 0 (fixedVector c parentRead childWrite)
  copyExtra 0 argCount
  sys (.store (argCount + fixedArgs) none)
  sys .execv

theorem childVector_null : childVector c parentRead childWrite .null = fillVector c parentRead childWrite 0 := by
  rw [childVector, if_neg (not_not_intro rfl)]
  rfl

variable {extraArgs} in
/-- The array is full when its terminator is stored. -/
theorem fillVector_reaches (hcells : ∀ i (h : i < args.length), extraArgs.cells[i]? = some (some args[i]))
    (t : ℕ) (s : Args) :
    ∃ t' entry, Reaches (vectorExec extraArgs) sched (fillVector c parentRead childWrite args.length) t s
        (sys (.store (args.length + fixedArgs) none) >>= fun _ => sys .execv) t'
        ⟨args.length + fixedArgs, entry⟩ ∧
      ∀ j < args.length + fixedArgs, entry j = (childArgs c parentRead childWrite args)[j]? := by
  obtain ⟨t₁, hfixed⟩ := run_storeFrom extraArgs sched 0 (fixedVector c parentRead childWrite) (t + 1)
    { s with length := args.length + fixedArgs }
  obtain ⟨t₂, hcopy⟩ := run_copyExtra sched hcells args.length (Nat.zero_add _) t₁ ⟨args.length + fixedArgs, _⟩
  refine ⟨t₂, _, .call (.after hfixed (.after hcopy (.here _ _ _))), ?_⟩
  intro j hj
  by_cases hlt : j < 0 + fixedArgs
  · have hsix : j < 6 := by simpa [fixedArgs] using hlt
    rw [if_pos hlt]
    interval_cases j <;> rfl
  · have hsix : fixedArgs ≤ j := by omega
    have hextra : j - fixedArgs < args.length := by omega
    rw [if_neg hlt, List.getElem?_eq_getElem hextra, childArgs, List.getElem?_append_right hsix]
    exact (List.getElem?_eq_getElem hextra).symm

/-- The reads and stores of a step are within their arrays. -/
def WithinArrays (extraArgs : ExtraArgs) (e : Event VectorSys VectorSys.Res Args) : Prop :=
  match e.op with
  | .readExtra i => i < extraArgs.cells.length
  | .store i _ => i < e.before.length
  | .declare _ | .execv => True

/-- The calls of the new process, whatever its memory holds at first. -/
def steps (s : Args) : List (Event VectorSys VectorSys.Res Args) :=
  trace (vectorExec extraArgs) sched (childVector c parentRead childWrite extraArgs) 0 s

structure InBounds (s : Args) : Prop where
  within : ∀ e ∈ steps extraArgs sched c parentRead childWrite s, WithinArrays extraArgs e
  execs : (∃ e ∈ steps extraArgs sched c parentRead childWrite s, e.op = .execv) ↔
    extraArgs.count ≤ dMaxInterprocessArguments
  ends : ∀ e ∈ steps extraArgs sched c parentRead childWrite s, e.op = .execv →
    e.before.entry (extraArgs.count + fixedArgs) = none

variable (args) in
/-- The terminator is stored behind the array. -/
theorem not_within_filled {q : VectorProg Unit} {t : ℕ} {entry : ℕ → Option String} {s : Args}
    (h : Reaches (vectorExec extraArgs) sched (childVector c parentRead childWrite extraArgs) 0 s
      (sys (.store (args.length + fixedArgs) none) >>= fun _ => q) t ⟨args.length + fixedArgs, entry⟩) :
    ¬ InBounds extraArgs sched c parentRead childWrite s :=
  fun hin => Nat.lt_irrefl _ (hin.within _ (h.mem_trace rfl))

variable {extraArgs} in
theorem countArgs_next {k : ℕ} {a : String} (hcell : extraArgs.cells[k]? = some (some a))
    (hk : k ≤ dMaxInterprocessArguments) {β : Type} {f : ℕ → VectorProg β} {t t' : ℕ} {s s' : Args}
    {q : VectorProg β} (h : Reaches (vectorExec extraArgs) sched (countArgs (k + 1) >>= f) (t + 1) s q t' s') :
    Reaches (vectorExec extraArgs) sched (countArgs k >>= f) t s q t' s' := by
  rw [countArgs]
  apply Reaches.call
  simp only [vectorExec, hcell, Option.getD_some]
  rw [dif_neg (by omega)]
  exact h

/-- The third directory is followed by no `NULL`. -/
theorem not_within_directories (s : Args) :
    ¬ InBounds .directories sched c parentRead childWrite s := by
  have hthird : Reaches (vectorExec .directories) sched (countArgs 0 >>= fillVector c parentRead childWrite) 0 s
      (countArgs 3 >>= fillVector c parentRead childWrite) 3 s :=
    countArgs_next sched rfl (by decide) (countArgs_next sched rfl (by decide)
      (countArgs_next sched rfl (by decide) (.here _ _ _)))
  intro hin
  have hread := hthird.mem_trace (by rw [countArgs]; rfl)
  exact Nat.lt_irrefl 3 (hin.within _ hread)

/-- With no extra arguments the terminator is the seventh entry of six. -/
theorem not_within_null (s : Args) : ¬ InBounds .null sched c parentRead childWrite s := by
  have hcells : ∀ i (h : i < ([] : List String).length),
      ExtraArgs.null.cells[i]? = some (some ([] : List String)[i]) := fun i h => absurd h (Nat.not_lt_zero i)
  obtain ⟨t, entry, hfull, -⟩ := fillVector_reaches sched c parentRead childWrite hcells 0 s
  rw [List.length_nil, ← childVector_null] at hfull
  exact not_within_filled .null sched [] c parentRead childWrite hfull

/-- A list that is not too long is counted, and the array filled. -/
theorem terminated_reaches (hmax : args.length ≤ dMaxInterprocessArguments + 1) (s : Args) :
    ∃ t entry, Reaches (vectorExec (.terminated args)) sched
        (childVector c parentRead childWrite (.terminated args)) 0 s
        (sys (.store (args.length + fixedArgs) none) >>= fun _ => sys .execv) t
        ⟨args.length + fixedArgs, entry⟩ ∧
      ∀ j < args.length + fixedArgs, entry j = (childArgs c parentRead childWrite args)[j]? := by
  obtain ⟨t, hcount⟩ := run_countArgs sched hmax (Nat.zero_le _) 0 s
  have hcells : ∀ i (h : i < args.length), (ExtraArgs.terminated args).cells[i]? = some (some args[i]) :=
    fun i h => cells_terminated h
  obtain ⟨t', entry, hfull, hentry⟩ := fillVector_reaches sched c parentRead childWrite hcells t s
  exact ⟨t', entry, .after hcount hfull, hentry⟩

/-- The vector that is passed on, `NULL` included. -/
theorem terminated_execs (hmax : args.length ≤ dMaxInterprocessArguments + 1) (s : Args) :
    ∃ e ∈ steps (.terminated args) sched c parentRead childWrite s, e.op = .execv ∧
      ∀ j ≤ args.length + fixedArgs, e.before.entry j = (childArgs c parentRead childWrite args)[j]? := by
  obtain ⟨t, entry, hfull, hentry⟩ := terminated_reaches sched c parentRead childWrite hmax s
  have hexec : Reaches (vectorExec (.terminated args)) sched (sys .execv) (t + 1)
      ⟨args.length + fixedArgs, Function.update entry (args.length + fixedArgs) none⟩ (sys .execv) (t + 1)
      ⟨args.length + fixedArgs, Function.update entry (args.length + fixedArgs) none⟩ := .here _ _ _
  refine ⟨_, (hfull.trans (.call hexec)).mem_trace rfl, rfl, ?_⟩
  intro j hj
  rcases Nat.lt_or_eq_of_le hj with hlt | rfl
  · exact (Function.update_of_ne hlt.ne _ _).trans (hentry j hlt)
  · have hlength : (childArgs c parentRead childWrite args).length = args.length + fixedArgs := by
      rw [childArgs, List.length_append, Nat.add_comm]
      rfl
    rw [List.getElem?_eq_none hlength.le]
    exact Function.update_self _ _ _

/-- All is in bounds exactly when a list is too long to be passed on at all. -/
theorem childVector_inBounds_iff (s : Args) : InBounds extraArgs sched c parentRead childWrite s ↔
    ∃ args, extraArgs = .terminated args ∧ dMaxInterprocessArguments + 1 < args.length := by
  cases extraArgs with
  | null => exact iff_of_false (not_within_null sched c parentRead childWrite s) (by rintro ⟨_, ⟨⟩, _⟩)
  | directories =>
    exact iff_of_false (not_within_directories sched c parentRead childWrite s) (by rintro ⟨_, ⟨⟩, _⟩)
  | terminated args =>
    by_cases hlong : dMaxInterprocessArguments + 1 < args.length
    · have hreads : ∀ e ∈ steps (.terminated args) sched c parentRead childWrite s,
          ∃ i ≤ dMaxInterprocessArguments + 1, e.op = .readExtra i :=
        trace_countArgs sched hlong (fillVector c parentRead childWrite) (Nat.zero_le _) 0 s
      have hnever : ∀ e ∈ steps (.terminated args) sched c parentRead childWrite s, e.op ≠ .execv := by
        intro e he hop
        obtain ⟨i, -, hread⟩ := hreads e he
        cases hop.symm.trans hread
      refine iff_of_true ⟨?_, ?_, fun e he hop => absurd hop (hnever e he)⟩ ⟨args, rfl, hlong⟩
      · intro e he
        obtain ⟨i, hi, hread⟩ := hreads e he
        simp only [WithinArrays, hread, ExtraArgs.cells, List.length_append, List.length_map]
        omega
      · refine iff_of_false (fun ⟨e, he, hop⟩ => hnever e he hop) ?_
        simp only [ExtraArgs.count]
        omega
    · obtain ⟨t, entry, hfull, -⟩ := terminated_reaches sched c parentRead childWrite
        (not_lt.mp hlong) s
      refine iff_of_false (not_within_filled (.terminated args) sched args c parentRead childWrite hfull) ?_
      rintro ⟨_, ⟨⟩, h⟩
      exact hlong h

/-- `reportman_fm`, as the daemon starts it. -/
theorem not_inBounds_fm : ¬ InBounds .null (fun _ => none) .fm 4 5 ⟨0, fun _ => none⟩ :=
  not_within_null (fun _ => none) .fm 4 5 ⟨0, fun _ => none⟩

end Vector

end Runs

end Reportman.ChildVector
