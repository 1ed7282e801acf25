import Mathlib
import Reportman.ErrorCount
import Reportman.Frame

/-!
# Where the traversal goes

`transfer_directory` calls itself on a path that it has joined in a buffer and looked up again. The
destination lies elsewhere and only files are taken out of the source, so the directories of the
source stand still while the traversal goes through them: what `opendir` and `stat` say of them is
what they say of the tree as it was found. The recursive calls are made visible here as calls of
their own.
-/
namespace Reportman.Traversal
open Resumable FileSystem TransferFile TransferDirectory ErrorCount

inductive CallSys
  | dir (op : DirSys)
  | recurse (caller callee : Path)

abbrev CallSys.Res : CallSys → Type
  | .dir op => op.Res
  | .recurse _ _ => Unit

abbrev CallProg := Program CallSys CallSys.Res

def visibleCalls : Calls CallProg where
  mkdir path mode := Program.perform (CallSys.dir (.mkdir path mode))
  opendir path := Program.perform (CallSys.dir (.opendir path))
  stat path := Program.perform (CallSys.dir (.stat path))
  transact source destination method := Program.perform (CallSys.dir (.transact source destination method))

/-- `transfer_directory` with its recursive calls in sight. -/
def transferDirectory : ℕ → Path → Path → TransferMethod → CallProg ℤ
  | 0, _, _, _ => .halt
  | stack + 1, source, destination, method => do
      let _ ← visibleCalls.mkdir destination 0o7
      match ← visibleCalls.opendir source with
      | none => return 1
      | some entries =>
          entries.foldlM (processEntry visibleCalls
            (fun src dest => Program.perform (CallSys.recurse source src) >>= fun _ =>
              transferDirectory stack src dest method) source destination method) 0

/-- A recursive call is nothing that the system sees. -/
def hidden : (op : CallSys) → DirProg op.Res
  | .dir op => Program.perform op
  | .recurse _ _ => .ret ()

theorem transferDirectory_succ (stack : ℕ) (source destination : Path) (method : TransferMethod) :
    transferDirectory (stack + 1) source destination method =
      .call (CallSys.dir (.mkdir destination 0o7)) fun _ =>
        .call (CallSys.dir (.opendir source)) fun dir => match dir with
          | none => .ret 1
          | some entries => entries.foldlM (processEntry visibleCalls
              (fun src dest => Program.perform (CallSys.recurse source src) >>= fun _ =>
                transferDirectory stack src dest method) source destination method) 0 := by
  refine congrArg (Program.call _) (funext fun _ => congrArg (Program.call _) (funext fun dir => ?_))
  cases dir <;> rfl

/-- With the recursive calls out of sight it is the program itself. -/
theorem interpret_hidden (stack : ℕ) (source destination : Path) (method : TransferMethod) :
    (transferDirectory stack source destination method).interpret hidden =
      TransferDirectory.transferDirectory dirCalls stack source destination method := by
  induction stack generalizing source destination with
  | zero => rfl
  | succ stack ih =>
    have hentry (noErrors : ℤ) (name : Name) :
        (processEntry visibleCalls (fun src dest => Program.perform (CallSys.recurse source src) >>= fun _ =>
          transferDirectory stack src dest method) source destination method noErrors name).interpret hidden =
        processEntry dirCalls (fun src dest => TransferDirectory.transferDirectory dirCalls stack src dest method)
          source destination method noErrors name := by
      by_cases hdots : name = dot ∨ name = dotDot
      · rw [processEntry_dots _ _ _ _ _ _ hdots, processEntry_dots _ _ _ _ _ _ hdots]
        rfl
      · rw [processEntry_eq _ _ _ _ _ _ hdots, processEntry_eq _ _ _ _ _ _ hdots]
        refine congrArg (Program.call (DirSys.stat (joinPath source name))) (funext fun status => ?_)
        rcases status with _ | _ | _ | _
        · rfl
        · change ((transferDirectory stack _ _ method >>= _).interpret hidden) = _
          rw [Program.interpret_bind, ih]
          rfl
        all_goals
          refine congrArg (Program.call (DirSys.transact _ _ method)) (funext fun status => ?_)
          change (if status ≠ transactSuccess then _ else _ : CallProg ℤ).interpret hidden =
            if status ≠ transactSuccess then _ else _
          split_ifs <;> rfl
    rw [transferDirectory_succ, TransferDirectory.transferDirectory_succ]
    refine congrArg (Program.call (DirSys.mkdir destination 0o7)) (funext fun _ => ?_)
    refine congrArg (Program.call (DirSys.opendir source)) (funext fun dir => ?_)
    cases dir with
    | none => rfl
    | some entries =>
      change (entries.foldlM _ (0 : ℤ) : CallProg ℤ).interpret hidden = entries.foldlM _ 0
      rw [Program.interpret_foldlM]
      simp only [hentry]

/-- What is left open about one call: the order of a listing, whether a file is still there, and what
the calls on the destination return. -/
structure Answer where
  choice : Choice
  clean : choice.clean
  gone : Bool
  number : ℤ

/-- The answers in a tree whose directories stand still. -/
def treeExec (fs : FS) (c : Answer) : (op : CallSys) → Unit → op.Res × Unit
  | .dir (.mkdir _ _), _ => (c.number, ())
  | .dir (.opendir path), _ => ((exec c.choice (.opendir path) fs).1, ())
  | .dir (.stat path), _ =>
      (match (exec c.choice (.stat path) fs).1 with
        | some .directory => some .directory
        | status => if c.gone then none else status, ())
  | .dir (.transact _ _ _), _ => (c.number, ())
  | .recurse _ _, _ => ((), ())

abbrev Calling := Path × Path

/-- The recursive calls of a run, in order. -/
def recursions (events : List (Event CallSys CallSys.Res Unit)) : List Calling :=
  events.filterMap fun e => match e.op with
    | .recurse caller callee => some (caller, callee)
    | .dir _ => none

/-- The path leads to a directory. -/
def leads (fs : FS) (path : Path) : Bool :=
  match fs.resolve path with
  | some l => fs.node l = some .dir
  | none => false

/-- An activation on a directory, and the recursive calls it makes in the end. -/
inductive CallTree (fs : FS) : Path → List Calling → Prop
  | mk {source : Path} {l : Loc} (hl : fs.resolve source = some l) (hdir : fs.node l = some .dir)
      (calls : List (Name × List Calling))
      (hcallees : (calls.map Prod.fst).Perm ((fs.names l).filter fun n => leads fs (joinPath source n)))
      (hcalls : ∀ call ∈ calls, CallTree fs (joinPath source call.1) call.2) :
      CallTree fs source (calls.flatMap fun call => (source, joinPath source call.1) :: call.2)

/-- The recursion from a directory needs no more frames than these. -/
def Depth (fs : FS) : ℕ → Path → Prop
  | 0, _ => False
  | stack + 1, source => ∀ l n, fs.resolve source = some l → n ∈ fs.names l →
      leads fs (joinPath source n) = true → Depth fs stack (joinPath source n)

section Run

variable {fs : FS} {sched : ℕ → Answer} {method : TransferMethod}

theorem leads_iff {path : Path} :
    leads fs path = true ↔ ∃ l, fs.resolve path = some l ∧ fs.node l = some .dir := by
  unfold leads
  rcases fs.resolve path with _ | l <;> simp

theorem stat_directory (c : Answer) {path : Path} (h : leads fs path = true) (u : Unit) :
    treeExec fs c (.dir (.stat path)) u = (some .directory, ()) := by
  obtain ⟨l, hl, hd⟩ := leads_iff.mp h
  have hc : c.choice.fails = false := c.clean
  simp [treeExec, exec, hc, hl, typeAt, hd]

theorem stat_other (c : Answer) {path : Path} (h : ¬ leads fs path = true) (u : Unit) :
    ∃ status, treeExec fs c (.dir (.stat path)) u = (status, ()) ∧ status ≠ some .directory := by
  refine ⟨_, rfl, ?_⟩
  have hnot : (exec c.choice (.stat path) fs).1 ≠ some .directory := by
    intro hs
    obtain ⟨l, hl, -, hd⟩ := Faults.stat_answers hs
    exact h (leads_iff.mpr ⟨l, hl, hd.mpr rfl⟩)
  rcases hs : (exec c.choice (.stat path) fs).1 with _ | _ | _ | _
  · simp
  · exact absurd hs hnot
  · cases c.gone <;> simp
  · cases c.gone <;> simp

theorem recursions_append (h h' : List (Event CallSys CallSys.Res Unit)) :
    recursions (h ++ h') = recursions h ++ recursions h' := List.filterMap_append

/-- How a run ends: with the calls of a tree, or because the tree is too deep. -/
def Called (fs : FS) (stack : ℕ) (source : Path) (before : List Calling) :
    Option ℤ → Unit × List (Event CallSys CallSys.Res Unit) → Prop
  | some _, s => ∃ calls, CallTree fs source calls ∧ recursions s.2 = before ++ calls
  | none, _ => ¬ Depth fs stack source

/-- The recursive calls for the entries `done` of a listing: one for each that leads to a directory. -/
structure Made (fs : FS) (source : Path) (done : List Name) (calls : List (Name × List Calling)) : Prop where
  callees : calls.map Prod.fst =
    done.filter fun n => (n ≠ dot ∧ n ≠ dotDot) ∧ leads fs (joinPath source n) = true
  trees : ∀ call ∈ calls, CallTree fs (joinPath source call.1) call.2

theorem Made.skip {source : Path} {done : List Name} {calls : List (Name × List Calling)} {n : Name}
    (h : Made fs source done calls) (hn : (n = dot ∨ n = dotDot) ∨ ¬ leads fs (joinPath source n) = true) :
    Made fs source (done ++ [n]) calls where
  callees := by
    have hskip : ¬ ((n ≠ dot ∧ n ≠ dotDot) ∧ leads fs (joinPath source n) = true) := by tauto
    simp [List.filter_append, h.callees, hskip]
  trees := h.trees

theorem Made.call {source : Path} {done : List Name} {calls : List (Name × List Calling)} {n : Name}
    {sub : List Calling} (h : Made fs source done calls) (hdots : ¬ (n = dot ∨ n = dotDot))
    (hleads : leads fs (joinPath source n) = true) (htree : CallTree fs (joinPath source n) sub) :
    Made fs source (done ++ [n]) (calls ++ [(n, sub)]) where
  callees := by
    have htake : (n ≠ dot ∧ n ≠ dotDot) ∧ leads fs (joinPath source n) = true := by tauto
    simp [List.filter_append, h.callees, htake]
  trees := by
    intro call hcall
    rcases List.mem_append.mp hcall with hcall | hcall
    · exact h.trees call hcall
    · rw [List.mem_singleton.mp hcall]
      exact htree

/-- After the whole listing these are the calls of the directory's tree. -/
theorem Made.whole {source : Path} {l : Loc} {entries : List Name} {calls : List (Name × List Calling)}
    (h : Made fs source entries calls) (hl : fs.resolve source = some l) (hdir : fs.node l = some .dir)
    (hperm : entries.Perm (dot :: dotDot :: fs.names l)) :
    CallTree fs source (calls.flatMap fun call => (source, joinPath source call.1) :: call.2) := by
  refine .mk hl hdir calls ?_ h.trees
  rw [h.callees]
  refine (hperm.filter _).trans ?_
  have hnames : ∀ n ∈ fs.names l, n ≠ dot ∧ n ≠ dotDot := fun n hn =>
    (fs.node_valid (fs.mem_names.mp hn)).1.2
  rw [List.filter_cons_of_neg (by simp), List.filter_cons_of_neg (by simp)]
  refine .of_eq (List.filter_congr fun n hn => ?_)
  simp [hnames n hn]

/-- What a run has come to after the entries `done`: their calls have been made, or a tree is too deep. -/
def Walked (fs : FS) (stack : ℕ) (source : Path) (before : List Calling) (done : List Name) :
    Option ℤ → Unit × List (Event CallSys CallSys.Res Unit) → Prop
  | some _, s => ∃ calls, Made fs source done calls ∧
      recursions s.2 = before ++ calls.flatMap fun call => (source, joinPath source call.1) :: call.2
  | none, _ => ¬ Depth fs (stack + 1) source

variable (sched method) in
theorem processEntry_called {stack : ℕ} {source destination : Path} {l : Loc} {before : List Calling}
    {done : List Name} {n : Name} {noErrors : ℤ} {h : List (Event CallSys CallSys.Res Unit)}
    (ih : ∀ (destination : Path) (h : List (Event CallSys CallSys.Res Unit)),
      leads fs (joinPath source n) = true →
        (scripted (treeExec fs) sched).Meets (Called fs stack (joinPath source n) (recursions h))
          (transferDirectory stack (joinPath source n) destination method) ((), h))
    (hl : fs.resolve source = some l) (hn : n ∈ dot :: dotDot :: fs.names l)
    (hwalked : Walked fs stack source before done (some noErrors) ((), h)) :
    (scripted (treeExec fs) sched).Meets (Walked fs stack source before (done ++ [n]))
      (processEntry visibleCalls (fun src dest => Program.perform (CallSys.recurse source src) >>= fun _ =>
        transferDirectory stack src dest method) source destination method noErrors n) ((), h) := by
  obtain ⟨calls, hmade, hrec⟩ := hwalked
  by_cases hdots : n = dot ∨ n = dotDot
  · rw [processEntry_dots _ _ _ _ _ _ hdots]
    exact scripted_ret ⟨calls, hmade.skip (.inl hdots), hrec⟩
  rw [processEntry_eq _ _ _ _ _ _ hdots]
  by_cases hleads : leads fs (joinPath source n) = true
  · have hname : n ∈ fs.names l := by
      rw [not_or] at hdots
      simpa [hdots] using hn
    refine scripted_call (stat_directory _ hleads ()) ?_
    refine scripted_call rfl ?_
    refine Terms.Meets.bind ((ih (joinPath destination n) _ hleads).mono ?_)
    rintro (_ | errors) ⟨⟨⟩, h'⟩ ho
    · exact fun hdepth => ho (hdepth l n hl hname hleads)
    obtain ⟨sub, htree, hsub⟩ := ho
    refine scripted_ret ⟨calls ++ [(n, sub)], hmade.call hdots hleads htree, ?_⟩
    rw [hsub, recursions_append, recursions_append, hrec, List.flatMap_append]
    simp [recursions]
  · obtain ⟨status, hstatus, hne⟩ := stat_other (sched h.length) hleads ()
    refine scripted_call hstatus ?_
    rcases status with _ | _ | _ | _
    · refine scripted_ret ⟨calls, hmade.skip (.inr hleads), ?_⟩
      rw [recursions_append, hrec]
      simp [recursions]
    · exact absurd rfl hne
    all_goals
      refine scripted_call rfl ?_
      change (scripted (treeExec fs) sched).Meets _
        (if _ ≠ transactSuccess then Program.ret (noErrors + 1) else Program.ret noErrors : CallProg ℤ) _
      split_ifs
      all_goals
        refine scripted_ret ⟨calls, hmade.skip (.inr hleads), ?_⟩
        rw [recursions_append, recursions_append, hrec]
        simp [recursions]

variable (sched method) in
theorem transferDirectory_called (stack : ℕ) : ∀ (source destination : Path)
    (h : List (Event CallSys CallSys.Res Unit)), leads fs source = true →
      (scripted (treeExec fs) sched).Meets (Called fs stack source (recursions h))
        (transferDirectory stack source destination method) ((), h) := by
  induction stack with
  | zero => exact fun _ _ _ _ => scripted_halt id
  | succ stack ih =>
    intro source destination h hsource
    obtain ⟨l, hl, hdir⟩ := leads_iff.mp hsource
    rw [transferDirectory_succ]
    refine scripted_call rfl ?_
    set c := sched (h ++ [(⟨.dir (.mkdir destination 0o7), (sched h.length).number, (), ()⟩ :
      Event CallSys CallSys.Res Unit)]).length
    have hopendir : treeExec fs c (.dir (.opendir source)) () =
        (some (c.choice.order (dot :: dotDot :: fs.names l)), ()) := by
      simp only [treeExec, OverlayRun.exec_opendir c.clean hl hdir]
    refine scripted_call hopendir ?_
    dsimp only
    set entries := c.choice.order (dot :: dotDot :: fs.names l) with hentries
    have hperm : entries.Perm (dot :: dotDot :: fs.names l) := c.choice.perm _
    suffices hloop : ∀ (rest done : List Name) (noErrors : ℤ) (h' : List (Event CallSys CallSys.Res Unit)),
        entries = done ++ rest → Walked fs stack source (recursions h) done (some noErrors) ((), h') →
        (scripted (treeExec fs) sched).Meets (Called fs (stack + 1) source (recursions h))
          (rest.foldlM (processEntry visibleCalls (fun src dest =>
            Program.perform (CallSys.recurse source src) >>= fun _ =>
              transferDirectory stack src dest method) source destination method) noErrors) ((), h') by
      exact hloop entries [] 0 _ rfl ⟨[], ⟨rfl, by simp⟩, by simp [recursions]⟩
    intro rest
    induction rest with
    | nil =>
      intro done noErrors h' hsplit hwalked
      obtain ⟨calls, hmade, hrec⟩ := hwalked
      rw [List.append_nil] at hsplit
      rw [← hsplit] at hmade
      exact scripted_ret ⟨_, hmade.whole hl hdir hperm, hrec⟩
    | cons n rest ihrest =>
      intro done noErrors h' hsplit hwalked
      have hn : n ∈ dot :: dotDot :: fs.names l := hperm.mem_iff.mp (by rw [hsplit]; simp)
      rw [List.foldlM_cons]
      refine Terms.Meets.bind ((processEntry_called sched method (ih _) hl hn hwalked).mono ?_)
      rintro (_ | errors) ⟨⟨⟩, h''⟩ ho
      · exact ho
      · exact ihrest (done ++ [n]) errors h'' (by rw [hsplit, List.append_assoc]; rfl) ho

end Run

section Tree

/-- The caller's directory holds the callee's, and it is another one. -/
def Strict (fs : FS) (r : Calling) : Prop :=
  ∃ l l', fs.resolve r.1 = some l ∧ fs.resolve r.2 = some l' ∧ fs.node l' = some .dir ∧ l <:+ l' ∧ l ≠ l'

/-- The directories that a traversal enters. -/
def entered (fs : FS) (root : Path) (calls : List Calling) : List (Option Loc) :=
  fs.resolve root :: calls.map fun r => fs.resolve r.2

structure Ends (fs : FS) (root : Path) (result : Option ℤ) (calls : List Calling) : Prop where
  returns : result ≠ none
  strict : ∀ r ∈ calls, Strict fs r
  once : (entered fs root calls).Nodup

/-- A tree without links, found by a path that fits a buffer. -/
structure Source (fs : FS) (root : Path) (l : Loc) : Prop where
  resolves : fs.resolve root = some l
  isDir : fs.node l = some .dir
  linkFree : LinkFree (l <:+ ·) fs
  short : root.length < pathSize

/-- No path is cut to one that leads to a directory. -/
def Whole (fs : FS) (root : Path) (l : Loc) : Prop :=
  ∀ q n, fs.node (q ++ l) = some .dir → (pathOf root q).length < pathSize → fs.node (n :: q ++ l) ≠ none →
    pathSize ≤ (pathOf root (n :: q)).length → ¬ leads fs (joinPath (pathOf root q) n) = true

variable {fs : FS} {root path : Path} {l d : Loc} {q : List Name} {n : Name}

theorem Source.resolve (h : Source fs root l) (hq : fs.node (q ++ l) ≠ none) :
    fs.resolve (pathOf root q) = some (q ++ l) := by
  rw [resolve_pathOf h.resolves q (h.linkFree.below (fun p => List.suffix_append p l) q)
    (Frame.valid_of_node hq), if_pos]
  cases q with
  | nil => exact .inl rfl
  | cons n q => exact .inr (fs.node_parent hq)

theorem Source.leads_child (h : Source fs root l) (hn : fs.node (n :: q ++ l) ≠ none)
    (hlen : (pathOf root (n :: q)).length < pathSize) :
    joinPath (pathOf root q) n = pathOf root (n :: q) ∧
      (leads fs (joinPath (pathOf root q) n) = true ↔ fs.node (n :: q ++ l) = some .dir) := by
  have hjoin : joinPath (pathOf root q) n = pathOf root (n :: q) := joinPath_eq hlen
  refine ⟨hjoin, ?_⟩
  rw [hjoin, leads_iff, h.resolve hn]
  simp

/-- Where no path is cut to a directory, the recursion is as deep as the tree. -/
theorem Whole.depth (hw : Whole fs root l) (h : Source fs root l) (stack : ℕ) : ∀ q : List Name,
    fs.node (q ++ l) = some .dir → (pathOf root q).length < pathSize →
    (∀ p, q <:+ p → fs.node (p ++ l) ≠ none → p.length < stack + q.length) →
    Depth fs stack (pathOf root q) := by
  induction stack with
  | zero =>
    intro q hq _ hheight
    have := hheight q (List.suffix_refl q) (by simp [hq])
    omega
  | succ stack ih =>
    intro q hq hlen hheight k n hk hn hleads
    rw [h.resolve (by simp [hq])] at hk
    cases hk
    have hne := fs.mem_names.mp hn
    by_cases hcut : pathSize ≤ (pathOf root (n :: q)).length
    · exact absurd hleads (hw q n hq hlen hne hcut)
    obtain ⟨hjoin, hdir⟩ := h.leads_child hne (by omega)
    rw [hjoin]
    refine ih (n :: q) (hdir.mp hleads) (by omega) ?_
    intro p hp hsome
    have := hheight p ((List.suffix_cons n q).trans hp) hsome
    simp only [List.length_cons]
    omega

/-- … and each call goes into a subdirectory of its own. -/
theorem CallTree.inside {calls : List Calling} (ht : CallTree fs path calls) (hw : Whole fs root l)
    (h : Source fs root l) : ∀ q : List Name, path = pathOf root q → fs.node (q ++ l) = some .dir →
      (pathOf root q).length < pathSize →
      (∀ r ∈ calls, Strict fs r) ∧ (calls.map fun r => fs.resolve r.2).Nodup ∧
        ∀ r ∈ calls, ∃ p, p ≠ [] ∧ fs.resolve r.2 = some (p ++ (q ++ l)) := by
  induction ht with
  | @mk source k hl hdir calls hcallees hcalls ih =>
    rintro q rfl hq hlen
    rw [h.resolve (by simp [hq])] at hl
    cases hl
    have hcallee : ∀ call ∈ calls, fs.node (call.1 :: q ++ l) = some .dir ∧
        joinPath (pathOf root q) call.1 = pathOf root (call.1 :: q) ∧
        (pathOf root (call.1 :: q)).length < pathSize := by
      intro call hcall
      have hmem := hcallees.mem_iff.mp (List.mem_map_of_mem hcall)
      obtain ⟨hname, hleads⟩ := List.mem_filter.mp hmem
      have hne := fs.mem_names.mp hname
      by_cases hcut : pathSize ≤ (pathOf root (call.1 :: q)).length
      · exact absurd hleads (hw q call.1 hq hlen hne hcut)
      obtain ⟨hjoin, hd⟩ := h.leads_child hne (by omega)
      exact ⟨hd.mp hleads, hjoin, by omega⟩
    have hsub := fun call hcall => ih call hcall (call.1 :: q) (hcallee call hcall).2.1
      (hcallee call hcall).1 (hcallee call hcall).2.2
    have hresolve : ∀ call ∈ calls, fs.resolve (joinPath (pathOf root q) call.1) = some (call.1 :: q ++ l) := by
      intro call hcall
      obtain ⟨hd, hjoin, -⟩ := hcallee call hcall
      rw [hjoin]
      exact h.resolve (by rw [hd]; simp)
    -- all that is entered on the way of a call lies in the directory it enters
    have hinside : ∀ call ∈ calls, ∀ x ∈ fs.resolve (joinPath (pathOf root q) call.1) ::
        call.2.map (fun r => fs.resolve r.2), ∃ p, x = some (p ++ (call.1 :: q ++ l)) := by
      intro call hcall x hx
      rcases List.mem_cons.mp hx with rfl | hx
      · exact ⟨[], hresolve call hcall⟩
      · obtain ⟨r, hr, rfl⟩ := List.mem_map.mp hx
        obtain ⟨p, -, hp⟩ := (hsub call hcall).2.2 r hr
        exact ⟨p, hp⟩
    refine ⟨?_, ?_, ?_⟩
    · intro r hr
      obtain ⟨call, hcall, hr⟩ := List.mem_flatMap.mp hr
      rcases List.mem_cons.mp hr with rfl | hr
      · refine ⟨q ++ l, call.1 :: q ++ l, h.resolve (by simp [hq]), hresolve call hcall,
          (hcallee call hcall).1, List.suffix_cons _ _, ?_⟩
        exact (List.cons_ne_self call.1 (q ++ l)).symm
      · exact (hsub call hcall).1 r hr
    · rw [List.map_flatMap, List.nodup_flatMap]
      constructor
      · intro call hcall
        rw [List.map_cons, List.nodup_cons]
        refine ⟨fun hmem => ?_, (hsub call hcall).2.1⟩
        obtain ⟨r, hr, heq⟩ := List.mem_map.mp hmem
        obtain ⟨p, hp, hr'⟩ := (hsub call hcall).2.2 r hr
        dsimp only at heq
        rw [hr', hresolve call hcall, Option.some.injEq] at heq
        exact hp (List.append_left_eq_self.mp heq)
      · have hnodup : (calls.map Prod.fst).Nodup :=
          hcallees.nodup_iff.mpr ((fs.names_nodup (q ++ l)).filter _)
        refine (List.pairwise_map.mp hnodup).imp_of_mem ?_
        intro a b ha hb hne x hxa hxb
        obtain ⟨p, rfl⟩ := hinside a ha x hxa
        obtain ⟨p', hp'⟩ := hinside b hb _ hxb
        have heq : p ++ [a.1] ++ (q ++ l) = p' ++ [b.1] ++ (q ++ l) := by simpa using hp'
        exact hne (List.append_inj_right' (List.append_cancel_right heq) rfl |> List.singleton_injective)
    · intro r hr
      obtain ⟨call, hcall, hr⟩ := List.mem_flatMap.mp hr
      rcases List.mem_cons.mp hr with rfl | hr
      · exact ⟨[call.1], by simp, hresolve call hcall⟩
      · obtain ⟨p, -, hp⟩ := (hsub call hcall).2.2 r hr
        exact ⟨p ++ [call.1], by simp, by simpa using hp⟩

/-- Every directory whose path is whole is entered, with a tree of its own. -/
theorem CallTree.entry {calls : List Calling} (ht : CallTree fs root calls) (h : Source fs root l) :
    ∀ q : List Name, fs.node (q ++ l) = some .dir → (pathOf root q).length < pathSize →
      ∃ sub, CallTree fs (pathOf root q) sub ∧ sub.Sublist calls := by
  intro q
  induction q with
  | nil => exact fun _ _ => ⟨calls, ht, List.Sublist.refl _⟩
  | cons n q ih =>
    intro hn hlen
    have hsome : fs.node (n :: q ++ l) ≠ none := by rw [hn]; simp
    have hq : fs.node (q ++ l) = some .dir := fs.node_parent (n := n) hsome
    obtain ⟨sub, hsub, hle⟩ := ih hq (by simp only [pathOf, List.length_append, List.length_cons] at hlen; omega)
    obtain ⟨hjoin, hleads⟩ := h.leads_child hsome hlen
    rw [← hjoin]
    cases hsub with
    | @mk _ k hl hdir calls' hcallees hcalls =>
      rw [h.resolve (by simp [hq])] at hl
      cases hl
      have hmem : n ∈ calls'.map Prod.fst := hcallees.mem_iff.mpr
        (List.mem_filter.mpr ⟨fs.mem_names.mpr hsome, hleads.mpr hn⟩)
      obtain ⟨call, hcall, rfl⟩ := List.mem_map.mp hmem
      refine ⟨call.2, hcalls call hcall, List.Sublist.trans ?_ hle⟩
      rw [List.flatMap_def]
      exact (List.sublist_cons_self _ _).trans (List.sublist_flatten_of_mem (List.mem_map_of_mem hcall))

theorem joinPath_cut (hlen : path.length < pathSize) (hcut : pathSize ≤ (path ++ slash :: n).length) :
    joinPath path n = path ∨ ∃ k, k < n.length ∧ joinPath path n = path ++ slash :: n.take k ∧
      (path ++ slash :: n.take k).length < pathSize := by
  rw [List.length_append, List.length_cons] at hcut
  by_cases hfull : path.length = pathSize - 1
  · refine .inl ?_
    rw [joinPath, ← hfull, List.take_left]
  · refine .inr ⟨pathSize - 1 - path.length - 1, by omega, ?_, ?_⟩
    · have hsplit : pathSize - 1 = path.length + (pathSize - 1 - path.length - 1 + 1) := by omega
      conv_lhs => rw [joinPath, hsplit, List.take_length_add_append, List.take_succ_cons]
    · rw [List.length_append, List.length_cons, List.length_take]
      omega

theorem disjoint_of_nodup {α β : Type} {xs : List α} {f : α → List β} (h : (xs.flatMap f).Nodup) {x y : α}
    (hx : x ∈ xs) (hy : y ∈ xs) (hne : x ≠ y) : (f x).Disjoint (f y) := by
  have hsymm : Std.Symm (Function.onFun List.Disjoint f) := ⟨fun _ _ hd => List.Disjoint.symm hd⟩
  exact (List.nodup_flatMap.mp h).2.forall hx hy hne

/-- A last name that is no entry leads nowhere new. -/
theorem resolve_stays_put (h : fs.resolve path = some d) (hd : fs.node d = some .dir) (hn : slash ∉ n)
    (hord : ¬ Ordinary n) :
    fs.resolve (path ++ slash :: n) = some d ∨ fs.resolve (path ++ slash :: n) = some d.tail := by
  have hpath : path ≠ [] := resolve_ne_nil h
  unfold FS.resolve at h ⊢
  rw [if_neg hpath] at h
  rw [if_neg (by simp), components_append, components_of_no_slash hn]
  obtain ⟨k, hk⟩ := fs.walk_append_dir _ _ _ [n] h hd
  rw [hk]
  by_cases hskip : n = [] ∨ n = dot
  · exact .inl (by rw [fs.walk_skip hskip, fs.walk_nil])
  · have hup : n = dotDot := by
      by_contra hup
      exact hord ⟨fun h => hskip (.inl h), fun h => hskip (.inr h), hup⟩
    exact .inr (by rw [fs.walk_up hup, fs.walk_nil])

/-- A path that is cut to one that leads to a directory leads back, or to a directory that has its own
entry. -/
theorem CallTree.whole {calls : List Calling} (ht : CallTree fs root calls) (h : Source fs root l)
    (hstrict : ∀ r ∈ calls, Strict fs r) (honce : (calls.map fun r => fs.resolve r.2).Nodup) :
    Whole fs root l := by
  intro q n hq hlen hn hcut hleads
  obtain ⟨sub, hsub, hle⟩ := ht.entry h q hq hlen
  have hresolve : fs.resolve (pathOf root q) = some (q ++ l) := h.resolve (by simp [hq])
  cases hsub with
  | @mk _ k hl hdir calls' hcallees hcalls =>
    rw [hresolve] at hl
    cases hl
    have hcalled : ∀ m, fs.node (m :: q ++ l) ≠ none → leads fs (joinPath (pathOf root q) m) = true →
        ∃ call ∈ calls', call.1 = m := by
      intro m hm hleads
      exact List.mem_map.mp (hcallees.mem_iff.mpr (List.mem_filter.mpr ⟨fs.mem_names.mpr hm, hleads⟩))
    obtain ⟨call, hcall, rfl⟩ := hcalled n hn hleads
    obtain ⟨k, k', hk, hk', -, hsuffix, hne⟩ := hstrict (pathOf root q, joinPath (pathOf root q) call.1)
      (hle.subset (List.mem_flatMap.mpr ⟨call, hcall, List.mem_cons_self ..⟩))
    dsimp only at hk hk'
    rw [hresolve] at hk
    cases hk
    -- it leads neither back nor up
    have hback : k' ≠ q ++ l ∧ k' ≠ (q ++ l).tail := by
      refine ⟨hne.symm, fun hup => hne ?_⟩
      have hlength := hsuffix.length_le
      rw [hup, List.length_tail] at hlength
      have hnil : q ++ l = [] := List.eq_nil_of_length_eq_zero (by omega)
      rw [hup, hnil, List.tail_nil]
    obtain hsame | ⟨i, hi, hjoin, hwhole⟩ := joinPath_cut hlen hcut
    · rw [hsame, hresolve] at hk'
      exact hback.1 (Option.some.inj hk').symm
    rw [hjoin] at hk' hleads
    have hslash : slash ∉ call.1.take i := fun hs => (fs.node_valid hn).2 (List.mem_of_mem_take hs)
    by_cases hord : Ordinary (call.1.take i)
    swap
    · rcases resolve_stays_put hresolve hq hslash hord with hput | hput <;> rw [hput] at hk'
      · exact hback.1 (Option.some.inj hk').symm
      · exact hback.2 (Option.some.inj hk').symm
    -- the shorter name is an entry too, and both calls enter its directory
    have hchild : fs.resolve (pathOf root q ++ slash :: call.1.take i) = some (call.1.take i :: (q ++ l)) := by
      rw [fs.resolve_join (resolve_ne_nil hresolve) ⟨hord, hslash⟩, hresolve, FS.child, Option.bind_some,
        if_pos hq]
      intro d t hd
      rw [hresolve] at hd
      cases hd
      exact h.linkFree _ t ((List.suffix_append q l).trans (List.suffix_cons _ _))
    obtain ⟨k'', hk'', hdir''⟩ := leads_iff.mp hleads
    rw [hchild] at hk''
    cases hk''
    have hown : joinPath (pathOf root q) (call.1.take i) = pathOf root q ++ slash :: call.1.take i :=
      joinPath_eq hwhole
    obtain ⟨own, hmem, hfst⟩ := hcalled (call.1.take i) (by rw [List.cons_append, hdir'']; simp)
      (by rw [hown]; exact hleads)
    have hdiffer : call ≠ own := by
      rintro rfl
      have hlength := congrArg List.length hfst
      rw [List.length_take] at hlength
      omega
    have hnodup := honce.sublist (hle.map _)
    rw [List.map_flatMap] at hnodup
    refine disjoint_of_nodup hnodup hcall hmem hdiffer (a := some (call.1.take i :: (q ++ l))) ?_ ?_
    · simp [hjoin, hchild]
    · simp [hfst, hown, hchild]

end Tree

section Claim

variable {fs : FS} {root : Path} {l : Loc}

/-- A traversal that ends has made its calls along a tree. -/
theorem whole_of_ends (h : Source fs root l) {stack : ℕ} (sched : ℕ → Answer) (destination : Path)
    (method : TransferMethod) (hends : Ends fs root
      (run (treeExec fs) sched (transferDirectory stack root destination method) 0 ()).result
      (recursions (trace (treeExec fs) sched (transferDirectory stack root destination method) 0 ()))) :
    Whole fs root l := by
  have hroot : leads fs root = true := leads_iff.mpr ⟨l, h.resolves, h.isDir⟩
  have hcalled := scripted_run (transferDirectory_called sched method stack root destination [] hroot)
  obtain ⟨errors, hresult⟩ := Option.ne_none_iff_exists'.mp hends.returns
  simp only [List.length_nil, List.nil_append, hresult] at hcalled
  obtain ⟨calls, htree, hrec⟩ := hcalled
  rw [show recursions _ = calls from hrec] at hends
  exact htree.whole h hends.strict (List.nodup_cons.mp hends.once).2

theorem ends_of_whole (h : Source fs root l) (hw : Whole fs root l) {stack : ℕ} (hstack : fs.bound ≤ stack)
    (sched : ℕ → Answer) (destination : Path) (method : TransferMethod) : Ends fs root
      (run (treeExec fs) sched (transferDirectory stack root destination method) 0 ()).result
      (recursions (trace (treeExec fs) sched (transferDirectory stack root destination method) 0 ())) := by
  have hroot : leads fs root = true := leads_iff.mpr ⟨l, h.resolves, h.isDir⟩
  have hcalled := scripted_run (transferDirectory_called sched method stack root destination [] hroot)
  simp only [List.length_nil, List.nil_append] at hcalled
  have hheight : ∀ p : List Name, [] <:+ p → fs.node (p ++ l) ≠ none →
      p.length < stack + ([] : List Name).length := by
    intro p _ hp
    have := fs.length_lt_bound hp
    rw [List.length_append] at this
    simp only [List.length_nil]
    omega
  have hdepth := hw.depth h stack [] h.isDir h.short hheight
  generalize (run (treeExec fs) sched (transferDirectory stack root destination method) 0 ()).result = result
    at hcalled ⊢
  rcases result with _ | errors
  · exact absurd hdepth hcalled
  obtain ⟨calls, htree, hrec⟩ := hcalled
  rw [show recursions _ = calls from hrec]
  obtain ⟨hstrict, honce, hbelow⟩ := htree.inside hw h [] rfl h.isDir h.short
  refine ⟨by simp, hstrict, List.nodup_cons.mpr ⟨fun hmem => ?_, honce⟩⟩
  obtain ⟨r, hr, heq⟩ := List.mem_map.mp hmem
  obtain ⟨p, hp, hr'⟩ := hbelow r hr
  rw [hr', h.resolves, Option.some.injEq] at heq
  exact hp (List.append_left_eq_self.mp heq)

/-- The traversal of a tree enters each directory once, from the one that holds it, and comes to an end,
exactly when no joined path is cut to one that leads to a directory. -/
theorem transferDirectory_ends_iff (h : Source fs root l) {stack : ℕ} (hstack : fs.bound ≤ stack)
    (sched : ℕ → Answer) (destination : Path) (method : TransferMethod) :
    Ends fs root
        (run (treeExec fs) sched (transferDirectory stack root destination method) 0 ()).result
        (recursions (trace (treeExec fs) sched (transferDirectory stack root destination method) 0 ())) ↔
      Whole fs root l :=
  ⟨whole_of_ends h sched destination method, fun hw => ends_of_whole h hw hstack sched destination method⟩

end Claim

section Following

variable {r : OverlayRun.Run} {fs s : FS} {sha256 : Bytes → Bytes} {fuel : ℕ} {sched : ℕ → Choice}
  {done : Set (List Name)}

/-- A call of the traversal as the program makes it. -/
def performed (sha256 : Bytes → Bytes) (fuel : ℕ) (op : CallSys) : Prog op.Res :=
  (hidden op).interpret (carriedOut sha256 fuel)

theorem interpret_performed (sha256 : Bytes → Bytes) (fuel stack : ℕ) (source destination : Path)
    (method : TransferMethod) : (transferDirectory stack source destination method).interpret (performed sha256 fuel) =
      TransferDirectory.transferDirectory (systemCalls sha256 fuel) stack source destination method := by
  rw [← interpret_transferDirectory, ← interpret_hidden, Program.interpret_interpret]
  rfl

theorem performed_dir (sha256 : Bytes → Bytes) (fuel : ℕ) (op : DirSys) :
    performed sha256 fuel (.dir op) = carriedOut sha256 fuel op :=
  Program.interpret_perform (carriedOut sha256 fuel) op

instance : Nonempty Answer := ⟨⟨Choice.plain, rfl, false, 0⟩⟩

/-- The tree, standing still, might have given the answer. -/
def Standing (fs : FS) (op : CallSys) (res : op.Res) : Prop := ∃ answer, (treeExec fs answer op ()).1 = res

theorem standing_listing {path : Path} {l : Loc} (hl : fs.resolve path = some l) (hd : fs.node l = some .dir)
    {entries : List Name} (hperm : entries.Perm (dot :: dotDot :: fs.names l)) :
    Standing fs (.dir (.opendir path)) (some entries) := by
  obtain ⟨c, hc, horder⟩ : ∃ c : Choice, c.clean ∧ c.order (dot :: dotDot :: fs.names l) = entries := by
    refine ⟨⟨false, 0, 0, fun xs => if xs = dot :: dotDot :: fs.names l then entries else xs, ?_⟩, rfl, if_pos rfl⟩
    intro xs
    split_ifs with hxs
    · rw [hxs]
      exact hperm
    · exact .refl _
  refine ⟨⟨c, hc, false, 0⟩, ?_⟩
  simp only [treeExec, OverlayRun.exec_opendir hc hl hd, horder]

theorem standing_directory {path : Path} (h : leads fs path = true) :
    Standing fs (.dir (.stat path)) (some .directory) :=
  ⟨⟨Choice.plain, rfl, false, 0⟩, congrArg Prod.fst (stat_directory _ h ())⟩

theorem standing_regular {path : Path} {l : Loc} {i : ℕ} (hl : fs.resolve path = some l)
    (hi : fs.node l = some (.file i)) : Standing fs (.dir (.stat path)) (some .regular) := by
  refine ⟨⟨Choice.plain, rfl, false, 0⟩, ?_⟩
  simp only [treeExec, OverlayRun.exec_stat (show Choice.plain.clean from rfl), hl, Option.bind_some, typeAt, hi]
  rfl

/-- The calls of a run, with their answers. -/
abbrev CallLog := List (Carried CallSys CallSys.Res FS)

/-- The run has had only answers of the tree, and what it has dealt with has been dealt with. -/
structure Followed (sha256 : Bytes → Bytes) (r : OverlayRun.Run) (fs : FS) (done : Set (List Name)) (log : CallLog)
    (s : FS) : Prop where
  standing : ∀ c ∈ log, Standing fs c.op c.res
  progress : OverlayRun.Progress sha256 r fs done s

theorem Followed.cons {log : CallLog} (h : Followed sha256 r fs done log s) {c : Carried CallSys CallSys.Res FS}
    (hc : Standing fs c.op c.res) : Followed sha256 r fs done (c :: log) s := by
  refine ⟨fun c' hc' => ?_, h.progress⟩
  rcases List.mem_cons.1 hc' with rfl | hc'
  · exact hc
  · exact h.standing c' hc'

theorem Followed.append {log log' : CallLog} {done' : Set (List Name)} {s' : FS}
    (h : Followed sha256 r fs done log s) (h' : Followed sha256 r fs done' log' s') :
    Followed sha256 r fs done' (log ++ log') s' := by
  refine ⟨fun c hc => ?_, h'.progress⟩
  rcases List.mem_append.1 hc with hc | hc
  · exact h.standing c hc
  · exact h'.standing c hc

variable (h₀ : OverlayRun.Ready r fs) (hs : ∀ t, (sched t).clean)
  (hfuel : ∀ p c, fs.tree r.ls p = some (.file c) → c.length < fuel)
include h₀ hs hfuel

omit hs hfuel in
/-- `stat` of an entry of the source. -/
theorem stat_follows {p : List Name} (hne : fs.tree r.ls p ≠ none) (hnd : p ∉ done)
    (h : OverlayRun.Progress sha256 r fs done s) :
    (terms r.footprint r.writes).Meets (Terms.Returns fun status s' =>
      OverlayRun.Progress sha256 r fs done s' ∧ Standing fs (.dir (.stat (pathOf r.source p))) status ∧
        (status = some .directory ∧ fs.tree r.ls p = some .dir ∨
          status = some .regular ∧ ∃ c, fs.tree r.ls p = some (.file c)))
      (performed sha256 fuel (.dir (.stat (pathOf r.source p)))) s := by
  rw [performed_dir]
  refine Terms.Meets.call fun s₁ hr₁ ch₁ hc₁ => ?_
  have h₁ := h.stable hr₁
  refine ⟨_, _, OverlayRun.exec_stat hc₁ _, Within.refl _ s₁, Terms.Meets.ret fun s₂ hr₂ => ⟨h₁.stable hr₂, ?_⟩⟩
  have hresolve : fs.resolve (pathOf r.source p) = some (p ++ r.ls) :=
    (h₀.start : OverlayRun.Progress sha256 r fs ∅ fs).resolve_source hne
  rw [h₁.resolve_source hne, Option.bind_some]
  have hentry : s₁.entry (p ++ r.ls) = fs.tree r.ls p := h₁.sourceRest _ hnd
  rcases hx : fs.tree r.ls p with _ | _ | c
  · exact absurd hx hne
  · have hnode : s₁.node (p ++ r.ls) = some .dir := s₁.entry_dir.mp (hentry.trans hx)
    have hthere : fs.node (p ++ r.ls) = some .dir := fs.entry_dir.mp hx
    simp only [typeAt, hnode]
    exact ⟨standing_directory (leads_iff.mpr ⟨_, hresolve, hthere⟩), .inl ⟨trivial, trivial⟩⟩
  · obtain ⟨i, hnode, -⟩ := s₁.node_of_entry_file (hentry.trans hx)
    obtain ⟨j, hthere, -⟩ := fs.node_of_entry_file hx
    simp only [typeAt, hnode]
    exact ⟨standing_regular hresolve hthere, .inr ⟨trivial, c, rfl⟩⟩

omit hs hfuel in
/-- `opendir` of a directory of the source lists what was in it at the start. -/
theorem opendir_follows {q : List Name} (hq : fs.tree r.ls q = some .dir) (hdisj : ∀ p ∈ done, p ∉ OverlayRun.below q)
    (h : OverlayRun.Progress sha256 r fs (insert q done) s) :
    (terms r.footprint r.writes).Meets (Terms.Returns fun dir s' =>
      OverlayRun.Progress sha256 r fs (insert q done) s' ∧
        ∃ entries, dir = some entries ∧ entries.Perm (dot :: dotDot :: fs.names (q ++ r.ls)))
      (performed sha256 fuel (.dir (.opendir (pathOf r.source q)))) s := by
  rw [performed_dir]
  refine Terms.Meets.call fun s₁ hr₁ ch₁ hc₁ => ?_
  have h₁ := h.stable hr₁
  have hqne : fs.tree r.ls q ≠ none := by simp [hq]
  refine ⟨_, _, OverlayRun.exec_opendir hc₁ (h₁.resolve_source hqne) (h₁.source_dir hq), Within.refl _ s₁,
    Terms.Meets.ret fun s₂ hr₂ => ⟨h₁.stable hr₂, _, rfl, ?_⟩⟩
  refine (ch₁.perm _).trans (.cons _ (.cons _ ?_))
  refine (List.perm_ext_iff_of_nodup (s₁.names_nodup _) (fs.names_nodup _)).mpr fun n => ?_
  have hnd : n :: q ∉ insert q done := by
    rintro (he | hd)
    · exact List.cons_ne_self n q he
    · exact hdisj _ hd (List.suffix_cons n q)
  have hstart : OverlayRun.Progress sha256 r fs ∅ fs := h₀.start
  exact (h₁.mem_names hnd).trans (hstart.mem_names (Set.notMem_empty _)).symm

/-- The body of the loop, given what the recursive call does. -/
theorem processEntry_follows {n : Name} {q : List Name} (hne : fs.tree r.ls (n :: q) ≠ none)
    (hnd : ∀ p ∈ done, p ∉ OverlayRun.below (n :: q)) (hq : q ∈ done) (recurse : Path → Path → CallProg ℤ)
    (hrec : ∀ t s, fs.tree r.ls (n :: q) = some .dir → OverlayRun.Progress sha256 r fs done s →
      (recurse (pathOf r.source (n :: q)) (pathOf r.destination (n :: q))).Carries exec sched (performed sha256 fuel)
        (fun _ log _ s' => Followed sha256 r fs (done ∪ OverlayRun.below (n :: q)) log s') t s) (errors : ℤ) (t : ℕ)
    (h : OverlayRun.Progress sha256 r fs done s) :
    (processEntry visibleCalls recurse (pathOf r.source q) (pathOf r.destination q) r.method errors n).Carries exec
      sched (performed sha256 fuel)
      (fun _ log _ s' => Followed sha256 r fs (done ∪ OverlayRun.below (n :: q)) log s') t s := by
  have hvalid : ValidName n := OverlayRun.valid_of_tree hne n (List.mem_cons_self ..)
  have hdots : ¬ (n = dot ∨ n = dotDot) := by
    rintro (hn | hn)
    · exact hvalid.1.2.1 hn
    · exact hvalid.1.2.2 hn
  have hself : n :: q ∉ done := fun hd => hnd _ hd (List.suffix_refl _)
  obtain ⟨hshort, hshort'⟩ := h₀.short (n :: q) (OverlayRun.node_of_tree hne)
  rw [processEntry_eq _ _ _ _ _ _ hdots, joinPath_eq hshort, joinPath_eq hshort', ← pathOf, ← pathOf]
  refine .call (stat_follows h₀ hne hself h) hs rfl fun status t₁ s₁ hanswer => ?_
  obtain ⟨h₁, hstanding, ⟨rfl, hdir⟩ | ⟨rfl, c, hfile⟩⟩ := hanswer
  · -- a directory: the recursive call
    refine (hrec t₁ s₁ hdir h₁).bind fun _ log t₂ s₂ hlog => ?_
    simpa only [Program.Carries, List.append_nil] using hlog.cons hstanding
  · -- a file: the transaction
    have htransact := OverlayRun.transact_meets h₀ h₁ hfile hself hq (hfuel _ _ hfile)
    rw [show transactTransferFile _ _ _ _ _ = performed sha256 fuel (.dir (.transact _ _ r.method)) from
      (performed_dir sha256 fuel (.transact _ _ r.method)).symm] at htransact
    refine .call htransact hs rfl fun status t₂ s₂ h₂ => ?_
    have hnumber : Standing fs (.dir (.transact (pathOf r.source (n :: q)) (pathOf r.destination (n :: q)) r.method))
      status := ⟨⟨Choice.plain, rfl, false, status⟩, rfl⟩
    have hdone : Followed sha256 r fs (done ∪ OverlayRun.below (n :: q)) [] s₂ :=
      ⟨fun c hc => (List.not_mem_nil hc).elim, h₂.below_file hfile⟩
    change Program.Carries _ _ _ _ (if _ ≠ transactSuccess then Program.ret (errors + 1) else Program.ret errors :
      CallProg ℤ) _ _
    split_ifs
    · exact (hdone.cons hnumber).cons hstanding
    · exact (hdone.cons hnumber).cons hstanding

/-- Every answer that a fault-free run gets on the way is one that the tree, standing still, might have given. -/
theorem transferDirectory_follows (stack : ℕ) : ∀ (q : List Name) (done : Set (List Name)) (t : ℕ) (s : FS),
    fs.tree r.ls q = some .dir → (∀ p ∈ done, p ∉ OverlayRun.below q) → (∀ n p, q = n :: p → p ∈ done) →
    OverlayRun.Progress sha256 r fs done s →
    (transferDirectory stack (pathOf r.source q) (pathOf r.destination q) r.method).Carries exec sched
      (performed sha256 fuel) (fun _ log _ s' => Followed sha256 r fs (done ∪ OverlayRun.below q) log s') t s := by
  induction stack with
  | zero => exact fun _ _ _ _ _ _ _ _ => trivial
  | succ stack ih =>
    intro q done t s hq hdisj hpar h
    have hqd : q ∉ done := fun hd => hdisj q hd (List.suffix_refl q)
    have hqne : fs.tree r.ls q ≠ none := by simp [hq]
    rw [transferDirectory_succ]
    have hmkdir := OverlayRun.mkdir_meets fuel h₀ h hq hqd hpar
    rw [show (systemCalls sha256 fuel).mkdir _ _ = performed sha256 fuel (.dir (.mkdir _ 0o7)) from
      (performed_dir sha256 fuel (.mkdir _ 0o7)).symm] at hmkdir
    refine .call hmkdir hs rfl fun made t₁ s₁ h₁ => ?_
    have hmade : Standing fs (.dir (.mkdir (pathOf r.destination q) 0o7)) made :=
      ⟨⟨Choice.plain, rfl, false, made⟩, rfl⟩
    refine .call (opendir_follows h₀ hq hdisj h₁) hs rfl fun dir t₂ s₂ hanswer => ?_
    obtain ⟨h₂, entries, rfl, hperm⟩ := hanswer
    have hstart : OverlayRun.Progress sha256 r fs ∅ fs := h₀.start
    have hlisting : Standing fs (.dir (.opendir (pathOf r.source q))) (some entries) :=
      standing_listing (hstart.resolve_source hqne) (fs.entry_dir.mp hq) hperm
    have hlisted : ∀ n, n ∈ entries ↔ (n = dot ∨ n = dotDot) ∨ fs.tree r.ls (n :: q) ≠ none := by
      intro n
      rw [hperm.mem_iff, List.mem_cons, List.mem_cons, hstart.mem_names (Set.notMem_empty _), or_assoc]
    have hnodup : entries.Nodup := OverlayRun.listing_nodup hperm
    have hstarted : Followed sha256 r fs (insert q done ∪ OverlayRun.seen q []) [] s₂ :=
      ⟨fun _ h => (List.not_mem_nil h).elim, by simpa [OverlayRun.seen]⟩
    refine (Program.Carries.foldlM (I := fun names (_ : ℤ) log s' =>
      Followed sha256 r fs (insert q done ∪ OverlayRun.seen q names) log s') ?_ hstarted).mono
      fun _ log _ s' hlog => (Followed.cons ⟨hlog.standing, ?_⟩ hlisting).cons hmade
    · -- one entry
      intro names n rest hsplit errors log t₃ s₃ hlog
      rw [OverlayRun.seen_append, ← Set.union_assoc]
      have hfresh : n ∉ names := by
        rw [hsplit, List.nodup_append] at hnodup
        exact fun hm => hnodup.2.2 n hm n (List.mem_cons_self ..) rfl
      by_cases hdots : n = dot ∨ n = dotDot
      · rw [processEntry_dots _ _ _ _ _ _ hdots]
        exact hlog.append ⟨fun _ h => (List.not_mem_nil h).elim, hlog.progress.skip_dots hdots⟩
      have hne : fs.tree r.ls (n :: q) ≠ none :=
        ((hlisted n).mp (by rw [hsplit]; simp)).resolve_left hdots
      have hdone := OverlayRun.not_below_child hdisj hfresh
      refine (processEntry_follows h₀ hs hfuel hne hdone (.inl (.inl rfl)) _ ?_ errors t₃ hlog.progress).mono
        fun _ log' _ s' hlog' => hlog.append hlog'
      intro t₄ s₄ hdir h₄
      rintro ⟨⟩ t₅ s₅ ⟨⟩
      refine (ih (n :: q) _ t₄ s₄ hdir hdone ?_ h₄).mono fun _ log' _ s' hlog' =>
        hlog'.cons ⟨⟨Choice.plain, rfl, false, 0⟩, rfl⟩
      rintro m p he
      obtain ⟨rfl, rfl⟩ := List.cons.inj he
      exact .inl (.inl rfl)
    · exact hlog.progress.finish fun n hn => (hlisted n).mpr (.inr hn)

omit hfuel in
/-- A fault-free run of the program is a run in the tree as it stood at its start. -/
theorem exists_standing_run {stack : ℕ} (hstack : fs.bound ≤ stack) (hfuel : fs.bound ≤ fuel) :
    let program := transferDirectory stack r.source r.destination r.method
    ∃ answers : ℕ → Answer, (run (treeExec fs) answers program 0 ()).result =
        (run exec sched (program.interpret (performed sha256 fuel)) 0 fs).result ∧
      (trace (treeExec fs) answers program 0 ()).map (fun e => (⟨e.op, e.res⟩ : Answered CallSys CallSys.Res)) =
        (program.carried exec sched (performed sha256 fuel) 0 fs).map fun c => ⟨c.op, c.res⟩ := by
  have hcontent : ∀ p c, fs.tree r.ls p = some (.file c) → c.length < fuel :=
    fun p c hc => (fs.content_lt_bound hc).trans_le hfuel
  have hmeets : (terms r.footprint r.writes).Meets
      (Terms.Returns fun _ s => OverlayRun.Progress sha256 r fs Set.univ s)
      (TransferDirectory.transferDirectory (systemCalls sha256 fuel) stack r.source r.destination r.method) fs :=
    OverlayRun.run_meets h₀ hstack hfuel
  obtain ⟨errors, t, s, hrun, -⟩ := hmeets.run_returns sched hs 0
  rw [← interpret_performed] at hrun
  have hresult : (run exec sched _ 0 fs).result = some errors := congrArg Outcome.result hrun
  refine Program.exists_schedule (treeExec fs) _ 0 fs (by rw [hresult]; simp) ?_
  have hfollows : (transferDirectory stack r.source r.destination r.method).Carries exec sched (performed sha256 fuel)
      (fun _ log _ s' => Followed sha256 r fs (∅ ∪ OverlayRun.below []) log s') 0 fs :=
    transferDirectory_follows h₀ hs hcontent stack [] ∅ 0 fs (fs.entry_dir.mpr h₀.sourceDir) (fun p hp => hp.elim)
      (fun _ _ he => by cases he) h₀.start
  exact (hfollows.run hresult).standing

omit hfuel in
/-- … so the recursive calls that it makes are those of a tree. -/
theorem run_ends {stack : ℕ} (hstack : fs.bound ≤ stack) (hfuel : fs.bound ≤ fuel) :
    ∃ events : List (Event CallSys CallSys.Res Unit),
      events.map (fun e => (⟨e.op, e.res⟩ : Answered CallSys CallSys.Res)) =
        ((transferDirectory stack r.source r.destination r.method).carried exec sched (performed sha256 fuel) 0 fs).map
          (fun c => ⟨c.op, c.res⟩) ∧
      Ends fs r.source (run exec sched (TransferDirectory.transferDirectory (systemCalls sha256 fuel) stack r.source
        r.destination r.method) 0 fs).result (recursions events) := by
  have hsource : Source fs r.source r.ls := by
    refine ⟨h₀.source, h₀.sourceDir, fun l t hl => h₀.linkFree l t (.inl hl), ?_⟩
    exact (h₀.short [] (by simp [h₀.sourceDir])).1
  have hwhole : Whole fs r.source r.ls := by
    intro q n _ _ hn hcut
    have := (h₀.short (n :: q) hn).1
    omega
  rw [← interpret_performed]
  obtain ⟨answers, hresult, htrace⟩ := exists_standing_run h₀ hs hstack hfuel
  refine ⟨_, htrace, ?_⟩
  rw [← hresult]
  exact ends_of_whole hsource hwhole hstack answers r.destination r.method

end Following

section Sample

open Directories

/-- Listings as the file system keeps them, and calls that succeed. -/
def succeeding : Answer := ⟨Choice.plain, rfl, false, 0⟩

theorem sample_source : Source sample (Directory.path .reports) (standard .reports) where
  resolves := sample_plain.resolves .reports
  isDir := sample_plain.isDir .reports
  linkFree := fun l t hl => sample_plain.linkFree l t ⟨.reports, hl⟩
  short := by decide

theorem transferDirectory_ends_sample :
    Ends sample (Directory.path .reports)
        (run (treeExec sample) (fun _ => succeeding) (transferDirectory sample.bound (Directory.path .reports)
          (Directory.path .backup) .transfer) 0 ()).result
        (recursions (trace (treeExec sample) (fun _ => succeeding) (transferDirectory sample.bound
          (Directory.path .reports) (Directory.path .backup) .transfer) 0 ())) ↔
      Whole sample (Directory.path .reports) (standard .reports) :=
  transferDirectory_ends_iff sample_source le_rfl _ _ _

/-- A name of 249 bytes. -/
def long : Name := List.replicate 249 97

theorem validName_long : ValidName long := by decide +kernel

/-- So many directories of that name below the reports. -/
def deep : ℕ → Loc
  | 0 => standard .reports
  | depth + 1 => long :: deep depth

/-- The path of the fourth has 1022 bytes, and a file stands in it. -/
def deepTree : FS :=
  let first := sample.addDir long (deep 0) 0o770 (by decide +kernel) validName_long (by decide +kernel)
  let second := first.addDir long (deep 1) 0o770 (by decide +kernel) validName_long (by decide +kernel)
  let third := second.addDir long (deep 2) 0o770 (by decide +kernel) validName_long (by decide +kernel)
  let fourth := third.addDir long (deep 3) 0o770 (by decide +kernel) validName_long (by decide +kernel)
  fourth.addFile (bytes "a") (deep 4) 0o666 (by decide +kernel) validName_a (by decide +kernel)

def isLink : Option Node → Bool
  | some (.link _) => true
  | _ => false

theorem deepTree_source : Source deepTree (Directory.path .reports) (standard .reports) where
  resolves := by decide +kernel
  isDir := by decide +kernel
  linkFree := by
    intro l t _ hl
    have hnone : ∀ k ∈ deepTree.nodes.keys, isLink (deepTree.node k) = false := by decide +kernel
    have hlink := hnone l (deepTree.mem_keys.mp (by simp [hl]))
    rw [hl] at hlink
    cases hlink
  short := by decide

/-- The path of the file is cut behind its last slash, and the fourth directory is entered from itself. -/
theorem not_ends_deepTree : Source deepTree (Directory.path .reports) (standard .reports) ∧
    ¬ Ends deepTree (Directory.path .reports)
        (run (treeExec deepTree) (fun _ => succeeding) (transferDirectory deepTree.bound
          (Directory.path .reports) (Directory.path .backup) .transfer) 0 ()).result
        (recursions (trace (treeExec deepTree) (fun _ => succeeding) (transferDirectory deepTree.bound
          (Directory.path .reports) (Directory.path .backup) .transfer) 0 ())) := by
  refine ⟨deepTree_source, fun hends => ?_⟩
  have hw := whole_of_ends deepTree_source _ _ _ hends
  exact hw [long, long, long, long] (bytes "a") (by decide +kernel) (by decide +kernel) (by decide +kernel)
    (by decide +kernel) (by decide +kernel)

end Sample

end Reportman.Traversal
