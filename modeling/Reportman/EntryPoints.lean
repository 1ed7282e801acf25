import Mathlib
import Reportman.Timers

/-!
# Three ways to start a run

A backup or a transfer can be requested by a client of the daemon, by an option of `reportman_fm`
and by a timer. Each way names its own two directories, and the reply to `get_timers` announces a
fourth choice. On plain directories a run does what its two trees say, so the ways agree exactly
when the trees are such that the differences do not show.
-/
namespace Reportman.EntryPoints
open Resumable FileSystem TransferFile TransferDirectory OverlayRun Directories Timers Overlay

inductive Command
  | backup
  | transfer
  | close
  | unknown
  | getTimers
  deriving DecidableEq, Repr

def commandSuccessful : ℤ := 0
def commandNotFound : ℤ := 127

/-- `tolower` in the C locale, on every byte. -/
def toLowerCase (s : Bytes) : Bytes := s.map fun b => if 65 ≤ b ∧ b ≤ 90 then b + 32 else b

def parseCommand (command : Bytes) : Command × ℤ :=
  if toLowerCase command = bytes "backup" then (.backup, commandSuccessful)
  else if toLowerCase command = bytes "transfer" then (.transfer, commandSuccessful)
  else if toLowerCase command = bytes "close" then (.close, commandSuccessful)
  else if toLowerCase command = bytes "get_timers" then (.getTimers, commandSuccessful)
  else (.unknown, commandNotFound)

structure CommandResponse where
  command : Command
  response : Bytes
  requestClose : Bool

/-- `snprintf` into the 1024 bytes of the reply. -/
def reply (text : Bytes) : Bytes := text.take 1023

/-- What `get_timers` says the timers do. -/
def announced : TransferMethod → Directory × Directory
  | .transfer => (.reports, .dashboard)
  | .backup => (.dashboard, .backup)

section Source

variable (sha256 : Bytes → Bytes) (stack fuel : ℕ)

def moveDirectory (source destination : Directory) (method : TransferMethod) : Prog ℤ :=
  TransferDirectory.transferDirectory (systemCalls sha256 fuel) stack source.path destination.path
    method

/-- `__handle_command`; the two strings are the expiry times that `strftime` has written. -/
def handleCommand (backupTime transferTime command : Bytes) : Prog CommandResponse :=
  match (parseCommand command).1 with
  | .backup => do
      let noErrors ← moveDirectory sha256 stack fuel .reports .backup .backup
      return ⟨.backup, reply (bytes "Backup from " ++ Directory.path .reports ++ bytes " to " ++
        Directory.path .backup ++ bytes " with " ++ bytes (toString noErrors) ++
        bytes " errors. Check log for more details."), false⟩
  | .transfer => do
      let noErrors ← moveDirectory sha256 stack fuel .dashboard .backup .transfer
      return ⟨.transfer, reply (bytes "Transfer from " ++ Directory.path .dashboard ++ bytes " to " ++
        Directory.path .backup ++ bytes " with " ++ bytes (toString noErrors) ++
        bytes " errors. Check log for more details."), false⟩
  | .getTimers =>
      return ⟨.getTimers, reply (bytes "Next transfer from " ++ (announced .transfer).1.path ++
        bytes " to " ++ (announced .transfer).2.path ++ bytes " scheduled at " ++ transferTime ++
        bytes "\nNext backup of " ++ (announced .backup).1.path ++ bytes " to " ++
        (announced .backup).2.path ++ bytes " scheduled at " ++ backupTime), false⟩
  | .close => return ⟨.close, reply (bytes "Close accepted. Exit reportmand."), true⟩
  | .unknown => return ⟨.unknown, reply (bytes "Unknown command."), false⟩

/-- `main` of `reportman_fm` when the daemon has not started it. -/
def fmMain (doBackup doTransfer : Bool) : Prog Unit := do
  if doBackup then
    let _ ← moveDirectory sha256 stack fuel .dashboard .backup .backup
  if doTransfer then
    let _ ← moveDirectory sha256 stack fuel .reports .dashboard .transfer

inductive EntryPoint
  | client
  | commandLine
  | timer
  deriving DecidableEq, Repr

/-- The command a client sends. -/
def request : TransferMethod → Bytes
  | .backup => bytes "backup"
  | .transfer => bytes "transfer"

def entryRun : EntryPoint → TransferMethod → Prog Unit
  | .client, method => do
      let _ ← handleCommand sha256 stack fuel [] [] (request method)
  | .commandLine, .backup => fmMain sha256 stack fuel true false
  | .commandLine, .transfer => fmMain sha256 stack fuel false true
  | .timer, method => timerRun scheduled stack sha256 fuel method

/-- The move that is announced. -/
def announcedRun (method : TransferMethod) : Prog ℤ :=
  moveDirectory sha256 stack fuel (announced method).1 (announced method).2 method

/-- The directories that an entry point chooses. -/
def moves : EntryPoint → TransferMethod → Directory × Directory
  | .client, .backup => (.reports, .backup)
  | .client, .transfer => (.dashboard, .backup)
  | .commandLine, .backup => (.dashboard, .backup)
  | .commandLine, .transfer => (.reports, .dashboard)
  | .timer, .backup => (.reports, .dashboard)
  | .timer, .transfer => (.dashboard, .backup)

/-- Each entry point leaves the contents that the announced move leaves. -/
def Agree (place : Directory → Loc) (fs : FS) : Prop :=
  ∀ (e : EntryPoint) (method : TransferMethod) (sched sched' : ℕ → Choice),
    (∀ t, (sched t).clean) → (∀ t, (sched' t).clean) →
      contents place (run exec sched (entryRun sha256 stack fuel e method) 0 fs).state =
        contents place (run exec sched' (announcedRun sha256 stack fuel method) 0 fs).state

end Source

/-- `X` already has whatever `S` could bring to it. -/
def Settled (S X : Tree Name Bytes) : Prop :=
  ∀ p, (S p = some .dir → clear X p = true → X p ≠ none) ∧
    ∀ c, S p = some (.file c) → lands X p = true → X p = some (.file c)

/-- No file that a transfer would take away could be put into `X`. -/
def Untouched (sha256 : Bytes → Bytes) (S X : Tree Name Bytes) : Prop :=
  ∀ p c, S p = some (.file c) → gone sha256 c = true → lands X p = false

section Trees

variable {S X : Tree Name Bytes} {sha256 : Bytes → Bytes}

theorem overlay_eq_iff : overlay S X = X ↔ Settled S X := by
  constructor
  · intro h p
    have hp := congrFun h p
    refine ⟨fun hs hclear hnone => ?_, fun c hs hlands => ?_⟩
    · rw [overlay_dir hs, hclear, hnone] at hp
      cases hp
    · rw [overlay_file hs, if_pos hlands] at hp
      exact hp.symm
  · intro h
    funext p
    rcases hs : S p with _ | _ | c
    · exact overlay_none hs
    · rw [overlay_dir hs]
      split_ifs with hc
      · rw [Bool.and_eq_true, Option.isNone_iff_eq_none] at hc
        exact absurd hc.2 ((h p).1 hs hc.1)
      · rfl
    · rw [overlay_file hs]
      split_ifs with hl
      · exact ((h p).2 c hs hl).symm
      · rfl

theorem drained_eq_iff : drained (gone sha256) S X = S ↔ Untouched sha256 S X := by
  constructor
  · intro h p c hs hg
    have hp := congrFun h p
    rw [drained_file hs, hs] at hp
    by_contra hl
    rw [Bool.not_eq_false] at hl
    simp [hg, hl] at hp
  · intro h
    funext p
    rcases hs : S p with _ | _ | c
    · exact (drained_of_not_file (by simp [hs, isFile])).trans hs
    · exact (drained_of_not_file (by simp [hs, isFile])).trans hs
    · rw [drained_file hs, if_neg]
      rw [Bool.and_eq_true]
      rintro ⟨hg, hl⟩
      rw [h p c hs hg] at hl
      cases hl

/-- The two directories of a run are all it changes. -/
theorem effect_apply (X : Contents) (s d : Directory) (method : TransferMethod)
    (e : Directory) : effect sha256 s d method X e =
      if e = d then overlay (X s) (X d) else if e = s then leftover sha256 method (X s) (X d) else X e := by
  unfold effect
  by_cases hd : e = d
  · rw [if_pos hd, hd, Function.update_self]
  · rw [if_neg hd, Function.update_of_ne hd]
    by_cases hs : e = s
    · rw [if_pos hs, hs, Function.update_self]
    · rw [if_neg hs, Function.update_of_ne hs]

end Trees

section Runs

variable {place : Directory → Loc} {fs : FS} {sha256 : Bytes → Bytes} {stack fuel : ℕ}

theorem moves_ne (e : EntryPoint) (method : TransferMethod) : (moves e method).1 ≠ (moves e method).2 := by
  cases e <;> cases method <;> decide

/-- `transfer_directory` between two of the directories. -/
theorem moveDirectory_meets (h : Plain place fs) {s d : Directory} (hne : s ≠ d) (method : TransferMethod)
    (hstack : fs.bound ≤ stack) (hfuel : fs.bound ≤ fuel) :
    (terms (runOf place s d method).footprint (runOf place s d method).writes).Meets
      (Terms.Returns fun _ fs' => Progress sha256 (runOf place s d method) fs Set.univ fs')
      (moveDirectory sha256 stack fuel s d method) fs :=
  run_meets (h.ready s d hne method) hstack hfuel

/-- A client's request is one run of `transfer_directory`. -/
theorem handleCommand_request (sha256 : Bytes → Bytes) (stack fuel : ℕ) (backupTime transferTime : Bytes)
    (method : TransferMethod) :
    ∃ answer : ℤ → CommandResponse, handleCommand sha256 stack fuel backupTime transferTime (request method) =
      moveDirectory sha256 stack fuel (moves .client method).1 (moves .client method).2 method >>=
        fun noErrors => .ret (answer noErrors) := by
  cases method with
  | backup =>
    have hparse : parseCommand (request .backup) = (.backup, commandSuccessful) := by decide
    unfold handleCommand
    rw [hparse]
    exact ⟨_, rfl⟩
  | transfer =>
    have hparse : parseCommand (request .transfer) = (.transfer, commandSuccessful) := by decide
    unfold handleCommand
    rw [hparse]
    exact ⟨_, rfl⟩

theorem entryRun_meets (h : Plain place fs) (e : EntryPoint) (method : TransferMethod)
    (hstack : fs.bound ≤ stack) (hfuel : fs.bound ≤ fuel) :
    let r := runOf place (moves e method).1 (moves e method).2 method
    (terms r.footprint r.writes).Meets
      (Terms.Returns fun _ fs' => Progress sha256 r fs Set.univ fs')
      (entryRun sha256 stack fuel e method) fs := by
  intro r
  have hmove : (terms r.footprint r.writes).Meets
      (Terms.Returns fun _ fs' => Progress sha256 r fs Set.univ fs')
      (moveDirectory sha256 stack fuel (moves e method).1 (moves e method).2 method) fs :=
    moveDirectory_meets h (moves_ne e method) method hstack hfuel
  cases e with
  | client =>
    obtain ⟨answer, ha⟩ := handleCommand_request sha256 stack fuel [] [] method
    have hrun : entryRun sha256 stack fuel .client method =
        handleCommand sha256 stack fuel [] [] (request method) >>= fun _ => .ret () := by
      cases method <;> rfl
    rw [hrun, ha]
    refine Terms.Meets.bind_returns (P := fun _ fs' => Progress sha256 r fs Set.univ fs') ?_
      fun _ _ h₁ => Terms.Meets.ret fun _ hr => h₁.stable hr
    exact Terms.Meets.bind_returns hmove fun _ _ h₁ => Terms.Meets.ret fun _ hr => h₁.stable hr
  | commandLine =>
    cases method with
    | backup => exact Terms.Meets.bind_returns hmove fun _ _ h₁ => Terms.Meets.ret fun _ hr => h₁.stable hr
    | transfer => exact Terms.Meets.bind_returns hmove fun _ _ h₁ => Terms.Meets.ret fun _ hr => h₁.stable hr
  | timer =>
    cases method with
    | backup => exact timerRun_meets h hstack hfuel .backup
    | transfer => exact timerRun_meets h hstack hfuel .transfer

theorem entryRun_run (h : Plain place fs) (e : EntryPoint) (method : TransferMethod)
    (hstack : fs.bound ≤ stack) (hfuel : fs.bound ≤ fuel) (sched : ℕ → Choice)
    (hs : ∀ t, (sched t).clean) :
    contents place (run exec sched (entryRun sha256 stack fuel e method) 0 fs).state =
      effect sha256 (moves e method).1 (moves e method).2 method (contents place fs) :=
  (h.run (moves_ne e method) (entryRun_meets h e method hstack hfuel) sched hs 0).2.2

theorem announcedRun_run (h : Plain place fs) (method : TransferMethod) (hstack : fs.bound ≤ stack)
    (hfuel : fs.bound ≤ fuel) (sched : ℕ → Choice) (hs : ∀ t, (sched t).clean) :
    contents place (run exec sched (announcedRun sha256 stack fuel method) 0 fs).state =
      effect sha256 (announced method).1 (announced method).2 method (contents place fs) := by
  have hne : (announced method).1 ≠ (announced method).2 := by cases method <;> decide
  exact (h.run hne (moveDirectory_meets h hne method hstack hfuel) sched hs 0).2.2

/-- Agreement is a matter of the three trees. -/
theorem agree_iff_effect (h : Plain place fs) (hstack : fs.bound ≤ stack) (hfuel : fs.bound ≤ fuel) :
    Agree sha256 stack fuel place fs ↔ ∀ e method,
      effect sha256 (moves e method).1 (moves e method).2 method (contents place fs) =
        effect sha256 (announced method).1 (announced method).2 method (contents place fs) := by
  constructor
  · intro ha e method
    have hclean : ∀ t : ℕ, ((fun _ => Choice.plain) t : Choice).clean := fun _ => rfl
    have := ha e method _ _ hclean hclean
    rwa [entryRun_run h e method hstack hfuel _ hclean,
      announcedRun_run h method hstack hfuel _ hclean] at this
  · intro he e method sched sched' hs hs'
    rw [entryRun_run h e method hstack hfuel sched hs, announcedRun_run h method hstack hfuel sched' hs']
    exact he e method

/-- The three entry points make the announced moves exactly when no run would bring anything new to
its target, and no transfer would take anything from its source. -/
theorem entryPoints_agree_iff (h : Plain place fs) (hstack : fs.bound ≤ stack)
    (hfuel : fs.bound ≤ fuel) :
    let X := contents place fs
    Agree sha256 stack fuel place fs ↔
      Settled (X .reports) (X .backup) ∧ Settled (X .dashboard) (X .backup) ∧
        Settled (X .reports) (X .dashboard) ∧ Untouched sha256 (X .reports) (X .dashboard) ∧
        Untouched sha256 (X .dashboard) (X .backup) := by
  intro X
  rw [agree_iff_effect h hstack hfuel]
  simp only [← overlay_eq_iff, ← drained_eq_iff]
  constructor
  · intro he
    have hview : ∀ e method d,
        effect sha256 (moves e method).1 (moves e method).2 method X d =
          effect sha256 (announced method).1 (announced method).2 method X d :=
      fun e method d => congrFun (he e method) d
    simp only [effect_apply] at hview
    -- the timer's backup leaves the backup directory, and must leave the dashboard
    have hrd : overlay (X .reports) (X .dashboard) = X .dashboard := hview .timer .backup .dashboard
    have hdb : overlay (X .dashboard) (X .backup) = X .backup := (hview .timer .backup .backup).symm
    have hrb : overlay (X .reports) (X .backup) = overlay (X .dashboard) (X .backup) :=
      hview .client .backup .backup
    -- the announced transfer takes from the reports, the others from the dashboard
    have hur : drained (gone sha256) (X .reports) (X .dashboard) = X .reports :=
      (hview .timer .transfer .reports).symm
    have hud : drained (gone sha256) (X .dashboard) (X .backup) = overlay (X .reports) (X .dashboard) :=
      hview .timer .transfer .dashboard
    exact ⟨hrb.trans hdb, hdb, hrd, hur, hud.trans hrd⟩
  · rintro ⟨hrb, hdb, hrd, hur, hud⟩ e method
    funext d
    simp only [effect_apply]
    cases e <;> cases method <;> cases d <;> simp [moves, announced, leftover, X, hrb, hdb, hrd, hur, hud]

end Runs

theorem entryPoints_agree_iff_sample :
    let X := contents standard sample
    Agree id sample.bound sample.bound standard sample ↔
      Settled (X .reports) (X .backup) ∧ Settled (X .dashboard) (X .backup) ∧
        Settled (X .reports) (X .dashboard) ∧ Untouched id (X .reports) (X .dashboard) ∧
        Untouched id (X .dashboard) (X .backup) :=
  entryPoints_agree_iff sample_plain le_rfl le_rfl

/-- One report and nothing else: the client's backup brings it to the backup directory, the
announced backup of the dashboard does not. -/
theorem not_agree_sample : ¬ Agree id 8 8 standard sample := by
  intro h
  have hdiffer : contents standard (run exec (fun _ => Choice.plain)
      (entryRun id 8 8 .client .backup) 0 sample).state .backup [bytes "a"] ≠
      contents standard (run exec (fun _ => Choice.plain)
        (announcedRun id 8 8 .backup) 0 sample).state .backup [bytes "a"] := by decide +kernel
  have hsame := h .client .backup (fun _ => Choice.plain) (fun _ => Choice.plain) (fun _ => rfl)
    fun _ => rfl
  exact hdiffer (by rw [hsame])

end Reportman.EntryPoints
