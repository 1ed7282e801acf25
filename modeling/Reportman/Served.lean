import Mathlib
import Reportman.Streams

/-!
# What the commands of a client do

A conversation and the directories together: the daemon carries out each command that it takes from the
connection. So what a client has asked for is done in the order in which it has asked.
-/
namespace Reportman.Served
open Resumable FileSystem TransferFile OverlayRun Directories EntryPoints Daemon Framing
open Streams (Conserved Balanced connected_balanced)

section Source

structure World where
  connection : Connection
  fs : FS

/-- A step of the conversation; the directories are changed by nothing but `__handle_command`, which runs by itself
and whose calls do not fail. The two strings are the times that the timers' dates have been written to. -/
inductive Step (sha256 : Bytes → Bytes) (fd : ℤ) : Act → World → World → Prop
  | converse {act : Act} {s s' : Connection} {fs : FS} (h : Framing.Step fd act s s') (hsame : s'.handled = s.handled) :
      Step sha256 fd act ⟨s, fs⟩ ⟨s', fs⟩
  | execute {s : Connection} {fs fs' : FS} {command : Bytes} {next} {response : CommandResponse} {t : ℕ}
      (h : s.daemon = .call (.execute command) next) (stack fuel : ℕ) (sched : ℕ → Choice)
      (backupTime transferTime : Bytes) (hstack : fs.bound ≤ stack) (hfuel : fs.bound ≤ fuel)
      (hs : ∀ t, (sched t).clean) (hbackup : 0 ∉ backupTime) (htransfer : 0 ∉ transferTime)
      (hrun : run exec sched (handleCommand sha256 stack fuel backupTime transferTime command) 0 fs =
        ⟨some response, t, fs'⟩) :
      Step sha256 fd .other ⟨s, fs⟩ ⟨{ s with
        daemon := next response.response
        handled := s.handled ++ [command]
        replies := s.replies ++ [response.response] }, fs'⟩

/-- With whatever cuts. -/
def AnyStep (sha256 : Bytes → Bytes) (fd : ℤ) (w w' : World) : Prop := ∃ act, Step sha256 fd act w w'

def WholeStep (sha256 : Bytes → Bytes) (fd : ℤ) (w w' : World) : Prop :=
  ∃ act, Step sha256 fd act w w' ∧ Whole w.connection act

/-- What a command does to the directories. -/
def commandEffect (sha256 : Bytes → Bytes) (X : Contents) (command : Bytes) : Contents :=
  match (parseCommand command).1 with
  | .backup => effect sha256 .reports .backup .backup X
  | .transfer => effect sha256 .dashboard .backup .transfer X
  | .close => X
  | .unknown => X
  | .getTimers => X

end Source

section Commands

variable {place : Directory → Loc} {sha256 : Bytes → Bytes} {stack fuel : ℕ} {backupTime transferTime command : Bytes}
  {fs fs' : FS} {sched : ℕ → Choice} {response : CommandResponse} {t : ℕ}

theorem isReply_of_run (hbackup : 0 ∉ backupTime) (htransfer : 0 ∉ transferTime)
    (hrun : run exec sched (handleCommand sha256 stack fuel backupTime transferTime command) 0 fs =
      ⟨some response, t, fs'⟩) : IsReply response.response := by
  have hyields : (handleCommand sha256 stack fuel backupTime transferTime command).Yields exec
      (fun r _ => IsReply r.response ∧ True) fs :=
    (handleCommand_isReply sha256 stack fuel hbackup htransfer command).yields (fun _ _ _ _ _ => trivial) trivial
  have hresult := congrArg Outcome.result hrun
  exact (hyields.run sched hresult).1

/-- A run between two directories, and an answer. -/
theorem moved_run (hp : Plain place fs) (hstack : fs.bound ≤ stack) (hfuel : fs.bound ≤ fuel)
    (hs : ∀ t, (sched t).clean) {source destination : Directory} (hne : source ≠ destination) (method : TransferMethod)
    (answer : ℤ → CommandResponse) :
    let o := run exec sched (moveDirectory sha256 stack fuel source destination method >>= fun n => .ret (answer n))
      0 fs
    o.result ≠ none ∧ Plain place o.state ∧
      contents place o.state = effect sha256 source destination method (contents place fs) := by
  refine hp.run hne ?_ sched hs 0
  refine Terms.Meets.bind_returns (moveDirectory_meets hp hne method hstack hfuel) ?_
  intro _ fs₁ hprogress
  exact Terms.Meets.ret fun _ hr => hprogress.stable hr

/-- One command, carried out by itself: it is answered. -/
theorem handleCommand_run (hp : Plain place fs) (hstack : fs.bound ≤ stack) (hfuel : fs.bound ≤ fuel)
    (hs : ∀ t, (sched t).clean) (backupTime transferTime command : Bytes) :
    let o := run exec sched (handleCommand sha256 stack fuel backupTime transferTime command) 0 fs
    o.result ≠ none ∧ Plain place o.state ∧
      contents place o.state = commandEffect sha256 (contents place fs) command := by
  unfold handleCommand commandEffect
  cases (parseCommand command).1 with
  | backup => exact moved_run hp hstack hfuel hs (by decide) .backup _
  | transfer => exact moved_run hp hstack hfuel hs (by decide) .transfer _
  | close => exact ⟨nofun, hp, rfl⟩
  | unknown => exact ⟨nofun, hp, rfl⟩
  | getTimers => exact ⟨nofun, hp, rfl⟩

theorem handleCommand_answers (hp : Plain place fs) (hstack : fs.bound ≤ stack) (hfuel : fs.bound ≤ fuel)
    (hs : ∀ t, (sched t).clean) (backupTime transferTime command : Bytes) : ∃ response t fs',
      run exec sched (handleCommand sha256 stack fuel backupTime transferTime command) 0 fs =
        ⟨some response, t, fs'⟩ := by
  have hanswered : (run exec sched (handleCommand sha256 stack fuel backupTime transferTime command) 0 fs).result ≠
      none := (handleCommand_run hp hstack hfuel hs backupTime transferTime command).1
  cases ho : run exec sched (handleCommand sha256 stack fuel backupTime transferTime command) 0 fs with
  | mk result t fs' =>
    rw [ho] at hanswered
    obtain ⟨response, rfl⟩ := Option.ne_none_iff_exists'.1 hanswered
    exact ⟨response, t, fs', rfl⟩

end Commands

section Runs

variable {place : Directory → Loc} {sha256 : Bytes → Bytes} {fd : ℤ} {act : Act} {w w' : World} {commands : List Bytes}

/-- Every step is one of the conversation. -/
theorem Step.connection (h : Step sha256 fd act w w') : Framing.Step fd act w.connection w'.connection := by
  cases h with
  | converse h hsame => exact h
  | execute h stack fuel sched backupTime transferTime hstack hfuel hs hbackup htransfer hrun =>
    exact .inr (.execute h (isReply_of_run hbackup htransfer hrun))

/-- The directories are as the commands have made them. -/
structure Done (place : Directory → Loc) (sha256 : Bytes → Bytes) (X : Contents) (w : World) : Prop where
  plain : Plain place w.fs
  contents : contents place w.fs = w.connection.handled.foldl (commandEffect sha256) X

theorem Done.step {X : Contents} (hdone : Done place sha256 X w) (h : Step sha256 fd act w w') :
    Done place sha256 X w' := by
  cases h with
  | @converse act s s' fs h hsame =>
    refine ⟨hdone.plain, ?_⟩
    have hcontents := hdone.contents
    dsimp only at hcontents ⊢
    rw [hsame, hcontents]
  | execute h stack fuel sched backupTime transferTime hstack hfuel hs hbackup htransfer hrun =>
    obtain ⟨-, hplain, hcontents⟩ := handleCommand_run hdone.plain hstack hfuel hs backupTime transferTime _
    rw [hrun] at hplain hcontents
    refine ⟨hplain, ?_⟩
    have hbefore := hdone.contents
    dsimp only at hbefore ⊢
    rw [hcontents, hbefore, List.foldl_append]
    rfl

variable {d : DaemonState} {exchanges : ℕ} {fs : FS}

theorem started_done (hp : Plain place fs) : Done place sha256 (contents place fs)
    ⟨connected fd commands d exchanges, fs⟩ := ⟨hp, rfl⟩

/-- Whatever the cuts: the directories are what the commands handled make of them, and these are the bytes that
the client has sent. -/
theorem served_any (hcommands : 0 ∉ commands.flatten) (hp : Plain place fs)
    (h : Relation.ReflTransGen (AnyStep sha256 fd) ⟨connected fd commands d exchanges, fs⟩ w) :
    Done place sha256 (contents place fs) w ∧ Conserved commands w.connection := by
  suffices hrun : Done place sha256 (contents place fs) w ∧ ∃ a, Balanced fd commands w.connection a by
    obtain ⟨hdone, a, hbalanced⟩ := hrun
    exact ⟨hdone, hbalanced.conserved⟩
  induction h with
  | refl => exact ⟨started_done hp, _, connected_balanced commands d exchanges⟩
  | tail _ hstep ih =>
    obtain ⟨act, hstep⟩ := hstep
    obtain ⟨hdone, a, hbalanced⟩ := ih
    exact ⟨hdone.step hstep, hbalanced.step hcommands ⟨act, hstep.connection⟩⟩

/-- If each command arrives whole, what is done to the directories is exactly what has been asked for, in that
order, and once the client is through all of it has been done and every answer printed. -/
theorem served (hmessages : ∀ command ∈ commands, IsMessage command) (hp : Plain place fs)
    (h : Relation.ReflTransGen (WholeStep sha256 fd) ⟨connected fd commands d exchanges, fs⟩ w) :
    Framed commands w.connection ∧ Done place sha256 (contents place fs) w ∧
      (w.connection.closed = true →
        contents place w.fs = commands.foldl (commandEffect sha256) (contents place fs)) := by
  have hrun : Done place sha256 (contents place fs) w ∧ Phase fd commands w.connection := by
    induction h with
    | refl => exact ⟨started_done hp, .idle [] commands [] d exchanges rfl rfl⟩
    | tail _ hstep ih =>
      obtain ⟨act, hstep, hwhole⟩ := hstep
      obtain ⟨hdone, hphase⟩ := ih
      exact ⟨hdone.step hstep, hphase.step hmessages hstep.connection hwhole⟩
  obtain ⟨hdone, hphase⟩ := hrun
  have hframed := hphase.framed fd
  refine ⟨hframed, hdone, fun hclosed => ?_⟩
  rw [hdone.contents, (hframed.2.2.2 hclosed).1]

/-- What the connection does without a command leaves the directories alone. -/
theorem Transports.whole {s s' : Connection} (fs : FS)
    (h : Relation.ReflTransGen (Framing.Transports fd) s s') :
    Relation.ReflTransGen (WholeStep sha256 fd) ⟨s, fs⟩ ⟨s', fs⟩ := by
  refine Relation.ReflTransGen.lift (World.mk · fs) ?_ _ _ h
  rintro s s' ⟨⟨act, hstep, hwhole⟩, hsame⟩
  exact ⟨act, .converse hstep hsame, hwhole⟩

/-- Every conversation can come to its end. -/
theorem connected_served (hmessages : ∀ command ∈ commands, IsMessage command) (hp : Plain place fs)
    (handled replies : List Bytes) :
    ∃ w, Relation.ReflTransGen (WholeStep sha256 fd) ⟨⟨clientMain commands, session fd d commands.length, [], [], false,
        handled, replies, replies⟩, fs⟩ w ∧ w.connection.closed = true := by
  induction commands generalizing d fs handled replies with
  | nil => exact ⟨_, .single ⟨.other, .converse (.inl (.close rfl)) rfl, trivial⟩, rfl⟩
  | cons command commands ih =>
    obtain ⟨hmessage, hmessages⟩ := List.forall_mem_cons.1 hmessages
    have hclean : ∀ t : ℕ, ((fun _ => Choice.plain) t : Choice).clean := fun _ => rfl
    obtain ⟨response, t, fs', hexecuted⟩ := @handleCommand_answers place sha256 fs.bound fs.bound fs _ hp le_rfl le_rfl
      hclean [] [] command
    have hplain := (@handleCommand_run place sha256 _ _ _ _ hp le_rfl le_rfl hclean [] [] command).2.1
    rw [hexecuted] at hplain
    have hreply := isReply_of_run List.not_mem_nil List.not_mem_nil hexecuted
    obtain ⟨w, hrest, hclosed⟩ := @ih (noteClose d command) fs' hmessages hplain (handled ++ [command])
      (replies ++ [response.response])
    refine ⟨w, ?_, hclosed⟩
    refine .trans (Transports.whole fs (command_reaches commands handled replies replies hmessage)) ?_
    refine .head ⟨.other, .execute rfl _ _ _ [] [] le_rfl le_rfl hclean nofun nofun hexecuted, trivial⟩ ?_
    exact .trans (Transports.whole fs' (response_reaches commands _ _ replies hreply)) hrest

/-- A client that asks for a backup and a transfer, from the connection to its end. -/
theorem served_transfer :
    let commands := [bytes "backup", bytes "transfer"]
    ∃ w, Relation.ReflTransGen (WholeStep id 7) ⟨connected 7 commands (initially fun _ => 3) 2, Directories.sample⟩ w ∧
      w.connection.closed = true ∧ w.connection.handled = commands ∧
      contents standard w.fs = effect id .dashboard .backup .transfer
        (effect id .reports .backup .backup (contents standard Directories.sample)) := by
  intro commands
  have hmessages : ∀ command ∈ commands, IsMessage command := by
    intro command hcommand
    obtain rfl | rfl : command = bytes "backup" ∨ command = bytes "transfer" := by simpa [commands] using hcommand
    · exact ⟨by decide, by decide, by decide⟩
    · exact ⟨by decide, by decide, by decide⟩
  obtain ⟨w, hrun, hclosed⟩ := @connected_served standard id 7 commands _ _ hmessages sample_plain [] []
  obtain ⟨hframed, -, hcontents⟩ := served hmessages sample_plain hrun
  exact ⟨w, hrun, hclosed, (hframed.2.2.2 hclosed).1, hcontents hclosed⟩

end Runs

end Reportman.Served
