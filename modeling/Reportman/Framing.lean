import Mathlib
import Reportman.Arguments

/-!
# A client and the daemon

Commands and replies have neither a length nor an end mark: each side takes what one read gives it for one
message. So all depends on how the bytes are cut on their way.
-/
namespace Reportman.Framing
open Resumable Daemon Arguments EntryPoints
open FileSystem (Bytes bytes)

section Source

inductive ClientSys
  | write (command : Bytes)
  | read
  | print (text : Bytes)
  | close

abbrev ClientSys.Res : ClientSys → Type
  | .write _ => Bool
  | .read => Option Bytes
  | .print _ => Unit
  | .close => Unit

abbrev ClientProg := Program ClientSys ClientSys.Res

def call (op : ClientSys) : ClientProg op.Res := Program.perform op

/-- `reportmanc` from its connection on; what fails ends it. -/
def clientMain : List Bytes → ClientProg Unit
  | [] => call .close
  | command :: commands => do
      if ¬ (← call (.write command)) then .halt
      else
        match ← call .read with
        | none => .halt
        | some buffer => do
            call (.print (buffer.takeWhile (· ≠ 0)))
            clientMain commands

/-- The connection between the two: the bytes on their way, the commands that `__handle_command` has been
called with, its replies, and what the client has printed. -/
structure Connection where
  client : ClientProg Unit
  daemon : DaemonProg (Option DaemonState)
  up : Bytes
  down : Bytes
  closed : Bool
  handled : List Bytes
  replies : List Bytes
  printed : List Bytes

/-- What a step is in view of the cutting: `receive` and `take` leave the bytes named behind. -/
inductive Act
  | receive (rest : Bytes)
  | take (rest : Bytes)
  | expire
  | other

/-- `snprintf` into 1024 bytes, which is never empty here. -/
def IsReply (response : Bytes) : Prop := response ≠ [] ∧ response.length ≤ 1023 ∧ 0 ∉ response

/-- A call of the client. A read gives some of the bytes that are there, at most 1023 of them, or the end of
what the daemon has sent. -/
inductive ClientStep : Act → Connection → Connection → Prop
  | send {s : Connection} {command next} (h : s.client = .call (.write command) next) :
      ClientStep .other s { s with client := next true, up := s.up ++ command }
  | receive {s : Connection} {next chunk rest} (h : s.client = .call .read next) (hdown : s.down = chunk ++ rest)
      (hsome : chunk ≠ []) (hbuffer : chunk.length ≤ 1023) :
      ClientStep (.receive rest) s { s with client := next (some chunk), down := rest }
  | hangup {s : Connection} {next d} (h : s.client = .call .read next) (hdaemon : s.daemon = .ret (some d))
      (hdown : s.down = []) : ClientStep .other s { s with client := next (some []) }
  | print {s : Connection} {text next} (h : s.client = .call (.print text) next) :
      ClientStep .other s { s with client := next (), printed := s.printed ++ [text] }
  | close {s : Connection} {next} (h : s.client = .call .close next) :
      ClientStep .other s { s with client := next (), closed := true }

/-- A call of the daemon, on a connection that only the client breaks. -/
inductive DaemonStep (fd : ℤ) : Act → Connection → Connection → Prop
  | select {s : Connection} {next} (h : s.daemon = .call (.selectClient fd) next)
      (hready : s.up ≠ [] ∨ s.closed = true) : DaemonStep fd .other s { s with daemon := next .ready }
  | expire {s : Connection} {next} (h : s.daemon = .call (.selectClient fd) next) (hup : s.up = []) :
      DaemonStep fd .expire s { s with daemon := next .timeout }
  | take {s : Connection} {next chunk rest} (h : s.daemon = .call (.readClient fd) next)
      (hup : s.up = chunk ++ rest) (hsome : chunk ≠ []) (hbuffer : chunk.length ≤ 1023) :
      DaemonStep fd (.take rest) s { s with daemon := next (some chunk), up := rest }
  | eof {s : Connection} {next} (h : s.daemon = .call (.readClient fd) next) (hup : s.up = [])
      (hclosed : s.closed = true) : DaemonStep fd .other s { s with daemon := next (some []) }
  | execute {s : Connection} {command next response} (h : s.daemon = .call (.execute command) next)
      (hreply : IsReply response) : DaemonStep fd .other s { s with
        daemon := next response
        handled := s.handled ++ [command]
        replies := s.replies ++ [response] }
  | answer {s : Connection} {text next} (h : s.daemon = .call (.writeClient fd text) next) :
      DaemonStep fd .other s { s with daemon := next .written, down := s.down ++ text }

def Step (fd : ℤ) (act : Act) (s s' : Connection) : Prop := ClientStep act s s' ∨ DaemonStep fd act s s'

/-- Connected, with the daemon about to wait for a command. -/
def connected (fd : ℤ) (commands : List Bytes) (d : DaemonState) (exchanges : ℕ) : Connection where
  client := clientMain commands
  daemon := session fd d exchanges
  up := []
  down := []
  closed := false
  handled := []
  replies := []
  printed := []

/-- The commands are handled in their order, each reply is printed whole, and in the end these are all. -/
def Framed (commands : List Bytes) (s : Connection) : Prop :=
  s.handled <+: commands ∧ s.replies.length = s.handled.length ∧ s.printed <+: s.replies ∧
    (s.closed = true → s.handled = commands ∧ s.printed = s.replies)

/-- Each read takes all that has been written, and the daemon does not give the client up before it is
through. -/
def Whole (s : Connection) : Act → Prop
  | .receive rest => rest = []
  | .take rest => rest = []
  | .expire => s.closed = true
  | .other => True

/-- What fits one read. -/
def IsMessage (command : Bytes) : Prop := command ≠ [] ∧ command.length ≤ 1023 ∧ 0 ∉ command

def WholeStep (fd : ℤ) (s s' : Connection) : Prop := ∃ act, Step fd act s s' ∧ Whole s act

end Source

section Replies

theorem always_trivial {Op : Type} {Res : Op → Type} {α : Type} (p : Program Op Res α) :
    p.Always (fun _ _ => True) fun _ => True := by
  induction p with
  | ret a => trivial
  | halt => trivial
  | call op next ih => exact fun r => ⟨trivial, ih r⟩

theorem reply_isReply {text : Bytes} (hne : text ≠ []) (hzero : 0 ∉ text) : IsReply (reply text) := by
  obtain ⟨b, bs, rfl⟩ := List.exists_cons_of_ne_nil hne
  exact ⟨nofun, List.length_take_le _ _, fun h => hzero (List.mem_of_mem_take h)⟩

/-- Each reply of the daemon is one that a client can tell from nothing. -/
theorem handleCommand_isReply (sha256 : Bytes → Bytes) (stack fuel : ℕ) {backupTime transferTime : Bytes}
    (hbackup : 0 ∉ backupTime) (htransfer : 0 ∉ transferTime) (command : Bytes) :
    (handleCommand sha256 stack fuel backupTime transferTime command).Always (fun _ _ => True)
      fun r => IsReply r.response := by
  have hnumber : ∀ z : ℤ, 0 ∉ bytes (toString z) := fun z h => by
    simpa using (bytes_toString z).2 0 h
  have hpath : ∀ directory : Directories.Directory, 0 ∉ directory.path := by
    intro directory
    cases directory <;> decide
  have hfixed : 0 ∉ bytes "Backup from " ∧ 0 ∉ bytes "Transfer from " ∧ 0 ∉ bytes " to " ∧ 0 ∉ bytes " with " ∧
      0 ∉ bytes " errors. Check log for more details." ∧ 0 ∉ bytes "Next transfer from " ∧
      0 ∉ bytes " scheduled at " ∧ 0 ∉ bytes "\nNext backup of " := by decide
  obtain ⟨hfrom, hfrom', hto, hwith, herrors, hnext, hat, hnext'⟩ := hfixed
  unfold handleCommand
  cases (parseCommand command).1 with
  | backup =>
    refine (always_trivial _).bind fun noErrors _ => reply_isReply (by simp [bytes]) ?_
    simp only [List.mem_append, not_or]
    exact ⟨⟨⟨⟨⟨⟨hfrom, hpath _⟩, hto⟩, hpath _⟩, hwith⟩, hnumber _⟩, herrors⟩
  | transfer =>
    refine (always_trivial _).bind fun noErrors _ => reply_isReply (by simp [bytes]) ?_
    simp only [List.mem_append, not_or]
    exact ⟨⟨⟨⟨⟨⟨hfrom', hpath _⟩, hto⟩, hpath _⟩, hwith⟩, hnumber _⟩, herrors⟩
  | close => exact reply_isReply (by decide) (by decide)
  | unknown => exact reply_isReply (by decide) (by decide)
  | getTimers =>
    refine reply_isReply (by simp [bytes]) ?_
    simp only [List.mem_append, not_or]
    exact ⟨⟨⟨⟨⟨⟨⟨⟨⟨⟨⟨hnext, hpath _⟩, hto⟩, hpath _⟩, hat⟩, htransfer⟩,
      hnext'⟩, hpath _⟩, hto⟩, hpath _⟩, hat⟩, hbackup⟩

end Replies

section Phases

variable (fd : ℤ) (d : DaemonState) (n : ℕ)

/-- The client at its read. -/
def awaits (commands : List Bytes) : ClientProg Unit :=
  .call .read fun got => got.elim .halt fun buffer =>
    .call (.print (buffer.takeWhile (· ≠ 0))) fun _ => clientMain commands

theorem clientMain_cons (command : Bytes) (commands : List Bytes) : clientMain (command :: commands) =
    .call (.write command) fun sent => if sent = true then awaits commands else .halt := by
  refine congrArg (Program.call (ClientSys.write command)) (funext fun sent => ?_)
  cases sent with
  | false => rfl
  | true =>
    refine congrArg (Program.call ClientSys.read) (funext fun got => ?_)
    cases got <;> rfl

/-- The daemon with a reply to send. -/
def answering (response : Bytes) : DaemonProg (Option DaemonState) :=
  .call (.writeClient fd response) fun r => written d r >>= fun _ => session fd d n

/-- The daemon at its read. -/
def reading (selected : Ipc.SelectResult) : DaemonProg (Option DaemonState) :=
  .call (.readClient fd) fun got => match got with
    | none => session fd d n
    | some [] => farewell fd d selected
    | some (b :: bs) => .call (.execute ((b :: bs).takeWhile (· ≠ 0))) fun response =>
        answering fd (noteClose d ((b :: bs).takeWhile (· ≠ 0))) n response

theorem session_succ : session fd d (n + 1) = .call (.selectClient fd) fun selected =>
    if selected = .timeout then farewell fd d selected else reading fd d n selected := by
  refine congrArg (Program.call (DaemonSys.selectClient fd)) (funext fun selected => ?_)
  dsimp only [Program.bind]
  split_ifs
  · rfl
  refine congrArg (Program.call (DaemonSys.readClient fd)) (funext fun got => ?_)
  rcases got with _ | _ | ⟨b, bs⟩
  · rfl
  · rfl
  refine congrArg (Program.call (DaemonSys.execute _)) (funext fun response => ?_)
  exact bind_assoc _ _ _

/-- A command that fits is taken for what it is. -/
theorem takeWhile_message {text : Bytes} (h : 0 ∉ text) : text.takeWhile (· ≠ 0) = text := by
  refine List.takeWhile_eq_self_iff.2 fun b hb => ?_
  simpa using fun hzero : b = 0 => h (hzero ▸ hb)

theorem reading_message {command : Bytes} (h : IsMessage command) :
    ∃ next, reading fd d n .ready = .call (.readClient fd) next ∧
      next (some command) = .call (.execute command) fun response =>
        answering fd (noteClose d command) n response := by
  obtain ⟨hne, -, hzero⟩ := h
  obtain ⟨b, bs, rfl⟩ := List.exists_cons_of_ne_nil hne
  refine ⟨_, rfl, ?_⟩
  dsimp only
  rw [takeWhile_message hzero]

/-- The call of `__handle_command`. -/
def Handles : DaemonSys → Prop
  | .execute _ => True
  | _ => False

/-- Where the two are with each other after `before`, whose replies have been printed, and with `after` still to
be sent. -/
inductive Phase (commands : List Bytes) : Connection → Prop
  | idle (before after replies : List Bytes) (d : DaemonState) (n : ℕ) (hall : before ++ after = commands)
      (hlength : replies.length = before.length) :
      Phase commands ⟨clientMain after, session fd d n, [], [], false, before, replies, replies⟩
  | sent (before after replies : List Bytes) (command : Bytes) (d : DaemonState) (n : ℕ)
      (hall : before ++ command :: after = commands) (hlength : replies.length = before.length) :
      Phase commands ⟨awaits after, session fd d n, command, [], false, before, replies, replies⟩
  | arrived (before after replies : List Bytes) (command : Bytes) (d : DaemonState) (n : ℕ)
      (hall : before ++ command :: after = commands) (hlength : replies.length = before.length) :
      Phase commands ⟨awaits after, reading fd d n .ready, command, [], false, before, replies, replies⟩
  | taken (before after replies : List Bytes) (command : Bytes) (d : DaemonState) (n : ℕ)
      (hall : before ++ command :: after = commands) (hlength : replies.length = before.length) :
      Phase commands ⟨awaits after, .call (.execute command) fun response => answering fd d n response, [], [],
        false, before, replies, replies⟩
  | handled (before after replies : List Bytes) (command response : Bytes) (d : DaemonState) (n : ℕ)
      (hall : before ++ command :: after = commands) (hlength : replies.length = before.length)
      (hreply : IsReply response) :
      Phase commands ⟨awaits after, answering fd d n response, [], [], false, before ++ [command],
        replies ++ [response], replies⟩
  | answered (before after replies : List Bytes) (command response : Bytes) (d : DaemonState) (n : ℕ)
      (hall : before ++ command :: after = commands) (hlength : replies.length = before.length)
      (hreply : IsReply response) :
      Phase commands ⟨awaits after, session fd d n, [], response, false, before ++ [command],
        replies ++ [response], replies⟩
  | received (before after replies : List Bytes) (command response : Bytes) (d : DaemonState) (n : ℕ)
      (hall : before ++ command :: after = commands) (hlength : replies.length = before.length) :
      Phase commands ⟨.call (.print response) fun _ => clientMain after, session fd d n, [], [], false,
        before ++ [command], replies ++ [response], replies⟩
  | closed (daemon : DaemonProg (Option DaemonState)) (down : Bytes) (replies : List Bytes)
      (hlength : replies.length = commands.length)
      (hidle : (∃ d n, daemon = session fd d n) ∨ (∃ d n, daemon = reading fd d n .ready) ∨
        daemon.Always (fun op _ => ¬ Handles op) fun _ => True) :
      Phase commands ⟨.ret (), daemon, [], down, true, commands, replies, replies⟩

theorem Phase.framed {commands : List Bytes} {s : Connection} (h : Phase fd commands s) : Framed commands s := by
  cases h with
  | idle before after replies d n hall hlength =>
    exact ⟨⟨after, hall⟩, hlength, List.prefix_refl _, nofun⟩
  | sent before after replies command d n hall hlength =>
    exact ⟨⟨_, hall⟩, hlength, List.prefix_refl _, nofun⟩
  | arrived before after replies command d n hall hlength =>
    exact ⟨⟨_, hall⟩, hlength, List.prefix_refl _, nofun⟩
  | taken before after replies command d n hall hlength =>
    exact ⟨⟨_, hall⟩, hlength, List.prefix_refl _, nofun⟩
  | handled before after replies command response d n hall hlength hreply =>
    exact ⟨⟨after, by simpa using hall⟩, by simp [hlength], List.prefix_append _ _, nofun⟩
  | answered before after replies command response d n hall hlength hreply =>
    exact ⟨⟨after, by simpa using hall⟩, by simp [hlength], List.prefix_append _ _, nofun⟩
  | received before after replies command response d n hall hlength =>
    exact ⟨⟨after, by simpa using hall⟩, by simp [hlength], List.prefix_append _ _, nofun⟩
  | closed daemon down replies hlength hidle =>
    exact ⟨List.prefix_refl _, hlength, List.prefix_refl _, fun _ => ⟨rfl, rfl⟩⟩

variable {fd d n}

/-- All that the daemon does there is to wait. -/
theorem session_op {op : DaemonSys} {next : op.Res → DaemonProg (Option DaemonState)}
    (h : session fd d n = .call op next) : op = .selectClient fd := by
  cases n with
  | zero => cases h
  | succ n =>
    rw [session_succ] at h
    cases h
    rfl

theorem session_select {next : Ipc.SelectResult → DaemonProg (Option DaemonState)}
    (h : session fd d n = .call (.selectClient fd) next) :
    (∃ m, next .ready = reading fd d m .ready) ∧ next .timeout = farewell fd d .timeout := by
  cases n with
  | zero => cases h
  | succ n =>
    rw [session_succ] at h
    cases h
    exact ⟨⟨n, rfl⟩, rfl⟩

theorem session_ne_ret {d' : DaemonState} : session fd d n ≠ .ret (some d') := by
  cases n with
  | zero => exact nofun
  | succ n =>
    rw [session_succ]
    exact nofun

variable {commands : List Bytes} {act : Act} {s s' : Connection}

/-- While nothing is on its way to it, the daemon waits. -/
theorem DaemonStep.not_idle (h : DaemonStep fd act s s') (hwhole : Whole s act) (hdaemon : s.daemon = session fd d n)
    (hup : s.up = []) (hclosed : s.closed = false) : False := by
  cases h with
  | select h hready =>
    rcases hready with hready | hready
    · exact hready hup
    · exact absurd (hclosed.symm.trans hready) nofun
  | expire h => exact absurd (hclosed.symm.trans hwhole) nofun
  | take h => cases session_op (hdaemon.symm.trans h)
  | eof h => cases session_op (hdaemon.symm.trans h)
  | execute h => cases session_op (hdaemon.symm.trans h)
  | answer h => cases session_op (hdaemon.symm.trans h)

/-- And so does the client at its read. -/
theorem ClientStep.not_awaits {after : List Bytes} (h : ClientStep act s s') (hclient : s.client = awaits after)
    (hdown : s.down = []) (hdaemon : ∀ d, s.daemon ≠ .ret (some d)) : False := by
  cases h with
  | send h => cases hclient.symm.trans h
  | receive h hdown' hsome => exact hsome (List.append_eq_nil_iff.1 (hdown'.symm.trans hdown)).1
  | hangup h hret => exact hdaemon _ hret
  | print h => cases hclient.symm.trans h
  | close h => cases hclient.symm.trans h

theorem phase_idle {before after replies : List Bytes} (hall : before ++ after = commands)
    (hlength : replies.length = before.length)
    (h : ClientStep act ⟨clientMain after, session fd d n, [], [], false, before, replies, replies⟩ s') :
    Phase fd commands s' := by
  cases after with
  | nil =>
    cases h with
    | close h =>
      cases h
      have hdone : before = commands := (List.append_nil before).symm.trans hall
      subst hdone
      exact .closed _ _ _ hlength (.inl ⟨d, n, rfl⟩)
    | send h => cases h
    | receive h => cases h
    | hangup h => cases h
    | print h => cases h
  | cons command after =>
    rw [clientMain_cons] at h
    cases h with
    | send h =>
      cases h
      exact .sent before after replies command d n hall hlength
    | receive h => cases h
    | hangup h => cases h
    | print h => cases h
    | close h => cases h

theorem phase_sent {before after replies : List Bytes} {command : Bytes} (hmessage : IsMessage command)
    (hall : before ++ command :: after = commands) (hlength : replies.length = before.length)
    (h : DaemonStep fd act ⟨awaits after, session fd d n, command, [], false, before, replies, replies⟩ s') :
    Phase fd commands s' := by
  cases h with
  | select h =>
    obtain ⟨⟨m, hnext⟩, -⟩ := session_select h
    rw [hnext]
    exact .arrived before after replies command d m hall hlength
  | expire h hup => exact absurd hup hmessage.1
  | take h => cases session_op h
  | eof h => cases session_op h
  | execute h => cases session_op h
  | answer h => cases session_op h

theorem phase_arrived {before after replies : List Bytes} {command : Bytes} (hmessage : IsMessage command)
    (hall : before ++ command :: after = commands) (hlength : replies.length = before.length)
    (h : DaemonStep fd act ⟨awaits after, reading fd d n .ready, command, [], false, before, replies, replies⟩ s')
    (hwhole : Whole ⟨awaits after, reading fd d n .ready, command, [], false, before, replies, replies⟩ act) :
    Phase fd commands s' := by
  obtain ⟨next, hreading, hnext⟩ := reading_message fd d n hmessage
  cases h with
  | select h => cases hreading.symm.trans h
  | expire h => cases hreading.symm.trans h
  | take h hup =>
    cases hreading.symm.trans h
    obtain rfl : _ = [] := hwhole
    obtain rfl := (List.append_nil _).symm.trans hup.symm
    rw [hnext]
    exact .taken before after replies _ _ n hall hlength
  | eof h hup => exact absurd hup hmessage.1
  | execute h => cases hreading.symm.trans h
  | answer h => cases hreading.symm.trans h

theorem phase_taken {before after replies : List Bytes} {command : Bytes}
    (hall : before ++ command :: after = commands) (hlength : replies.length = before.length)
    (h : DaemonStep fd act ⟨awaits after, .call (.execute command) fun response => answering fd d n response, [], [],
      false, before, replies, replies⟩ s') : Phase fd commands s' := by
  cases h with
  | select h => cases h
  | expire h => cases h
  | take h => cases h
  | eof h => cases h
  | execute h hreply =>
    cases h
    exact .handled before after replies command _ d n hall hlength hreply
  | answer h => cases h

theorem phase_handled {before after replies : List Bytes} {command response : Bytes}
    (hall : before ++ command :: after = commands) (hlength : replies.length = before.length)
    (hreply : IsReply response) (h : DaemonStep fd act ⟨awaits after, answering fd d n response, [], [], false,
      before ++ [command], replies ++ [response], replies⟩ s') : Phase fd commands s' := by
  cases h with
  | select h => cases h
  | expire h => cases h
  | take h => cases h
  | eof h => cases h
  | execute h => cases h
  | answer h =>
    cases h
    exact .answered before after replies command response d n hall hlength hreply

theorem phase_answered {before after replies : List Bytes} {command response : Bytes}
    (hall : before ++ command :: after = commands) (hlength : replies.length = before.length)
    (hreply : IsReply response) (h : ClientStep act ⟨awaits after, session fd d n, [], response, false,
      before ++ [command], replies ++ [response], replies⟩ s')
    (hwhole : Whole ⟨awaits after, session fd d n, [], response, false, before ++ [command],
      replies ++ [response], replies⟩ act) : Phase fd commands s' := by
  cases h with
  | send h => cases h
  | receive h hdown =>
    cases h
    obtain rfl : _ = [] := hwhole
    obtain rfl := (List.append_nil _).symm.trans hdown.symm
    have hprint := takeWhile_message hreply.2.2
    change Phase fd commands
      ⟨.call (.print (List.takeWhile (· ≠ 0) _)) fun _ => clientMain after, _, _, _, _, _, _, _⟩
    rw [hprint]
    exact .received before after replies command _ d n hall hlength
  | hangup h hdaemon => exact absurd hdaemon session_ne_ret
  | print h => cases h
  | close h => cases h

theorem phase_received {before after replies : List Bytes} {command response : Bytes}
    (hall : before ++ command :: after = commands) (hlength : replies.length = before.length)
    (h : ClientStep act ⟨.call (.print response) fun _ => clientMain after, session fd d n, [], [], false,
      before ++ [command], replies ++ [response], replies⟩ s') : Phase fd commands s' := by
  cases h with
  | send h => cases h
  | receive h => cases h
  | hangup h => cases h
  | print h =>
    cases h
    exact .idle (before ++ [command]) after (replies ++ [response]) d n (by simpa using hall) (by simp [hlength])
  | close h => cases h

theorem farewell_handles_nothing (selected : Ipc.SelectResult) :
    (farewell fd d selected).Always (fun op _ => ¬ Handles op) fun _ => True := by
  have hwrite : (writeClient d fd timeoutMsg).Always (fun op _ => ¬ Handles op) fun _ => True :=
    fun r => ⟨id, (written_always _ d r).bind fun _ _ => trivial⟩
  unfold farewell
  split_ifs
  · trivial
  · exact hwrite.bind fun _ _ => trivial

/-- After the client there is nothing that could be handled. -/
theorem phase_closed {daemon : DaemonProg (Option DaemonState)} {down : Bytes} {replies : List Bytes}
    (hlength : replies.length = commands.length)
    (hidle : (∃ d n, daemon = session fd d n) ∨ (∃ d n, daemon = reading fd d n .ready) ∨
      daemon.Always (fun op _ => ¬ Handles op) fun _ => True)
    (h : DaemonStep fd act ⟨.ret (), daemon, [], down, true, commands, replies, replies⟩ s') :
    Phase fd commands s' := by
  rcases hidle with ⟨d, n, rfl⟩ | ⟨d, n, rfl⟩ | hnothing
  · cases h with
    | select h =>
      obtain ⟨⟨m, hnext⟩, -⟩ := session_select h
      exact .closed _ _ _ hlength (.inr (.inl ⟨d, m, hnext⟩))
    | expire h =>
      refine .closed _ _ _ hlength (.inr (.inr ?_))
      rw [(session_select h).2]
      exact farewell_handles_nothing _
    | take h => cases session_op h
    | eof h => cases session_op h
    | execute h => cases session_op h
    | answer h => cases session_op h
  · cases h with
    | select h => cases h
    | expire h => cases h
    | take h hup hsome => exact absurd (List.append_eq_nil_iff.1 hup.symm).1 hsome
    | eof h =>
      cases h
      exact .closed _ _ _ hlength (.inr (.inr (farewell_handles_nothing _)))
    | execute h => cases h
    | answer h => cases h
  · have hcall : ∀ {op next}, daemon = .call op next →
        ∀ r, ¬ Handles op ∧ (next r).Always (fun op _ => ¬ Handles op) fun _ => True := by
      rintro op next rfl
      exact hnothing
    cases h with
    | select h => exact .closed _ _ _ hlength (.inr (.inr (hcall h _).2))
    | expire h => exact .closed _ _ _ hlength (.inr (.inr (hcall h _).2))
    | take h hup hsome => exact absurd (List.append_eq_nil_iff.1 hup.symm).1 hsome
    | eof h => exact .closed _ _ _ hlength (.inr (.inr (hcall h _).2))
    | execute h => exact absurd trivial (hcall h []).1
    | answer h => exact .closed _ _ _ hlength (.inr (.inr (hcall h _).2))

theorem Phase.step (hmessages : ∀ command ∈ commands, IsMessage command) (hs : Phase fd commands s)
    (h : Step fd act s s') (hwhole : Whole s act) : Phase fd commands s' := by
  have hmem : ∀ {before after : List Bytes} {command}, before ++ command :: after = commands → IsMessage command := by
    rintro before after command rfl
    exact hmessages command (by simp)
  cases hs with
  | idle before after replies d n hall hlength =>
    rcases h with h | h
    · exact phase_idle hall hlength h
    · exact (h.not_idle hwhole rfl rfl rfl).elim
  | sent before after replies command d n hall hlength =>
    rcases h with h | h
    · exact (h.not_awaits rfl rfl fun _ => session_ne_ret).elim
    · exact phase_sent (hmem hall) hall hlength h
  | arrived before after replies command d n hall hlength =>
    rcases h with h | h
    · exact (h.not_awaits rfl rfl fun _ => nofun).elim
    · exact phase_arrived (hmem hall) hall hlength h hwhole
  | taken before after replies command d n hall hlength =>
    rcases h with h | h
    · exact (h.not_awaits rfl rfl fun _ => nofun).elim
    · exact phase_taken hall hlength h
  | handled before after replies command response d n hall hlength hreply =>
    rcases h with h | h
    · exact (h.not_awaits rfl rfl fun _ => nofun).elim
    · exact phase_handled hall hlength hreply h
  | answered before after replies command response d n hall hlength hreply =>
    rcases h with h | h
    · exact phase_answered hall hlength hreply h hwhole
    · exact (h.not_idle hwhole rfl rfl rfl).elim
  | received before after replies command response d n hall hlength =>
    rcases h with h | h
    · exact phase_received hall hlength h
    · exact (h.not_idle hwhole rfl rfl rfl).elim
  | closed daemon down replies hlength hidle =>
    rcases h with h | h
    · cases h <;> contradiction
    · exact phase_closed hlength hidle h

/-- If every command fits one read and every read takes all that has been written. -/
theorem connected_framed {fd : ℤ} {commands : List Bytes} (hmessages : ∀ command ∈ commands, IsMessage command)
    {d : DaemonState} {exchanges : ℕ} {s : Connection}
    (h : Relation.ReflTransGen (WholeStep fd) (connected fd commands d exchanges) s) : Framed commands s := by
  refine Phase.framed fd ?_
  induction h with
  | refl => exact .idle [] commands [] d exchanges rfl rfl
  | tail _ hstep ih =>
    obtain ⟨act, hstep, hwhole⟩ := hstep
    exact ih.step hmessages hstep hwhole

theorem ok_isReply : IsReply (bytes "ok") := ⟨by decide, by decide, by decide⟩

/-- A step that handles no command. -/
def Transports (fd : ℤ) (s s' : Connection) : Prop := WholeStep fd s s' ∧ s'.handled = s.handled

section Exchanges

variable {command response : Bytes} (after handled replies printed : List Bytes)

/-- A command reaches the daemon. -/
theorem command_reaches (h : IsMessage command) : Relation.ReflTransGen (Transports fd)
    ⟨clientMain (command :: after), session fd d (n + 1), [], [], false, handled, replies, printed⟩
    ⟨awaits after, .call (.execute command) fun response => answering fd (noteClose d command) n response, [], [],
      false, handled, replies, printed⟩ := by
  obtain ⟨next, hreading, hnext⟩ := reading_message fd d n h
  rw [clientMain_cons, session_succ, ← hnext]
  refine .head ⟨⟨.other, .inl (.send rfl), trivial⟩, rfl⟩ ?_
  refine .head ⟨⟨.other, .inr (.select rfl (.inl h.1)), trivial⟩, rfl⟩ ?_
  exact .single ⟨⟨.take [], .inr (.take hreading (List.append_nil _).symm h.1 h.2.1), rfl⟩, rfl⟩

/-- A reply reaches the client, who prints it. -/
theorem response_reaches (h : IsReply response) : Relation.ReflTransGen (Transports fd)
    ⟨awaits after, answering fd d n response, [], [], false, handled, replies, printed⟩
    ⟨clientMain after, session fd d n, [], [], false, handled, replies, printed ++ [response]⟩ := by
  obtain ⟨next, hread, hnext⟩ : ∃ next, awaits after = .call .read next ∧
      next (some response) = .call (.print response) fun _ => clientMain after := by
    refine ⟨_, rfl, ?_⟩
    rw [Option.elim_some, takeWhile_message h.2.2]
  refine .head ⟨⟨.other, .inr (.answer rfl), trivial⟩, rfl⟩ ?_
  refine .head ⟨⟨.receive [], .inl (.receive hread (List.append_nil _).symm h.1 h.2.1), rfl⟩, rfl⟩ ?_
  dsimp only
  rw [List.nil_append, hnext]
  exact .single ⟨⟨.other, .inl (@ClientStep.print _ response (fun _ => clientMain after) rfl), trivial⟩, rfl⟩

end Exchanges

/-- Every conversation can come to its end, whatever the replies. -/
theorem connected_ends {commands : List Bytes} (hmessages : ∀ command ∈ commands, IsMessage command)
    {respond : Bytes → Bytes} (hreplies : ∀ command ∈ commands, IsReply (respond command))
    (handled replies : List Bytes) :
    ∃ s, Relation.ReflTransGen (WholeStep fd)
        ⟨clientMain commands, session fd d commands.length, [], [], false, handled, replies, replies⟩ s ∧
      s.closed = true ∧ s.replies = replies ++ commands.map respond := by
  induction commands generalizing d handled replies with
  | nil => exact ⟨_, .single ⟨.other, .inl (.close rfl), trivial⟩, rfl, (List.append_nil _).symm⟩
  | cons command commands ih =>
    obtain ⟨hmessage, hmessages⟩ := List.forall_mem_cons.1 hmessages
    obtain ⟨hreply, hreplies⟩ := List.forall_mem_cons.1 hreplies
    obtain ⟨s, hrest, hclosed, hall⟩ := @ih (noteClose d command) hmessages hreplies (handled ++ [command])
      (replies ++ [respond command])
    refine ⟨s, ?_, hclosed, by simpa using hall⟩
    have hquiet : Transports fd ≤ WholeStep fd := fun _ _ h => h.1
    refine .trans (Relation.ReflTransGen.mono hquiet _ _ (command_reaches commands handled replies replies hmessage)) ?_
    refine .head ⟨.other, .inr (.execute rfl hreply), trivial⟩ ?_
    exact .trans (Relation.ReflTransGen.mono hquiet _ _ (response_reaches commands _ _ replies hreply)) hrest

/-- Two commands, from the connection to its end. -/
theorem connected_framed_close :
    let commands := [bytes "hello", bytes "close"]
    ∃ s, Relation.ReflTransGen (WholeStep 7) (connected 7 commands (initially fun _ => 3) 2) s ∧ s.closed = true ∧
      s.replies = commands.map responding ∧ Framed commands s := by
  intro commands
  have hmessages : ∀ command ∈ commands, IsMessage command := by
    intro command hcommand
    obtain rfl | rfl : command = bytes "hello" ∨ command = bytes "close" := by simpa [commands] using hcommand
    · exact ⟨by decide, by decide, by decide⟩
    · exact ⟨by decide, by decide, by decide⟩
  have hreplies : ∀ command ∈ commands, IsReply (responding command) := by
    intro command hcommand
    obtain rfl | rfl : command = bytes "hello" ∨ command = bytes "close" := by simpa [commands] using hcommand
    · rw [responding]
      exact ⟨by decide, by decide, by decide⟩
    · rw [responding]
      exact ⟨by decide, by decide, by decide⟩
  obtain ⟨s, hrun, hclosed, hall⟩ := connected_ends hmessages hreplies [] []
  exact ⟨s, hrun, hclosed, hall, connected_framed hmessages hrun⟩

/-- The first bytes of a command come alone, and are taken for a command. -/
theorem not_framed_cut : ∃ s, Relation.ReflTransGen (fun s s' => ∃ act, Step 7 act s s')
      (connected 7 [bytes "backup"] (initially fun _ => 3) 2) s ∧ ¬ Framed [bytes "backup"] s := by
  obtain ⟨s, hrun, hhandled⟩ : ∃ s, Relation.ReflTransGen (fun s s' => ∃ act, Step 7 act s s')
      (connected 7 [bytes "backup"] (initially fun _ => 3) 2) s ∧ s.handled = [bytes "ba"] :=
    ⟨_, .head ⟨.other, .inl (.send rfl)⟩ <|
      .head ⟨.other, .inr (.select rfl (.inl (by decide)))⟩ <|
      .head ⟨.take (bytes "ckup"), .inr (@DaemonStep.take 7 _ _ (bytes "ba") (bytes "ckup") rfl rfl (by decide)
        (by decide))⟩ <|
      .single ⟨.other, .inr (.execute rfl ok_isReply)⟩, rfl⟩
  refine ⟨s, hrun, fun h => ?_⟩
  have hprefix := h.1
  rw [hhandled] at hprefix
  exact absurd hprefix (by decide)

end Phases

end Reportman.Framing
