import Mathlib
import Reportman.Framing
import Reportman.Numerals
import Reportman.Observed

/-!
# The client

`reportmanc` takes its arguments apart, connects, and then sends one command after the other, each once the
answer to the one before it has been read.
-/
namespace Reportman.Client
open Resumable Arguments Numerals
open FileSystem (Bytes bytes)
open Framing (ClientSys clientMain awaits clientMain_cons)

section Source

/-- What `reportmanc` does to the world; `exit` is the end of it. -/
inductive Call
  | stdout (text : Bytes)
  | stderr (text : Bytes)
  | perror
  | socket
  | gethostbyname (name : String)
  | connect (port : ℤ)
  | write (text : Bytes)
  | read
  | close
  | exit (status : ℤ)

/-- A call of the network answers whether it has succeeded, and a read what it has read. -/
abbrev Call.Res : Call → Type
  | .stdout _ => Unit
  | .stderr _ => Unit
  | .perror => Unit
  | .socket => Bool
  | .gethostbyname _ => Bool
  | .connect _ => Bool
  | .write _ => FmLoop.WriteResult
  | .read => Option Bytes
  | .close => Unit
  | .exit _ => Unit

abbrev Prog := Program Call Call.Res

def sys (op : Call) : Prog op.Res := Program.perform op

def exit {α : Type} (status : ℤ) : Prog α := .call (.exit status) fun _ => .halt

def error {α : Type} (msg : Bytes) : Prog α := do
  sys (.stdout msg)
  sys .perror
  exit 0

structure ClientArguments where
  daemonPort : ℤ
  commands : List String
  deriving DecidableEq, Repr

def reportmandBindPort : ℤ := 7770

def startsWith (str start : String) : Bool :=
  start.length ≤ str.length && str.toList.take start.length = start.toList

/-- `__configure_client_args`; the arguments are those after the name of the program. -/
def configureClientArgs : List String → ClientArguments → Except ArgExit ClientArguments
  | [], args => .ok args
  | arg :: rest, args =>
      if arg = "-p" ∨ arg = "--port" then
        match rest with
        | [] => .error (.failure ("No port specified after " ++ arg ++ "\n"))
        | input :: rest => do
            let port ← parseShortArg input
            configureClientArgs rest { args with daemonPort := port }
      else if startsWith arg "-" then .error (.failure ("Unrecognized option: " ++ arg ++ "\n"))
      else configureClientArgs rest { args with commands := args.commands ++ [arg] }

/-- How the calls of the loop over the commands are made: the first to fail ends the program. -/
def performed : (op : ClientSys) → Prog op.Res
  | .write command => do
      sys (.stdout (bytes "Sending command: " ++ command ++ bytes "\n"))
      match ← sys (.write command) with
      | .written => return true
      | .failed => error (bytes "ERROR writing to socket")
      | .broken => .halt
  | .read => do
      match ← sys .read with
      | none => error (bytes "ERROR reading from socket")
      | some buffer => return some buffer
  | .print text => sys (.stdout (text ++ bytes "\n"))
  | .close => sys .close

/-- `main` from its connection on. -/
def converse (commands : List String) : Prog Unit := do
  (clientMain (commands.map bytes)).interpret performed
  exit 0

def connected (args : ClientArguments) : Prog Unit := do
  if ¬ (← sys .socket) then error (bytes "ERROR opening socket")
  else if ¬ (← sys (.gethostbyname "localhost")) then do
    sys (.stderr (bytes "ERROR, no such host\n"))
    exit 0
  else if ¬ (← sys (.connect args.daemonPort)) then
    error (bytes "ERROR connecting. reportmand is most likely not running on port " ++
      bytes (toString args.daemonPort) ++ bytes ".\n")
  else converse args.commands

def client (argv : List String) : Prog Unit :=
  match configureClientArgs argv ⟨reportmandBindPort, []⟩ with
  | .error (.failure message) => do
      sys (.stdout (bytes message))
      exit 1
  | .error (.response code) => exit code
  | .ok args =>
      if args.commands.length < 1 then do
        sys (.stderr (bytes "No command specified.\n"))
        exit 1
      else connected args

end Source

section Requests

/-- What a command line is made of. -/
inductive Item
  | port (flag value : String) (number : ℤ)
  | command (text : String)

def Item.words : Item → List String
  | .port flag value _ => [flag, value]
  | .command text => [text]

/-- A port is named by the number that its text begins with. -/
def Item.Accepted : Item → Prop
  | .port flag value number => (flag = "-p" ∨ flag = "--port") ∧ 0 ≤ number ∧ number ≤ 65535 ∧
      ∃ (n : Numeral) (rest : List Char), value.toList = n.text ++ rest ∧ Stops rest ∧ n.value = number
  | .command text => text.toList.head? ≠ some '-'

def portOf (items : List Item) : ℤ :=
  (items.filterMap fun | .port _ _ number => some number | .command _ => none).getLast?.getD reportmandBindPort

def commandsOf (items : List Item) : List String :=
  items.filterMap fun | .port _ _ _ => none | .command text => some text

/-- The arguments ask for these commands to be sent to this port. -/
def Requests (argv : List String) (port : ℤ) (commands : List String) : Prop :=
  ∃ items : List Item, (∀ i ∈ items, i.Accepted) ∧ argv = items.flatMap Item.words ∧ portOf items = port ∧
    commandsOf items = commands

def Item.apply (args : ClientArguments) : Item → ClientArguments
  | .port _ _ number => { args with daemonPort := number }
  | .command text => { args with commands := args.commands ++ [text] }

theorem foldl_apply (items : List Item) (args : ClientArguments) : items.foldl Item.apply args =
    ⟨(items.filterMap fun | .port _ _ number => some number | .command _ => none).getLast?.getD args.daemonPort,
      args.commands ++ commandsOf items⟩ := by
  induction items generalizing args with
  | nil => simp [commandsOf]
  | cons item items ih =>
    rw [List.foldl_cons, ih]
    cases item with
    | port flag value number => simp [Item.apply, commandsOf, List.getLast?_cons]
    | command text => simp [Item.apply, commandsOf]

theorem startsWith_dash (text : String) : startsWith text "-" = true ↔ text.toList.head? = some '-' := by
  have hlength : text.length = text.toList.length := (String.length_toList).symm
  unfold startsWith
  rw [hlength]
  cases text.toList with
  | nil => simp
  | cons c rest => simp [String.length]

theorem parseShortArg_eq_ok_iff {value : String} {number : ℤ} : parseShortArg value = .ok number ↔
    0 ≤ number ∧ number ≤ 65535 ∧
      ∃ (n : Numeral) (rest : List Char), value.toList = n.text ++ rest ∧ Stops rest ∧ n.value = number := by
  have h := @parse_eq_ok_iff .short value number
  constructor
  · intro hok
    obtain ⟨n, rest, htext, hstops, hvalue, hlow, hhigh⟩ := h.1 hok
    exact ⟨hlow, hhigh, n, rest, htext, hstops, hvalue⟩
  · rintro ⟨hlow, hhigh, n, rest, htext, hstops, hvalue⟩
    exact h.2 ⟨n, rest, htext, hstops, hvalue, hlow, hhigh⟩

theorem configureClientArgs_command {arg : String} (hflag : ¬ (arg = "-p" ∨ arg = "--port"))
    (hdash : startsWith arg "-" = false) (rest : List String) (args : ClientArguments) :
    configureClientArgs (arg :: rest) args =
      configureClientArgs rest { args with commands := args.commands ++ [arg] } := by
  cases rest with
  | nil => simp [configureClientArgs, hflag, hdash]
  | cons input rest => simp [configureClientArgs, hflag, hdash]

/-- Accepted items are read as they are meant, … -/
theorem configureClientArgs_words {items : List Item} (h : ∀ i ∈ items, i.Accepted) (args : ClientArguments) :
    configureClientArgs (items.flatMap Item.words) args = .ok (items.foldl Item.apply args) := by
  induction items generalizing args with
  | nil => rfl
  | cons item items ih =>
    have hrest := ih fun i hi => h i (List.mem_cons_of_mem _ hi)
    have hitem := h item List.mem_cons_self
    cases item with
    | port flag value number =>
      obtain ⟨hflag, hnumber⟩ := hitem
      have hparse : parseShortArg value = .ok number := parseShortArg_eq_ok_iff.2 hnumber
      simp only [List.flatMap_cons, Item.words, List.cons_append, List.nil_append, List.foldl_cons]
      rw [configureClientArgs, if_pos hflag, hparse]
      exact hrest _
    | command text =>
      have hdash : startsWith text "-" = false := by
        rw [Bool.eq_false_iff]
        intro hstart
        exact hitem ((startsWith_dash text).1 hstart)
      have hflag : ¬ (text = "-p" ∨ text = "--port") := by
        rintro (rfl | rfl)
        · exact absurd hdash (by decide)
        · exact absurd hdash (by decide)
      simp only [List.flatMap_cons, Item.words, List.cons_append, List.nil_append, List.foldl_cons]
      rw [configureClientArgs_command hflag hdash]
      exact hrest _

/-- … and nothing else is read. -/
theorem configureClientArgs_items {argv : List String} {args args' : ClientArguments}
    (h : configureClientArgs argv args = .ok args') :
    ∃ items : List Item, (∀ i ∈ items, i.Accepted) ∧ argv = items.flatMap Item.words := by
  fun_induction configureClientArgs argv args with
  | case1 args => exact ⟨[], nofun, rfl⟩
  | case2 => cases h
  | case3 arg args hflag input rest ih =>
    cases hparse : parseShortArg input with
    | error e => simp [hparse, Bind.bind, Except.bind] at h
    | ok port =>
      rw [hparse] at h
      obtain ⟨items, haccepted, rfl⟩ := ih port h
      refine ⟨.port arg input port :: items, ?_, rfl⟩
      intro i hi
      rcases List.mem_cons.1 hi with rfl | hi
      · exact ⟨hflag, parseShortArg_eq_ok_iff.1 hparse⟩
      · exact haccepted i hi
  | case4 => cases h
  | case5 arg rest args hflag hdash ih =>
    obtain ⟨items, haccepted, rfl⟩ := ih h
    refine ⟨.command arg :: items, ?_, rfl⟩
    intro i hi
    rcases List.mem_cons.1 hi with rfl | hi
    · exact fun hstart => hdash ((startsWith_dash _).2 hstart)
    · exact haccepted i hi

theorem configureClientArgs_ok_iff {argv : List String} {port : ℤ} {commands : List String} :
    configureClientArgs argv ⟨reportmandBindPort, []⟩ = .ok ⟨port, commands⟩ ↔ Requests argv port commands := by
  constructor
  · intro h
    obtain ⟨items, haccepted, rfl⟩ := configureClientArgs_items h
    rw [configureClientArgs_words haccepted, foldl_apply] at h
    simp only [Except.ok.injEq, ClientArguments.mk.injEq, List.nil_append] at h
    exact ⟨items, haccepted, rfl, h.1, h.2⟩
  · rintro ⟨items, haccepted, rfl, hport, hcommands⟩
    rw [configureClientArgs_words haccepted, foldl_apply]
    simp only [List.nil_append, hcommands]
    rw [← hport, portOf]

theorem parseShortArg_failure {value : String} {e : ArgExit} (h : parseShortArg value = .error e) :
    ∃ message, e = .failure message := by
  unfold parseShortArg parseLongArg at h
  cases hvalue : strtol value with
  | none =>
    rw [hvalue] at h
    exact ⟨_, (Except.error.inj h).symm⟩
  | some number =>
    rw [hvalue] at h
    dsimp only at h
    split_ifs at h
    exact ⟨_, (Except.error.inj h).symm⟩

/-- What cannot be read ends the program with a message. -/
theorem configureClientArgs_failure {argv : List String} {args : ClientArguments} {e : ArgExit}
    (h : configureClientArgs argv args = .error e) : ∃ message, e = .failure message := by
  fun_induction configureClientArgs argv args with
  | case1 => cases h
  | case2 => exact ⟨_, (Except.error.inj h).symm⟩
  | case3 arg args hflag input rest ih =>
    cases hparse : parseShortArg input with
    | error e' =>
      obtain ⟨message, rfl⟩ := parseShortArg_failure hparse
      simp only [hparse, Bind.bind, Except.bind, Except.error.injEq] at h
      exact ⟨message, h.symm⟩
    | ok port =>
      rw [hparse] at h
      exact ih port h
  | case4 => exact ⟨_, (Except.error.inj h).symm⟩
  | case5 arg rest args hflag hdash ih => exact ih h

end Requests

section Runs

def IsNetwork : Call → Bool
  | .socket => true
  | .gethostbyname _ => true
  | .connect _ => true
  | .write _ => true
  | .read => true
  | .close => true
  | _ => false

/-- The calls of the network, in their order. -/
def networkCalls (log : List (Answered Call Call.Res)) : List (Answered Call Call.Res) :=
  log.filter fun c => IsNetwork c.1

/-- The status that the program has ended with. -/
def statuses (log : List (Answered Call Call.Res)) : List ℤ :=
  log.filterMap fun | ⟨.exit status, _⟩ => some status | _ => none

/-- What is to be done, if nothing fails. -/
def exchanges (commands : List String) : List Call :=
  commands.flatMap fun command => [.write (bytes command), .read]

def plan (port : ℤ) (commands : List String) : List Call :=
  .socket :: .gethostbyname "localhost" :: .connect port :: (exchanges commands ++ [.close])

def Fails : Answered Call Call.Res → Prop
  | ⟨.socket, r⟩ => r = false
  | ⟨.gethostbyname _, r⟩ => r = false
  | ⟨.connect _, r⟩ => r = false
  | ⟨.write _, r⟩ => r = .failed
  | ⟨.read, r⟩ => r = none
  | _ => False

def Goes : Answered Call Call.Res → Prop
  | ⟨.socket, r⟩ => r = true
  | ⟨.gethostbyname _, r⟩ => r = true
  | ⟨.connect _, r⟩ => r = true
  | ⟨.write _, r⟩ => r = .written
  | ⟨.read, r⟩ => r ≠ none
  | _ => True

/-- The plan is followed up to the first call that fails, and the status is zero either way; only a broken
connection takes the program's life. -/
inductive Followed : List Call → List (Answered Call Call.Res) → List ℤ → Prop
  | done : Followed [] [] [0]
  | next {op : Call} {r : op.Res} {rest log status} (hgoes : Goes ⟨op, r⟩) (h : Followed rest log status) :
      Followed (op :: rest) (⟨op, r⟩ :: log) status
  | failed {op : Call} {r : op.Res} {rest} (hfails : Fails ⟨op, r⟩) : Followed (op :: rest) [⟨op, r⟩] [0]
  | killed {text : Bytes} {rest} : Followed (.write text :: rest) [⟨.write text, .broken⟩] []

variable {log : List (Answered Call Call.Res)} {o : Option Unit}

theorem networkCalls_cons (c : Answered Call Call.Res) (log : List (Answered Call Call.Res)) :
    networkCalls (c :: log) = if IsNetwork c.1 = true then c :: networkCalls log else networkCalls log := by
  simp [networkCalls, List.filter_cons]

@[simp] theorem networkCalls_nil : networkCalls [] = [] := rfl
@[simp] theorem statuses_nil : statuses [] = [] := rfl

theorem statuses_network {c : Answered Call Call.Res} (h : IsNetwork c.1 = true)
    (log : List (Answered Call Call.Res)) : statuses (c :: log) = statuses log := by
  obtain ⟨op, r⟩ := c
  cases op <;> first | rfl | cases h

/-- A message on the terminal is no part of the plan. -/
theorem ran_stdout {text : Bytes} {next : Unit → Prog Unit} (h : Program.Ran (.call (.stdout text) next) log o) :
    ∃ rest, Program.Ran (next ()) rest o ∧ networkCalls log = networkCalls rest ∧ statuses log = statuses rest := by
  obtain ⟨r, rest, rfl, hrest⟩ := Program.ran_call.1 h
  exact ⟨rest, hrest, rfl, rfl⟩

theorem ran_stderr {text : Bytes} {next : Unit → Prog Unit} (h : Program.Ran (.call (.stderr text) next) log o) :
    ∃ rest, Program.Ran (next ()) rest o ∧ networkCalls log = networkCalls rest ∧ statuses log = statuses rest := by
  obtain ⟨r, rest, rfl, hrest⟩ := Program.ran_call.1 h
  exact ⟨rest, hrest, rfl, rfl⟩

theorem ran_exit {status : ℤ} (h : Program.Ran (exit status : Prog Unit) log o) :
    networkCalls log = [] ∧ statuses log = [status] := by
  obtain ⟨r, rest, rfl, hrest⟩ := Program.ran_call.1 h
  obtain ⟨rfl, rfl⟩ := Program.ran_halt.1 hrest
  exact ⟨rfl, rfl⟩

theorem ran_error {msg : Bytes} (h : Program.Ran (error msg : Prog Unit) log o) :
    networkCalls log = [] ∧ statuses log = [0] := by
  obtain ⟨rest, hrest, hnetwork, hstatuses⟩ := ran_stdout h
  obtain ⟨r, rest', rfl, hexit⟩ := Program.ran_call.1 hrest
  have hend : networkCalls rest' = [] ∧ statuses rest' = [0] := ran_exit hexit
  rw [hnetwork, hstatuses]
  exact hend

/-- A call of the plan, and the rest of the program. -/
theorem ran_network {op : Call} {next : op.Res → Prog Unit} (hop : IsNetwork op = true)
    (h : Program.Ran (.call op next) log o) : ∃ r rest, Program.Ran (next r) rest o ∧
      networkCalls log = ⟨op, r⟩ :: networkCalls rest ∧ statuses log = statuses rest := by
  obtain ⟨r, rest, rfl, hrest⟩ := Program.ran_call.1 h
  exact ⟨r, rest, hrest, by rw [networkCalls_cons, if_pos hop], statuses_network hop rest⟩

theorem followed_error {op : Call} {r : op.Res} {msg : Bytes} (hfails : Fails ⟨op, r⟩)
    (h : Program.Ran (error msg : Prog Unit) log o) (rest : List Call) :
    Followed (op :: rest) (⟨op, r⟩ :: networkCalls log) (statuses log) := by
  obtain ⟨hnetwork, hstatuses⟩ := ran_error h
  rw [hnetwork, hstatuses]
  exact .failed hfails

theorem converse_nil : converse [] = .call .close fun _ => exit 0 := rfl

theorem converse_cons (command : String) (commands : List String) : converse (command :: commands) =
    .call (.stdout (bytes "Sending command: " ++ bytes command ++ bytes "\n")) fun _ =>
      .call (.write (bytes command)) fun sent => match sent with
        | .written => .call .read fun got => match got with
          | none => error (bytes "ERROR reading from socket")
          | some buffer => .call (.stdout (buffer.takeWhile (· ≠ 0) ++ bytes "\n")) fun _ => converse commands
        | .failed => error (bytes "ERROR writing to socket")
        | .broken => .halt := by
  unfold converse
  rw [List.map_cons, clientMain_cons]
  refine congrArg (Program.call (Call.stdout _)) (funext fun _ => ?_)
  refine congrArg (Program.call (Call.write _)) (funext fun sent => ?_)
  cases sent with
  | written =>
    refine congrArg (Program.call Call.read) (funext fun got => ?_)
    cases got with
    | none => rfl
    | some buffer => rfl
  | failed => rfl
  | broken => rfl

theorem converse_followed {commands : List String} (h : Program.Ran (converse commands) log o) :
    Followed (exchanges commands ++ [.close]) (networkCalls log) (statuses log) := by
  induction commands generalizing log with
  | nil =>
    rw [converse_nil] at h
    obtain ⟨r, rest, hrest, hnetwork, hstatuses⟩ := ran_network rfl h
    obtain ⟨hnone, hzero⟩ := ran_exit hrest
    rw [hnetwork, hstatuses, hnone, hzero]
    exact .next trivial .done
  | cons command commands ih =>
    rw [converse_cons] at h
    obtain ⟨rest, hrest, hnetwork, hstatuses⟩ := ran_stdout h
    obtain ⟨sent, rest₁, hrest₁, hnetwork₁, hstatuses₁⟩ := ran_network rfl hrest
    rw [hnetwork, hstatuses, hnetwork₁, hstatuses₁]
    cases sent with
    | failed => exact followed_error (by rfl) hrest₁ _
    | broken =>
      obtain ⟨rfl, -⟩ := Program.ran_halt.1 hrest₁
      exact .killed
    | written =>
      refine .next rfl ?_
      obtain ⟨got, rest₂, hrest₂, hnetwork₂, hstatuses₂⟩ := ran_network rfl hrest₁
      rw [hnetwork₂, hstatuses₂]
      cases got with
      | none => exact followed_error (by rfl) hrest₂ _
      | some buffer =>
        refine .next nofun ?_
        obtain ⟨rest₃, hrest₃, hnetwork₃, hstatuses₃⟩ := ran_stdout hrest₂
        rw [hnetwork₃, hstatuses₃]
        exact ih hrest₃

theorem connected_followed {args : ClientArguments} (h : Program.Ran (connected args) log o) :
    Followed (plan args.daemonPort args.commands) (networkCalls log) (statuses log) := by
  obtain ⟨opened, rest, hrest, hnetwork, hstatuses⟩ := ran_network rfl h
  rw [hnetwork, hstatuses]
  cases opened with
  | false => exact followed_error (by rfl) hrest _
  | true =>
    refine .next rfl ?_
    obtain ⟨found, rest₁, hrest₁, hnetwork₁, hstatuses₁⟩ := ran_network rfl hrest
    rw [hnetwork₁, hstatuses₁]
    cases found with
    | false =>
      obtain ⟨rest₂, hrest₂, hnetwork₂, hstatuses₂⟩ := ran_stderr hrest₁
      obtain ⟨hnone, hzero⟩ := ran_exit hrest₂
      rw [hnetwork₂, hstatuses₂, hnone, hzero]
      exact .failed rfl
    | true =>
      refine .next rfl ?_
      obtain ⟨joined, rest₂, hrest₂, hnetwork₂, hstatuses₂⟩ := ran_network rfl hrest₁
      rw [hnetwork₂, hstatuses₂]
      cases joined with
      | false => exact followed_error (by rfl) hrest₂ _
      | true => exact .next rfl (converse_followed hrest₂)

/-- Arguments that ask for something to be sent have it sent, and to no other arguments is there any more than a
message and the status one. -/
theorem client_followed {argv : List String} (h : Program.Ran (client argv) log o) :
    (∀ port commands, Requests argv port commands → commands ≠ [] →
      Followed (plan port commands) (networkCalls log) (statuses log)) ∧
    ((¬ ∃ port commands, Requests argv port commands ∧ commands ≠ []) →
      networkCalls log = [] ∧ statuses log = [1]) := by
  unfold client at h
  cases hargs : configureClientArgs argv ⟨reportmandBindPort, []⟩ with
  | error e =>
    rw [hargs] at h
    have hnot : ∀ port commands, ¬ Requests argv port commands := by
      intro port commands hrequests
      rw [configureClientArgs_ok_iff.2 hrequests] at hargs
      cases hargs
    refine ⟨fun port commands hrequests => absurd hrequests (hnot port commands), fun _ => ?_⟩
    obtain ⟨message, rfl⟩ := configureClientArgs_failure hargs
    obtain ⟨rest, hrest, hnetwork, hstatuses⟩ := ran_stdout h
    rw [hnetwork, hstatuses]
    exact ran_exit hrest
  | ok args =>
    obtain ⟨port, commands⟩ := args
    rw [hargs] at h
    have hrequests := configureClientArgs_ok_iff.1 hargs
    have hunique : ∀ port' commands', Requests argv port' commands' → port' = port ∧ commands' = commands := by
      intro port' commands' hrequests'
      have hok := configureClientArgs_ok_iff.2 hrequests'
      rw [hargs] at hok
      simpa [eq_comm] using hok
    dsimp only at h
    split_ifs at h with hnone
    · have hnil : commands = [] := by
        apply List.length_eq_zero_iff.1
        omega
      refine ⟨?_, fun _ => ?_⟩
      · intro port' commands' hrequests' hsome
        exact absurd ((hunique port' commands' hrequests').2.trans hnil) hsome
      · obtain ⟨rest, hrest, hnetwork, hstatuses⟩ := ran_stderr h
        rw [hnetwork, hstatuses]
        exact ran_exit hrest
    · refine ⟨?_, fun hno => ?_⟩
      · intro port' commands' hrequests' _
        obtain ⟨rfl, rfl⟩ := hunique port' commands' hrequests'
        exact connected_followed h
      · refine absurd ⟨port, commands, hrequests, ?_⟩ hno
        rintro rfl
        exact hnone Nat.zero_lt_one

/-- An environment in which nothing fails but to send `command`. -/
def answers (command : Bytes) : (op : Call) → op.Res
  | .stdout _ => ()
  | .stderr _ => ()
  | .perror => ()
  | .socket => true
  | .gethostbyname _ => true
  | .connect _ => true
  | .write text => if text = command then .failed else .written
  | .read => some (bytes "ok")
  | .close => ()
  | .exit _ => ()

/-- The port is given twice, and the second command is lost. -/
theorem client_followed_lost : ∃ log, Program.Ran (client ["-p", "80", "backup", "--port", "7771", "close"]) log none ∧
    networkCalls log = [⟨.socket, true⟩, ⟨.gethostbyname "localhost", true⟩, ⟨.connect 7771, true⟩,
      ⟨.write (bytes "backup"), .written⟩, ⟨.read, some (bytes "ok")⟩, ⟨.write (bytes "close"), .failed⟩] ∧
    Followed (plan 7771 ["backup", "close"]) (networkCalls log) (statuses log) := by
  have hargs : configureClientArgs ["-p", "80", "backup", "--port", "7771", "close"] ⟨reportmandBindPort, []⟩ =
      .ok ⟨7771, ["backup", "close"]⟩ := rfl
  have hconnected : client ["-p", "80", "backup", "--port", "7771", "close"] =
      connected ⟨7771, ["backup", "close"]⟩ := by
    unfold client
    rw [hargs]
    rfl
  have hran := @Program.ran_trace Call Call.Res Unit Unit Unit (fun _ op s => (answers (bytes "close") op, s))
    (fun _ => ()) (connected ⟨7771, ["backup", "close"]⟩) 0 ()
  rw [← hconnected] at hran
  refine ⟨_, hran, rfl, ?_⟩
  exact (client_followed hran).1 7771 ["backup", "close"] (configureClientArgs_ok_iff.1 hargs) nofun

end Runs

end Reportman.Client
