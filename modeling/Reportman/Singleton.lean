import Mathlib
import Reportman.Arguments

/-!
# Being the only daemon

`reportmand` binds a port to be the only one. If it cannot, it asks `lsof` who has the port, and one number
carries the answer: zero for having the port, a process id, or a code of failure.
-/
namespace Reportman.Singleton
open Resumable Arguments
open FmLoop (Exit sigterm)

section Lsof

/-- What a conversion of `sscanf` gives; `%*s` gives nothing. -/
inductive Scanned
  | string (text : List Char)
  | int (value : ℤ)
  deriving DecidableEq, Repr

inductive Directive
  | string
  | suppressed
  | int

/-- A `long` cut down to an `int`. -/
def toInt (value : ℤ) : ℤ := Int.bmod (max longMin (min longMax value)) (2 ^ 32)

def Directive.scan (text : List Char) : Directive → Option (Option Scanned × List Char)
  | .string =>
      let word := text.takeWhile fun c => ¬ isSpace c
      if word = [] then none else some (some (.string word), text.dropWhile fun c => ¬ isSpace c)
  | .suppressed =>
      let word := text.takeWhile fun c => ¬ isSpace c
      if word = [] then none else some (none, text.dropWhile fun c => ¬ isSpace c)
  | .int =>
      let (negative, text) := signed text
      let digits := text.takeWhile Char.isDigit
      let value : ℤ := Nat.ofDigitChars 10 digits 0
      if digits = [] then none
      else some (some (.int (toInt (if negative then -value else value))), text.dropWhile Char.isDigit)

/-- Every conversion of the format skips the white space before it; the first that fails is the last. -/
def sscanf : List Directive → List Char → List Scanned
  | [], _ => []
  | directive :: format, text =>
      match directive.scan (text.dropWhile isSpace) with
      | none => []
      | some (value, rest) => value.toList ++ sscanf format rest

structure RunningPid where
  pid : ℤ
  command : List Char

/-- `%s %d %*s %d%s %s %s %s %s %s %s`. -/
def lsofFormat : List Directive :=
  [.string, .int, .suppressed, .int, .string, .string, .string, .string, .string, .string, .string]

def parseLsofLine (line : List Char) : Option RunningPid :=
  match sscanf lsofFormat line with
  | .string command :: .int pid :: values => if values.length + 2 ≥ 9 then some ⟨pid, command⟩ else none
  | _ => none

/-- `strtok_r` over the line breaks. -/
def outputLines (output : List Char) : List (List Char) := (output.splitOn '\n').filter (· ≠ [])

/-- What is put into the array. -/
def readableLines (output : List Char) : List RunningPid := (outputLines output).filterMap parseLsofLine

end Lsof

section Source

inductive SingletonSys
  | socket
  | bind (fd : ℤ) (port : ℕ)
  | listen (fd : ℤ)
  | popen (port : ℕ)
  | savePipeBuffer
  | pclose
  | reallocUninitialized
  | uninitialized
  | kill (pid : ℤ) (signo : ℕ)
  | sleep (secs : ℕ)
  | close (fd : ℤ)
  | exit (code : Exit)

/-- What is read without having been written is a number, unless the process ends in reading it. `realloc` may be
given a pointer that has not been written: it is no block, as it should be, or the process ends there. -/
abbrev SingletonSys.Res : SingletonSys → Type
  | .socket => Option ℤ
  | .bind _ _ => Bool
  | .listen _ => Bool
  | .popen _ => Bool
  | .savePipeBuffer => List Char
  | .pclose => ℤ
  | .reallocUninitialized => Bool
  | .uninitialized => Option ℤ
  | .kill _ _ => Bool
  | .sleep _ => Unit
  | .close _ => Unit
  | .exit _ => Unit

abbrev SingletonProg := Program SingletonSys SingletonSys.Res

def ask (op : SingletonSys) : SingletonProg op.Res := Program.perform op

def quit {α : Type} (code : Exit) : SingletonProg α := .call (.exit code) fun _ => .halt

def isSingleton : ℤ := 0
def bindFailed : ℤ := -1
def commandSuccessful : ℤ := 0
def commandNotFound : ℤ := 127

/-- The array grows out of the pointer `running_pids`, to which nothing has been assigned. -/
def parseLsofOutput (output : List Char) : SingletonProg (List RunningPid) := do
  if outputLines output = [] then return []
  else if ¬ (← ask .reallocUninitialized) then .halt
  else return readableLines output

/-- `pclose` gives the status as `wait` does, so that no exit code but zero is recognised. -/
def getOtherPid (port : ℕ) : SingletonProg ℤ := do
  if ¬ (← ask (.popen port)) then return 0
  else do
    let output ← ask .savePipeBuffer
    let status ← ask .pclose
    if status = commandSuccessful then
      match ← parseLsofOutput output with
      | first :: _ => return first.pid
      | [] =>
          match ← ask .uninitialized with
          | none => .halt
          | some pid => return pid
    else if status = commandNotFound then return -2
    else return -1

/-- The result, and `d_socket`. -/
def dAcquireSingleton (port : ℕ) : SingletonProg (ℤ × ℤ) := do
  match ← ask .socket with
  | none => return (-1, -1)
  | some fd =>
      if ¬ (← ask (.bind fd port)) then do
        let result ← getOtherPid port
        return (result, fd)
      else if ¬ (← ask (.listen fd)) then do
        ask (.close fd)
        quit .failure
      else return (isSingleton, fd)

/-- A signal that cannot be sent ends the process, with the error as its code. -/
def killPid (pid : ℤ) : SingletonProg Unit := do
  if ¬ (← ask (.kill pid sigterm)) then quit .failure else return ()

def forceSingleton (result : ℤ) (port : ℕ) : SingletonProg ℤ := do
  killPid result
  ask (.sleep 1)
  let (result, fd) ← dAcquireSingleton port
  if result ≠ isSingleton then quit .failure else return fd

/-- What is returned is `d_socket`. -/
def acquireSingleton (close force : Bool) (port : ℕ) : SingletonProg ℤ := do
  let (result, fd) ← dAcquireSingleton port
  if close then
    if result = isSingleton then quit .success
    else if result > 0 then do
      killPid result
      quit .success
    else quit .success
  else if result = isSingleton then return fd
  else if result = bindFailed then quit .failure
  else if ¬ force then quit .failure
  else forceSingleton result port

end Source

section Runs

/-- The sockets that the process has asked for, the last that it has bound, and the last that it has been
listening on. -/
structure Sockets where
  asked : ℕ
  bound : Option (ℤ × ℕ)
  listening : Option ℤ
  deriving DecidableEq

def note : (op : SingletonSys) → op.Res → Sockets → Sockets
  | .socket, _, w => { w with asked := w.asked + 1 }
  | .bind fd port, true, w => { w with bound := some (fd, port) }
  | .listen fd, true, w => { w with listening := some fd }
  | _, _, w => w

/-- What each call returns, by the number of sockets that have been asked for before it. -/
abbrev Answers := ℕ → (op : SingletonSys) → op.Res

def answered (answers : Answers) (_ : Unit) (op : SingletonSys) (w : Sockets) : op.Res × Sockets :=
  (answers w.asked op, note op (answers w.asked op) w)

def never : Sockets := ⟨0, none, none⟩

/-- `d_socket` is bound to the port and listening. -/
def Listens (port : ℕ) (fd : ℤ) (w : Sockets) : Prop := w.bound = some (fd, port) ∧ w.listening = some fd

abbrev SingletonHistory := List (Event SingletonSys SingletonSys.Res Sockets)

def signalled (calls : SingletonHistory) : List ℤ :=
  calls.filterMap fun e => match e.op with
    | .kill pid _ => some pid
    | _ => none

section Lsof

variable (env : (op : SingletonSys) → op.Res) (port : ℕ)

/-- The array is made if there are lines for it. -/
def Allocates : Prop := outputLines (env .savePipeBuffer) ≠ [] → env .reallocUninitialized = true

instance : Decidable (Allocates env) := by
  unfold Allocates
  infer_instance

/-- The run of `lsof` gives the daemon this number: that of the first line which can be read, whatever stands
where it would if there is none, or a code for the status. -/
def Reported (result : ℤ) : Prop :=
  env (.popen port) = true ∧
    (env .pclose = commandSuccessful ∧ Allocates env ∧
        ((readableLines (env .savePipeBuffer)).head?.map RunningPid.pid = some result ∨
          readableLines (env .savePipeBuffer) = [] ∧ env .uninitialized = some result) ∨
      env .pclose = commandNotFound ∧ result = -2 ∨
      env .pclose ≠ commandSuccessful ∧ env .pclose ≠ commandNotFound ∧ result = -1)

/-- What `__get_other_pid` makes of the answers, if it returns. -/
def otherPid : Option ℤ :=
  if env (.popen port) = false then some 0
  else if env .pclose = commandSuccessful then
    if Allocates env then
      (readableLines (env .savePipeBuffer)).head?.elim (env .uninitialized) fun first => some first.pid
    else none
  else if env .pclose = commandNotFound then some (-2)
  else some (-1)

theorem otherPid_eq_some (result : ℤ) :
    otherPid env port = some result ↔ env (.popen port) = false ∧ result = 0 ∨ Reported env port result := by
  unfold otherPid Reported
  cases hopen : env (.popen port) with
  | false => simp [eq_comm (b := result)]
  | true =>
    have hcodes : commandNotFound ≠ commandSuccessful := by decide
    by_cases hsuccess : env .pclose = commandSuccessful
    · by_cases hallocates : Allocates env
      · cases hpids : readableLines (env .savePipeBuffer) <;> simp [hsuccess, hcodes.symm, hallocates]
      · simp [hsuccess, hcodes.symm, hallocates]
    · by_cases hmissing : env .pclose = commandNotFound
      · simp [hmissing, hcodes, eq_comm (b := result)]
      · simp [hsuccess, hmissing, eq_comm (b := result)]

end Lsof

variable (answers : Answers) (port : ℕ)

/-- The port cannot be bound, and this is the answer to who has it. -/
def TakenAs (n : ℕ) (pid : ℤ) : Prop :=
  ∃ fd, answers n .socket = some fd ∧ answers (n + 1) (.bind fd port) = false ∧
    Reported (answers (n + 1)) port pid

/-- The port cannot be bound, and `lsof` cannot be run or the answer is zero. -/
def LooksFree (n : ℕ) : Prop :=
  ∃ fd, answers n .socket = some fd ∧ answers (n + 1) (.bind fd port) = false ∧
    (answers (n + 1) (.popen port) = false ∨ Reported (answers (n + 1)) port 0)

/-- What `d_acquire_singleton` makes of the answers: its result, the socket, and whether it is listening. -/
def attempt (n : ℕ) : Option (ℤ × ℤ × Bool) :=
  match answers n .socket with
  | none => some (-1, -1, false)
  | some fd =>
      if answers (n + 1) (.bind fd port) = true then
        if answers (n + 1) (.listen fd) = true then some (isSingleton, fd, true) else none
      else (otherPid (answers (n + 1)) port).map fun result => (result, fd, false)

variable {answers port}

theorem attempt_taken {n : ℕ} {result : ℤ} (hzero : result ≠ 0) (hfailed : result ≠ -1) :
    (∃ fd listening, attempt answers port n = some (result, fd, listening)) ↔ TakenAs answers port n result := by
  unfold attempt TakenAs
  cases answers n .socket with
  | none => simp [Ne.symm hfailed]
  | some fd =>
    cases hbind : answers (n + 1) (.bind fd port) with
    | true =>
      cases answers (n + 1) (.listen fd) <;> simp [hbind, isSingleton, Ne.symm hzero]
    | false => simp [hbind, otherPid_eq_some, hzero]

theorem attempt_free {n : ℕ} :
    (∃ fd, attempt answers port n = some (isSingleton, fd, false)) ↔ LooksFree answers port n := by
  unfold attempt LooksFree isSingleton
  cases answers n .socket with
  | none => simp
  | some fd =>
    cases hbind : answers (n + 1) (.bind fd port) with
    | true => cases answers (n + 1) (.listen fd) <;> simp [hbind]
    | false => simp [hbind, otherPid_eq_some]

variable {α : Type} {w : Sockets} {t : ℕ}

abbrev outcome (answers : Answers) (p : SingletonProg α) (t : ℕ) (w : Sockets) : Outcome α Sockets :=
  run (answered answers) (fun _ => ()) p t w

abbrev history (answers : Answers) (p : SingletonProg α) (t : ℕ) (w : Sockets) : SingletonHistory :=
  trace (answered answers) (fun _ => ()) p t w

/-- The first program comes to the second without a signal. -/
def Arrives (answers : Answers) (p : SingletonProg α) (t : ℕ) (w : Sockets) (q : SingletonProg α) (t' : ℕ)
    (w' : Sockets) : Prop :=
  outcome answers p t w = outcome answers q t' w' ∧
    signalled (history answers p t w) = signalled (history answers q t' w')

theorem Arrives.call {op : SingletonSys} {next : op.Res → SingletonProg α} {q : SingletonProg α} {t' : ℕ}
    {w' : Sockets} (hquiet : ∀ pid signo, op ≠ .kill pid signo)
    (h : Arrives answers (next (answers w.asked op)) (t + 1) (note op (answers w.asked op) w) q t' w') :
    Arrives answers (.call op next) t w q t' w' := by
  refine ⟨h.1, ?_⟩
  rw [← h.2]
  cases op
  case kill pid signo => exact absurd rfl (hquiet pid signo)
  all_goals rfl

/-- The number of the first line, of whatever has been put into the array. -/
def firstPid (pids : List RunningPid) (k : ℤ → SingletonProg α) : SingletonProg α :=
  pids.head?.elim (.call .uninitialized fun stale => stale.elim .halt k) fun first => k first.pid

theorem getOtherPid_bind (k : ℤ → SingletonProg α) : getOtherPid port >>= k =
    .call (.popen port) fun opened =>
      if opened = true then .call .savePipeBuffer fun output => .call .pclose fun status =>
        if status = commandSuccessful then
          if outputLines output = [] then firstPid [] k
          else .call .reallocUninitialized fun given =>
            if given = true then firstPid (readableLines output) k else .halt
        else if status = commandNotFound then k (-2)
        else k (-1)
      else k 0 := by
  have hfirst : ∀ pids : List RunningPid, (match pids with
      | first :: _ => (.ret first.pid : SingletonProg ℤ)
      | [] => .call .uninitialized fun stale => match stale with
          | none => .halt
          | some pid => .ret pid) >>= k = firstPid pids k := by
    intro pids
    cases pids with
    | nil =>
      refine congrArg (Program.call SingletonSys.uninitialized) (funext fun stale => ?_)
      cases stale <;> rfl
    | cons first rest => rfl
  refine congrArg (Program.call (SingletonSys.popen port)) (funext fun opened => ?_)
  cases opened with
  | false => rfl
  | true =>
    refine congrArg (Program.call SingletonSys.savePipeBuffer) (funext fun output => ?_)
    refine congrArg (Program.call SingletonSys.pclose) (funext fun status => ?_)
    dsimp only [Program.bind, parseLsofOutput]
    split_ifs
    · exact hfirst []
    · refine congrArg (Program.call SingletonSys.reallocUninitialized) (funext fun given => ?_)
      cases given with
      | false => rfl
      | true => exact hfirst (readableLines output)
    · rfl
    · rfl

variable (answers t w) in
theorem firstPid_arrives (pids : List RunningPid) (k : ℤ → SingletonProg α) : ∃ t',
    Arrives answers (firstPid pids k) t w
    ((pids.head?.elim (answers w.asked .uninitialized) fun first => some first.pid).elim .halt k) t' w := by
  cases pids with
  | nil => exact ⟨t + 1, Arrives.call nofun ⟨rfl, rfl⟩⟩
  | cons first rest => exact ⟨t, rfl, rfl⟩

variable (answers port t w) in
theorem getOtherPid_arrives (k : ℤ → SingletonProg α) : ∃ t', Arrives answers (getOtherPid port >>= k) t w
    ((otherPid (answers w.asked) port).elim .halt k) t' w := by
  rw [getOtherPid_bind]
  unfold otherPid
  cases hopen : answers w.asked (.popen port) with
  | false =>
    refine ⟨t + 1, Arrives.call nofun ?_⟩
    rw [hopen]
    exact ⟨rfl, rfl⟩
  | true =>
    -- the calls of the run of `lsof`
    have hread : ∀ {rest : List Char → ℤ → SingletonProg α} {q t'},
        Arrives answers (rest (answers w.asked .savePipeBuffer) (answers w.asked .pclose)) (t + 3) w q t' w →
        Arrives answers (.call (.popen port) fun opened => if opened = true then
          .call .savePipeBuffer fun output => .call .pclose fun status => rest output status else k 0) t w q t' w := by
      intro rest q t' h
      refine Arrives.call nofun ?_
      rw [hopen]
      exact Arrives.call nofun (Arrives.call nofun h)
    simp only [Bool.true_eq_false, if_false]
    by_cases hsuccess : answers w.asked .pclose = commandSuccessful
    · rw [if_pos hsuccess]
      by_cases hlines : outputLines (answers w.asked .savePipeBuffer) = []
      · have hallocates : Allocates (answers w.asked) := fun h => absurd hlines h
        have hnone : readableLines (answers w.asked .savePipeBuffer) = [] := by rw [readableLines, hlines]; rfl
        obtain ⟨t', h⟩ := firstPid_arrives answers w (t + 3) [] k
        rw [if_pos hallocates, hnone]
        refine ⟨t', hread ?_⟩
        rw [if_pos hsuccess, if_pos hlines]
        exact h
      · cases hgiven : answers w.asked .reallocUninitialized with
        | false =>
          have hallocates : ¬ Allocates (answers w.asked) := fun h => by simp [h hlines] at hgiven
          rw [if_neg hallocates]
          refine ⟨t + 4, hread ?_⟩
          rw [if_pos hsuccess, if_neg hlines]
          refine Arrives.call nofun ?_
          rw [hgiven]
          exact ⟨rfl, rfl⟩
        | true =>
          have hallocates : Allocates (answers w.asked) := fun _ => hgiven
          obtain ⟨t', h⟩ := firstPid_arrives answers w (t + 4) (readableLines (answers w.asked .savePipeBuffer)) k
          rw [if_pos hallocates]
          refine ⟨t', hread ?_⟩
          rw [if_pos hsuccess, if_neg hlines]
          refine Arrives.call nofun ?_
          rw [hgiven]
          exact h
    · rw [if_neg hsuccess]
      refine ⟨t + 3, hread ?_⟩
      rw [if_neg hsuccess]
      split_ifs <;> exact ⟨rfl, rfl⟩

/-- What an attempt leaves behind. -/
structure Left (answers : Answers) (port n : ℕ) (w w' : Sockets) : Prop where
  asked : w'.asked = w.asked + 1
  listening : ∀ result fd, attempt answers port n = some (result, fd, true) → Listens port fd w'
  untouched : ∀ result fd, attempt answers port n = some (result, fd, false) →
    w'.bound = w.bound ∧ w'.listening = w.listening

theorem dAcquireSingleton_bind (k : ℤ × ℤ → SingletonProg α) : dAcquireSingleton port >>= k =
    .call .socket fun socket => socket.elim (k (-1, -1)) fun fd => .call (.bind fd port) fun bound =>
      if bound = true then .call (.listen fd) fun listening =>
        if listening = true then k (isSingleton, fd)
        else .call (.close fd) fun _ => quit .failure
      else getOtherPid port >>= fun result => k (result, fd) := by
  refine congrArg (Program.call SingletonSys.socket) (funext fun socket => ?_)
  cases socket with
  | none => rfl
  | some fd =>
    refine congrArg (Program.call (SingletonSys.bind fd port)) (funext fun bound => ?_)
    cases bound with
    | false => exact bind_assoc (getOtherPid port) _ k
    | true =>
      refine congrArg (Program.call (SingletonSys.listen fd)) (funext fun listening => ?_)
      cases listening <;> rfl

variable (answers port t w) in
theorem dAcquireSingleton_arrives (k : ℤ × ℤ → SingletonProg α) : ∃ t' w',
    Arrives answers (dAcquireSingleton port >>= k) t w
      ((attempt answers port w.asked).elim .halt fun a => k (a.1, a.2.1)) t' w' ∧
    Left answers port w.asked w w' := by
  rw [dAcquireSingleton_bind]
  cases hsocket : answers w.asked .socket with
  | none =>
    have hattempt : attempt answers port w.asked = some (-1, -1, false) := by simp [attempt, hsocket]
    refine ⟨t + 1, { w with asked := w.asked + 1 }, Arrives.call nofun ?_, rfl, ?_, fun _ _ _ => ⟨rfl, rfl⟩⟩
    · rw [hsocket, hattempt]
      exact ⟨rfl, rfl⟩
    · simp [hattempt]
  | some fd =>
    have hstart : ∀ q t' w', Arrives answers (.call (.bind fd port) fun bound =>
        if bound = true then .call (.listen fd) fun listening =>
          if listening = true then k (isSingleton, fd)
          else .call (.close fd) fun _ => quit .failure
        else getOtherPid port >>= fun result => k (result, fd)) (t + 1) { w with asked := w.asked + 1 } q t' w' →
        Arrives answers (.call .socket fun socket => socket.elim (k (-1, -1)) fun fd =>
          .call (.bind fd port) fun bound =>
            if bound = true then .call (.listen fd) fun listening =>
              if listening = true then k (isSingleton, fd)
              else .call (.close fd) fun _ => quit .failure
            else getOtherPid port >>= fun result => k (result, fd)) t w q t' w' := by
      intro q t' w' h
      refine Arrives.call nofun ?_
      rw [hsocket]
      exact h
    cases hbind : answers (w.asked + 1) (.bind fd port) with
    | false =>
      obtain ⟨t', h⟩ := getOtherPid_arrives answers port { w with asked := w.asked + 1 } (t + 2)
        fun result => k (result, fd)
      have hattempt : attempt answers port w.asked =
          (otherPid (answers (w.asked + 1)) port).map fun result => (result, fd, false) := by
        simp [attempt, hsocket, hbind]
      refine ⟨t', { w with asked := w.asked + 1 }, hstart _ _ _ (Arrives.call nofun ?_), rfl, ?_,
        fun _ _ _ => ⟨rfl, rfl⟩⟩
      · rw [hbind, hattempt]
        cases hother : otherPid (answers (w.asked + 1)) port with
        | none =>
          rw [hother] at h
          exact h
        | some result =>
          rw [hother] at h
          exact h
      · simp [hattempt]
    | true =>
      cases hlisten : answers (w.asked + 1) (.listen fd) with
      | false =>
        have hattempt : attempt answers port w.asked = none := by simp [attempt, hsocket, hbind, hlisten]
        refine ⟨t + 5, ⟨w.asked + 1, some (fd, port), w.listening⟩, hstart _ _ _ (Arrives.call nofun ?_), rfl, ?_, ?_⟩
        · rw [hbind, hattempt]
          have hquit : Arrives answers (if answers (w.asked + 1) (.listen fd) = true then k (isSingleton, fd)
              else .call (.close fd) fun _ => quit .failure) (t + 3) ⟨w.asked + 1, some (fd, port), w.listening⟩
              .halt (t + 5) ⟨w.asked + 1, some (fd, port), w.listening⟩ := by
            rw [hlisten]
            exact Arrives.call nofun (Arrives.call nofun ⟨rfl, rfl⟩)
          refine Arrives.call nofun ?_
          simpa [note, hlisten] using hquit
        · simp [hattempt]
        · simp [hattempt]
      | true =>
        have hattempt : attempt answers port w.asked = some (isSingleton, fd, true) := by
          simp [attempt, hsocket, hbind, hlisten]
        refine ⟨t + 3, ⟨w.asked + 1, some (fd, port), some fd⟩, hstart _ _ _ (Arrives.call nofun ?_), rfl, ?_, ?_⟩
        · rw [hbind, hattempt]
          refine Arrives.call nofun ?_
          simp only [note, hlisten]
          exact ⟨rfl, rfl⟩
        · rw [hattempt]
          rintro _ _ ⟨⟩
          exact ⟨rfl, rfl⟩
        · simp [hattempt]

end Runs

section Acquire

variable {answers : Answers} {port : ℕ} {close force : Bool}

/-- What follows the first attempt. -/
def afterAttempt (close force : Bool) (port : ℕ) (result fd : ℤ) : SingletonProg ℤ :=
  if close then
    if result = isSingleton then quit .success
    else if result > 0 then killPid result >>= fun _ => quit .success
    else quit .success
  else if result = isSingleton then return fd
  else if result = bindFailed then quit .failure
  else if ¬ force then quit .failure
  else forceSingleton result port

theorem acquireSingleton_eq : acquireSingleton close force port =
    dAcquireSingleton port >>= fun a => afterAttempt close force port a.1 a.2 := rfl

theorem killPid_bind {α : Type} (pid : ℤ) (k : SingletonProg α) : (killPid pid >>= fun _ => k) =
    .call (.kill pid sigterm) fun sent => if sent = true then k else quit .failure := by
  refine congrArg (Program.call (SingletonSys.kill pid sigterm)) (funext fun sent => ?_)
  cases sent <;> rfl

theorem killPid_signalled {α : Type} (pid : ℤ) (k : SingletonProg α) (t : ℕ) (w : Sockets)
    (hk : ∀ t, signalled (history answers k t w) = []) :
    signalled (history answers (killPid pid >>= fun _ => k) t w) = [pid] := by
  rw [killPid_bind]
  have hrest : signalled (history answers (if answers w.asked (.kill pid sigterm) = true then k
      else quit .failure) (t + 1) w) = [] := by
    split_ifs
    · exact hk _
    · rfl
  exact congrArg (pid :: ·) hrest

theorem forceSingleton_eq (result : ℤ) : forceSingleton result port = killPid result >>= fun _ =>
    .call (.sleep 1) fun _ => dAcquireSingleton port >>= fun a =>
      if a.1 ≠ isSingleton then quit .failure else .ret a.2 := rfl

theorem forceSingleton_signalled (result : ℤ) (t : ℕ) (w : Sockets) :
    signalled (history answers (forceSingleton result port) t w) = [result] := by
  rw [forceSingleton_eq]
  refine killPid_signalled _ _ _ _ fun t => ?_
  obtain ⟨t', w', ⟨-, hsignals⟩, -⟩ := dAcquireSingleton_arrives answers port w (t + 1)
    fun a => if a.1 ≠ isSingleton then quit .failure else (.ret a.2 : SingletonProg ℤ)
  refine hsignals.trans ?_
  cases attempt answers port w.asked with
  | none => rfl
  | some a =>
    dsimp only [Option.elim]
    split_ifs <;> rfl

/-- The flags make the daemon send a signal to this number. -/
def Signals (close force : Bool) (pid : ℤ) : Prop :=
  if close then 0 < pid else force = true ∧ pid ≠ 0 ∧ pid ≠ -1

instance (close force : Bool) (pid : ℤ) : Decidable (Signals close force pid) := by
  unfold Signals
  infer_instance

theorem afterAttempt_signalled (result fd : ℤ) (t : ℕ) (w : Sockets) :
    signalled (history answers (afterAttempt close force port result fd) t w) =
      if Signals close force result then [result] else [] := by
  unfold afterAttempt isSingleton bindFailed Signals
  by_cases hclose : close = true
  · simp only [hclose, if_true]
    by_cases hzero : result = 0
    · simp [hzero, history, quit, trace, signalled]
    · rw [if_neg hzero]
      split_ifs with hpos
      · exact killPid_signalled _ _ _ _ fun _ => rfl
      · rfl
  · simp only [hclose, Bool.false_eq_true, if_false]
    by_cases hzero : result = 0
    · simp [hzero, history, trace, signalled]
    by_cases hfailed : result = -1
    · simp [hfailed, history, quit, trace, signalled]
    rw [if_neg hzero, if_neg hfailed]
    by_cases hforce : force = true
    · rw [if_neg (by simp [hforce]), if_pos ⟨hforce, hzero, hfailed⟩]
      exact forceSingleton_signalled _ _ _
    · rw [if_pos (by simpa using hforce), if_neg (fun h => hforce h.1)]
      rfl

theorem mem_signalled_iff (pid : ℤ) : pid ∈ signalled (history answers (acquireSingleton close force port) 0 never) ↔
    TakenAs answers port 0 pid ∧ Signals close force pid := by
  obtain ⟨t, w, ⟨-, hsignals⟩, -⟩ := dAcquireSingleton_arrives answers port never 0
    fun a => afterAttempt close force port a.1 a.2
  rw [acquireSingleton_eq, hsignals]
  have hcodes : Signals close force pid → pid ≠ 0 ∧ pid ≠ -1 := by
    unfold Signals
    split_ifs
    · omega
    · exact And.right
  cases hattempt : attempt answers port never.asked with
  | none =>
    refine ⟨nofun, fun h => ?_⟩
    obtain ⟨hzero, hfailed⟩ := hcodes h.2
    obtain ⟨fd, listening, hsome⟩ := (attempt_taken hzero hfailed).2 h.1
    exact absurd (hattempt.symm.trans hsome) nofun
  | some a =>
    obtain ⟨result, fd, listening⟩ := a
    change pid ∈ signalled (history answers (afterAttempt close force port result fd) t w) ↔ _
    rw [afterAttempt_signalled]
    constructor
    · intro h
      split_ifs at h with hsent
      · obtain rfl := List.mem_singleton.1 h
        obtain ⟨hzero, hfailed⟩ := hcodes hsent
        exact ⟨(attempt_taken hzero hfailed).1 ⟨fd, listening, hattempt⟩, hsent⟩
      · cases h
    · rintro ⟨htaken, hsent⟩
      obtain ⟨hzero, hfailed⟩ := hcodes hsent
      obtain ⟨fd', listening', hsome⟩ := (attempt_taken hzero hfailed).2 htaken
      obtain ⟨rfl, -⟩ := Prod.mk.inj (Option.some.inj (hattempt.symm.trans hsome))
      rw [if_pos hsent]
      exact List.mem_singleton_self _

/-- The process stands on a line for a socket that is listening. -/
def Listed (output : List Char) (pid : ℤ) : Prop :=
  ∃ line ∈ outputLines output, "(LISTEN)".toList <:+ line ∧
    (parseLsofLine line).map RunningPid.pid = some pid

instance (output : List Char) (pid : ℤ) : Decidable (Listed output pid) := by
  unfold Listed
  infer_instance

/-- The process that has the port is made to end. -/
def Evicts (answers : Answers) (port : ℕ) : Prop :=
  ∃ pid, TakenAs answers port 0 pid ∧ pid ≠ 0 ∧ pid ≠ -1 ∧ answers 1 (.kill pid sigterm) = true

/-- What a success is worth: the descriptor listens if it was not `lsof` that said so. -/
theorem Left.listens_iff {n : ℕ} {w w' : Sockets} {fd : ℤ} {listening : Bool} (h : Left answers port n w w')
    (hnone : w.bound = none) (hattempt : attempt answers port n = some (isSingleton, fd, listening)) :
    Listens port fd w' ↔ listening = true := by
  cases listening with
  | true => exact iff_of_true (h.listening _ _ hattempt) rfl
  | false =>
    have hbound : w'.bound = none := (h.untouched _ _ hattempt).1.trans hnone
    simp [Listens, hbound]

/-- From a state in which nothing is bound. -/
theorem forceSingleton_listens (result : ℤ) (t : ℕ) {w : Sockets} (hnone : w.bound = none) :
    (∀ fd, (outcome answers (forceSingleton result port) t w).result = some fd →
      Listens port fd (outcome answers (forceSingleton result port) t w).state) ↔
    ¬ (answers w.asked (.kill result sigterm) = true ∧ LooksFree answers port w.asked) := by
  rw [forceSingleton_eq, killPid_bind]
  cases hkill : answers w.asked (.kill result sigterm) with
  | false =>
    have hend : (outcome answers (.call (.kill result sigterm) fun sent => if sent = true then
        (.call (.sleep 1) fun _ => dAcquireSingleton port >>= fun a =>
          if a.1 ≠ isSingleton then quit .failure else .ret a.2 : SingletonProg ℤ) else quit .failure) t w).result =
        none := by
      simp [outcome, run, answered, hkill, quit]
    rw [hend]
    simp
  | true =>
    obtain ⟨t', w', ⟨hrun, -⟩, hleft⟩ := dAcquireSingleton_arrives answers port w (t + 2)
      fun a => if a.1 ≠ isSingleton then quit .failure else (.ret a.2 : SingletonProg ℤ)
    have hstart : outcome answers (.call (.kill result sigterm) fun sent => if sent = true then
        (.call (.sleep 1) fun _ => dAcquireSingleton port >>= fun a =>
          if a.1 ≠ isSingleton then quit .failure else .ret a.2 : SingletonProg ℤ) else quit .failure) t w =
        outcome answers (dAcquireSingleton port >>= fun a =>
          if a.1 ≠ isSingleton then quit .failure else .ret a.2) (t + 2) w := by
      simp [outcome, run, answered, hkill, note]
    rw [hstart, hrun, ← attempt_free]
    cases hattempt : attempt answers port w.asked with
    | none => simp [outcome, run]
    | some a =>
      obtain ⟨r, fd, listening⟩ := a
      by_cases hr : r = isSingleton
      · subst hr
        simp [outcome, run, hleft.listens_iff hnone hattempt]
      · simp [outcome, run, answered, quit, hr]

theorem attempt_listening {n : ℕ} {result fd : ℤ} (h : attempt answers port n = some (result, fd, true)) :
    result = isSingleton := by
  unfold attempt at h
  cases hsocket : answers n .socket with
  | none => simp [hsocket] at h
  | some fd' =>
    cases hbind : answers (n + 1) (.bind fd' port) <;> cases hlisten : answers (n + 1) (.listen fd') <;>
      simp [hsocket, hbind, hlisten] at h
    exact h.1.symm

theorem evicts_iff {result fd : ℤ} {listening : Bool} (h : attempt answers port 0 = some (result, fd, listening)) :
    Evicts answers port ↔ result ≠ 0 ∧ result ≠ -1 ∧ answers 1 (.kill result sigterm) = true := by
  constructor
  · rintro ⟨pid, htaken, hzero, hfailed, hkill⟩
    obtain ⟨fd', listening', h'⟩ := (attempt_taken hzero hfailed).2 htaken
    obtain ⟨rfl, -⟩ := Prod.mk.inj (Option.some.inj (h.symm.trans h'))
    exact ⟨hzero, hfailed, hkill⟩
  · rintro ⟨hzero, hfailed, hkill⟩
    exact ⟨result, (attempt_taken hzero hfailed).1 ⟨fd, listening, h⟩, hzero, hfailed, hkill⟩

theorem not_evicts (h : attempt answers port 0 = none) : ¬ Evicts answers port := by
  rintro ⟨pid, htaken, hzero, hfailed, -⟩
  obtain ⟨fd, listening, h'⟩ := (attempt_taken hzero hfailed).2 htaken
  exact absurd (h.symm.trans h') nofun

theorem looksFree_iff {n : ℕ} {result fd : ℤ} {listening : Bool}
    (h : attempt answers port n = some (result, fd, listening)) :
    LooksFree answers port n ↔ result = isSingleton ∧ listening = false := by
  rw [← attempt_free, h]
  simp

/-- With the close flag the daemon never goes on. -/
theorem afterAttempt_close (result fd : ℤ) (t : ℕ) (w : Sockets) :
    (outcome answers (afterAttempt true force port result fd) t w).result = none := by
  unfold afterAttempt
  rw [if_pos rfl]
  split_ifs
  · rfl
  · rw [killPid_bind]
    cases hkill : answers w.asked (.kill result sigterm) <;> simp [outcome, run, answered, quit, hkill]
  · rfl

theorem afterAttempt_singleton (fd : ℤ) (t : ℕ) (w : Sockets) :
    outcome answers (afterAttempt false force port isSingleton fd) t w =
      outcome answers (.ret fd : SingletonProg ℤ) t w := rfl

/-- Another process has the port, and the daemon gives way unless it is told to force it. -/
theorem afterAttempt_taken {result : ℤ} (hzero : result ≠ isSingleton) (fd : ℤ) :
    afterAttempt false force port result fd =
      if force = true ∧ result ≠ bindFailed then forceSingleton result port else quit .failure := by
  unfold afterAttempt
  rw [if_neg Bool.false_ne_true, if_neg hzero]
  by_cases hfailed : result = bindFailed
  · simp [hfailed]
  · cases force <;> simp [hfailed]

/-- One daemon has the port, `lsof` prints the lines given, and the pointer that nothing is assigned to is `NULL`. -/
def occupied (popen : Bool) (output : String) : Answers := fun _ op => match op with
  | .socket => some 3
  | .bind _ _ => false
  | .listen _ => true
  | .popen _ => popen
  | .savePipeBuffer => output.toList
  | .pclose => 0
  | .reallocUninitialized => true
  | .uninitialized => none
  | .kill _ _ => true
  | .sleep _ => ()
  | .close _ => ()
  | .exit _ => ()

def clientFirst : String :=
  "COMMAND PID USER FD TYPE DEVICE SIZE/OFF NODE NAME\n" ++
  "reportmanc 900 root 3u IPv4 70 0t0 TCP localhost:40000->localhost:7770 (ESTABLISHED)\n" ++
  "reportmand 1234 root 4u IPv4 60 0t0 TCP localhost:7770 (LISTEN)\n"

end Acquire

end Reportman.Singleton
