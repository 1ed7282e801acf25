import Mathlib
import Reportman.Observed
import Reportman.Daemon

/-!
# When a client is timed out

`tv` is set once, when the connection has been accepted, and every `select` of the conversation takes from
it the time it has waited. Time passes in `select` only: the daemon's own work takes none.
-/
namespace Reportman.Inactivity
open Resumable Daemon FileSystem

/-- `select` is given what is left in the `timeval`, and leaves there what is left then. -/
inductive TimedSys
  | select (fd : ℤ) (tv : ℕ)
  | daemon (op : DaemonSys)

abbrev TimedSys.Res : TimedSys → Type
  | .select _ _ => Ipc.SelectResult × ℕ
  | .daemon op => op.Res

abbrev TimedProg := Program TimedSys TimedSys.Res

def timed {α : Type} (p : DaemonProg α) : TimedProg α :=
  p.interpret fun op => Program.perform (TimedSys.daemon op)

/-- In microseconds. -/
def tenSeconds : ℕ := 10000000

/-- `Daemon.session` with the `timeval`. -/
def session (fd : ℤ) (d : DaemonState) (tv : ℕ) : ℕ → TimedProg (Option DaemonState)
  | 0 => return none
  | exchanges + 1 => do
      let (selected, tv) ← Program.perform (TimedSys.select fd tv)
      if selected = .timeout then timed (farewell fd d selected)
      else
        match ← timed (Daemon.sys (.readClient fd)) with
        | none => session fd d tv exchanges
        | some [] => timed (farewell fd d selected)
        | some (b :: bs) => do
            let command := (b :: bs).takeWhile (· ≠ 0)
            let response ← timed (Daemon.sys (.execute command))
            timed (writeClient (noteClose d command) fd response)
            session fd (noteClose d command) tv exchanges

/-- From the acceptance of a client to the closing of its socket. -/
def serve (fd : ℤ) (d : DaemonState) (exchanges : ℕ) : TimedProg (Option DaemonState) := do
  match ← session fd d tenSeconds exchanges with
  | none => return none
  | some d => do
      timed (Daemon.sys (.close fd))
      return some d

section Untimed

variable (left : ℕ → ℕ)

/-- Without looking at the time. -/
def untimed : (op : TimedSys) → DaemonProg op.Res
  | .select fd tv => Daemon.sys (.selectClient fd) >>= fun selected => .ret (selected, left tv)
  | .daemon op => Daemon.sys op

theorem untimed_timed {α : Type} (p : DaemonProg α) : (timed p).interpret (untimed left) = p := by
  induction p with
  | ret a => rfl
  | halt => rfl
  | call op next ih => exact congrArg (Program.call op) (funext ih)

/-- It is the daemon's own conversation. -/
theorem untimed_session (fd : ℤ) (d : DaemonState) (tv exchanges : ℕ) :
    (session fd d tv exchanges).interpret (untimed left) = Daemon.session fd d exchanges := by
  induction exchanges generalizing d tv with
  | zero => rfl
  | succ exchanges ih =>
    refine congrArg (Program.call (DaemonSys.selectClient fd)) (funext fun selected => ?_)
    change Program.interpret (untimed left) (if selected = .timeout then timed (farewell fd d selected) else _) =
      if selected = .timeout then farewell fd d selected else _
    split_ifs with hout
    · exact untimed_timed left _
    refine congrArg (Program.call (DaemonSys.readClient fd)) (funext fun got => ?_)
    rcases got with _ | _ | ⟨b, bs⟩
    · exact ih d _
    · exact untimed_timed left _
    refine congrArg (Program.call (DaemonSys.execute _)) (funext fun response => ?_)
    change Program.interpret (untimed left) (timed (writeClient _ fd response) >>= _) =
      writeClient _ fd response >>= _
    rw [Program.interpret_bind, untimed_timed]
    exact congrArg (_ >>= ·) (funext fun _ => ih _ _)

end Untimed

inductive ClientEvent
  | data (first : UInt8) (rest : Bytes)
  | closed
  | error
  deriving DecidableEq, Repr

/-- What the daemon does to the client. -/
inductive Noted
  | wrote (text : Bytes)
  | closed
  deriving DecidableEq, Repr

/-- The time, what the client is still to do and after what time each, and what has been done to it. -/
structure Timeline where
  now : ℕ
  events : List (ℕ × ClientEvent)
  noted : List (ℕ × Noted)

/-- `respond` gives the reply to a command; what `c` gives is of no importance to a conversation. -/
def timedExec (respond : Bytes → Bytes) (c : Environment) :
    (op : TimedSys) → Timeline → op.Res × Timeline
  | .select _ tv, s =>
      match s.events with
      | [] => ((.timeout, 0), { s with now := s.now + tv })
      | (gap, e) :: events =>
          if gap ≤ tv then ((.ready, tv - gap), { s with now := s.now + gap, events := (0, e) :: events })
          else ((.timeout, 0), { s with now := s.now + tv, events := (gap - tv, e) :: events })
  | .daemon (.readClient _), s =>
      match s.events with
      | (_, .data first rest) :: events => (some (first :: rest), { s with events := events })
      | (_, .closed) :: _ => (some [], s)
      | (_, .error) :: events => (none, { s with events := events })
      | [] => (none, s)
  | .daemon (.execute command), s => (respond command, s)
  | .daemon (.writeClient _ text), s => (.written, { s with noted := s.noted ++ [(s.now, .wrote text)] })
  | .daemon (.close _), s => ((), { s with noted := s.noted ++ [(s.now, .closed)] })
  | .daemon op, s => (c op, s)

section Outcome

variable (respond : Bytes → Bytes)

/-- The reply to what has been read. -/
def reply (first : UInt8) (rest : Bytes) : Bytes := respond ((first :: rest).takeWhile (· ≠ 0))

/-- What is done at the end of the time. -/
def timedOut (deadline : ℕ) : List (ℕ × Noted) := [(deadline, .wrote timeoutMsg), (deadline, .closed)]

/-- What is wanted: the deadline is ten seconds after the last data, and a client that has
closed is sent nothing. -/
def expected : ℕ → ℕ → List (ℕ × ClientEvent) → List (ℕ × Noted)
  | deadline, _, [] => timedOut deadline
  | deadline, now, (gap, e) :: events =>
      if now + gap ≤ deadline then
        match e with
        | .data first rest =>
            (now + gap, .wrote (reply respond first rest)) ::
              expected (now + gap + tenSeconds) (now + gap) events
        | .closed => [(now + gap, .closed)]
        | .error => expected deadline (now + gap) events
      else timedOut deadline

/-- What is done: the deadline stays where it is, and a client that has closed is told of a timeout. -/
def actual (deadline : ℕ) : ℕ → List (ℕ × ClientEvent) → List (ℕ × Noted)
  | _, [] => timedOut deadline
  | now, (gap, e) :: events =>
      if now + gap ≤ deadline then
        match e with
        | .data first rest =>
            (now + gap, .wrote (reply respond first rest)) :: actual deadline (now + gap) events
        | .closed => timedOut (now + gap)
        | .error => actual deadline (now + gap) events
      else timedOut deadline

theorem expected_cons (deadline now gap : ℕ) (e : ClientEvent) (events : List (ℕ × ClientEvent)) :
    expected respond deadline now ((gap, e) :: events) =
      if now + gap ≤ deadline then
        match e with
        | .data first rest =>
            (now + gap, .wrote (reply respond first rest)) ::
              expected respond (now + gap + tenSeconds) (now + gap) events
        | .closed => [(now + gap, .closed)]
        | .error => expected respond deadline (now + gap) events
      else timedOut deadline := by
  cases e <;> rfl

theorem actual_cons (deadline now gap : ℕ) (e : ClientEvent) (events : List (ℕ × ClientEvent)) :
    actual respond deadline now ((gap, e) :: events) =
      if now + gap ≤ deadline then
        match e with
        | .data first rest =>
            (now + gap, .wrote (reply respond first rest)) :: actual respond deadline (now + gap) events
        | .closed => timedOut (now + gap)
        | .error => actual respond deadline (now + gap) events
      else timedOut deadline := by
  cases e <;> rfl

/-- What follows the conversation. -/
def afterSession (fd : ℤ) : Option DaemonState → TimedProg (Option DaemonState)
  | none => return none
  | some d => do
      timed (Daemon.sys (.close fd))
      return some d

theorem serve_eq (fd : ℤ) (d : DaemonState) (exchanges : ℕ) :
    serve fd d exchanges = session fd d tenSeconds exchanges >>= afterSession fd :=
  congrArg (session fd d tenSeconds exchanges >>= ·) (funext fun o => by cases o <;> rfl)

variable (sched : ℕ → Environment)

theorem run_farewell (fd : ℤ) (d : DaemonState) {selected : Ipc.SelectResult} (h : selected ≠ .error) (t : ℕ)
    (s : Timeline) :
    run (timedExec respond) sched (timed (farewell fd d selected) >>= afterSession fd) t s =
      ⟨some (some d), t + 2, { s with noted := s.noted ++ timedOut s.now }⟩ := by
  rw [farewell, if_neg h]
  change Outcome.mk (some (some d)) (t + 2)
    { s with noted := (s.noted ++ [(s.now, Noted.wrote timeoutMsg)]) ++ [(s.now, Noted.closed)] } = _
  rw [List.append_assoc]
  rfl

/-- What follows a `select`. -/
def afterSelect (fd : ℤ) (d : DaemonState) (exchanges : ℕ) (answer : Ipc.SelectResult × ℕ) :
    TimedProg (Option DaemonState) :=
  if answer.1 = .timeout then timed (farewell fd d answer.1)
  else
    timed (Daemon.sys (.readClient fd)) >>= fun
      | none => session fd d answer.2 exchanges
      | some [] => timed (farewell fd d answer.1)
      | some (b :: bs) =>
          timed (Daemon.sys (.execute ((b :: bs).takeWhile (· ≠ 0)))) >>= fun response =>
            timed (writeClient (noteClose d ((b :: bs).takeWhile (· ≠ 0))) fd response) >>= fun _ =>
              session fd (noteClose d ((b :: bs).takeWhile (· ≠ 0))) answer.2 exchanges

variable {respond sched} in
theorem run_selected {fd : ℤ} {d : DaemonState} {tv exchanges t : ℕ} {s s' : Timeline}
    {answer : Ipc.SelectResult × ℕ}
    (h : timedExec respond (sched t) (.select fd tv) s = (answer, s')) :
    run (timedExec respond) sched (session fd d tv (exchanges + 1) >>= afterSession fd) t s =
      run (timedExec respond) sched (afterSelect fd d exchanges answer >>= afterSession fd) (t + 1) s' := by
  have hsession : session fd d tv (exchanges + 1) = .call (.select fd tv) (afterSelect fd d exchanges) := by
    refine congrArg (Program.call (TimedSys.select fd tv)) (funext fun answer => ?_)
    refine congrArg (ite (answer.1 = .timeout) _) (congrArg (_ >>= ·) (funext fun got => ?_))
    rcases got with _ | _ | _ <;> rfl
  rw [hsession, Program.call_bind, run, h]

/-- A conversation does what `actual` says, and ends. -/
theorem run_session (fd : ℤ) (d : DaemonState) (tv exchanges : ℕ) (s : Timeline)
    (h : s.events.length < exchanges) (t : ℕ) :
    ∃ d' t' s', run (timedExec respond) sched (session fd d tv exchanges >>= afterSession fd) t s =
        ⟨some (some d'), t', s'⟩ ∧
      s'.noted = s.noted ++ actual respond (s.now + tv) s.now s.events := by
  induction exchanges generalizing d tv s t with
  | zero => omega
  | succ exchanges ih =>
    obtain ⟨now, events, noted⟩ := s
    have hout : Ipc.SelectResult.timeout ≠ .error := by decide
    have hin : Ipc.SelectResult.ready ≠ .error := by decide
    rcases events with _ | ⟨⟨gap, e⟩, events⟩
    · rw [run_selected rfl]
      exact ⟨d, _, _, run_farewell respond sched fd d hout (t + 1) ⟨now + tv, [], noted⟩, rfl⟩
    by_cases hgap : gap ≤ tv
    · have hready : timedExec respond (sched t) (.select fd tv) ⟨now, (gap, e) :: events, noted⟩ =
          ((.ready, tv - gap), ⟨now + gap, (0, e) :: events, noted⟩) := by
        simp only [timedExec, if_pos hgap]
      have hleft : now + gap + (tv - gap) = now + tv := by omega
      have hintime : now + gap ≤ now + tv := by omega
      rw [run_selected hready]
      rw [actual_cons, if_pos hintime]
      cases e with
      | data first rest =>
        obtain ⟨d', t', s', hrun, hnoted⟩ := ih (noteClose d ((first :: rest).takeWhile (· ≠ 0))) (tv - gap)
          ⟨now + gap, events, noted ++ [(now + gap, .wrote (reply respond first rest))]⟩
          (by simpa using h) (t + 4)
        refine ⟨d', t', s', hrun, hnoted.trans ?_⟩
        dsimp only
        rw [hleft, List.append_assoc]
        rfl
      | closed =>
        exact ⟨d, _, _, run_farewell respond sched fd d hin (t + 2)
          ⟨now + gap, (0, .closed) :: events, noted⟩, rfl⟩
      | error =>
        obtain ⟨d', t', s', hrun, hnoted⟩ := ih d (tv - gap) ⟨now + gap, events, noted⟩ (by simpa using h) (t + 2)
        refine ⟨d', t', s', hrun, hnoted.trans ?_⟩
        dsimp only
        rw [hleft]
    · have hlate : timedExec respond (sched t) (.select fd tv) ⟨now, (gap, e) :: events, noted⟩ =
          ((.timeout, 0), ⟨now + tv, (gap - tv, e) :: events, noted⟩) := by
        simp only [timedExec, if_neg hgap]
      have htoo : ¬ now + gap ≤ now + tv := by omega
      rw [run_selected hlate]
      rw [actual_cons, if_neg htoo]
      exact ⟨d, _, _, run_farewell respond sched fd d hout (t + 1)
        ⟨now + tv, (gap - tv, e) :: events, noted⟩, rfl⟩

/-- The events with the times of their coming. -/
def arrivals : ℕ → List (ℕ × ClientEvent) → List (ℕ × ClientEvent)
  | _, [] => []
  | now, (gap, e) :: events => (now + gap, e) :: arrivals (now + gap) events

/-- An event that moves the deadline or ends the conversation. -/
def ClientEvent.Matters (time : ℕ) : ClientEvent → Prop
  | .data _ _ => time ≠ 0
  | .closed => True
  | .error => False

theorem arrivals_later {now : ℕ} {events : List (ℕ × ClientEvent)} : ∀ p ∈ arrivals now events, now ≤ p.1 := by
  induction events generalizing now with
  | nil => simp [arrivals]
  | cons event events ih =>
    intro p hp
    rcases List.mem_cons.mp hp with rfl | hp
    · exact Nat.le_add_right _ _
    · exact (Nat.le_add_right _ _).trans (ih p hp)

/-- Nothing is wanted before the deadline or the next event. -/
theorem expected_after {time deadline : ℕ} (hdeadline : time < deadline) {now : ℕ}
    {events : List (ℕ × ClientEvent)} (hfirst : ∀ event ∈ events.head?, time < now + event.1) :
    ∀ p ∈ expected respond deadline now events, time < p.1 := by
  have htimedOut : ∀ p ∈ timedOut deadline, time < p.1 := by
    intro p hp
    simp only [timedOut, List.mem_cons, List.not_mem_nil, or_false] at hp
    rcases hp with rfl | rfl <;> exact hdeadline
  induction events generalizing deadline now with
  | nil => exact htimedOut
  | cons event events ih =>
    obtain ⟨gap, e⟩ := event
    have htime : time < now + gap := hfirst (gap, e) rfl
    have hnext : ∀ event ∈ events.head?, time < now + gap + event.1 := fun event _ => by omega
    rw [expected_cons]
    split_ifs
    · cases e with
      | data first rest =>
        intro p hp
        rcases List.mem_cons.mp hp with rfl | hp
        · exact htime
        · refine ih (Nat.lt_add_right _ htime) hnext ?_ p hp
          intro q hq
          simp only [timedOut, List.mem_cons, List.not_mem_nil, or_false] at hq
          rcases hq with rfl | rfl <;> exact Nat.lt_add_right _ htime
      | closed =>
        intro p hp
        rw [List.mem_singleton.mp hp]
        exact htime
      | error => exact ih hdeadline hnext htimedOut
    · exact htimedOut

/-- What is wanted for a deadline that has been moved is not done. -/
theorem actual_ne_expected {deadline now : ℕ} (hdeadline : tenSeconds < deadline) (hnow : 0 < now)
    (events : List (ℕ × ClientEvent)) :
    actual respond tenSeconds now events ≠ expected respond deadline now events := by
  induction events generalizing deadline now with
  | nil =>
    intro h
    simp only [actual, expected, timedOut, List.cons.injEq, Prod.mk.injEq] at h
    omega
  | cons event events ih =>
    obtain ⟨gap, e⟩ := event
    by_cases hin : now + gap ≤ tenSeconds
    · rw [actual_cons, if_pos hin, expected_cons, if_pos (by omega)]
      cases e with
      | data first rest =>
        intro h
        exact ih (by omega) (by omega) (List.cons.inj h).2
      | closed => simp [timedOut]
      | error => exact ih hdeadline (by omega)
    · rw [actual_cons, if_neg hin]
      intro h
      have hafter : ∀ p ∈ expected respond deadline now ((gap, e) :: events), tenSeconds < p.1 :=
        expected_after respond hdeadline (by simpa using hin)
      have hmem : (tenSeconds, Noted.closed) ∈ timedOut tenSeconds := by simp [timedOut]
      exact lt_irrefl _ (hafter _ (h ▸ hmem))

theorem actual_eq_expected_iff (now : ℕ) (events : List (ℕ × ClientEvent)) :
    actual respond tenSeconds now events = expected respond tenSeconds now events ↔
      ∀ p ∈ arrivals now events, p.1 ≤ tenSeconds → ¬ p.2.Matters p.1 := by
  induction events generalizing now with
  | nil => simp [actual, expected, arrivals]
  | cons event events ih =>
    obtain ⟨gap, e⟩ := event
    rw [arrivals, List.forall_mem_cons]
    by_cases hin : now + gap ≤ tenSeconds
    · rw [actual_cons, if_pos hin, expected_cons, if_pos hin]
      cases e with
      | data first rest =>
        by_cases hzero : now + gap = 0
        · have hsame : now + gap + tenSeconds = tenSeconds := by omega
          rw [hsame, List.cons.injEq, ih]
          simp [ClientEvent.Matters, hzero]
        · refine iff_of_false ?_ fun h => h.1 hin hzero
          intro h
          exact actual_ne_expected respond (by omega) (by omega) events (List.cons.inj h).2
      | closed =>
        refine iff_of_false ?_ fun h => h.1 hin trivial
        simp [timedOut]
      | error => exact (ih _).trans ⟨fun h => ⟨fun _ => id, h⟩, fun h => h.2⟩
    · rw [actual_cons, if_neg hin, expected_cons, if_neg hin]
      refine iff_of_true rfl ⟨fun h => absurd h hin, fun p hp h => ?_⟩
      exact absurd ((arrivals_later p hp).trans h) hin

/-- A conversation with a client from whom `events` come. -/
def conversation (fd : ℤ) (d : DaemonState) (exchanges : ℕ) (events : List (ℕ × ClientEvent)) :
    Outcome (Option DaemonState) Timeline :=
  run (timedExec respond) sched (serve fd d exchanges) 0 ⟨0, events, []⟩

/-- It ends, and all that is done to the client is done when it is wanted. -/
def Punctual (o : Outcome (Option DaemonState) Timeline) (events : List (ℕ × ClientEvent)) : Prop :=
  (∃ d, o.result = some (some d)) ∧ o.state.noted = expected respond tenSeconds 0 events

/-- The time-out is right exactly for the clients that do nothing within ten seconds, but for what they send at
the very moment of the acceptance. -/
theorem serve_punctual_iff (fd : ℤ) (d : DaemonState) (events : List (ℕ × ClientEvent)) (more : ℕ) :
    Punctual respond (conversation respond sched fd d (events.length + 1 + more) events) events ↔
      ∀ p ∈ arrivals 0 events, p.1 ≤ tenSeconds → ¬ p.2.Matters p.1 := by
  obtain ⟨d', t', s', hrun, hnoted⟩ := run_session respond sched fd d tenSeconds (events.length + 1 + more)
    ⟨0, events, []⟩ (by dsimp only; omega) 0
  rw [Punctual, conversation, serve_eq, hrun, ← actual_eq_expected_iff respond]
  dsimp only at hnoted ⊢
  rw [List.nil_append, Nat.zero_add] at hnoted
  rw [hnoted]
  exact ⟨fun h => h.2, fun h => ⟨⟨d', rfl⟩, h⟩⟩

end Outcome

/-- A client that closes after a second is told of a timeout. -/
theorem not_punctual_closed :
    ¬ Punctual id (conversation id (answering [] 0) 7 (initially fun _ => 0) 2 [(1000000, .closed)])
      [(1000000, .closed)] := by
  obtain ⟨d', t', s', hrun, hnoted⟩ := run_session id (answering [] 0) 7 (initially fun _ => 0) tenSeconds 2
    ⟨0, [(1000000, .closed)], []⟩ (by decide) 0
  rw [Punctual, conversation, serve_eq, hrun]
  rintro ⟨-, h⟩
  have hlength := congrArg List.length (hnoted.symm.trans h)
  exact absurd hlength (by decide)

end Reportman.Inactivity
