import Mathlib
import Reportman.Handshake
import Reportman.MonLoop

/-!
# Probes and their answers

The daemon and the two children run at the same time, each child over its two pipes. What the daemon and
a child say to each other is one sequence of words, in which each side keeps its own place: a word is in
flight as long as the one side has come past it and the other has not.
-/
namespace Reportman.Probes
open Resumable Ipc Daemon Handshake MonLoop FmLoop
open Messages (bytesOf kept)

section Conversation

/-- The place of the first probe. -/
def first : ChildName → ℕ
  | .fm => 4
  | .mon => 2

/-- Whether a word of the conversation goes to the child. -/
def outgoing (c : ChildName) (n : ℕ) : Bool := n = 1 || (first c ≤ n && n % 2 = 0)

/-- The words of the conversation: two acknowledgements, the ids of the timers from `reportman_fm`,
then probes and their answers. -/
def word (ids : UInt64 × UInt64) (c : ChildName) (n : ℕ) : UInt64 :=
  if c = .fm ∧ n = 2 then ipcValueUintFlag.toUInt64 ||| ids.1
  else if c = .fm ∧ n = 3 then ipcValueUintFlag.toUInt64 ||| ids.2
  else if n = 0 ∨ n % 2 = 1 then ipcCommandAck.toUInt64
  else ipcCommandHealthProbe.toUInt64

theorem word_zero (ids : UInt64 × UInt64) (c : ChildName) : word ids c 0 = ipcCommandAck.toUInt64 := by
  simp [word]

theorem word_one (ids : UInt64 × UInt64) (c : ChildName) : word ids c 1 = ipcCommandAck.toUInt64 := by
  simp [word]

theorem word_probe (ids : UInt64 × UInt64) {c : ChildName} {n : ℕ} (h : first c ≤ n ∧ n % 2 = 0) :
    word ids c n = ipcCommandHealthProbe.toUInt64 := by
  obtain ⟨hfirst, heven⟩ := h
  cases c with
  | fm =>
    have h4 : 4 ≤ n := hfirst
    rw [word, if_neg (by omega), if_neg (by omega), if_neg (by omega)]
  | mon =>
    have h2 : 2 ≤ n := hfirst
    rw [word, if_neg nofun, if_neg nofun, if_neg (by omega)]

theorem word_answer (ids : UInt64 × UInt64) {c : ChildName} {n : ℕ} (h : first c ≤ n ∧ n % 2 = 0) :
    word ids c (n + 1) = ipcCommandAck.toUInt64 := by
  obtain ⟨hfirst, heven⟩ := h
  cases c with
  | fm =>
    have h4 : 4 ≤ n := hfirst
    rw [word, if_neg (by omega), if_neg (by omega), if_pos (by omega)]
  | mon => rw [word, if_neg nofun, if_neg nofun, if_pos (by omega)]

/-- How many of the words before a place go to the child. -/
def told (c : ChildName) : ℕ → ℕ
  | 0 => 0
  | n + 1 => told c n + if outgoing c n then 1 else 0

/-- The last word before a place that goes to the child. -/
def lastTold (ids : UInt64 × UInt64) (c : ChildName) : ℕ → Option UInt64
  | 0 => none
  | n + 1 => if outgoing c n then some (word ids c n) else lastTold ids c n

/-- Between two probes. -/
def Idle (c : ChildName) (n : ℕ) : Prop := first c ≤ n ∧ n % 2 = 0

theorem Idle.outgoing {c : ChildName} {n : ℕ} (h : Idle c n) : outgoing c n = true := by
  simp [Probes.outgoing, h.1, h.2]

theorem Idle.answer {c : ChildName} {n : ℕ} (h : Idle c n) : Probes.outgoing c (n + 1) = false := by
  obtain ⟨hfirst, heven⟩ := h
  have hodd : (n + 1) % 2 = 1 := by omega
  have hn : n ≠ 0 := by
    rintro rfl
    cases c <;> exact absurd hfirst (by decide)
  simp [Probes.outgoing, hodd, hn]

theorem Idle.next {c : ChildName} {n : ℕ} (h : Idle c n) : Idle c (n + 1 + 1) :=
  ⟨h.1.trans (by omega), by have := h.2; omega⟩

/-- What is in flight when the daemon has come to the place `i` and the child to `j`; a word to the
daemon comes with the number of words that the child had heard when it sent it. -/
inductive Between (ids : UInt64 × UInt64) (c : ChildName) :
    ℕ → ℕ → List UInt64 → List (UInt64 × ℕ) → Prop
  | even (i : ℕ) : Between ids c i i [] []
  | behind {i j : ℕ} {toDaemon : List (UInt64 × ℕ)} (hi : outgoing c i = false)
      (h : Between ids c (i + 1) j [] toDaemon) : Between ids c i j [] ((word ids c i, told c i) :: toDaemon)
  | ahead {i j : ℕ} {toChild : List UInt64} (hj : outgoing c j = true)
      (h : Between ids c i (j + 1) toChild []) : Between ids c i j (word ids c j :: toChild) []

namespace Between

variable {ids : UInt64 × UInt64} {c : ChildName} {i j : ℕ} {toChild : List UInt64}
  {toDaemon : List (UInt64 × ℕ)}

theorem daemon_ready (h : Between ids c i j toChild toDaemon) (hne : toDaemon ≠ []) : outgoing c i = false := by
  cases h with
  | even => exact absurd rfl hne
  | behind hi => exact hi
  | ahead => exact absurd rfl hne

theorem child_ready (h : Between ids c i j toChild toDaemon) (hne : toChild ≠ []) : outgoing c j = true := by
  cases h with
  | even => exact absurd rfl hne
  | behind => exact absurd rfl hne
  | ahead hj => exact hj

theorem daemon_takes {m : UInt64 × ℕ} {rest : List (UInt64 × ℕ)} (h : Between ids c i j toChild (m :: rest)) :
    m = (word ids c i, told c i) ∧ Between ids c (i + 1) j toChild rest := by
  cases h with
  | behind _ h => exact ⟨rfl, h⟩

theorem child_takes {w : UInt64} {rest : List UInt64} (h : Between ids c i j (w :: rest) toDaemon) :
    w = word ids c j ∧ Between ids c i (j + 1) rest toDaemon := by
  cases h with
  | ahead _ h => exact ⟨rfl, h⟩

theorem daemon_gives (h : Between ids c i j toChild toDaemon) (hi : outgoing c i = true) :
    toDaemon = [] ∧ Between ids c (i + 1) j (toChild ++ [word ids c i]) [] := by
  induction h with
  | even i => exact ⟨rfl, .ahead hi (.even _)⟩
  | behind hi' => simp [hi] at hi'
  | ahead hj _ ih => exact ⟨rfl, .ahead hj (ih hi).2⟩

theorem child_gives (h : Between ids c i j toChild toDaemon) (hj : outgoing c j = false) :
    toChild = [] ∧ Between ids c i (j + 1) [] (toDaemon ++ [(word ids c j, told c j)]) := by
  induction h with
  | even i => exact ⟨rfl, .behind hj (.even _)⟩
  | behind hi _ ih => exact ⟨rfl, .behind hi (ih hj).2⟩
  | ahead hj' => simp [hj] at hj'

/-- While nothing is due to the daemon, no word is on the way to it, and no probe to the child. -/
theorem idle (h : Between ids c i j toChild toDaemon) (hi : Idle c i) :
    toDaemon = [] ∧ ∀ w ∈ toChild, w ≠ ipcCommandHealthProbe.toUInt64 := by
  induction h with
  | even => exact ⟨rfl, by simp⟩
  | behind hi' => simp [outgoing, hi.1, hi.2] at hi'
  | @ahead i j rest hj h ih =>
    refine ⟨rfl, ?_⟩
    have hone : j = 1 := by
      by_contra hne
      obtain ⟨hfirst, heven⟩ : first c ≤ j ∧ j % 2 = 0 := by simpa [outgoing, hne] using hj
      cases h with
      | even => exact absurd hi.2 (by omega)
      | ahead hj' =>
        have hodd : (j + 1) % 2 = 1 := by omega
        have hj0 : j ≠ 0 := by
          rintro rfl
          cases c <;> exact absurd hfirst (by decide)
        simp [outgoing, hodd, hj0] at hj'
    subst hone
    rintro w (_ | ⟨_, hw⟩)
    · rw [word_one]
      decide
    · exact (ih hi).2 w hw

end Between

end Conversation

section Children

/-- What a call of a child is to the conversation: `result` are the results of a `poll` with the POLLIN
of the pipe, `possible` what else may be returned. -/
inductive View (R : Type)
  | poll (result : Bool → R → Prop)
  | select (of : SelectResult → R)
  | read (of : List UInt8 → R)
  | write (word : UInt64) (written : R)
  | other (possible : R → Prop)

/-- No signal but one that the loop ignores. -/
def Ignored : SignalRead → Prop
  | .signal signo => signo ≠ sigint ∧ signo ≠ sigterm
  | _ => False

def fmView : (op : FmSys) → View op.Res
  | .poll _ => .poll fun parent r => ∃ signal, r = .ok ⟨signal, parent⟩
  | .select _ _ => .select id
  | .read _ => .read some
  | .write _ word => .write word .written
  | .readSignal => .other Ignored
  | .uninitialized _ => .other fun _ => True

def monView : (op : MonSys) → View op.Res
  | .poll _ => .poll fun parent r => ∃ signal inotify, r = .ok ⟨signal, inotify, parent⟩
  | .readInotify => .other fun _ => True
  | .eventProcess _ _ => .other fun _ => True
  | .select _ _ => .select id
  | .read _ => .read some
  | .write _ word => .write word .written
  | .readSignal => .other Ignored
  | .uninitialized _ => .other fun _ => True

/-- The two pipes of a child, with the number of words that the daemon has written, the last of them, and
the number of words that the child has read. -/
structure Pipes where
  toChild : List UInt64
  toDaemon : List (UInt64 × ℕ)
  wrote : ℕ
  last : Option UInt64
  heard : ℕ

variable {Op : Type} {Res : Op → Type} {α β : Type} (view : (op : Op) → View (Res op))

/-- One call of a child. POLLIN is reported only of a pipe that has a word, and a `select` on such a
pipe does not time out. -/
inductive ChildStep : Program Op Res α × Pipes → Program Op Res α × Pipes → Prop
  | poll {op next q result} (h : view op = .poll result) {parent : Bool} {r : Res op} (hr : result parent r)
      (hqueue : parent = true → q.toChild ≠ []) : ChildStep (.call op next, q) (next r, q)
  | select {op next q of} (h : view op = .select of) {r : SelectResult}
      (hready : r = .ready → q.toChild ≠ []) (htimeout : r = .timeout → q.toChild = []) :
      ChildStep (.call op next, q) (next (of r), q)
  | read {op next q of w rest} (h : view op = .read of) (hqueue : q.toChild = w :: rest) :
      ChildStep (.call op next, q) (next (of (bytesOf w)), { q with toChild := rest, heard := q.heard + 1 })
  | write {op next q w written} (h : view op = .write w written) :
      ChildStep (.call op next, q) (next written, { q with toDaemon := q.toDaemon ++ [(w, q.heard)] })
  | other {op next q possible} (h : view op = .other possible) {r : Res op} (hr : possible r) :
      ChildStep (.call op next, q) (next r, q)

/-- The program keeps to the conversation, being at the place `j`; `alerted` says that it knows of a word
that it has not read. -/
def Keeps (ids : UInt64 × UInt64) (c : ChildName) (Q : α → Bool → ℕ → Prop) :
    Bool → ℕ → Program Op Res α → Prop
  | alerted, j, .ret a => Q a alerted j
  | _, _, .halt => True
  | alerted, j, .call op next => match view op with
    | .poll result => ∀ parent r, result parent r → (parent = true → outgoing c j = true) →
        Keeps ids c Q parent j (next r)
    | .select of => ∀ r, (r = .ready → outgoing c j = true) → (alerted = true → r ≠ .timeout) →
        Keeps ids c Q alerted j (next (of r))
    | .read of => outgoing c j = true ∧ Keeps ids c Q false (j + 1) (next (of (bytesOf (word ids c j))))
    | .write w written => outgoing c j = false ∧ w = word ids c j ∧ Keeps ids c Q alerted (j + 1) (next written)
    | .other possible => ∀ r, possible r → Keeps ids c Q alerted j (next r)

variable {view} {ids : UInt64 × UInt64} {c : ChildName}

theorem Keeps.bind {Q : α → Bool → ℕ → Prop} {Q' : β → Bool → ℕ → Prop} {p : Program Op Res α}
    {f : α → Program Op Res β} {alerted : Bool} {j : ℕ} (h : Keeps view ids c Q alerted j p)
    (hf : ∀ a alerted j, Q a alerted j → Keeps view ids c Q' alerted j (f a)) :
    Keeps view ids c Q' alerted j (p >>= f) := by
  induction p generalizing alerted j with
  | ret a => exact hf a alerted j h
  | halt => trivial
  | call op next ih =>
    simp only [Program.call_bind, Keeps] at h ⊢
    cases hview : view op with
    | poll result =>
      rw [hview] at h
      exact fun parent r hr hparent => ih r (h parent r hr hparent)
    | select of =>
      rw [hview] at h
      exact fun r hready htimeout => ih _ (h r hready htimeout)
    | read of =>
      rw [hview] at h
      exact ⟨h.1, ih _ h.2⟩
    | write w written =>
      rw [hview] at h
      exact ⟨h.1, h.2.1, ih _ h.2.2⟩
    | other possible =>
      rw [hview] at h
      exact fun r hr => ih r (h r hr)

/-- A child in its place. -/
structure InPlace (ids : UInt64 × UInt64) (c : ChildName) (i : ℕ) (p : Program Op Res α) (q : Pipes)
    (view : (op : Op) → View (Res op)) : Prop where
  wrote : q.wrote = told c i ∧ q.last = lastTold ids c i
  keeps : ∃ j alerted, Keeps view ids c (fun _ _ _ => True) alerted j p ∧ q.heard = told c j ∧
    Between ids c i j q.toChild q.toDaemon ∧ (alerted = true → q.toChild ≠ [])

theorem InPlace.step {i : ℕ} {p p' : Program Op Res α} {q q' : Pipes} (h : InPlace ids c i p q view)
    (hstep : ChildStep view (p, q) (p', q')) : InPlace ids c i p' q' view := by
  obtain ⟨hwrote, j, alerted, hkeeps, hheard, hbetween, halerted⟩ := h
  cases hstep with
  | poll hview hr hqueue =>
    simp only [Keeps, hview] at hkeeps
    exact ⟨hwrote, j, _, hkeeps _ _ hr fun hp => hbetween.child_ready (hqueue hp), hheard, hbetween, hqueue⟩
  | select hview hready htimeout =>
    simp only [Keeps, hview] at hkeeps
    refine ⟨hwrote, j, alerted, hkeeps _ (fun hr => hbetween.child_ready (hready hr)) ?_, hheard, hbetween,
      halerted⟩
    exact fun ha hr => halerted ha (htimeout hr)
  | read hview hqueue =>
    simp only [Keeps, hview] at hkeeps
    rw [hqueue] at hbetween
    obtain ⟨rfl, hbetween'⟩ := hbetween.child_takes
    refine ⟨hwrote, j + 1, false, hkeeps.2, ?_, hbetween', nofun⟩
    simp [told, hkeeps.1, hheard]
  | write hview =>
    simp only [Keeps, hview] at hkeeps
    obtain ⟨hin, rfl, hkeeps⟩ := hkeeps
    obtain ⟨hempty, hbetween'⟩ := hbetween.child_gives hin
    refine ⟨hwrote, j + 1, alerted, hkeeps, ?_, ?_, halerted⟩
    · simp [told, hin, hheard]
    · rw [hheard, hempty]
      exact hbetween'
  | other hview hr =>
    simp only [Keeps, hview] at hkeeps
    exact ⟨hwrote, j, alerted, hkeeps _ hr, hheard, hbetween, halerted⟩

end Children

section Loops

/-- In its loop a child is between two probes, or has nothing to wait for. -/
def Listening (c : ChildName) (j : ℕ) : Prop := outgoing c j = false ∨ Idle c j

theorem Listening.idle {c : ChildName} {j : ℕ} (h : Listening c j) (hout : outgoing c j = true) : Idle c j := by
  rcases h with h | h
  · simp [hout] at h
  · exact h

theorem isCommand_probe : ipcIsCommand ipcCommandHealthProbe.toUInt64 = true := by decide

theorem low_probe : ipcCommandHealthProbe.toUInt64.toUInt32 = ipcCommandHealthProbe := by decide

variable (ids : UInt64 × UInt64)

theorem fm_parentMessage_keeps (args : FmArgs) {j : ℕ} (hj : Idle .fm j) :
    Keeps fmView ids .fm (fun _ _ j => Listening .fm j) true j (FmLoop.parentMessage args) := by
  rw [parentMessage_eq]
  rintro (_ | _ | _) hready htimeout
  · exact .inr hj
  · exact absurd rfl (htimeout rfl)
  refine ⟨hj.outgoing, ?_⟩
  change Keeps fmView ids .fm _ false (j + 1) (received fmCalls (bytesOf (word ids .fm j)) >>= _)
  rw [word_probe ids hj, received, if_pos (Messages.length_bytesOf _), Messages.wordOf_bytesOf]
  change Keeps fmView ids .fm _ false (j + 1) (if ipcIsCommand ipcCommandHealthProbe.toUInt64 then
    FmLoop.handleCommand args ipcCommandHealthProbe.toUInt64.toUInt32 else .ret none)
  rw [if_pos isCommand_probe, low_probe, handleCommand_probe]
  split_ifs
  · exact .inl hj.answer
  · exact ⟨hj.answer, (word_answer ids hj).symm, .inr hj.next⟩

theorem fmRound_keeps (args : FmArgs) (count : ℕ) {alerted : Bool} {j : ℕ} (hj : Listening .fm j) :
    Keeps fmView ids .fm (fun _ _ j => Listening .fm j) alerted j (fmRound args count) := by
  have hsignal : ∀ (signal : Bool) alerted j, Listening .fm j → Keeps fmView ids .fm
      (fun _ _ j => Listening .fm j) alerted j (if signal then FmLoop.signalMessage else .ret none) := by
    intro signal alerted j hj
    split_ifs
    · rintro (_ | _ | signo) hr
      · exact hr.elim
      · exact hr.elim
      · change Keeps fmView ids .fm _ alerted j (if signo = sigint ∨ signo = sigterm then
          Program.ret (some Exit.success) else Program.ret none)
        rw [if_neg (by rintro (h | h); exacts [hr.1 h, hr.2 h])]
        exact hj
    · exact hj
  rintro parent _ ⟨signal, rfl⟩ hparent
  have hcheck : Keeps fmView ids .fm (fun _ _ j => Listening .fm j) parent j
      (checkParent args ⟨signal, parent⟩) := by
    unfold checkParent
    cases parent with
    | false =>
      rw [if_neg (by simp)]
      exact hj
    | true =>
      split_ifs
      · exact fm_parentMessage_keeps ids args (hj.idle (hparent rfl))
      · exact hj
  refine hcheck.bind ?_
  rintro (_ | exit) alerted j hj
  · exact hsignal signal alerted j hj
  · exact hj

theorem fmLoop_keeps (args : FmArgs) (count rounds : ℕ) {alerted : Bool} {j : ℕ} (hj : Listening .fm j) :
    Keeps fmView ids .fm (fun _ _ _ => True) alerted j (fmLoop args count rounds) := by
  induction rounds generalizing alerted j with
  | zero => trivial
  | succ rounds ih =>
    refine (fmRound_keeps ids args count hj).bind ?_
    rintro (_ | exit) alerted j hj
    · exact ih hj
    · trivial

/-- A `reportman_fm` from its start on. -/
def fmStart (pipes : IpcPipes) (count rounds : ℕ) : FmProg (Option Exit) := do
  startedFromDaemon (fun _ => fmCalls) pipes ids.1 ids.2
  fmLoop ⟨false, pipes⟩ count rounds

theorem fm_sendUlong_keeps (pipes : IpcPipes) {value : UInt64} {alerted : Bool} {j : ℕ}
    (hj : outgoing .fm j = false) (hword : word ids .fm j = ipcValueUintFlag.toUInt64 ||| value) :
    Keeps fmView ids .fm (fun sent _ j' => j' = if sent then j + 1 else j) alerted j
      (ipcSendUlong fmCalls pipes value) := by
  unfold ipcSendUlong
  split_ifs
  · exact rfl
  · exact ⟨hj, hword.symm, rfl⟩

theorem reportToDaemon_keeps (pipes : IpcPipes) {alerted : Bool} :
    Keeps fmView ids .fm (fun _ _ j => Listening .fm j) alerted 2
      (reportToDaemon (fun _ => fmCalls) pipes ids.1 ids.2) := by
  refine (fm_sendUlong_keeps ids pipes (j := 2) rfl rfl).bind ?_
  rintro (_ | _) alerted j rfl
  · exact .inl rfl
  refine (fm_sendUlong_keeps ids pipes (j := 3) rfl rfl).bind ?_
  rintro (_ | _) alerted j rfl
  · exact .inl rfl
  · exact .inr ⟨le_refl 4, rfl⟩

theorem fmStart_keeps (pipes : IpcPipes) (count rounds : ℕ) :
    Keeps fmView ids .fm (fun _ _ _ => True) false 0 (fmStart ids pipes count rounds) := by
  have hack : Keeps fmView ids .fm (fun _ _ j => j = 2) false 0 (acknowledgeDaemon fmCalls pipes) := by
    refine ⟨rfl, (word_zero ids .fm).symm, rfl, ?_⟩
    change Keeps fmView ids .fm _ false 2 (received fmCalls (bytesOf (word ids .fm 1)) >>=
      fun msg => Program.ret (ipcIsAck msg))
    rw [received, if_pos (Messages.length_bytesOf _)]
    exact rfl
  have hstart : Keeps fmView ids .fm (fun _ _ j => Listening .fm j) false 0
      (startedFromDaemon (fun _ => fmCalls) pipes ids.1 ids.2) := by
    refine hack.bind ?_
    rintro _ alerted j rfl
    exact (reportToDaemon_keeps ids pipes).bind fun _ _ _ hj => hj
  exact hstart.bind fun _ _ _ hj => fmLoop_keeps ids _ count rounds hj

theorem mon_parentMessage_keeps (pipes : IpcPipes) {j : ℕ} (hj : Idle .mon j) :
    Keeps monView ids .mon (fun _ _ j => Listening .mon j) true j (monParentMessage pipes) := by
  rw [monParentMessage_eq]
  rintro (_ | _ | _) hready htimeout
  · exact .inr hj
  · exact absurd rfl (htimeout rfl)
  refine ⟨hj.outgoing, ?_⟩
  change Keeps monView ids .mon _ false (j + 1) (received monCalls (bytesOf (word ids .mon j)) >>= _)
  rw [word_probe ids hj, received, if_pos (Messages.length_bytesOf _), Messages.wordOf_bytesOf]
  change Keeps monView ids .mon _ false (j + 1) (if ipcIsCommand ipcCommandHealthProbe.toUInt64 then
    monHandleCommand pipes ipcCommandHealthProbe.toUInt64.toUInt32 else .ret none)
  rw [if_pos isCommand_probe, low_probe, monHandleCommand_probe]
  split_ifs
  · exact .inl hj.answer
  · exact ⟨hj.answer, (word_answer ids hj).symm, .inr hj.next⟩

theorem processing_keeps (buffer : Inotify.Buffer) (events : List ℕ) {alerted : Bool} {j : ℕ} :
    Keeps monView ids .mon (fun _ alerted' j' => alerted' = alerted ∧ j' = j) alerted j
      (events.forM fun event => monCall (.eventProcess buffer event)) := by
  induction events with
  | nil => exact ⟨rfl, rfl⟩
  | cons event events ih => exact fun _ _ => ih

theorem monCheckInotify_keeps (revents : MonRevents) {alerted : Bool} {j : ℕ} :
    Keeps monView ids .mon (fun _ alerted' j' => alerted' = alerted ∧ j' = j) alerted j
      (monCheckInotify revents) := by
  unfold monCheckInotify
  split_ifs
  · rintro ⟨buffer, length⟩ -
    change Keeps monView ids .mon _ alerted j (if length > 0 then
      (Inotify.processEvents buffer length).forM fun event => monCall (.eventProcess buffer event)
      else Program.ret ())
    split_ifs
    · exact processing_keeps ids buffer _
    · exact ⟨rfl, rfl⟩
  · exact ⟨rfl, rfl⟩

theorem monRound_keeps (pipes : IpcPipes) (count : ℕ) {alerted : Bool} {j : ℕ} (hj : Listening .mon j) :
    Keeps monView ids .mon (fun _ _ j => Listening .mon j) alerted j (monRound pipes count) := by
  have hsignal : ∀ (signal : Bool) alerted j, Listening .mon j → Keeps monView ids .mon
      (fun _ _ j => Listening .mon j) alerted j (if signal then monSignalMessage else .ret none) := by
    intro signal alerted j hj
    split_ifs
    · rintro (_ | _ | signo) hr
      · exact hr.elim
      · exact hr.elim
      · change Keeps monView ids .mon _ alerted j (if signo = sigint ∨ signo = sigterm then
          Program.ret (some Exit.success) else Program.ret none)
        rw [if_neg (by rintro (h | h); exacts [hr.1 h, hr.2 h])]
        exact hj
    · exact hj
  rintro parent _ ⟨signal, inotify, rfl⟩ hparent
  refine (monCheckInotify_keeps ids _).bind fun _ alerted' j' hsame => ?_
  rw [hsame.1, hsame.2]
  have hcheck : Keeps monView ids .mon (fun _ _ j => Listening .mon j) parent j
      (monCheckParent pipes ⟨signal, inotify, parent⟩) := by
    unfold monCheckParent
    cases parent with
    | false => exact hj
    | true => exact mon_parentMessage_keeps ids pipes (hj.idle (hparent rfl))
  refine hcheck.bind ?_
  rintro (_ | exit) alerted j hj
  · exact hsignal signal alerted j hj
  · exact hj

theorem monLoop_keeps (pipes : IpcPipes) (count rounds : ℕ) {alerted : Bool} {j : ℕ} (hj : Listening .mon j) :
    Keeps monView ids .mon (fun _ _ _ => True) alerted j (monLoop pipes count rounds) := by
  induction rounds generalizing alerted j with
  | zero => trivial
  | succ rounds ih =>
    refine (monRound_keeps ids pipes count hj).bind ?_
    rintro (_ | exit) alerted j hj
    · exact ih hj
    · trivial

/-- A `reportman_mon` from its start on. -/
def monStart (pipes : IpcPipes) (count rounds : ℕ) : MonProg (Option Exit) := do
  let _ ← acknowledgeDaemon monCalls pipes
  monLoop pipes count rounds

theorem monStart_keeps (pipes : IpcPipes) (count rounds : ℕ) :
    Keeps monView ids .mon (fun _ _ _ => True) false 0 (monStart pipes count rounds) := by
  have hack : Keeps monView ids .mon (fun _ _ j => j = 2) false 0 (acknowledgeDaemon monCalls pipes) := by
    refine ⟨rfl, (word_zero ids .mon).symm, rfl, ?_⟩
    change Keeps monView ids .mon _ false 2 (received monCalls (bytesOf (word ids .mon 1)) >>=
      fun msg => Program.ret (ipcIsAck msg))
    rw [received, if_pos (Messages.length_bytesOf _)]
    exact rfl
  refine hack.bind ?_
  rintro _ alerted j rfl
  exact monLoop_keeps ids pipes count rounds (.inr ⟨le_refl 2, rfl⟩)

end Loops

section Daemon

def siteChild : Site → ChildName
  | .acknowledge c => c
  | .timers => .fm
  | .loop c => c
  | .drain c => c
  | .probe c => c

/-- Where the daemon is in the conversation with a child, and the ids of the child's timers. -/
structure Place where
  index : ℕ
  ids : UInt64 × UInt64

abbrev Places := ChildName → Option Place

def IdleAt (places : Places) (c : ChildName) : Prop := ∃ place, places c = some place ∧ Idle c place.index

/-- The program keeps to the conversations, and polls only between two probes. -/
def DaemonKeeps {α : Type} (Q : α → Places → Prop) : Places → DaemonProg α → Prop
  | places, .ret a => Q a places
  | _, .halt => True
  | places, .call (.poll _) next => (∀ c, IdleAt places c) ∧ ∀ r, DaemonKeeps Q places (next r)
  | places, .call (.select site _ _) next => ∃ place, places (siteChild site) = some place ∧
      ∀ r, (r = .ready → outgoing (siteChild site) place.index = false) → DaemonKeeps Q places (next r)
  | places, .call (.read site _) next => ∃ place, places (siteChild site) = some place ∧
      outgoing (siteChild site) place.index = false ∧
      (∀ c, site = .probe c → lastTold place.ids c place.index = some ipcCommandHealthProbe.toUInt64 ∧
        word place.ids c place.index = ipcCommandAck.toUInt64) ∧
      DaemonKeeps Q (Function.update places (siteChild site) (some ⟨place.index + 1, place.ids⟩))
        (next (some (bytesOf (word place.ids (siteChild site) place.index))))
  | places, .call (.write site _ w) next => ∃ place, places (siteChild site) = some place ∧
      outgoing (siteChild site) place.index = true ∧ w = word place.ids (siteChild site) place.index ∧
      DaemonKeeps Q (Function.update places (siteChild site) (some ⟨place.index + 1, place.ids⟩)) (next .written)
  | places, .call .pipe next => ∀ r wr, DaemonKeeps Q places (next (some (r, wr)))
  | places, .call (.fork c _ _) next => DaemonKeeps Q places (next none) ∧
      ∀ pid ids, DaemonKeeps Q (Function.update places c (some ⟨0, ids⟩)) (next (some pid))
  | places, .call _ next => ∀ r, DaemonKeeps Q places (next r)

theorem DaemonKeeps.bind {α β : Type} {Q : α → Places → Prop} {Q' : β → Places → Prop} {p : DaemonProg α}
    {f : α → DaemonProg β} {places : Places} (h : DaemonKeeps Q places p)
    (hf : ∀ a places, Q a places → DaemonKeeps Q' places (f a)) : DaemonKeeps Q' places (p >>= f) := by
  induction p generalizing places with
  | ret a => exact hf a places h
  | halt => trivial
  | call op next ih =>
    cases op
    case poll => exact ⟨h.1, fun r => ih r (h.2 r)⟩
    case select =>
      obtain ⟨place, hplace, h⟩ := h
      exact ⟨place, hplace, fun r hr => ih r (h r hr)⟩
    case read =>
      obtain ⟨place, hplace, hin, hack, h⟩ := h
      exact ⟨place, hplace, hin, hack, ih _ h⟩
    case write =>
      obtain ⟨place, hplace, hout, hword, h⟩ := h
      exact ⟨place, hplace, hout, hword, ih _ h⟩
    case pipe => exact fun r wr => ih _ (h r wr)
    case fork => exact ⟨ih _ h.1, fun pid ids => ih _ (h.2 pid ids)⟩
    all_goals exact fun r => ih r (h r)

/-- A program that has nothing to do with the children. -/
theorem DaemonKeeps.elsewhere {α : Type} {Q : α → Prop} {Q' : α → Places → Prop} {p : DaemonProg α}
    {places : Places} (h : p.Always (fun op _ => Elsewhere op) Q) (hidle : ∀ c, IdleAt places c)
    (hQ : ∀ a, Q a → Q' a places) : DaemonKeeps Q' places p := by
  induction p with
  | ret a => exact hQ a h
  | halt => trivial
  | call op next ih =>
    cases op
    case poll => exact ⟨hidle, fun r => ih r (h r).2⟩
    case select => exact (h .error).1.elim
    case read => exact (h none).1.elim
    case write => exact (h .failed).1.elim
    case pipe => exact (h none).1.elim
    case fork => exact (h none).1.elim
    all_goals exact fun r => ih r (h r).2

theorem exitWith_keeps {α : Type} (code : Exit) (Q : α → Places → Prop) (places : Places) :
    DaemonKeeps Q places (exitWith code) := fun _ => trivial

variable (d : DaemonState)

theorem acknowledgeClient_keeps {c : ChildName} {places : Places} {ids : UInt64 × UInt64}
    (h : places c = some ⟨0, ids⟩) : DaemonKeeps
      (fun _ places' => places' = Function.update places c (some ⟨2, ids⟩)) places (acknowledgeClient d c) := by
  rw [acknowledgeClient_eq]
  refine ⟨⟨0, ids⟩, h, ?_⟩
  rintro (_ | _ | _) -
  · exact exitWith_keeps _ _ _
  · exact exitWith_keeps _ _ _
  dsimp only
  rw [ipcGetAck_bind]
  refine ⟨⟨0, ids⟩, h, by cases c <;> rfl, nofun, ?_⟩
  dsimp only
  rw [received_bytesOf]
  split_ifs
  swap
  · exact exitWith_keeps _ _ _
  refine ⟨⟨1, ids⟩, Function.update_self .., by cases c <;> rfl, (word_one ids c).symm, ?_⟩
  exact Function.update_idem ..

theorem ipcGetUlong_keeps {α : Type} {Q : α → Places → Prop} {places : Places} {place : Place}
    (h : places .fm = some place) (hin : outgoing .fm place.index = false) {k : UInt64 → DaemonProg α}
    (hk : ∀ value, DaemonKeeps Q (Function.update places .fm (some ⟨place.index + 1, place.ids⟩)) (k value)) :
    DaemonKeeps Q places (ipcGetUlong (daemonCalls d .timers) d.fm.pipes >>= k) := by
  rw [ipcGetUlong_bind]
  refine ⟨place, h, hin, nofun, ?_⟩
  dsimp only [siteChild]
  rw [received_bytesOf]
  split_ifs
  · exact hk _
  · exact hk _

/-- The other child's place is kept, and this one's is between two probes. -/
def Moved (c : ChildName) (places places' : Places) : Prop :=
  (∀ c', c' ≠ c → places' c' = places c') ∧ IdleAt places' c

theorem moved_update {c : ChildName} (places : Places) {n : ℕ} {ids : UInt64 × UInt64} (h : Idle c n) :
    Moved c places (Function.update places c (some ⟨n, ids⟩)) :=
  ⟨fun _ hne => Function.update_of_ne hne _ _, _, Function.update_self .., h⟩

theorem Moved.idle {c : ChildName} {places places' : Places} (h : Moved c places places')
    (hidle : ∀ c', c' ≠ c → IdleAt places c') (c' : ChildName) : IdleAt places' c' := by
  by_cases hc : c' = c
  · subst hc
    exact h.2
  · obtain ⟨place, hplace, hi⟩ := hidle c' hc
    exact ⟨place, (h.1 c' hc).trans hplace, hi⟩

theorem reportmanFmGetTimers_keeps {places : Places} {ids : UInt64 × UInt64}
    (h : places .fm = some ⟨2, ids⟩) :
    DaemonKeeps (fun _ places' => Moved .fm places places') places (reportmanFmGetTimers d) := by
  rw [reportmanFmGetTimers_eq]
  refine ⟨⟨2, ids⟩, h, ?_⟩
  rintro (_ | _ | _) -
  · exact exitWith_keeps _ _ _
  · exact exitWith_keeps _ _ _
  refine ipcGetUlong_keeps d h rfl fun backup => ?_
  split_ifs
  · exact exitWith_keeps _ _ _
  refine ipcGetUlong_keeps d (Function.update_self ..) rfl fun transfer => ?_
  split_ifs
  · exact exitWith_keeps _ _ _
  rw [DaemonKeeps, Function.update_idem]
  exact moved_update places (show Idle .fm 4 from ⟨le_refl 4, rfl⟩)

variable (dSocket : ℤ)

theorem childSpawn_keeps (c : ChildName) (extraArgs : List String) (places : Places) :
    DaemonKeeps (fun _ places' => ∃ ids, places' = Function.update places c (some ⟨2, ids⟩)) places
      (childSpawn dSocket d c extraArgs) := by
  have hspawn : DaemonKeeps (fun _ places' => ∃ ids, places' = Function.update places c (some ⟨0, ids⟩)) places
      (startChildProcess dSocket (d.child c) c extraArgs) := by
    intro childRead childWrite parentRead parentWrite
    refine ⟨exitWith_keeps _ _ _, fun pid ids _ _ => ⟨ids, rfl⟩⟩
  refine hspawn.bind ?_
  rintro p _ ⟨ids, rfl⟩
  refine (acknowledgeClient_keeps (d.setChild c p) (Function.update_self ..)).bind ?_
  rintro _ _ rfl
  exact ⟨ids, Function.update_idem ..⟩

section Post

variable {c : ChildName} {post : DaemonState → DaemonProg DaemonState}
  (hpost : ∀ d places ids, places c = some ⟨2, ids⟩ →
    DaemonKeeps (fun _ places' => Moved c places places') places (post d))
include hpost

theorem restartChild_keeps (places : Places) :
    DaemonKeeps (fun _ places' => Moved c places places') places (restartChild dSocket d c post) := by
  unfold restartChild
  dsimp only
  split_ifs
  · exact exitWith_keeps _ _ _
  refine (childSpawn_keeps _ dSocket c [] places).bind ?_
  rintro d₁ _ ⟨ids, rfl⟩
  refine (hpost d₁ _ ids (Function.update_self ..)).bind fun d₂ places₂ h₂ => ?_
  exact ⟨fun c' hne => (h₂.1 c' hne).trans (Function.update_of_ne hne _ _), h₂.2⟩

theorem healthProbeChildProcess_keeps {places : Places} (hidle : ∀ c, IdleAt places c) :
    DaemonKeeps (fun _ places' => ∀ c, IdleAt places' c) places (healthProbeChildProcess dSocket d c post) := by
  have hrestart : ∀ d' places', (∀ c', c' ≠ c → places' c' = places c') →
      DaemonKeeps (fun _ places' => ∀ c, IdleAt places' c) places' (restartChild dSocket d' c post) := by
    intro d' places' hsame
    rw [← bind_pure (restartChild dSocket d' c post)]
    refine (restartChild_keeps d' dSocket hpost places').bind fun d₁ places₁ h₁ => ?_
    refine h₁.idle fun c' hne => ?_
    obtain ⟨place, hplace, hi⟩ := hidle c'
    exact ⟨place, (hsame c' hne).trans hplace, hi⟩
  obtain ⟨⟨n, ids⟩, hplace, hi⟩ := hidle c
  rw [healthProbeChildProcess_eq]
  intro isAlive
  cases isAlive with
  | false => exact hrestart _ places fun _ _ => rfl
  | true =>
  have hgiveUp : ∀ d' places', (∀ c', c' ≠ c → places' c' = places c') →
      DaemonKeeps (fun _ places' => ∀ c, IdleAt places' c) places'
        (Program.call (.kill c (d.child c).pid sigterm) fun _ => .call (.waitpid (d.child c).pid) fun _ =>
          restartChild dSocket d' c post : DaemonProg DaemonState) :=
    fun d' places' hsame _ _ => hrestart d' places' hsame
  have hsame₁ : ∀ c', c' ≠ c → Function.update places c (some ⟨n + 1, ids⟩) c' = places c' :=
    fun c' hne => Function.update_of_ne hne _ _
  change DaemonKeeps _ places (answersProbe _ c >>= _)
  rw [answersProbe_bind rfl]
  refine ⟨⟨n, ids⟩, hplace, hi.outgoing, (word_probe ids hi).symm, ⟨n + 1, ids⟩, Function.update_self .., ?_⟩
  rintro (_ | _ | _) -
  · exact hgiveUp _ _ hsame₁
  · exact hgiveUp _ _ hsame₁
  refine ⟨⟨n + 1, ids⟩, Function.update_self .., hi.answer, fun c' hc' => ?_, ?_⟩
  · cases hc'
    exact ⟨by rw [lastTold, if_pos hi.outgoing, word_probe ids hi], word_answer ids hi⟩
  dsimp only [siteChild]
  rw [received_bytesOf, word_answer ids hi, Function.update_idem]
  exact (moved_update places hi.next).idle fun c' _ => hidle c'

end Post

variable (fds : PollFds) {places : Places} (hidle : ∀ c, IdleAt places c)
include hidle

theorem childMessage_keeps {site : Site} {c : ChildName} (hsite : siteChild site = c) (timeoutSecs : ℕ) :
    DaemonKeeps (fun _ places' => places' = places) places (childMessage dSocket fds d site c timeoutSecs) := by
  have hcommand : DaemonKeeps (fun _ places' => places' = places) places (getCommand d site c timeoutSecs) := by
    obtain ⟨place, hplace, hi⟩ := hidle c
    rw [getCommand_eq]
    refine ⟨place, hsite ▸ hplace, ?_⟩
    rintro (_ | _ | _) hready
    · exact rfl
    · exact rfl
    · rw [hsite, hi.outgoing] at hready
      exact absurd (hready rfl) nofun
  refine hcommand.bind ?_
  rintro d' _ rfl
  split_ifs
  · exact .elsewhere (cleanClose_elsewhere dSocket fds d' .failure fun _ => False) hidle fun _ h => h.elim
  · exact rfl

theorem healthRound_keeps :
    DaemonKeeps (fun _ places' => ∀ c, IdleAt places' c) places (healthRound dSocket fds d) := by
  intro armed
  change DaemonKeeps _ places (if ¬ armed = true then _ else _)
  split_ifs
  swap
  · exact exitWith_keeps _ _ _
  refine (childMessage_keeps d dSocket fds hidle (show siteChild (.drain .fm) = .fm from rfl) 1).bind ?_
  rintro d₁ _ rfl
  refine (childMessage_keeps d₁ dSocket fds hidle (show siteChild (.drain .mon) = .mon from rfl) 1).bind ?_
  rintro d₂ _ rfl
  refine (healthProbeChildProcess_keeps d₂ dSocket (fun d _ _ h => reportmanFmGetTimers_keeps d h) hidle).bind
    fun d₃ places₃ h₃ => ?_
  refine healthProbeChildProcess_keeps d₃ dSocket (fun _ places ids h => ?_) h₃
  exact ⟨fun _ _ => rfl, ⟨2, ids⟩, h, (show Idle .mon 2 from ⟨le_refl 2, rfl⟩)⟩

theorem childrenHandled_keeps (revents : DaemonRevents) :
    DaemonKeeps (fun _ places' => ∀ c, IdleAt places' c) places (childrenHandled dSocket fds d revents) := by
  have hhandled : ∀ (pollin : Bool) (d : DaemonState) (c : ChildName), DaemonKeeps
      (fun _ places' => places' = places) places
      (handled pollin d (childMessage dSocket fds d (.loop c) c 5)) := by
    intro pollin d c
    unfold handled
    split_ifs
    · exact childMessage_keeps d dSocket fds hidle rfl 5
    · exact rfl
  refine (hhandled _ d .fm).bind ?_
  rintro d₁ _ rfl
  refine (hhandled _ d₁ .mon).bind ?_
  rintro d₂ _ rfl
  unfold handled
  split_ifs
  · exact healthRound_keeps d₂ dSocket fds hidle
  · exact hidle

theorem daemonRound_keeps (exchanges : ℕ) :
    DaemonKeeps (fun _ places' => ∀ c, IdleAt places' c) places (daemonRound dSocket fds exchanges d) := by
  refine ⟨hidle, ?_⟩
  rintro ((_ | _) | revents)
  · exact hidle
  · exact fun _ _ _ => trivial
  have hsignal : DaemonKeeps (fun _ places' => places' = places) places
      (signalHandled dSocket fds d revents.signal.pollin) := by
    unfold signalHandled
    split_ifs
    · exact .elsewhere (signalMessage_elsewhere dSocket fds d) hidle fun _ _ => rfl
    · exact rfl
  have hclient : DaemonKeeps (fun _ places' => places' = places) places
      (clientHandled dSocket fds d exchanges revents.client.pollin) := by
    unfold clientHandled
    split_ifs
    · exact .elsewhere (clientMessage_elsewhere dSocket fds d exchanges) hidle fun _ _ => rfl
    · exact rfl
  refine hsignal.bind ?_
  rintro _ _ rfl
  refine hclient.bind ?_
  rintro (_ | _ | d') _ rfl
  · exact hidle
  · exact hidle
  · exact (childrenHandled_keeps d' dSocket fds hidle revents).bind fun _ _ h => h

omit hidle in
theorem pollLoop_keeps (hidle : ∀ c, IdleAt places c) (exchanges rounds : ℕ) :
    DaemonKeeps (fun _ _ => True) places (pollLoop dSocket fds exchanges rounds d) := by
  induction rounds generalizing d places with
  | zero => trivial
  | succ rounds ih =>
    refine (daemonRound_keeps d dSocket fds hidle exchanges).bind ?_
    rintro (_ | d') places' h'
    · trivial
    · exact ih d' h'

omit hidle in
theorem daemonMain_keeps (directories : List String) (exchanges rounds : ℕ) :
    DaemonKeeps (fun _ _ => True) (fun _ => none) (daemonMain dSocket directories exchanges rounds d) := by
  have hstart : DaemonKeeps (fun _ places' => ∀ c, IdleAt places' c) (fun _ => none)
      (startUp dSocket directories d) := by
    refine (childSpawn_keeps d dSocket .fm [] fun _ => none).bind ?_
    rintro d₁ _ ⟨ids, rfl⟩
    refine (reportmanFmGetTimers_keeps d₁ (Function.update_self ..)).bind fun d₂ places₂ h₂ => ?_
    refine (childSpawn_keeps d₂ dSocket .mon directories places₂).bind ?_
    rintro d₃ _ ⟨ids', rfl⟩
    have hidle : ∀ c, IdleAt (Function.update places₂ .mon (some ⟨2, ids'⟩)) c := by
      refine (moved_update places₂ (show Idle .mon 2 from ⟨le_refl 2, rfl⟩)).idle fun c hne => ?_
      cases c with
      | fm => exact h₂.2
      | mon => exact absurd rfl hne
    obtain ⟨next, hprepare, hnext⟩ := prepare_elsewhere dSocket d₃
    rw [hprepare]
    exact fun command => .elsewhere (hnext command) hidle fun _ _ => hidle
  refine hstart.bind fun r places' h' => ?_
  exact (pollLoop_keeps r.2 dSocket r.1 h' exchanges rounds).bind fun _ _ _ => trivial

end Daemon

section System

/-- What the daemon has read as the answer to a probe: how many words it had written to the child and the
last of them, how many the child had read when it wrote the answer, and the answer. -/
structure Answer where
  child : ChildName
  wrote : ℕ
  last : Option UInt64
  heard : ℕ
  word : UInt64

structure World where
  daemon : DaemonProg (Option (PollFds × DaemonState))
  fm : FmProg (Option Exit)
  mon : MonProg (Option Exit)
  pipes : ChildName → Pipes
  answers : List Answer

/-- The calls that no child has to do with. -/
def Alone : DaemonSys → Prop
  | .select _ _ _ => False
  | .read _ _ => False
  | .write _ _ _ => False
  | .pipe => False
  | .fork _ _ _ => False
  | _ => True

def noted (site : Site) (q : Pipes) (m : UInt64 × ℕ) : List Answer :=
  match site with
  | .probe c => [⟨c, q.wrote, q.last, m.2, m.1⟩]
  | _ => []

/-- One call of one of the three. A `select` of the daemon may time out at any time, a new child has new
pipes, and what was on the way in the old ones is gone. -/
inductive Step : World → World → Prop
  | select {site fd secs next fm mon pipes answers} (r : SelectResult)
      (hready : r = .ready → (pipes (siteChild site)).toDaemon ≠ []) :
      Step ⟨.call (.select site fd secs) next, fm, mon, pipes, answers⟩ ⟨next r, fm, mon, pipes, answers⟩
  | read {site fd next fm mon pipes answers m rest} (hqueue : (pipes (siteChild site)).toDaemon = m :: rest) :
      Step ⟨.call (.read site fd) next, fm, mon, pipes, answers⟩
        ⟨next (some (bytesOf m.1)), fm, mon,
          Function.update pipes (siteChild site) { pipes (siteChild site) with toDaemon := rest },
          answers ++ noted site (pipes (siteChild site)) m⟩
  | write {site fd word next fm mon pipes answers} :
      Step ⟨.call (.write site fd word) next, fm, mon, pipes, answers⟩
        ⟨next .written, fm, mon, Function.update pipes (siteChild site) { pipes (siteChild site) with
          toChild := (pipes (siteChild site)).toChild ++ [word]
          wrote := (pipes (siteChild site)).wrote + 1
          last := some word }, answers⟩
  | pipe {next fm mon pipes answers} (r wr : ℤ) :
      Step ⟨.call .pipe next, fm, mon, pipes, answers⟩ ⟨next (some (r, wr)), fm, mon, pipes, answers⟩
  | forkFails {c closed args next fm mon pipes answers} :
      Step ⟨.call (.fork c closed args) next, fm, mon, pipes, answers⟩ ⟨next none, fm, mon, pipes, answers⟩
  | forkFm {closed args next fm mon pipes answers} (pid : ℤ) (ids : UInt64 × UInt64) (ends : IpcPipes)
      (count rounds : ℕ) : Step ⟨.call (.fork .fm closed args) next, fm, mon, pipes, answers⟩
        ⟨next (some pid), fmStart ids ends count rounds, mon,
          Function.update pipes .fm ⟨[], [], 0, none, 0⟩, answers⟩
  | forkMon {closed args next fm mon pipes answers} (pid : ℤ) (ends : IpcPipes) (count rounds : ℕ) :
      Step ⟨.call (.fork .mon closed args) next, fm, mon, pipes, answers⟩
        ⟨next (some pid), fm, monStart ends count rounds,
          Function.update pipes .mon ⟨[], [], 0, none, 0⟩, answers⟩
  | alone {op next fm mon pipes answers} (r : op.Res) (hop : Alone op) :
      Step ⟨.call op next, fm, mon, pipes, answers⟩ ⟨next r, fm, mon, pipes, answers⟩
  | fm {daemon p p' mon pipes q answers} (h : ChildStep fmView (p, pipes .fm) (p', q)) :
      Step ⟨daemon, p, mon, pipes, answers⟩ ⟨daemon, p', mon, Function.update pipes .fm q, answers⟩
  | mon {daemon fm p p' pipes q answers} (h : ChildStep monView (p, pipes .mon) (p', q)) :
      Step ⟨daemon, fm, p, pipes, answers⟩ ⟨daemon, fm, p', Function.update pipes .mon q, answers⟩

/-- The answer is an acknowledgement that was written when the child had read all that the daemon had
written to it, a probe being the last of it. -/
def Answer.Fits (a : Answer) : Prop := a.heard = a.wrote ∧
  a.last = some ipcCommandHealthProbe.toUInt64 ∧ a.word = ipcCommandAck.toUInt64

/-- All three keep to the conversations. -/
structure Keeping (places : Places) (w : World) : Prop where
  daemon : DaemonKeeps (fun _ _ => True) places w.daemon
  fm : ∀ place, places .fm = some place →
    InPlace place.ids .fm place.index w.fm (w.pipes .fm) fmView
  mon : ∀ place, places .mon = some place →
    InPlace place.ids .mon place.index w.mon (w.pipes .mon) monView
  answers : ∀ a ∈ w.answers, a.Fits

/-- What the place of a child says of its pipes, whichever child it is. -/
theorem Keeping.between {places : Places} {w : World} (h : Keeping places w) {c : ChildName} {place : Place}
    (hplace : places c = some place) : ((w.pipes c).wrote = told c place.index ∧
      (w.pipes c).last = lastTold place.ids c place.index) ∧
        ∃ j, Between place.ids c place.index j (w.pipes c).toChild (w.pipes c).toDaemon := by
  cases c with
  | fm =>
    obtain ⟨hwrote, j, alerted, -, -, hbetween, -⟩ := h.fm place hplace
    exact ⟨hwrote, j, hbetween⟩
  | mon =>
    obtain ⟨hwrote, j, alerted, -, -, hbetween, -⟩ := h.mon place hplace
    exact ⟨hwrote, j, hbetween⟩

theorem InPlace.daemon_takes {Op : Type} {Res : Op → Type} {α : Type} {view : (op : Op) → View (Res op)}
    {ids : UInt64 × UInt64} {c : ChildName} {i : ℕ} {p : Program Op Res α} {q : Pipes}
    (h : InPlace ids c i p q view) {m : UInt64 × ℕ} {rest : List (UInt64 × ℕ)} (hqueue : q.toDaemon = m :: rest) :
    InPlace ids c (i + 1) p { q with toDaemon := rest } view := by
  obtain ⟨hwrote, j, alerted, hkeeps, hheard, hbetween, halerted⟩ := h
  have hin := hbetween.daemon_ready (by simp [hqueue])
  rw [hqueue] at hbetween
  refine ⟨?_, j, alerted, hkeeps, hheard, hbetween.daemon_takes.2, halerted⟩
  simpa [told, lastTold, hin] using hwrote

theorem InPlace.daemon_gives {Op : Type} {Res : Op → Type} {α : Type} {view : (op : Op) → View (Res op)}
    {ids : UInt64 × UInt64} {c : ChildName} {i : ℕ} {p : Program Op Res α} {q : Pipes}
    (h : InPlace ids c i p q view) (hout : outgoing c i = true) :
    InPlace ids c (i + 1) p { q with
      toChild := q.toChild ++ [word ids c i]
      wrote := q.wrote + 1
      last := some (word ids c i) } view := by
  obtain ⟨hwrote, j, alerted, hkeeps, hheard, hbetween, halerted⟩ := h
  obtain ⟨hempty, hbetween'⟩ := hbetween.daemon_gives hout
  refine ⟨?_, j, alerted, hkeeps, hheard, ?_, by simp⟩
  · simp [told, lastTold, hout, hwrote.1]
  · simpa only [hempty] using hbetween'

variable {places : Places} {w : World}

/-- The daemon takes another place with one of the children. -/
theorem Keeping.move (h : Keeping places w) {c : ChildName} {place : Place} {q : Pipes}
    {daemon : DaemonProg (Option (PollFds × DaemonState))} {answers : List Answer}
    (hdaemon : DaemonKeeps (fun _ _ => True) (Function.update places c (some place)) daemon)
    (hfm : c = .fm → InPlace place.ids .fm place.index w.fm q fmView)
    (hmon : c = .mon → InPlace place.ids .mon place.index w.mon q monView)
    (hanswers : ∀ a ∈ answers, a.Fits) : Keeping (Function.update places c (some place))
      { w with daemon := daemon, pipes := Function.update w.pipes c q, answers := answers } := by
  refine ⟨hdaemon, fun place' hplace' => ?_, fun place' hplace' => ?_, hanswers⟩
  · cases c with
    | fm =>
      rw [Function.update_self] at hplace'
      cases hplace'
      exact hfm rfl
    | mon => exact h.fm place' hplace'
  · cases c with
    | fm => exact h.mon place' hplace'
    | mon =>
      rw [Function.update_self] at hplace'
      cases hplace'
      exact hmon rfl

theorem Keeping.read (h : Keeping places w) {site : Site} {fd : ℤ} {next}
    (hcall : w.daemon = .call (.read site fd) next) {m : UInt64 × ℕ} {rest : List (UInt64 × ℕ)}
    (hqueue : (w.pipes (siteChild site)).toDaemon = m :: rest) : ∃ places', Keeping places' { w with
      daemon := next (some (bytesOf m.1))
      pipes := Function.update w.pipes (siteChild site) { w.pipes (siteChild site) with toDaemon := rest }
      answers := w.answers ++ noted site (w.pipes (siteChild site)) m } := by
  have hdaemon := h.daemon
  rw [hcall] at hdaemon
  obtain ⟨place, hplace, -, hack, hnext⟩ := hdaemon
  obtain ⟨hwrote, j, hbetween⟩ := h.between hplace
  rw [hqueue] at hbetween
  obtain ⟨rfl, -⟩ := hbetween.daemon_takes
  refine ⟨_, h.move hnext (fun hc => ?_) (fun hc => ?_) ?_⟩
  · rw [hc] at hplace hqueue ⊢
    exact (h.fm place hplace).daemon_takes hqueue
  · rw [hc] at hplace hqueue ⊢
    exact (h.mon place hplace).daemon_takes hqueue
  · intro a ha
    rcases List.mem_append.mp ha with ha | ha
    · exact h.answers a ha
    · cases site with
      | probe c =>
        obtain rfl := List.mem_singleton.mp ha
        obtain ⟨hlast, hword⟩ := hack c rfl
        exact ⟨hwrote.1.symm, hwrote.2.trans hlast, hword⟩
      | acknowledge c => cases ha
      | timers => cases ha
      | loop c => cases ha
      | drain c => cases ha

theorem Keeping.write (h : Keeping places w) {site : Site} {fd : ℤ} {word' : UInt64} {next}
    (hcall : w.daemon = .call (.write site fd word') next) : ∃ places', Keeping places' { w with
      daemon := next .written
      pipes := Function.update w.pipes (siteChild site) { w.pipes (siteChild site) with
        toChild := (w.pipes (siteChild site)).toChild ++ [word']
        wrote := (w.pipes (siteChild site)).wrote + 1
        last := some word' } } := by
  have hdaemon := h.daemon
  rw [hcall] at hdaemon
  obtain ⟨place, hplace, hout, rfl, hnext⟩ := hdaemon
  refine ⟨_, h.move hnext (fun hc => ?_) (fun hc => ?_) h.answers⟩
  · rw [hc] at hplace hout ⊢
    exact (h.fm place hplace).daemon_gives hout
  · rw [hc] at hplace hout ⊢
    exact (h.mon place hplace).daemon_gives hout

theorem Keeping.alone (h : Keeping places w) {op : DaemonSys} {next} (hcall : w.daemon = .call op next)
    (hop : Alone op) (r : op.Res) : Keeping places { w with daemon := next r } := by
  have hdaemon := h.daemon
  rw [hcall] at hdaemon
  refine ⟨?_, h.fm, h.mon, h.answers⟩
  cases op
  case poll => exact hdaemon.2 r
  case select => exact hop.elim
  case read => exact hop.elim
  case write => exact hop.elim
  case pipe => exact hop.elim
  case fork => exact hop.elim
  all_goals exact hdaemon r

/-- A child that has just been started. -/
theorem inPlace_start {Op : Type} {Res : Op → Type} {α : Type} {view : (op : Op) → View (Res op)}
    {ids : UInt64 × UInt64} {c : ChildName} {p : Program Op Res α}
    (h : Keeps view ids c (fun _ _ _ => True) false 0 p) : InPlace ids c 0 p ⟨[], [], 0, none, 0⟩ view :=
  ⟨⟨rfl, rfl⟩, 0, false, h, rfl, .even 0, nofun⟩

theorem Keeping.step (h : Keeping places w) {w' : World} (hstep : Step w w') :
    ∃ places', Keeping places' w' := by
  cases hstep with
  | select r hready =>
    obtain ⟨place, hplace, hnext⟩ := h.daemon
    obtain ⟨-, j, hbetween⟩ := h.between hplace
    exact ⟨places, hnext _ fun hr => hbetween.daemon_ready (hready hr), h.fm, h.mon, h.answers⟩
  | read hqueue => exact h.read rfl hqueue
  | write => exact h.write rfl
  | pipe r wr => exact ⟨places, h.daemon r wr, h.fm, h.mon, h.answers⟩
  | forkFails => exact ⟨places, h.daemon.1, h.fm, h.mon, h.answers⟩
  | forkFm pid ids ends count rounds =>
    refine ⟨Function.update places .fm (some ⟨0, ids⟩), h.daemon.2 pid ids, fun place hplace => ?_, h.mon,
      h.answers⟩
    rw [Function.update_self] at hplace
    cases hplace
    exact inPlace_start (fmStart_keeps ids ends count rounds)
  | forkMon pid ends count rounds =>
    refine ⟨Function.update places .mon (some ⟨0, (0, 0)⟩), h.daemon.2 pid (0, 0), h.fm,
      fun place hplace => ?_, h.answers⟩
    rw [Function.update_self] at hplace
    cases hplace
    exact inPlace_start (monStart_keeps (0, 0) ends count rounds)
  | alone r hop => exact ⟨places, h.alone rfl hop r⟩
  | fm hchild =>
    refine ⟨places, h.daemon, fun place hplace => ?_, h.mon, h.answers⟩
    exact (h.fm place hplace).step hchild
  | mon hchild =>
    refine ⟨places, h.daemon, h.fm, fun place hplace => ?_, h.answers⟩
    exact (h.mon place hplace).step hchild

/-- Before the daemon has started its children, whatever there may have been. -/
theorem keeping_of_run {dSocket : ℤ} {directories : List String} {exchanges rounds : ℕ} {d : DaemonState}
    {fm : FmProg (Option Exit)} {mon : MonProg (Option Exit)} {pipes : ChildName → Pipes}
    (hrun : Relation.ReflTransGen Step
      ⟨daemonMain dSocket directories exchanges rounds d, fm, mon, pipes, []⟩ w) :
    ∃ places, Keeping places w := by
  induction hrun with
  | refl => exact ⟨fun _ => none, daemonMain_keeps d dSocket directories exchanges rounds, nofun, nofun, nofun⟩
  | tail _ hstep ih =>
    obtain ⟨places, h⟩ := ih
    exact h.step hstep

/-- When the daemon polls, no probe is on the way to a child and nothing at all from one; and whatever is
read as the answer to a probe is the acknowledgement of that probe. -/
theorem probes_matched {dSocket : ℤ} {directories : List String} {exchanges rounds : ℕ} {d : DaemonState}
    {fm : FmProg (Option Exit)} {mon : MonProg (Option Exit)} {pipes : ChildName → Pipes}
    (hrun : Relation.ReflTransGen Step
      ⟨daemonMain dSocket directories exchanges rounds d, fm, mon, pipes, []⟩ w) :
    (∀ fds next, w.daemon = .call (.poll fds) next → ∀ c, (w.pipes c).toDaemon = [] ∧
      ∀ word ∈ (w.pipes c).toChild, word ≠ ipcCommandHealthProbe.toUInt64) ∧ ∀ a ∈ w.answers, a.Fits := by
  obtain ⟨places, h⟩ := keeping_of_run hrun
  refine ⟨fun fds next hcall c => ?_, h.answers⟩
  have hdaemon := h.daemon
  rw [hcall] at hdaemon
  obtain ⟨place, hplace, hidle⟩ := hdaemon.1 c
  obtain ⟨-, j, hbetween⟩ := h.between hplace
  exact hbetween.idle hidle

end System

/-- Only the health timer has expired. -/
def expired : DaemonRevents :=
  ⟨⟨false, false, false, false⟩, ⟨false, false, false, false⟩, ⟨false, false, false, false⟩,
    ⟨false, false, false, false⟩, ⟨true, false, false, false⟩⟩

/-- Both children are started, and `reportman_fm` answers the first probe; `reportman_mon` has not yet
read its acknowledgement. -/
theorem probes_matched_answered : ∃ (w : World) (a : Answer), w.answers = [a] ∧ a.Fits := by
  have returns : ∀ (op : DaemonSys) {next fm mon pipes answers} (r : op.Res) (hop : Alone op),
      Step ⟨.call op next, fm, mon, pipes, answers⟩ ⟨next r, fm, mon, pipes, answers⟩ :=
    fun _ _ _ _ _ _ r hop => .alone r hop
  have alerted : ∃ signal, (.ok ⟨false, true⟩ : Except Errno Revents) = .ok ⟨signal, true⟩ := ⟨false, rfl⟩
  have hrun : ∃ (w : World) (a : Answer), Relation.ReflTransGen Step
      ⟨daemonMain 4 [] 0 1 (initially fun _ => 3), .halt, .halt, fun _ => ⟨[], [], 0, none, 0⟩, []⟩ w ∧
        w.answers = [a] := by
    apply Exists.intro
    apply Exists.intro
    apply And.intro
    apply Relation.ReflTransGen.head (.pipe 10 11)
    apply Relation.ReflTransGen.head (.pipe 12 13)
    apply Relation.ReflTransGen.head (.forkFm 100 (1, 2) ⟨11, 12⟩ 2 1)
    apply Relation.ReflTransGen.head (.alone () trivial)
    apply Relation.ReflTransGen.head (.alone () trivial)
    apply Relation.ReflTransGen.head (.fm (.write rfl))
    apply Relation.ReflTransGen.head (.select .ready (fun _ => nofun))
    apply Relation.ReflTransGen.head (.read rfl)
    apply Relation.ReflTransGen.head Step.write
    apply Relation.ReflTransGen.head (.fm (.read rfl rfl))
    apply Relation.ReflTransGen.head (.fm (.write rfl))
    apply Relation.ReflTransGen.head (.fm (.write rfl))
    apply Relation.ReflTransGen.head (.select .ready (fun _ => nofun))
    apply Relation.ReflTransGen.head (.read rfl)
    apply Relation.ReflTransGen.head (.read rfl)
    apply Relation.ReflTransGen.head (.pipe 14 15)
    apply Relation.ReflTransGen.head (.pipe 16 17)
    apply Relation.ReflTransGen.head (.forkMon 101 ⟨15, 16⟩ 3 1)
    apply Relation.ReflTransGen.head (.alone () trivial)
    apply Relation.ReflTransGen.head (.alone () trivial)
    apply Relation.ReflTransGen.head (.mon (.write rfl))
    apply Relation.ReflTransGen.head (.select .ready (fun _ => nofun))
    apply Relation.ReflTransGen.head (.read rfl)
    apply Relation.ReflTransGen.head Step.write
    apply Relation.ReflTransGen.head (returns (.uninitialized none []) 0 trivial)
    apply Relation.ReflTransGen.head (returns .timerCreate true trivial)
    apply Relation.ReflTransGen.head (returns .timerfdCreate (some 5) trivial)
    apply Relation.ReflTransGen.head (returns .settime true trivial)
    apply Relation.ReflTransGen.head (returns .sigaction true trivial)
    apply Relation.ReflTransGen.head (returns .initializeSignals (some 6) trivial)
    apply Relation.ReflTransGen.head (returns (.poll _) (.ok expired) trivial)
    apply Relation.ReflTransGen.head (returns .settime true trivial)
    apply Relation.ReflTransGen.head (.select .timeout nofun)
    apply Relation.ReflTransGen.head (.select .timeout nofun)
    apply Relation.ReflTransGen.head (returns (.kill _ _ _) true trivial)
    apply Relation.ReflTransGen.head Step.write
    apply Relation.ReflTransGen.head (.fm (.poll rfl alerted fun _ => List.cons_ne_nil _ _))
    apply Relation.ReflTransGen.head (.fm (.select rfl (r := .ready) (fun _ => List.cons_ne_nil _ _) nofun))
    apply Relation.ReflTransGen.head (.fm (.read rfl rfl))
    apply Relation.ReflTransGen.head (.fm (.write rfl))
    apply Relation.ReflTransGen.head (.select .ready (fun _ => nofun))
    apply Relation.ReflTransGen.head (.read rfl)
    exact .refl
    exact rfl
  obtain ⟨w, a, hrun, ha⟩ := hrun
  exact ⟨w, a, ha, (probes_matched hrun).2 a (by simp [ha])⟩

end Reportman.Probes
