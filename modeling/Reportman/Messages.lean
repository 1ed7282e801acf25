import Mathlib
import Reportman.Ipc

/-!
# What the words can be told apart by

A message is a tagged value or a command, and a reader tells which by testing bits. On a pipe that
loses nothing, the values come back if they keep out of the tag's bits, and a word is taken for what
it is if it is a value that does not look like a command.
-/
namespace Reportman.Messages
open Resumable Ipc

inductive PipeSys
  | select (fd : ℤ) (timeoutSecs : ℕ)
  | read (fd : ℤ)
  | write (fd : ℤ) (word : UInt64)
  | uninitialized (known : List UInt8)

abbrev PipeSys.Res : PipeSys → Type
  | .select _ _ => SelectResult
  | .read _ => Option (List UInt8)
  | .write _ _ => Bool
  | .uninitialized _ => UInt64

abbrev PipeProg := Program PipeSys PipeSys.Res

def pipeCalls : PipeCalls PipeProg where
  select fd timeoutSecs := Program.perform (PipeSys.select fd timeoutSecs)
  read fd := Program.perform (PipeSys.read fd)
  write fd word := Program.perform (PipeSys.write fd word)
  uninitialized known := Program.perform (PipeSys.uninitialized known)

def bytesOf (w : UInt64) : List UInt8 := (List.range 8).map fun i => (w.toNat / 256 ^ i).toUInt8

/-- What the environment does at one call. -/
structure PipeChoice where
  fails : Bool
  garbage : UInt64

/-- One pipe; the state is what has been written to it and not been read. -/
def pipeExec (c : PipeChoice) : (op : PipeSys) → List UInt64 → op.Res × List UInt64
  | .select _ _, s => (if s.isEmpty then .timeout else .ready, s)
  | .read _, [] => (some [], [])
  | .read _, w :: s => (some (bytesOf w), s)
  | .write _ word, s => if c.fails then (false, s) else (true, s ++ [word])
  | .uninitialized known, s => (stored known c.garbage, s)

theorem wordOf_bytesOf (w : UInt64) : (wordOf (bytesOf w)).toUInt64 = w := by
  apply UInt64.toNat_inj.mp
  have hw : w.toNat < 2 ^ 64 := w.toNat_lt
  simp only [bytesOf, List.range, List.range.loop, List.map_cons, List.map_nil, wordOf]
  simp
  omega

theorem length_bytesOf (w : UInt64) : (bytesOf w).length = 8 := by
  simp [bytesOf]

section Bits

variable {a m v w : UInt64}

theorem hasBits_iff : hasBits m w = true ↔ ∀ i < 64, m.toBitVec.getLsbD i → w.toBitVec.getLsbD i := by
  simp only [hasBits, decide_eq_true_eq, ← UInt64.toBitVec_inj, UInt64.toBitVec_and]
  constructor
  · intro h i _ hm
    rw [← h, BitVec.getLsbD_and, Bool.and_eq_true] at hm
    exact hm.1
  · intro h
    apply BitVec.eq_of_getLsbD_eq
    intro i hi
    have hbit := h i hi
    rw [BitVec.getLsbD_and]
    cases hm : m.toBitVec.getLsbD i <;> simp_all

/-- A mask is tested within a larger one. -/
theorem hasBits_mono (hle : hasBits a m = true) (h : hasBits m w = true) : hasBits a w = true := by
  rw [hasBits_iff] at *
  exact fun i hi ha => h i hi (hle i hi ha)

theorem hasBits_or : hasBits (a ||| m) w = (hasBits a w && hasBits m w) := by
  apply Bool.eq_iff_iff.mpr
  rw [Bool.and_eq_true, hasBits_iff, hasBits_iff, hasBits_iff, UInt64.toBitVec_or]
  simp only [BitVec.getLsbD_or, Bool.or_eq_true]
  constructor
  · exact fun h => ⟨fun i hi ha => h i hi (.inl ha), fun i hi hm => h i hi (.inr hm)⟩
  · exact fun h i hi => Or.rec (h.1 i hi) (h.2 i hi)

theorem hasBits_or_left : hasBits a (a ||| v) = true := by
  rw [hasBits_iff, UInt64.toBitVec_or]
  intro i _ ha
  simp [BitVec.getLsbD_or, ha]

/-- What is set besides a mask's own bits does not matter to it. -/
theorem hasBits_or_right (hd : a &&& m = 0) : hasBits m (a ||| v) = hasBits m v := by
  apply Bool.eq_iff_iff.mpr
  rw [hasBits_iff, hasBits_iff, UInt64.toBitVec_or]
  apply forall₂_congr
  intro i hi
  have hbit := congrArg (fun x => x.toBitVec.getLsbD i) hd
  simp only [UInt64.toBitVec_and, BitVec.getLsbD_and] at hbit
  cases hm : m.toBitVec.getLsbD i <;> simp_all

end Bits

/-- The bits in which a value can look like a command. -/
def commandBits : UInt64 := 0x0F000000

/-- A value is taken for a command if it has all of these bits. -/
theorem ipcIsCommand_ulong (v : UInt64) :
    ipcIsCommand (ipcValueUintFlag.toUInt64 ||| v) = hasBits commandBits v := by
  have hflag : ipcCommandFlag = ipcValueUintFlag.toUInt64 ||| commandBits := by decide
  change hasBits ipcCommandFlag _ = _
  rw [hflag, hasBits_or, hasBits_or_left, Bool.true_and, hasBits_or_right (by decide)]

/-- `IPC_COMMANDS`. -/
inductive IpcCommand
  | no
  | yes
  | ack
  | panic
  | healthProbe
  deriving DecidableEq, Repr

def IpcCommand.value : IpcCommand → UInt32
  | .no => ipcCommandNo
  | .yes => ipcCommandYes
  | .ack => ipcCommandAck
  | .panic => ipcCommandPanic
  | .healthProbe => ipcCommandHealthProbe

/-- A message, by its sender. -/
inductive Message
  | ulong (value : UInt64)
  | yes
  | no
  | ack
  | healthProbe
  | command (c : IpcCommand)

/-- The call that sends it. -/
def Message.send (pipes : IpcPipes) : Message → PipeProg Bool
  | .ulong value => ipcSendUlong pipeCalls pipes value
  | .yes => ipcSendYes pipeCalls pipes.write
  | .no => ipcSendNo pipeCalls pipes.write
  | .ack => ipcSendAck pipeCalls pipes
  | .healthProbe => ipcSendHealthProbe pipeCalls pipes
  | .command c => ipcSendCommand pipeCalls pipes c.value

/-- The command that a message is, if it is one. -/
def Message.command? : Message → Option IpcCommand
  | .ulong _ => none
  | .yes => some .yes
  | .no => some .no
  | .ack => some .ack
  | .healthProbe => some .healthProbe
  | .command c => some c

inductive Recogniser
  | ulong
  | command
  | ack
  | yes
  | no
  | healthProbe
  deriving DecidableEq, Repr

def Recogniser.accepts : Recogniser → UInt64 → Bool
  | .ulong => ipcIsUlong
  | .command => ipcIsCommand
  | .ack => ipcIsAck
  | .yes => ipcIsYes
  | .no => ipcIsNo
  | .healthProbe => ipcIsHealthProbe

/-- The messages that a recogniser is there for. -/
def Recogniser.IsOf : Recogniser → Message → Prop
  | .ulong, m => m.command? = none
  | .command, m => m.command? ≠ none
  | .ack, m => m.command? = some .ack
  | .yes, m => m.command? = some .yes
  | .no, m => m.command? = some .no
  | .healthProbe, m => m.command? = some .healthProbe

/-- Each recogniser accepts the word exactly when the message is one of its own. -/
def Unambiguous (m : Message) (word : UInt64) : Prop :=
  ∀ r : Recogniser, r.accepts word = true ↔ r.IsOf m

/-- The word of a message. -/
def Message.word : Message → UInt64
  | .ulong value => ipcValueUintFlag.toUInt64 ||| value
  | .yes => ipcCommandYes.toUInt64
  | .no => ipcCommandNo.toUInt64
  | .ack => ipcCommandAck.toUInt64
  | .healthProbe => ipcCommandHealthProbe.toUInt64
  | .command c => c.value.toUInt64

/-- No sender writes anything but its word. -/
theorem send_word {pipes : IpcPipes} {sched : ℕ → PipeChoice} {m : Message} {word : UInt64} {t : ℕ}
    (h : (run pipeExec sched (m.send pipes) t []).state = [word]) : word = m.word := by
  have hwrite : ∀ w, (run pipeExec sched (pipeCalls.write pipes.write w) t []).state = [word] →
      word = w := by
    intro w hw
    simp only [pipeCalls, Program.perform, run, pipeExec] at hw
    split_ifs at hw
    exact (List.head_eq_of_cons_eq hw).symm
  cases m with
  | ulong value =>
    simp only [Message.send, ipcSendUlong] at h
    split_ifs at h
    · cases h
    · exact hwrite _ h
  | command c =>
    simp only [Message.send, ipcSendCommand] at h
    split_ifs at h
    · cases h
    · exact hwrite _ h
  | yes => exact hwrite _ h
  | no => exact hwrite _ h
  | ack => exact hwrite _ h
  | healthProbe => exact hwrite _ h

/-- A command always passes for a value, too. -/
theorem ipcIsUlong_command {m : Message} (h : m.command? ≠ none) : ipcIsUlong m.word = true := by
  cases m with
  | ulong value => exact absurd rfl h
  | command c => cases c <;> decide
  | yes => decide
  | no => decide
  | ack => decide
  | healthProbe => decide

/-- Of the words that are sent, exactly the values without the command bits can be told apart. -/
theorem unambiguous_iff (pipes : IpcPipes) (sched : ℕ → PipeChoice) (m : Message) {word : UInt64}
    (hsent : (run pipeExec sched (m.send pipes) 0 []).state = [word]) :
    Unambiguous m word ↔ ∃ value, m = .ulong value ∧ hasBits commandBits value = false := by
  have hword := send_word hsent
  subst hword
  constructor
  · intro h
    cases hm : m.command? with
    | some c =>
      have hvalue := (h .ulong).mp (ipcIsUlong_command (by simp [hm]))
      rw [Recogniser.IsOf, hm] at hvalue
      cases hvalue
    | none =>
      cases m with
      | ulong value =>
        refine ⟨value, rfl, ?_⟩
        have hcommand := (h .command).not.mpr (by simp [Recogniser.IsOf, hm])
        rw [← ipcIsCommand_ulong]
        simpa [Recogniser.accepts, Message.word] using hcommand
      | yes => cases hm
      | no => cases hm
      | ack => cases hm
      | healthProbe => cases hm
      | command c => cases hm
  · rintro ⟨value, rfl, hvalue⟩ r
    have hcommand : ipcIsCommand (Message.ulong value).word = false := by
      rw [Message.word, ipcIsCommand_ulong, hvalue]
    have hother : ∀ mask : UInt64, hasBits ipcCommandFlag mask = true →
        ¬ hasBits mask (Message.ulong value).word = true := by
      intro mask hmask hbits
      have hflag : ipcIsCommand (Message.ulong value).word = true := hasBits_mono hmask hbits
      rw [hflag] at hcommand
      cases hcommand
    cases r with
    | ulong => exact iff_of_true hasBits_or_left rfl
    | command => simp [Recogniser.accepts, Recogniser.IsOf, hcommand, Message.command?]
    | ack => exact iff_of_false (hother _ (by decide)) nofun
    | yes => exact iff_of_false (hother _ (by decide)) nofun
    | no => exact iff_of_false (hother _ (by decide)) nofun
    | healthProbe => exact iff_of_false (hother _ (by decide)) nofun

/-- A pipe that loses nothing. -/
def reliable : PipeChoice := ⟨false, 0⟩

theorem unambiguous_iff_five : Unambiguous (.ulong 5) 0xF0000005 ↔
    ∃ value, Message.ulong 5 = .ulong value ∧ hasBits commandBits value = false :=
  unambiguous_iff ⟨4, 3⟩ (fun _ => reliable) (.ulong 5) (by decide)

/-- An acknowledgement passes for a value. -/
theorem not_unambiguous_ack :
    (run pipeExec (fun _ => reliable) (Message.send ⟨4, 3⟩ .ack) 0 []).state = [0xFF000002] ∧
      ¬ Unambiguous .ack 0xFF000002 := by
  refine ⟨by decide, fun h => ?_⟩
  have hvalue := (h .ulong).mp (by decide)
  cases hvalue

section Exchange

variable (pipes : IpcPipes)

/-- The values are sent, and as many are read. -/
def exchange (values : List UInt64) : PipeProg (List Bool × List UInt64) := do
  let sent ← values.mapM (ipcSendUlong pipeCalls pipes)
  let got ← values.mapM fun _ => ipcGetUlong pipeCalls pipes
  return (sent, got)

/-- The part of a value that the reader keeps. -/
def kept (value : UInt64) : UInt64 := value &&& 0x0FFFFFFF

theorem kept_eq_iff {value : UInt64} : kept value = value ↔ value < 0x10000000 := by
  rw [← UInt64.toNat_inj, UInt64.lt_iff_toNat_lt, kept, UInt64.toNat_and]
  change value.toNat &&& (2 ^ 28 - 1) = value.toNat ↔ value.toNat < 2 ^ 28
  rw [Nat.and_two_pow_sub_one_eq_mod]
  exact Nat.mod_eq_iff_lt (by decide)

/-- What the reader makes of a tagged value. -/
theorem masked_eq_kept (value : UInt64) :
    (ipcValueUintFlag.toUInt64 ||| value) &&& (~~~ipcValueUintFlag).toUInt64 = kept value := by
  apply UInt64.toBitVec_inj.mp
  rw [UInt64.toBitVec_and, UInt64.toBitVec_or, BitVec.and_or_distrib_right]
  exact BitVec.zero_or

theorem kept_ne_flag (value : UInt64) : kept value ≠ ipcValueUintFlag.toUInt64 := by
  intro h
  have hlow : (kept value).toNat < 2 ^ 28 := by
    rw [kept, UInt64.toNat_and]
    exact Nat.lt_of_le_of_lt Nat.and_le_right (by decide)
  rw [h] at hlow
  exact absurd hlow (by decide)

variable (sched : ℕ → PipeChoice) (t : ℕ) (s : List UInt64)

theorem run_ipcGetUlong (value : UInt64) :
    run pipeExec sched (ipcGetUlong pipeCalls pipes) t ((ipcValueUintFlag.toUInt64 ||| value) :: s) =
      ⟨some (kept value), t + 1, s⟩ := by
  have hword := wordOf_bytesOf (ipcValueUintFlag.toUInt64 ||| value)
  have hflag : ipcIsUlong (ipcValueUintFlag.toUInt64 ||| value) = true := hasBits_or_left
  have hmask := masked_eq_kept value
  change run pipeExec sched (received pipeCalls (bytesOf (ipcValueUintFlag.toUInt64 ||| value)) >>=
    fun msg => if ¬ ipcIsUlong msg then .ret ipcValueUintFlag.toUInt64
      else .ret (msg &&& (~~~ipcValueUintFlag).toUInt64)) (t + 1) s = _
  rw [received, if_pos (by simp [bytesOf]), hword, Program.pure_eq, Program.ret_bind, if_neg (by simp [hflag]), hmask]
  rfl

theorem run_ipcGetUlongs (values : List UInt64) :
    ∃ t', run pipeExec sched (values.mapM fun _ => ipcGetUlong pipeCalls pipes) t
      (values.map (ipcValueUintFlag.toUInt64 ||| ·)) = ⟨some (values.map kept), t', []⟩ := by
  induction values generalizing t with
  | nil => exact ⟨t, rfl⟩
  | cons value values ih =>
    obtain ⟨t', hrest⟩ := ih (t + 1)
    refine ⟨t', ?_⟩
    rw [List.mapM_cons, run_bind, List.map_cons, run_ipcGetUlong]
    change run pipeExec sched (_ >>= _) (t + 1) _ = _
    rw [run_bind, hrest]
    rfl

/-- An accepted value has been written. -/
theorem run_ipcSendUlong (value : UInt64) :
    ∃ b t' s', run pipeExec sched (ipcSendUlong pipeCalls pipes value) t s = ⟨some b, t', s'⟩ ∧
      (b = true → s' = s ++ [ipcValueUintFlag.toUInt64 ||| value]) := by
  unfold ipcSendUlong
  split_ifs
  · exact ⟨false, t, s, rfl, nofun⟩
  · simp only [pipeCalls, Program.perform, run, pipeExec]
    split_ifs
    · exact ⟨false, t + 1, s, rfl, nofun⟩
    · exact ⟨true, t + 1, _, rfl, fun _ => rfl⟩

theorem run_ipcSendUlongs (values : List UInt64) :
    ∃ sent t' s', run pipeExec sched (values.mapM (ipcSendUlong pipeCalls pipes)) t s =
        ⟨some sent, t', s'⟩ ∧
      ((∀ b ∈ sent, b = true) → s' = s ++ values.map (ipcValueUintFlag.toUInt64 ||| ·)) := by
  induction values generalizing s t with
  | nil => exact ⟨[], t, s, rfl, fun _ => (List.append_nil s).symm⟩
  | cons value values ih =>
    obtain ⟨b, t₁, s₁, hfirst, hb⟩ := run_ipcSendUlong pipes sched t s value
    obtain ⟨sent, t₂, s₂, hrest, hsent⟩ := ih t₁ s₁
    refine ⟨b :: sent, t₂, s₂, ?_, fun hall => ?_⟩
    · rw [List.mapM_cons, run_bind, hfirst]
      change run pipeExec sched (_ >>= _) t₁ s₁ = _
      rw [run_bind, hrest]
      rfl
    · rw [hsent fun b hb => hall b (List.mem_cons_of_mem _ hb), hb (hall b (List.mem_cons_self ..))]
      simp

/-- Accepted values come back exactly if they keep out of the bits of the tag. -/
theorem exchange_survives_iff (values got : List UInt64) (sent : List Bool)
    (hrun : (run pipeExec sched (exchange pipes values) 0 []).result = some (sent, got))
    (haccepted : ∀ b ∈ sent, b = true) :
    (got = values ∧ ∀ value ∈ got, value ≠ ipcValueUintFlag.toUInt64) ↔
      ∀ value ∈ values, value < 0x10000000 := by
  obtain ⟨sent', t₁, s₁, hsend, hs₁⟩ := run_ipcSendUlongs pipes sched 0 [] values
  rw [exchange, run_bind, hsend] at hrun
  change (run pipeExec sched (_ >>= fun got => Program.ret (sent', got)) t₁ s₁).result = _ at hrun
  have hgot : sent' = sent ∧ (run pipeExec sched
      (values.mapM fun _ => ipcGetUlong pipeCalls pipes) t₁ s₁).result = some got := by
    rw [run_bind, Outcome.andThen] at hrun
    cases hr : (run pipeExec sched (values.mapM fun _ => ipcGetUlong pipeCalls pipes) t₁ s₁).result with
    | none => simp [hr] at hrun
    | some got' =>
      simp only [hr, run, Option.some.injEq, Prod.mk.injEq] at hrun
      exact ⟨hrun.1, congrArg some hrun.2⟩
  obtain ⟨rfl, hgot⟩ := hgot
  obtain ⟨t₂, hread⟩ := run_ipcGetUlongs pipes sched t₁ values
  rw [hs₁ haccepted, List.nil_append, hread, Option.some.injEq] at hgot
  subst hgot
  constructor
  · rintro ⟨hsame, -⟩ value hv
    have hmap : values.map kept = values.map id := by rw [hsame, List.map_id]
    exact kept_eq_iff.mp (List.map_inj_left.mp hmap value hv)
  · intro hsmall
    refine ⟨?_, fun value hv => ?_⟩
    · calc values.map kept = values.map id :=
            List.map_inj_left.mpr fun value hv => kept_eq_iff.mpr (hsmall value hv)
        _ = values := List.map_id values
    · obtain ⟨value', -, rfl⟩ := List.mem_map.mp hv
      exact kept_ne_flag value'

theorem exchange_survives_iff_pair :
    ([0, 7] = ([0, 7] : List UInt64) ∧ ∀ value ∈ ([0, 7] : List UInt64), value ≠ ipcValueUintFlag.toUInt64) ↔
      ∀ value ∈ ([0, 7] : List UInt64), value < 0x10000000 :=
  exchange_survives_iff ⟨4, 3⟩ (fun _ => reliable) [0, 7] [0, 7] [true, true]
    (by decide +kernel) (by decide)

/-- The least value that is lost, although it is accepted. -/
theorem not_exchange_survives :
    (run pipeExec (fun _ => reliable) (exchange ⟨4, 3⟩ [0x10000000]) 0 []).result =
      some ([true], [0]) ∧ [0] ≠ ([0x10000000] : List UInt64) := by
  refine ⟨by decide +kernel, by decide⟩

end Exchange

end Reportman.Messages
