import Mathlib
import Reportman.Resumable

/-!
# The words on the pipes

The daemon and its children exchange 8-byte words over pipes. The functions are stated over the calls
they make, so that each process can supply its own. What a variable holds that nothing has been
stored in is up to the environment.
-/
namespace Reportman.Ipc
open Resumable

def ipcCommandFlag : UInt64 := 0xFF000000
def ipcCommandNo : UInt32 := 0xFF000000
def ipcCommandYes : UInt32 := 0xFF000001
def ipcCommandAck : UInt32 := 0xFF000002
def ipcCommandHealthProbe : UInt32 := 0xFF000003
def ipcCommandPanic : UInt32 := 0xFFACFFAC
def ipcValueUintFlag : UInt32 := 0xF0000000
def ipcValueUintMax : UInt32 := 0xEFFFFFFF
def ipcTimeoutErr : ℤ := -3
def ipcTimeout : ℕ := 5

structure IpcPipes where
  write : ℤ
  read : ℤ

inductive SelectResult
  | error
  | timeout
  | ready
  deriving DecidableEq, Repr

/-- The calls of the pipe functions. `read` gives the bytes it has got, at most eight, or nothing
when it returns -1; `uninitialized known` is the value of a word of which only the bytes `known`
have been stored. -/
structure PipeCalls (m : Type → Type) where
  select : ℤ → ℕ → m SelectResult
  read : ℤ → m (Option (List UInt8))
  write : ℤ → UInt64 → m Bool
  uninitialized : List UInt8 → m UInt64

/-- Little-endian. -/
def wordOf : List UInt8 → ℕ
  | [] => 0
  | b :: bs => b.toNat + 256 * wordOf bs

/-- A word whose first bytes are `known` and whose others are those of `old`. -/
def stored (known : List UInt8) (old : UInt64) : UInt64 :=
  (wordOf known + old.toNat / 256 ^ known.length * 256 ^ known.length).toUInt64

/-- All bits of `mask` are set in `msg`. -/
def hasBits (mask msg : UInt64) : Bool := msg &&& mask = mask

def ipcIsCommand (msg : UInt64) : Bool := msg &&& ipcCommandFlag = ipcCommandFlag
def ipcIsAck (msg : UInt64) : Bool := hasBits ipcCommandAck.toUInt64 msg
def ipcIsHealthProbe (msg : UInt64) : Bool := hasBits ipcCommandHealthProbe.toUInt64 msg
def ipcIsYes (msg : UInt64) : Bool := hasBits ipcCommandYes.toUInt64 msg
def ipcIsNo (msg : UInt64) : Bool := hasBits ipcCommandNo.toUInt64 msg
def ipcIsUlong (msg : UInt64) : Bool := hasBits ipcValueUintFlag.toUInt64 msg

section Source

variable {Op : Type} {Res : Op → Type} (io : PipeCalls (Program Op Res)) (pipes : IpcPipes)

/-- `msg` after a `read` of eight bytes into it. -/
def received (bytes : List UInt8) : Program Op Res UInt64 :=
  if bytes.length = 8 then return (wordOf bytes).toUInt64 else io.uninitialized bytes

/-- The value returned, and what has been stored in `*command`. -/
def ipcGetCommand (timeoutSecs : ℕ) : Program Op Res (ℤ × Option UInt32) := do
  match ← io.select pipes.read timeoutSecs with
  | .error => return (0, none)
  | .timeout => return (ipcTimeoutErr, none)
  | .ready =>
      match ← io.read pipes.read with
      | none => return (0, none)
      | some bytes =>
          let msg ← received io bytes
          if ¬ ipcIsCommand msg then return (0, none) else return (1, some msg.toUInt32)

def ipcSendCommand (command : UInt32) : Program Op Res Bool :=
  if pipes.read < 0 ∧ pipes.write < 0 then return false
  else io.write pipes.write command.toUInt64

def ipcSendYes (pipeId : ℤ) : Program Op Res Bool := io.write pipeId ipcCommandYes.toUInt64
def ipcSendNo (pipeId : ℤ) : Program Op Res Bool := io.write pipeId ipcCommandNo.toUInt64
def ipcSendAck : Program Op Res Bool := io.write pipes.write ipcCommandAck.toUInt64
def ipcSendHealthProbe : Program Op Res Bool :=
  io.write pipes.write ipcCommandHealthProbe.toUInt64

def ipcSendUlong (value : UInt64) : Program Op Res Bool :=
  if value > ipcValueUintMax.toUInt64 then return false
  else io.write pipes.write (ipcValueUintFlag.toUInt64 ||| value)

/-- The complement is taken before the flag is widened. -/
def ipcGetUlong : Program Op Res UInt64 := do
  match ← io.read pipes.read with
  | none => return ipcValueUintFlag.toUInt64
  | some bytes =>
      let msg ← received io bytes
      if ¬ ipcIsUlong msg then return ipcValueUintFlag.toUInt64
      else return msg &&& (~~~ipcValueUintFlag).toUInt64

/-- `ipc_get_ack`, `ipc_get_health_probe`, `ipc_get_no` and `ipc_get_yes` read a word and apply their
recogniser to it. -/
def getRecognised (recognise : UInt64 → Bool) : Program Op Res Bool := do
  match ← io.read pipes.read with
  | none => return false
  | some bytes =>
      let msg ← received io bytes
      return recognise msg

def ipcGetAck : Program Op Res Bool := getRecognised io pipes ipcIsAck
def ipcGetHealthProbe : Program Op Res Bool := getRecognised io pipes ipcIsHealthProbe
def ipcGetNo : Program Op Res Bool := getRecognised io pipes ipcIsNo
def ipcGetYes : Program Op Res Bool := getRecognised io pipes ipcIsYes

/-- What the child does first: whether it has been acknowledged in its turn. -/
def acknowledgeDaemon : Program Op Res Bool := do
  if ¬ (← ipcSendAck io pipes) then return false
  else ipcGetAck io pipes

end Source

/-- Only a command word has the low half of a PANIC. -/
theorem ipcIsCommand_of_panic {msg : UInt64} (h : msg.toUInt32 = ipcCommandPanic) :
    ipcIsCommand msg = true := by
  have hlow : msg.toBitVec.setWidth 32 = 0xFFACFFAC#32 := congrArg UInt32.toBitVec h
  have hmask : msg &&& ipcCommandFlag = ipcCommandFlag := by
    apply UInt64.toBitVec_inj.mp
    apply BitVec.eq_of_getLsbD_eq
    intro k hk
    have hbit := congrArg (fun b => BitVec.getLsbD b k) hlow
    simp only [BitVec.getLsbD_setWidth] at hbit
    simp only [ipcCommandFlag, UInt64.toBitVec_and, BitVec.getLsbD_and]
    interval_cases k <;> simp_all
  simpa [ipcIsCommand] using hmask

end Reportman.Ipc
