import Mathlib
import Reportman.Messages

/-!
# What the getters take for a message

Each getter reads eight bytes into a variable of its own, and asks afterwards only whether `read` has
returned -1. After a shorter read the variable still holds, in part or altogether, what the stack held
before.
-/
namespace Reportman.Getters
open Resumable Ipc

inductive GetterSys
  | select (fd : ℤ) (timeoutSecs : ℕ)
  | read (fd : ℤ)
  | write (fd : ℤ) (word : UInt64)
  | uninitialized (known : List UInt8)

abbrev GetterSys.Res : GetterSys → Type
  | .select _ _ => SelectResult
  | .read _ => Option (List UInt8)
  | .write _ _ => Bool
  | .uninitialized _ => UInt64

abbrev GetterProg := Program GetterSys GetterSys.Res

def getterCalls : PipeCalls GetterProg where
  select fd timeoutSecs := Program.perform (GetterSys.select fd timeoutSecs)
  read fd := Program.perform (GetterSys.read fd)
  write fd word := Program.perform (GetterSys.write fd word)
  uninitialized known := Program.perform (GetterSys.uninitialized known)

/-- What comes to a getter: the answer of `select`, the bytes of `read` (none at end of file, nothing at all
when it fails), and what the variable held before. -/
structure Delivery where
  selected : SelectResult
  got : Option { bytes : List UInt8 // bytes.length ≤ 8 }
  stale : UInt64

def Delivery.exec (e : Delivery) : (op : GetterSys) → Unit → op.Res × Unit
  | .select _ _, _ => (e.selected, ())
  | .read _, _ => (e.got.map (·.val), ())
  | .write _ _, _ => (true, ())
  | .uninitialized known, _ => (stored known e.stale, ())

/-- This call has read eight bytes. -/
def Delivery.Whole (e : Delivery) : Prop := ∃ bytes, e.got = some bytes ∧ bytes.val.length = 8

inductive Getter
  | ulong
  | command
  | ack
  | healthProbe
  | yes
  | no
  deriving DecidableEq, Repr

/-- The recogniser that a getter applies to the word. -/
def Getter.recognises : Getter → UInt64 → Bool
  | .ulong => ipcIsUlong
  | .command => ipcIsCommand
  | .ack => ipcIsAck
  | .healthProbe => ipcIsHealthProbe
  | .yes => ipcIsYes
  | .no => ipcIsNo

/-- `true` is reported as 1. -/
def reported : Bool → Option UInt64
  | true => some 1
  | false => none

/-- What a getter reports: its value, or nothing for its error value. -/
def Getter.get (pipes : IpcPipes) (timeoutSecs : ℕ) : Getter → GetterProg (Option UInt64)
  | .ulong => do
      let value ← ipcGetUlong getterCalls pipes
      return if value = ipcValueUintFlag.toUInt64 then none else some value
  | .command => do
      let (result, word) ← ipcGetCommand getterCalls pipes timeoutSecs
      return if result = 1 then word.map (·.toUInt64) else none
  | .ack => do return reported (← ipcGetAck getterCalls pipes)
  | .healthProbe => do return reported (← ipcGetHealthProbe getterCalls pipes)
  | .yes => do return reported (← ipcGetYes getterCalls pipes)
  | .no => do return reported (← ipcGetNo getterCalls pipes)

section Outcome

variable (pipes : IpcPipes) (timeoutSecs : ℕ) (g : Getter) (e : Delivery)

/-- What the getter reports of a delivery. -/
def outcome : Option (Option UInt64) := (run Delivery.exec (fun _ => e) (g.get pipes timeoutSecs) 0 ()).result

/-- Of eight bytes nothing stale is left. -/
theorem stored_whole {bytes : List UInt8} (h : bytes.length = 8) (old : UInt64) :
    stored bytes old = (wordOf bytes).toUInt64 := by
  have hnone : old.toNat / 256 ^ bytes.length = 0 := by
    rw [h]
    exact Nat.div_eq_of_lt old.toNat_lt
  rw [stored, hnone, Nat.zero_mul, Nat.add_zero]

variable {α : Type}

theorem run_received (bytes : List UInt8) (k : UInt64 → GetterProg α) (t : ℕ) :
    ∃ t', run Delivery.exec (fun _ => e) (received getterCalls bytes >>= k) t () =
      run Delivery.exec (fun _ => e) (k (stored bytes e.stale)) t' () := by
  unfold received
  split_ifs with h
  · exact ⟨t, by rw [stored_whole h]; rfl⟩
  · exact ⟨t + 1, rfl⟩

/-- The word that a getter examines, if it comes to that. -/
def Delivery.word (e : Delivery) (g : Getter) : Option UInt64 :=
  if g = .command ∧ e.selected ≠ .ready then none else e.got.map fun bytes => stored bytes.val e.stale

/-- The value that a getter makes of a word it recognises. -/
def Getter.value : Getter → UInt64 → UInt64
  | .ulong, msg => Messages.kept msg
  | .command, msg => msg.toUInt32.toUInt64
  | _, _ => 1

theorem reported_eq (b : Bool) : reported b = if b then some 1 else none := by
  cases b <;> rfl

theorem outcome_recognised (recognise : UInt64 → Bool) :
    (run Delivery.exec (fun _ => e)
      (getRecognised getterCalls pipes recognise >>= fun b => .ret (reported b)) 0 ()).result =
      some ((e.got.map fun bytes => stored bytes.val e.stale).bind fun msg =>
        if recognise msg then some 1 else none) := by
  simp only [← reported_eq]
  obtain ⟨selected, _ | bytes, stale⟩ := e
  · rfl
  obtain ⟨t', hrun⟩ := run_received ⟨selected, some bytes, stale⟩ bytes.val
    (fun msg => (.ret (reported (recognise msg)) : GetterProg (Option UInt64))) 1
  change (run Delivery.exec _ ((received getterCalls bytes.val >>= fun msg => .ret (recognise msg)) >>=
    fun b => .ret (reported b)) 1 ()).result = _
  rw [bind_assoc]
  exact congrArg Outcome.result hrun

theorem outcome_ulong : outcome pipes timeoutSecs .ulong e =
    some ((e.word .ulong).bind fun msg => if ipcIsUlong msg then some (Messages.kept msg) else none) := by
  obtain ⟨selected, _ | bytes, stale⟩ := e
  · rfl
  let k (msg : UInt64) : GetterProg (Option UInt64) :=
    (if ¬ ipcIsUlong msg then .ret ipcValueUintFlag.toUInt64
      else .ret (msg &&& (~~~ipcValueUintFlag).toUInt64)) >>= fun value =>
        .ret (if value = ipcValueUintFlag.toUInt64 then none else some value)
  have hk (msg : UInt64) (t : ℕ) :
      (run Delivery.exec (fun _ => ⟨selected, some bytes, stale⟩) (k msg) t ()).result =
      some (if ipcIsUlong msg then some (Messages.kept msg) else none) := by
    by_cases h : ipcIsUlong msg = true
    · have hkept : msg &&& (~~~ipcValueUintFlag).toUInt64 = Messages.kept msg := rfl
      simp only [k, h, not_true_eq_false, if_false, if_true, Program.ret_bind, hkept,
        Messages.kept_ne_flag, run]
    · simp [k, h, run]
  obtain ⟨t', hrun⟩ := run_received ⟨selected, some bytes, stale⟩ bytes.val k 1
  change (run Delivery.exec _ ((received getterCalls bytes.val >>= fun msg => _) >>= _) 1 ()).result = _
  rw [bind_assoc]
  exact (congrArg Outcome.result hrun).trans (hk _ _)

theorem outcome_command : outcome pipes timeoutSecs .command e =
    some ((e.word .command).bind fun msg => if ipcIsCommand msg then some msg.toUInt32.toUInt64 else none) := by
  obtain ⟨_ | _ | _, _ | bytes, stale⟩ := e
  any_goals rfl
  let k (msg : UInt64) : GetterProg (Option UInt64) :=
    (if ¬ ipcIsCommand msg then .ret (0, none) else .ret (1, some msg.toUInt32)) >>=
      fun (answer : ℤ × Option UInt32) =>
        .ret (if answer.1 = 1 then answer.2.map (·.toUInt64) else none)
  have hk (msg : UInt64) (t : ℕ) :
      (run Delivery.exec (fun _ => ⟨.ready, some bytes, stale⟩) (k msg) t ()).result =
      some (if ipcIsCommand msg then some msg.toUInt32.toUInt64 else none) := by
    by_cases h : ipcIsCommand msg = true <;> simp [k, h, run]
  obtain ⟨t', hrun⟩ := run_received ⟨.ready, some bytes, stale⟩ bytes.val k 2
  change (run Delivery.exec _ ((received getterCalls bytes.val >>= fun msg => _) >>= _) 2 ()).result = _
  rw [bind_assoc]
  exact (congrArg Outcome.result hrun).trans (hk _ _)

/-- A value is reported exactly when the word is recognised. -/
theorem outcome_eq : outcome pipes timeoutSecs g e =
    some ((e.word g).bind fun msg => if g.recognises msg then some (g.value msg) else none) := by
  have hword (hg : g ≠ .command) : e.word g = e.got.map fun bytes => stored bytes.val e.stale :=
    if_neg fun h => hg h.1
  cases g with
  | ulong => exact outcome_ulong pipes timeoutSecs e
  | command => exact outcome_command pipes timeoutSecs e
  | ack =>
    rw [hword (by decide)]
    exact outcome_recognised pipes e ipcIsAck
  | healthProbe =>
    rw [hword (by decide)]
    exact outcome_recognised pipes e ipcIsHealthProbe
  | yes =>
    rw [hword (by decide)]
    exact outcome_recognised pipes e ipcIsYes
  | no =>
    rw [hword (by decide)]
    exact outcome_recognised pipes e ipcIsNo

/-- The call returns, and a value comes from a whole message only. -/
def FreshOnly : Prop :=
  outcome pipes timeoutSecs g e ≠ none ∧
    ((∃ value, outcome pipes timeoutSecs g e = some (some value)) → e.Whole)

/-- The getter gets to its `read`. -/
def Delivery.Readable (e : Delivery) (g : Getter) : Prop := g = .command → e.selected = .ready

/-- A getter is right exactly when a short read leaves a word in its variable that it does not recognise. -/
theorem get_fresh_iff : FreshOnly pipes timeoutSecs g e ↔
    ∀ bytes, e.got = some bytes → bytes.val.length < 8 → e.Readable g →
      g.recognises (stored bytes.val e.stale) = false := by
  have hword (bytes) (hgot : e.got = some bytes) (hready : e.Readable g) :
      e.word g = some (stored bytes.val e.stale) := by
    have hselected : ¬ (g = .command ∧ e.selected ≠ .ready) := fun h => h.2 (hready h.1)
    rw [Delivery.word, if_neg hselected, hgot, Option.map_some]
  have hvalue : (∃ value, outcome pipes timeoutSecs g e = some (some value)) ↔
      ∃ msg, e.word g = some msg ∧ g.recognises msg = true := by
    rw [outcome_eq]
    cases hw : e.word g with
    | none => simp
    | some msg => by_cases h : g.recognises msg = true <;> simp [h]
  have hreturns : outcome pipes timeoutSecs g e ≠ none := by simp [outcome_eq]
  rw [FreshOnly, hvalue]
  constructor
  · rintro ⟨-, hfresh⟩ bytes hgot hshort hready
    by_contra hrec
    obtain ⟨bytes', hgot', hwhole⟩ := hfresh ⟨_, hword bytes hgot hready, by simpa using hrec⟩
    rw [hgot, Option.some.injEq] at hgot'
    subst hgot'
    omega
  · intro hshort
    refine ⟨hreturns, ?_⟩
    rintro ⟨msg, hmsg, hrec⟩
    rw [Delivery.word] at hmsg
    split_ifs at hmsg with hselected
    obtain ⟨bytes, hgot, rfl⟩ := Option.map_eq_some_iff.mp hmsg
    have hready : e.Readable g := fun hg => by_contra fun hne => hselected ⟨hg, hne⟩
    refine ⟨bytes, hgot, ?_⟩
    by_contra hne
    have hlt : bytes.val.length < 8 := by
      have := bytes.property
      omega
    rw [hshort bytes hgot hlt hready] at hrec
    cases hrec

end Outcome

/-- A closed pipe, with the last acknowledgement still in the variable. -/
def leftover : Delivery := ⟨.ready, some ⟨[], by decide⟩, ipcCommandAck.toUInt64⟩

theorem not_fresh_leftover :
    outcome ⟨4, 5⟩ 5 .ack leftover = some (some 1) ∧ ¬ leftover.Whole ∧ ¬ FreshOnly ⟨4, 5⟩ 5 .ack leftover := by
  have hout : outcome ⟨4, 5⟩ 5 .ack leftover = some (some 1) := by
    rw [outcome_eq]
    decide
  have hpart : ¬ leftover.Whole := by
    rintro ⟨bytes, hgot, hlength⟩
    rw [leftover, Option.some.injEq] at hgot
    rw [← hgot] at hlength
    exact absurd hlength (by decide)
  exact ⟨hout, hpart, fun h => hpart (h.2 ⟨1, hout⟩)⟩

end Reportman.Getters
