import Mathlib
import Reportman.FileSystem

/-!
# The buffer for the output of `lsof`

`__save_pipe_buffer` puts together what `fgets` gives it. Its first block is twice as long as the first piece,
and a block that has become too short is doubled, once. So a long piece that follows short ones runs over the
end, and what decides about it is how the lengths lie between the powers of two.
-/
namespace Reportman.PipeBuffer
open FileSystem (Bytes)

section Source

/-- What `fgets` leaves in its 1024 bytes: some bytes before the zero. -/
structure Chunk where
  bytes : Bytes
  nonempty : bytes ≠ []
  short : bytes.length ≤ 1023
  plain : 0 ∉ bytes

/-- The bytes from a pointer on, those behind the end of its block as well. -/
abbrev Memory := ℕ → UInt8

/-- The variables; `lsof_output` is `NULL` as long as nothing is allocated. -/
structure LsofBuffer where
  dataAllocated : ℕ
  dataUsed : ℕ
  lsofOutput : Memory

/-- `realloc` when a piece is handled: what is in the block behind the bytes that are kept, or a failure. -/
abbrev Reallocs := ℕ → Option Memory

/-- What `memcpy` has to find room for. -/
structure Append where
  dataUsed : ℕ
  bufferLen : ℕ
  dataAllocated : ℕ
  deriving DecidableEq, Repr

/-- `data_used + bufferLen + 1 <= data_allocated`. -/
def Append.Fits (a : Append) : Prop := a.dataUsed + a.bufferLen + 1 ≤ a.dataAllocated

instance (a : Append) : Decidable a.Fits := inferInstanceAs (Decidable (_ ≤ _))

def LsofBuffer.ensureSpace (b : LsofBuffer) (bufferLen : ℕ) (block : Option Memory) : Option LsofBuffer :=
  if b.dataUsed + bufferLen + 1 > b.dataAllocated then
    let newAllocated := if b.dataAllocated = 0 then bufferLen * 2 else b.dataAllocated * 2
    block.map fun fresh =>
      { b with
        dataAllocated := newAllocated
        lsofOutput := fun i => if i < min b.dataAllocated newAllocated then b.lsofOutput i else fresh i }
  else some b

/-- `memcpy`, and the zero behind it. -/
def LsofBuffer.append (b : LsofBuffer) (buffer : Bytes) : LsofBuffer :=
  { b with
    dataUsed := b.dataUsed + buffer.length
    lsofOutput := fun i =>
      if i < b.dataUsed then b.lsofOutput i
      else if i ≤ b.dataUsed + buffer.length then buffer.getD (i - b.dataUsed) 0
      else b.lsofOutput i }

/-- The loop: the pieces that are appended, and the variables behind it if the process has not ended. -/
def saveLoop (reallocs : Reallocs) : ℕ → LsofBuffer → List Chunk → List Append × Option LsofBuffer
  | _, b, [] => ([], some b)
  | k, b, buffer :: rest =>
      match b.ensureSpace buffer.bytes.length (reallocs k) with
      | none => ([], none)
      | some b =>
          let (appends, result) := saveLoop reallocs (k + 1) (b.append buffer.bytes) rest
          (⟨b.dataUsed, buffer.bytes.length, b.dataAllocated⟩ :: appends, result)

def start : LsofBuffer := ⟨0, 0, fun _ => 0⟩

/-- The string that a pointer points to: the bytes before the first zero. -/
def cString (b : LsofBuffer) : Bytes := ((List.range (b.dataUsed + 1)).map b.lsofOutput).takeWhile (· ≠ 0)

/-- What is returned: the string, or `NULL`. -/
def returned (b : LsofBuffer) : Option Bytes := if b.dataAllocated = 0 then none else some (cString b)

def savePipeBuffer (reallocs : Reallocs) (chunks : List Chunk) : List Append × Option (Option Bytes) :=
  let (appends, result) := saveLoop reallocs 0 start chunks
  (appends, result.map returned)

end Source

section Capacity

/-- All bytes of the pieces. -/
def text (chunks : List Chunk) : Bytes := chunks.flatMap Chunk.bytes

/-- The pieces are in the block, a zero is behind them, and the block is the shortest that doubling can have
made: `first` is the length of the first piece. -/
structure Holds (first : ℕ) (before : List Chunk) (b : LsofBuffer) : Prop where
  used : b.dataUsed = (text before).length
  content : ∀ i < b.dataUsed, b.lsofOutput i = (text before).getD i 0
  terminated : b.lsofOutput b.dataUsed = 0
  doubled : ∃ j, b.dataAllocated = first * 2 ^ (j + 1) ∧ first * 2 ^ j ≤ b.dataUsed
  room : b.dataUsed < b.dataAllocated

/-- A piece takes the text past two lengths of a block, one twice the other. -/
def Leaps (first used length : ℕ) : Prop :=
  ∃ k, used < first * 2 ^ k ∧ first * 2 ^ (k + 1) ≤ used + length

variable {first : ℕ} {before : List Chunk} {b b' : LsofBuffer} {c : Chunk}

theorem Chunk.length_pos (c : Chunk) : 0 < c.bytes.length := List.length_pos_iff.mpr c.nonempty

@[simp] theorem text_append (before after : List Chunk) : text (before ++ after) = text before ++ text after := by
  simp [text]

@[simp] theorem text_singleton (c : Chunk) : text [c] = c.bytes := by simp [text]

@[simp] theorem append_dataUsed (b : LsofBuffer) (buffer : Bytes) :
    (b.append buffer).dataUsed = b.dataUsed + buffer.length := rfl

@[simp] theorem append_dataAllocated (b : LsofBuffer) (buffer : Bytes) :
    (b.append buffer).dataAllocated = b.dataAllocated := rfl

/-- What an append leaves, wherever the block ends. -/
theorem append_content (c : Chunk) (hused : b.dataUsed = (text before).length)
    (hcontent : ∀ i < b.dataUsed, b.lsofOutput i = (text before).getD i 0) :
    (∀ i < (b.append c.bytes).dataUsed, (b.append c.bytes).lsofOutput i = (text (before ++ [c])).getD i 0) ∧
      (b.append c.bytes).lsofOutput (b.append c.bytes).dataUsed = 0 := by
  constructor
  · intro i hi
    rw [append_dataUsed] at hi
    simp only [LsofBuffer.append, text_append, text_singleton]
    split_ifs with hold hnew
    · rw [hcontent i hold, List.getD_append _ _ _ _ (by omega)]
    · rw [List.getD_append_right _ _ _ _ (by omega), hused]
    · omega
  · simp [LsofBuffer.append]

theorem Holds.append (h : Holds first before b) (hroom : b.dataUsed + c.bytes.length < b.dataAllocated) :
    Holds first (before ++ [c]) (b.append c.bytes) := by
  obtain ⟨hcontent, hterminated⟩ := append_content c h.used h.content
  obtain ⟨j, hallocated, hsmall⟩ := h.doubled
  constructor
  · simp [h.used]
  · exact hcontent
  · exact hterminated
  · refine ⟨j, hallocated, ?_⟩
    rw [append_dataUsed]
    omega
  · simpa using hroom

/-- A block that is too short is doubled, and keeps what is in it. -/
theorem Holds.append_doubled (h : Holds first before b)
    (hfull : b.dataAllocated ≤ b.dataUsed + c.bytes.length)
    (hroom : b.dataUsed + c.bytes.length < b.dataAllocated * 2) {memory : Memory}
    (hkeeps : ∀ i < b.dataAllocated, memory i = b.lsofOutput i) :
    Holds first (before ++ [c])
      (LsofBuffer.append ⟨b.dataAllocated * 2, b.dataUsed, memory⟩ c.bytes) := by
  have hcontent : ∀ i < b.dataUsed, memory i = (text before).getD i 0 := by
    intro i hi
    rw [hkeeps i (hi.trans h.room), h.content i hi]
  obtain ⟨hcontent, hterminated⟩ := @append_content before ⟨b.dataAllocated * 2, b.dataUsed, memory⟩ c h.used
    hcontent
  obtain ⟨j, hallocated, hsmall⟩ := h.doubled
  constructor
  · simp [h.used]
  · exact hcontent
  · exact hterminated
  · refine ⟨j + 1, ?_, ?_⟩
    · simp only [append_dataAllocated, hallocated, pow_succ, mul_assoc]
    · rw [append_dataUsed, ← hallocated]
      exact hfull
  · simpa using hroom

/-- Where twice the block is too short, a piece has taken the text past two lengths of it. -/
theorem Holds.leaps_iff (h : Holds first before b) (length : ℕ) :
    Leaps first b.dataUsed length ↔ b.dataAllocated * 2 ≤ b.dataUsed + length := by
  obtain ⟨j, hallocated, hsmall⟩ := h.doubled
  have hroom := h.room
  constructor
  · rintro ⟨k, hbelow, habove⟩
    have hjk : j + 1 ≤ k := by
      by_contra hkj
      have hpow : first * 2 ^ k ≤ first * 2 ^ j := Nat.mul_le_mul_left _ (Nat.pow_le_pow_right (by omega) (by omega))
      omega
    have hpow : first * 2 ^ (j + 2) ≤ first * 2 ^ (k + 1) :=
      Nat.mul_le_mul_left _ (Nat.pow_le_pow_right (by omega) (by omega))
    have hdouble : b.dataAllocated * 2 = first * 2 ^ (j + 2) := by
      rw [hallocated]
      ring
    omega
  · intro hpast
    refine ⟨j + 1, by omega, ?_⟩
    rw [pow_succ, ← mul_assoc, ← hallocated]
    exact hpast

/-- The first piece gets a block of twice its length. -/
theorem holds_first (c : Chunk) (memory : Memory) :
    Holds c.bytes.length [c] (LsofBuffer.append ⟨c.bytes.length * 2, 0, memory⟩ c.bytes) := by
  have hpos := c.length_pos
  obtain ⟨hcontent, hterminated⟩ := @append_content [] ⟨c.bytes.length * 2, 0, memory⟩ c rfl (by simp)
  constructor
  · simp
  · exact hcontent
  · exact hterminated
  · exact ⟨0, by simp, by simp⟩
  · simp
    omega

end Capacity

section Run

/-- No piece leaps when so much of the text is used already. -/
def Steady (first : ℕ) : ℕ → List Chunk → Prop
  | _, [] => True
  | used, c :: rest => ¬ Leaps first used c.bytes.length ∧ Steady first (used + c.bytes.length) rest

/-- No piece takes the text past two lengths of the block that come one after the other. -/
def SteadyChunks : List Chunk → Prop
  | [] => True
  | c :: rest => Steady c.bytes.length c.bytes.length rest

variable {first : ℕ} {before : List Chunk} {b b' : LsofBuffer} {c : Chunk}

theorem ensureSpace_of_room {bufferLen : ℕ} (block : Option Memory)
    (h : b.dataUsed + bufferLen < b.dataAllocated) : b.ensureSpace bufferLen block = some b := by
  unfold LsofBuffer.ensureSpace
  rw [if_neg (by omega)]

theorem ensureSpace_of_full {bufferLen : ℕ} (block : Option Memory) (hpos : 0 < b.dataAllocated)
    (h : b.dataAllocated ≤ b.dataUsed + bufferLen) : b.ensureSpace bufferLen block = block.map fun fresh =>
      ⟨b.dataAllocated * 2, b.dataUsed,
        fun i => if i < min b.dataAllocated (b.dataAllocated * 2) then b.lsofOutput i else fresh i⟩ := by
  unfold LsofBuffer.ensureSpace
  rw [if_pos (by omega)]
  simp only [if_neg hpos.ne']

/-- One round without a leap: what is appended fits, and is there afterwards. -/
theorem Holds.round (h : Holds first before b) (hleap : ¬ Leaps first b.dataUsed c.bytes.length)
    {block : Option Memory} (hspace : b.ensureSpace c.bytes.length block = some b') :
    Append.Fits ⟨b'.dataUsed, c.bytes.length, b'.dataAllocated⟩ ∧ b'.dataUsed = b.dataUsed ∧
      Holds first (before ++ [c]) (b'.append c.bytes) := by
  rw [h.leaps_iff] at hleap
  have hroom := h.room
  simp only [Append.Fits]
  by_cases hfull : b.dataAllocated ≤ b.dataUsed + c.bytes.length
  · rw [ensureSpace_of_full block (by omega) hfull] at hspace
    obtain ⟨fresh, -, rfl⟩ := Option.map_eq_some_iff.1 hspace
    refine ⟨by simp only; omega, rfl, h.append_doubled hfull (by omega) fun i hi => ?_⟩
    exact if_pos (by omega)
  · rw [ensureSpace_of_room block (by omega)] at hspace
    obtain rfl := Option.some.inj hspace
    exact ⟨by omega, rfl, h.append (by omega)⟩

/-- One round with a leap, when there is enough memory: what is appended does not fit. -/
theorem Holds.round_leap (h : Holds first before b) (hleap : Leaps first b.dataUsed c.bytes.length)
    (fresh : Memory) : ∃ b', b.ensureSpace c.bytes.length (some fresh) = some b' ∧
      ¬ Append.Fits ⟨b'.dataUsed, c.bytes.length, b'.dataAllocated⟩ := by
  rw [h.leaps_iff] at hleap
  have hroom := h.room
  refine ⟨_, ensureSpace_of_full _ (by omega) (by omega), ?_⟩
  simp only [Append.Fits]
  omega

/-- As long as no piece leaps everything fits, and in the end everything is there. -/
theorem Holds.saveLoop_steady {rest : List Chunk} (h : Holds first before b)
    (hsteady : Steady first b.dataUsed rest) (reallocs : Reallocs) (k : ℕ) :
    (∀ a ∈ (saveLoop reallocs k b rest).1, a.Fits) ∧
      ∀ b', (saveLoop reallocs k b rest).2 = some b' → Holds first (before ++ rest) b' := by
  induction rest generalizing before b k with
  | nil => simpa [saveLoop] using h
  | cons c rest ih =>
    obtain ⟨hleap, hrest⟩ := hsteady
    rw [saveLoop]
    cases hspace : b.ensureSpace c.bytes.length (reallocs k) with
    | none => simp
    | some b₁ =>
      obtain ⟨hfits, hused, hholds⟩ := h.round hleap hspace
      have hnext : Steady first (b₁.append c.bytes).dataUsed rest := by
        rw [append_dataUsed, hused]
        exact hrest
      obtain ⟨hall, hend⟩ := ih hholds hnext (k + 1)
      simp only [List.mem_cons, forall_eq_or_imp]
      rw [List.append_assoc] at hend
      exact ⟨⟨hfits, hall⟩, hend⟩

/-- A leap is the end of it, when there is enough memory to come so far. -/
theorem Holds.steady_of_fits {rest : List Chunk} (h : Holds first before b) (k : ℕ) (fresh : Memory)
    (hall : ∀ a ∈ (saveLoop (fun _ => some fresh) k b rest).1, a.Fits) : Steady first b.dataUsed rest := by
  induction rest generalizing before b k with
  | nil => trivial
  | cons c rest ih =>
    rw [saveLoop] at hall
    have hleap : ¬ Leaps first b.dataUsed c.bytes.length := by
      intro hleap
      obtain ⟨b₁, hspace, hnot⟩ := h.round_leap hleap fresh
      rw [hspace] at hall
      exact hnot (hall _ (List.mem_cons_self ..))
    refine ⟨hleap, ?_⟩
    cases hspace : b.ensureSpace c.bytes.length (some fresh) with
    | none =>
      unfold LsofBuffer.ensureSpace at hspace
      split_ifs at hspace <;> cases hspace
    | some b₁ =>
      obtain ⟨-, hused, hholds⟩ := h.round hleap hspace
      rw [hspace] at hall
      have hrest := ih hholds (k + 1) fun a ha => hall a (List.mem_cons_of_mem _ ha)
      rwa [append_dataUsed, hused] at hrest

theorem text_plain (chunks : List Chunk) : 0 ∉ text chunks := by
  simp only [text, List.mem_flatMap, not_exists, not_and]
  exact fun c _ => c.plain

theorem Holds.returned_eq (h : Holds first before b) : returned b = some (text before) := by
  have hroom := h.room
  have hcells : (List.range b.dataUsed).map b.lsofOutput = text before := by
    refine List.ext_getElem (by simp [h.used]) fun i hi hi' => ?_
    have := h.content i (by simpa using hi)
    rw [List.getD_eq_getElem _ _ hi'] at this
    simpa using this
  have hstring : cString b = text before := by
    rw [cString, List.range_succ, List.map_append, hcells, List.map_singleton, h.terminated]
    rw [List.takeWhile_append_of_pos]
    · simp
    · intro x hx
      have : x ≠ 0 := by
        rintro rfl
        exact text_plain before hx
      simpa using this
  rw [returned, if_neg (by omega), hstring]

/-- Everything that is appended fits, and what is returned is all of the pieces. -/
def Safe (chunks : List Chunk) : Prop :=
  ∀ reallocs, (∀ a ∈ (savePipeBuffer reallocs chunks).1, a.Fits) ∧
    ∀ output, (savePipeBuffer reallocs chunks).2 = some output →
      output = if chunks = [] then none else some (text chunks)

/-- The buffer is large enough if and only if no piece leaps over a length of it. -/
theorem savePipeBuffer_safe_iff (chunks : List Chunk) : Safe chunks ↔ SteadyChunks chunks := by
  cases chunks with
  | nil => simp [Safe, SteadyChunks, savePipeBuffer, saveLoop, returned, start]
  | cons c rest =>
    have hpos := c.length_pos
    have hspace : ∀ block : Option Memory, start.ensureSpace c.bytes.length block = block.map fun fresh =>
        ⟨c.bytes.length * 2, 0, fun i => if i < min 0 (c.bytes.length * 2) then 0 else fresh i⟩ := by
      intro block
      unfold LsofBuffer.ensureSpace
      rw [if_pos (by simp [start])]
      rfl
    constructor
    · intro hsafe
      obtain ⟨hall, -⟩ := hsafe fun _ => some fun _ => 0
      simp only [savePipeBuffer, saveLoop, hspace, Option.map_some, List.mem_cons] at hall
      have hsteady := (holds_first c _).steady_of_fits 1 (fun _ => 0) fun a ha => hall a (.inr ha)
      simpa [SteadyChunks] using hsteady
    · intro hsteady reallocs
      simp only [savePipeBuffer, saveLoop, hspace]
      cases hblock : reallocs 0 with
      | none => simp
      | some fresh =>
        have hfirst := holds_first c fun i => if i < min 0 (c.bytes.length * 2) then 0 else fresh i
        have hrest : Steady c.bytes.length (LsofBuffer.append ⟨c.bytes.length * 2, 0, fun i =>
            if i < min 0 (c.bytes.length * 2) then 0 else fresh i⟩ c.bytes).dataUsed rest := by
          simpa [SteadyChunks] using hsteady
        obtain ⟨hall, hend⟩ := hfirst.saveLoop_steady hrest reallocs 1
        simp only [Option.map_some, List.mem_cons, forall_eq_or_imp]
        refine ⟨⟨?_, hall⟩, ?_⟩
        · simp only [Append.Fits]
          omega
        · intro output hout
          obtain ⟨b', hb', rfl⟩ := Option.map_eq_some_iff.1 hout
          simpa using (hend b' hb').returned_eq

/-- A line of one byte, the break, and then one of seven bytes. -/
def short : Chunk := ⟨[10], by simp, by simp, by simp⟩
def long : Chunk := ⟨[102, 100, 32, 49, 50, 51, 10], by simp, by simp, by simp⟩

/-- Eight bytes and a zero are put into a block of four. -/
theorem not_safe_long : ¬ Safe [short, long] := by
  intro hsafe
  obtain ⟨hall, -⟩ := hsafe fun _ => some fun _ => 0
  revert hall
  decide

end Run

end Reportman.PipeBuffer
