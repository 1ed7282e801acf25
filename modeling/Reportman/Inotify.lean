import Mathlib
import Reportman.FileSystem

/-!
# Decoding the inotify buffer

The loop of `__monitor_paths` over the bytes that one `read` of the inotify descriptor returned. The
macros of `monitor_tool.h` take the field `len` of a header for the length of the whole record, but
the kernel counts only the name area behind the header in it. So the loop is right about a single
record with a long enough name, and about nothing else.
-/
namespace Reportman.Inotify
open FileSystem (Bytes)

/-- `INOTIFY_BUFFER_SIZE`. -/
def inotifyBufferSize : ℕ := 8192

/-- `IN_EVENT_DATA_LEN`: four fields of four bytes. -/
def inEventDataLen : ℕ := 16

/-- One record as the kernel lays it out; `len` is the length of `name`. -/
structure Record where
  wd : UInt32
  mask : UInt32
  cookie : UInt32
  name : Bytes
  lenFits : name.length < 2 ^ 32

def le32 (n : ℕ) : Bytes :=
  [n.toUInt8, (n / 2 ^ 8).toUInt8, (n / 2 ^ 16).toUInt8, (n / 2 ^ 24).toUInt8]

def Record.header (r : Record) : Bytes :=
  le32 r.wd.toNat ++ le32 r.mask.toNat ++ le32 r.cookie.toNat ++ le32 r.name.length

def Record.bytes (r : Record) : Bytes := r.header ++ r.name

/-- The records of one read, one behind the other. -/
def layout (rs : List Record) : Bytes := rs.flatMap Record.bytes

/-- Where the headers are. -/
def headers : ℕ → List Record → List ℕ
  | _, [] => []
  | start, r :: rs => start :: headers (start + r.bytes.length) rs

/-- The buffer of `__monitor_paths`: what was read, and behind it whatever the stack holds. -/
abbrev Buffer := ℕ → UInt8

def word32 (b : Buffer) (i : ℕ) : ℕ :=
  (b i).toNat + 2 ^ 8 * (b (i + 1)).toNat + 2 ^ 16 * (b (i + 2)).toNat + 2 ^ 24 * (b (i + 3)).toNat

/-- `event->len`, the last field of the header at `event`. -/
def eventLen (buffer : Buffer) (event : ℕ) : ℕ := word32 buffer (event + 12)

/-- `IN_EVENT_OK(event, length)`. -/
def inEventOk (buffer : Buffer) (event : ℕ) (length : ℤ) : Bool :=
  length ≥ inEventDataLen && (eventLen buffer event : ℤ) ≥ inEventDataLen &&
    (eventLen buffer event : ℤ) ≤ length

/-- The headers that `mt_event_process` is called with. -/
def processLoop (buffer : Buffer) : ℕ → ℕ → ℤ → List ℕ
  | 0, _, _ => []
  | fuel + 1, event, length =>
      if inEventOk buffer event length then
        -- `IN_EVENT_NEXT(event, length)`
        event :: processLoop buffer fuel (event + eventLen buffer event)
          (length - eventLen buffer event)
      else []

/-- What is done with a `read` that returned `length`. -/
def processEvents (buffer : Buffer) (length : ℤ) : List ℕ :=
  if length > 0 then processLoop buffer length.toNat 0 length else []

section Loop

variable {buffer : Buffer}

theorem inEventOk_iff {event : ℕ} {length : ℤ} :
    inEventOk buffer event length = true ↔
      16 ≤ length ∧ 16 ≤ eventLen buffer event ∧ (eventLen buffer event : ℤ) ≤ length := by
  simp [inEventOk, inEventDataLen, and_assoc]

end Loop

/-- The buffer starts with the bytes read. -/
def Holds (buffer : Buffer) (bs : Bytes) : Prop := ∀ i (h : i < bs.length), buffer i = bs[i]

@[simp] theorem length_le32 (n : ℕ) : (le32 n).length = 4 := rfl

theorem length_bytes (r : Record) : r.bytes.length = 16 + r.name.length := by
  simp only [Record.bytes, Record.header, List.length_append, length_le32]

theorem length_layout_cons (r : Record) (rs : List Record) :
    (layout (r :: rs)).length = 16 + r.name.length + (layout rs).length := by
  simp [layout, length_bytes]

theorem word32_le32 {buffer : Buffer} {n i : ℕ} (hn : n < 2 ^ 32)
    (h : ∀ k (hk : k < (le32 n).length), buffer (i + k) = (le32 n)[k]) :
    word32 buffer i = n := by
  have h0 := h 0 (by simp [le32])
  have h1 := h 1 (by simp [le32])
  have h2 := h 2 (by simp [le32])
  have h3 := h 3 (by simp [le32])
  simp only [le32, Nat.add_zero, List.getElem_cons_zero, List.getElem_cons_succ] at h0 h1 h2 h3
  simp only [word32, h0, h1, h2, h3, Nat.toUInt8, UInt8.toNat_ofNat']
  omega

/-- The first record's length field reads as the length of its name. -/
theorem eventLen_first {buffer : Buffer} {r : Record} {rs : List Record}
    (h : Holds buffer (layout (r :: rs))) : eventLen buffer 0 = r.name.length := by
  refine word32_le32 r.lenFits fun k hk => ?_
  rw [length_le32] at hk
  have hlen : 12 + k < (layout (r :: rs)).length := by
    rw [length_layout_cons]
    omega
  rw [Nat.zero_add, h _ hlen]
  simp only [layout, List.flatMap_cons, Record.bytes, Record.header]
  rw [List.getElem_append_left (by simp; omega), List.getElem_append_left (by simp; omega),
    List.getElem_append_right (by simp)]
  simp

/-- The last word of a name, which the loop takes for the length field of a further record. -/
def lastWord (name : Bytes) : ℕ := word32 (fun i => name.getD i 0) (name.length - 4)

theorem eventLen_name {buffer : Buffer} {r : Record} (h : Holds buffer (layout [r]))
    (hn : 16 ≤ r.name.length) : eventLen buffer r.name.length = lastWord r.name := by
  have hbyte : ∀ k, k < 4 → buffer (r.name.length + 12 + k) = r.name.getD (r.name.length - 4 + k) 0 := by
    intro k hk
    have hlen : r.name.length + 12 + k < (layout [r]).length := by
      rw [length_layout_cons]
      omega
    have h16 : r.header.length = 16 := rfl
    rw [h _ hlen]
    simp only [layout, List.flatMap_cons, List.flatMap_nil, List.append_nil, Record.bytes]
    rw [List.getElem_append_right (by omega), List.getD_eq_getElem _ _ (by omega)]
    congr 1
    omega
  have h0 := hbyte 0 (by omega)
  have h1 := hbyte 1 (by omega)
  have h2 := hbyte 2 (by omega)
  have h3 := hbyte 3 (by omega)
  simp only [Nat.add_zero] at h0
  simp only [eventLen, lastWord, word32, h0, h1, h2, h3]

/-- What the loop should do with a buffer that holds `rs`: every record once, in order, and no byte
behind the end. -/
def Decodes (buffer : Buffer) (rs : List Record) : Prop :=
  processEvents buffer (layout rs).length = headers 0 rs ∧
    ∀ e ∈ processEvents buffer (layout rs).length,
      e + inEventDataLen + eventLen buffer e ≤ (layout rs).length

/-- The first round. -/
theorem processEvents_cons {buffer : Buffer} {r : Record} {rs : List Record}
    (h : Holds buffer (layout (r :: rs))) :
    processEvents buffer (layout (r :: rs)).length =
      if 16 ≤ r.name.length then
        0 :: processLoop buffer ((layout (r :: rs)).length - 1) r.name.length
          ((layout (r :: rs)).length - r.name.length)
      else [] := by
  have hlen := length_layout_cons r rs
  have hfirst := eventLen_first h
  obtain ⟨k, hk⟩ : ∃ k, (layout (r :: rs)).length = k + 1 := ⟨(layout (r :: rs)).length - 1, by omega⟩
  have hok : inEventOk buffer 0 (layout (r :: rs)).length = true ↔ 16 ≤ r.name.length := by
    rw [inEventOk_iff, hfirst]
    omega
  rw [processEvents, if_pos (by omega), Int.toNat_natCast]
  conv_lhs => rw [hk, processLoop, ← hk, hfirst]
  have hk' : (layout (r :: rs)).length - 1 = k := by omega
  simp only [hok, Nat.zero_add, hk']

/-- A short name: the record is not even looked at. -/
theorem not_decodes_short {buffer : Buffer} {r : Record} {rest : List Record}
    (h : Holds buffer (layout (r :: rest))) (hn : ¬ 16 ≤ r.name.length) : ¬ Decodes buffer (r :: rest) := by
  have hround := processEvents_cons h
  rw [if_neg hn] at hround
  rintro ⟨heq, -⟩
  rw [hround, headers] at heq
  cases heq

/-- One record: the loop goes on at its last sixteen bytes. -/
theorem decodes_singleton_iff {buffer : Buffer} {r : Record} (h : Holds buffer (layout [r]))
    (hn : 16 ≤ r.name.length) : Decodes buffer [r] ↔ lastWord r.name ≠ 16 := by
  have hlen := length_layout_cons r []
  have hnil : (layout []).length = 0 := rfl
  have hfirst := eventLen_first h
  have hround := processEvents_cons h
  have hlast := eventLen_name h hn
  have hok : inEventOk buffer r.name.length ((layout [r]).length - r.name.length) = true ↔
      lastWord r.name = 16 := by
    rw [inEventOk_iff, hlast]
    omega
  obtain ⟨k, hk⟩ : ∃ k, (layout [r]).length - 1 = k + 1 := ⟨(layout [r]).length - 2, by omega⟩
  rw [if_pos hn, hk, processLoop] at hround
  by_cases hw : lastWord r.name = 16
  · rw [if_pos (hok.mpr hw)] at hround
    simp [Decodes, hround, headers, hw]
  · rw [if_neg (fun h => hw (hok.mp h))] at hround
    simp only [Decodes, hround, headers, true_and, ne_eq, hw, not_false_eq_true, iff_true,
      List.mem_singleton, forall_eq, hfirst, inEventDataLen]
    omega

/-- More records: the second header is never met. -/
theorem not_decodes_cons_cons {buffer : Buffer} {r r' : Record} {rest : List Record}
    (h : Holds buffer (layout (r :: r' :: rest))) (hn : 16 ≤ r.name.length) :
    ¬ Decodes buffer (r :: r' :: rest) := by
  have hround := processEvents_cons h
  rw [if_pos hn] at hround
  have hsecond : ∀ es, processLoop buffer ((layout (r :: r' :: rest)).length - 1) r.name.length
      ((layout (r :: r' :: rest)).length - r.name.length) = es →
      es = [] ∨ ∃ es', es = r.name.length :: es' := by
    rintro _ rfl
    rcases (layout (r :: r' :: rest)).length - 1 with _ | k
    · exact .inl rfl
    · rw [processLoop]
      split_ifs
      · exact .inr ⟨_, rfl⟩
      · exact .inl rfl
  rintro ⟨heq, -⟩
  rw [hround, headers, headers, length_bytes] at heq
  rcases hsecond _ rfl with hes | ⟨es', hes⟩
  · rw [hes] at heq
    simp at heq
  · rw [hes] at heq
    simp only [List.cons.injEq, true_and] at heq
    omega

/-- Where the loop is right: no record, or a single one with sixteen bytes of name or more, of which
the last four do not happen to read as sixteen. -/
theorem decodes_iff (rs : List Record) (hsize : (layout rs).length ≤ inotifyBufferSize)
    (buffer : Buffer) (h : Holds buffer (layout rs)) :
    Decodes buffer rs ↔
      rs = [] ∨ ∃ r, rs = [r] ∧ 16 ≤ r.name.length ∧ lastWord r.name ≠ 16 := by
  rcases rs with _ | ⟨r, rest⟩
  · simp [Decodes, processEvents, layout, headers]
  by_cases hn : 16 ≤ r.name.length
  · rcases rest with _ | ⟨r', rest⟩
    · rw [decodes_singleton_iff h hn]
      simp [hn]
    · simp [not_decodes_cons_cons h hn]
  · refine iff_of_false (not_decodes_short h hn) ?_
    rintro (hnil | ⟨r', hr', hn', -⟩)
    · cases hnil
    · cases hr'
      exact hn hn'

/-- The creation of a file `a`, its name padded to sixteen bytes. -/
def created : Record := ⟨1, 0x100, 0, 97 :: List.replicate 15 0, by decide⟩

/-- A buffer that holds `rs` and zeros. -/
def bufferOf (rs : List Record) : Buffer := fun i => (layout rs).getD i 0

theorem holds_bufferOf (rs : List Record) : Holds (bufferOf rs) (layout rs) :=
  fun _ h => List.getD_eq_getElem _ _ h

theorem decodes_iff_created :
    Decodes (bufferOf [created]) [created] ↔
      [created] = [] ∨ ∃ r, [created] = [r] ∧ 16 ≤ r.name.length ∧ lastWord r.name ≠ 16 :=
  decodes_iff [created] (by decide) _ (holds_bufferOf _)

/-- Two events in one read: the second header is missed. -/
theorem not_decodes_two_created : ¬ Decodes (bufferOf [created, created]) [created, created] := by
  rintro ⟨h, -⟩
  revert h
  decide +kernel

section Bounds

/-- The two variables of the loop: where `event` points to, and `ssize_t length`. -/
structure Cursor where
  event : ℕ
  length : Int64

/-- `(long)(event)->len`. -/
def eventLen64 (buffer : Buffer) (event : ℕ) : Int64 := .ofNat (eventLen buffer event)

/-- Only then is anything of the header read. -/
def inspectsHeader (c : Cursor) : Bool := c.length ≥ .ofNat inEventDataLen

/-- `IN_EVENT_OK(event, length)`, in the arithmetic of `long`. -/
def cursorOk (buffer : Buffer) (c : Cursor) : Bool :=
  inspectsHeader c && eventLen64 buffer c.event ≥ .ofNat inEventDataLen && eventLen64 buffer c.event ≤ c.length

/-- `IN_EVENT_NEXT(event, length)`. -/
def inEventNext (buffer : Buffer) (c : Cursor) : Cursor :=
  ⟨c.event + eventLen buffer c.event, c.length - eventLen64 buffer c.event⟩

/-- The variables after `k` iterations. -/
def cursorAt (buffer : Buffer) (length : Int64) : ℕ → Cursor
  | 0 => ⟨0, length⟩
  | k + 1 => inEventNext buffer (cursorAt buffer length k)

/-- The loop makes `n` iterations and no more. -/
def EndsAfter (buffer : Buffer) (length : Int64) (n : ℕ) : Prop :=
  (∀ k < n, cursorOk buffer (cursorAt buffer length k) = true) ∧
    cursorOk buffer (cursorAt buffer length n) = false

variable {buffer : Buffer} {length : Int64}

theorem eventLen_lt (buffer : Buffer) (event : ℕ) : eventLen buffer event < 2 ^ 32 := by
  have h0 := (buffer (event + 12)).toNat_lt
  have h1 := (buffer (event + 12 + 1)).toNat_lt
  have h2 := (buffer (event + 12 + 2)).toNat_lt
  have h3 := (buffer (event + 12 + 3)).toNat_lt
  simp only [eventLen, word32]
  omega

/-- Thirty-two bits without a sign fit a `long`. -/
@[simp] theorem toInt_eventLen64 (buffer : Buffer) (event : ℕ) :
    (eventLen64 buffer event).toInt = eventLen buffer event := by
  have := eventLen_lt buffer event
  exact Int64.toInt_ofNat_of_lt (by omega)

@[simp] theorem inspectsHeader_iff {c : Cursor} : inspectsHeader c = true ↔ 16 ≤ c.length.toInt := by
  have h16 : (Int64.ofNat inEventDataLen).toInt = 16 := Int64.toInt_ofNat_of_lt (by decide)
  simp [inspectsHeader, Int64.le_iff_toInt_le, h16]

/-- The arithmetic of `long` and that of the numbers agree on the condition of the loop. -/
theorem cursorOk_eq (c : Cursor) : cursorOk buffer c = inEventOk buffer c.event c.length.toInt := by
  have h16 : (Int64.ofNat inEventDataLen).toInt = 16 := Int64.toInt_ofNat_of_lt (by decide)
  rw [Bool.eq_iff_iff, inEventOk_iff]
  simp [cursorOk, Int64.le_iff_toInt_le, h16, and_assoc]

/-- No iteration goes below zero. -/
theorem toInt_length_next {c : Cursor} (h : cursorOk buffer c = true) :
    (inEventNext buffer c).length.toInt = c.length.toInt - eventLen buffer c.event := by
  rw [cursorOk_eq, inEventOk_iff] at h
  have hmax := c.length.toInt_lt
  simp only [inEventNext, Int64.toInt_sub, toInt_eventLen64]
  exact Int.bmod_eq_of_le (by omega) (by omega)

/-- The two variables stay in step, and every iteration has taken sixteen bytes or more. -/
structure InStep (length : Int64) (k : ℕ) (c : Cursor) : Prop where
  nonneg : 0 ≤ c.length.toInt
  sum : c.event + c.length.toInt = length.toInt
  taken : 16 * k ≤ c.event

theorem InStep.next {k : ℕ} {c : Cursor} (hc : InStep length k c) (h : cursorOk buffer c = true) :
    InStep length (k + 1) (inEventNext buffer c) := by
  have hlength := toInt_length_next h
  rw [cursorOk_eq, inEventOk_iff] at h
  have hevent : (inEventNext buffer c).event = c.event + eventLen buffer c.event := rfl
  have hsum := hc.sum
  have htaken := hc.taken
  constructor <;> omega

theorem inStep_cursorAt (hpos : 0 ≤ length.toInt) {n : ℕ}
    (hall : ∀ k < n, cursorOk buffer (cursorAt buffer length k) = true) :
    ∀ k ≤ n, InStep length k (cursorAt buffer length k) := by
  intro k hk
  induction k with
  | zero => constructor <;> simp [cursorAt, hpos]
  | succ k ih => exact (ih (by omega)).next (hall k (by omega))

/-- The loop ends, because every iteration takes sixteen bytes of those that are left. -/
theorem exists_endsAfter (hpos : 0 ≤ length.toInt) : ∃ n, EndsAfter buffer length n := by
  by_contra hnone
  have hall : ∀ n, ∀ k < n, cursorOk buffer (cursorAt buffer length k) = true := by
    intro n
    induction n with
    | zero => simp
    | succ n ih =>
      have hlast : cursorOk buffer (cursorAt buffer length n) = true := by
        by_contra hlast
        exact hnone ⟨n, ih, by simpa using hlast⟩
      intro k hk
      rcases Nat.lt_succ_iff_lt_or_eq.mp hk with hk | rfl
      · exact ih k hk
      · exact hlast
  have hstep := inStep_cursorAt hpos (hall (length.toInt.toNat + 1)) _ le_rfl
  have hsum := hstep.sum
  have htaken := hstep.taken
  have hnonneg := hstep.nonneg
  omega

/-- The events that are processed are those at which the cursor stands. -/
theorem processLoop_cursorAt {n : ℕ} (hn : EndsAfter buffer length n) {fuel k : ℕ}
    (hk : k ≤ n) (hfuel : (cursorAt buffer length k).length.toInt ≤ fuel) :
    processLoop buffer fuel (cursorAt buffer length k).event (cursorAt buffer length k).length.toInt =
      (List.range' k (n - k)).map fun j => (cursorAt buffer length j).event := by
  induction fuel generalizing k with
  | zero =>
    have hno : cursorOk buffer (cursorAt buffer length k) = false := by
      rw [cursorOk_eq, Bool.eq_false_iff, Ne, inEventOk_iff]
      omega
    have hend : k = n := by
      by_contra hne
      have := hn.1 k (by omega)
      simp [hno] at this
    simp [processLoop, hend]
  | succ fuel ih =>
    rw [processLoop, ← cursorOk_eq]
    rcases Nat.lt_or_eq_of_le hk with hlt | rfl
    · have hok := hn.1 k hlt
      have hlength := toInt_length_next hok
      have hlen : 16 ≤ eventLen buffer (cursorAt buffer length k).event := by
        have := hok
        rw [cursorOk_eq, inEventOk_iff] at this
        omega
      have hrest := ih (k := k + 1) hlt (by simp only [cursorAt]; omega)
      have hnext : cursorAt buffer length (k + 1) = inEventNext buffer (cursorAt buffer length k) := rfl
      rw [if_pos hok, show n - k = n - (k + 1) + 1 by omega, List.range'_succ, List.map_cons, ← hrest, hnext,
        hlength]
      rfl
    · simp [hn.2]

/-- Whatever the bytes are, the loop ends, keeps its two variables in step and reads no header that is not
whole. -/
theorem eventLoop_ends (buffer : Buffer) (length : Int64) (hpos : 1 ≤ length.toInt) :
    ∃ n : ℕ, EndsAfter buffer length n ∧ (n : ℤ) ≤ length.toInt / 16 ∧
      (processEvents buffer length.toInt = (List.range n).map fun k => (cursorAt buffer length k).event) ∧
      ∀ k ≤ n, 0 ≤ (cursorAt buffer length k).length.toInt ∧
        (cursorAt buffer length k).event + (cursorAt buffer length k).length.toInt = length.toInt ∧
        (inspectsHeader (cursorAt buffer length k) = true →
          ((cursorAt buffer length k).event : ℤ) + inEventDataLen ≤ length.toInt) := by
  obtain ⟨n, hn⟩ := @exists_endsAfter buffer length (by omega)
  have hstep := inStep_cursorAt (by omega) hn.1
  refine ⟨n, hn, ?_, ?_, ?_⟩
  · have := (hstep n le_rfl).sum
    have := (hstep n le_rfl).taken
    have := (hstep n le_rfl).nonneg
    omega
  · have hfuel : (cursorAt buffer length 0).length.toInt ≤ length.toInt.toNat := by
      simp only [cursorAt]
      omega
    have := processLoop_cursorAt hn (Nat.zero_le n) hfuel
    rw [processEvents, if_pos (by omega), List.range_eq_range']
    exact this
  · intro k hk
    have hsum := (hstep k hk).sum
    refine ⟨(hstep k hk).nonneg, hsum, ?_⟩
    rw [inspectsHeader_iff]
    simp only [inEventDataLen]
    omega

/-- A buffer that claims four thousand million bytes for its only name. -/
theorem eventLoop_ends_overlong : ∃ n : ℕ, EndsAfter (fun _ => 255) 16 n ∧ (n : ℤ) ≤ (16 : Int64).toInt / 16 := by
  obtain ⟨n, hn, hle, -⟩ := eventLoop_ends (fun _ => 255) 16 (by decide)
  exact ⟨n, hn, hle⟩

end Bounds

end Reportman.Inotify
