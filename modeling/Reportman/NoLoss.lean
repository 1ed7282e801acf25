import Mathlib
import Reportman.Faults

/-!
# When moving a file loses it

`transact_transfer_file(source, dest, TRANSFER)` under an arbitrary schedule of faults. The stream of
the destination cannot be read, so `verify_files` accepts exactly when re-reading the source gives
nothing, whatever has arrived at the destination; and when both paths name one file, opening the
destination has already emptied it. The theorem at the end says under which schedules, and for which
pairs of paths, the content is kept all the same.

A run is followed call by call: the number of a call is the length of the history before it.
-/
namespace Reportman.NoLoss
open Resumable FileSystem TransferFile Faults

/-- The inode that a path leads to. -/
def fileAt (fs : FS) (path : Path) : Option ℕ :=
  (fs.resolve path).bind fun l => match fs.node l with
    | some (.file i) => some i
    | _ => none

def contentAt (fs : FS) (path : Path) : Option Bytes := (fileAt fs path).map fs.data

abbrev History := List (Event Sys Sys.Res FS)

/-- The content `c` of the source is still at one of the two paths, and nothing was removed unless
the destination held exactly `c` just before. -/
structure Kept (sourcePath destPath : Path) (c : Bytes) (fs : FS) (calls : History) : Prop where
  kept : contentAt fs sourcePath = some c ∨ contentAt fs destPath = some c
  removal : ∀ e ∈ calls, ∀ path, e.op = .remove path → contentAt e.before destPath = some c

/-- How many of `n` bytes a call gets through. -/
def through (c : Choice) (n : ℕ) : ℕ := if c.fails then min c.amount n else n

/-- The copy loop in numbers: the number of the next call, how far the source has been read, how
much of that is still in the buffer of the destination, and whether every byte was accepted. -/
structure Tally where
  tick : ℕ
  pos : ℕ
  pending : ℕ
  lossless : Bool

/-- One `fwrite` of `got` bytes. A failing one empties the buffer, and what it has not written through by
then is lost. -/
def Tally.write (T : Tally) (c : Choice) (got : ℕ) : Tally :=
  let filled := T.pending + through c got
  ⟨T.tick + 2, T.pos + got, if c.fails then 0 else filled - c.early,
    T.lossless && through c got = got && (!c.fails || filled ≤ c.early)⟩

/-- The copy loop on a source of `len` bytes. -/
def copyTally (sched : ℕ → Choice) (len : ℕ) : ℕ → Tally → Tally
  | 0, T => T
  | fuel + 1, T =>
      let got := through (sched T.tick) (min bufferSize (len - T.pos))
      if got > 0 then copyTally sched len fuel (T.write (sched (T.tick + 1)) got)
      else { T with tick := T.tick + 1 }

/-- What the first `fread` behind the `fseek` of the source delivers, with the `fseek` as call
number `tick` and the source read up to `pos`. -/
def reread (sched : ℕ → Choice) (tick pos len : ℕ) : ℕ :=
  through (sched (tick + 1)) (min bufferSize (len - if (sched tick).fails then pos else 0))

section Conditions

variable (sched : ℕ → Choice) (fs : FS) (sourcePath destPath : Path) (i len : ℕ)

/-- Both `fopen`s succeed. -/
def Opens : Prop :=
  (sched 0).fails = false ∧ (sched 1).fails = false ∧ (fs.openWrite destPath).1 ≠ none

/-- The tally at the end of the copy loop, which begins with the third call. -/
def copied : Tally := copyTally sched len (len + 1) ⟨2, 0, 0, true⟩

/-- Something is read again from the source. -/
def Rereads : Prop := 0 < reread sched (copied sched len).tick (copied sched len).pos len

/-- Everything was read and accepted, and the flush of the `fseek` of the destination got the rest of it
out. There is nothing left then for `fclose`. -/
def Arrives : Prop :=
  (copied sched len).pos = len ∧ (copied sched len).lossless = true ∧
    through (sched ((copied sched len).tick + 2)) (copied sched len).pending = (copied sched len).pending

/-- With the entry of the source gone, one of the two paths still leads to inode `i`. -/
def StillNamed : Prop :=
  match (fs.resolveEntry sourcePath).bind fs.removeAt with
  | some fs' => fileAt fs' sourcePath = some i ∨ fileAt fs' destPath = some i
  | none => True

/-- The schedules and paths that keep a source of `len` bytes on inode `i`: the transaction does not
get to the copy; or the files are two and the source is seen not to match, or has arrived; or they
are one and empty, and its name is not taken away. -/
def Safe : Prop :=
  ¬ Opens sched fs destPath ∨
    (fileAt fs destPath ≠ some i ∧ (Rereads sched len ∨ Arrives sched len)) ∨
    (fileAt fs destPath = some i ∧ len = 0 ∧
      ((sched 9).fails = true ∨ StillNamed fs sourcePath destPath i))

end Conditions

/-- No `remove` so far. -/
def Quiet (h : History) : Prop := ∀ e ∈ h, ∀ path, e.op ≠ .remove path

theorem Quiet.append {h : History} (hq : Quiet h) {e : Event Sys Sys.Res FS}
    (he : ∀ path, e.op ≠ .remove path) : Quiet (h ++ [e]) := by
  intro e' he'
  rcases List.mem_append.mp he' with he' | he'
  · exact hq e' he'
  · rw [List.mem_singleton.mp he']
    exact he

theorem through_le (c : Choice) (n : ℕ) : through c n ≤ n := by
  unfold through
  split_ifs <;> omega

theorem take_through (c : Choice) (bs : Bytes) {n : ℕ} (hn : bs.length ≤ n) :
    bs.take (if c.fails then c.amount else n) = bs.take (through c bs.length) := by
  unfold through
  split_ifs
  · rw [List.take_eq_take_iff]
    omega
  · rw [List.take_of_length_le hn, List.take_length]

/-- Reading the source from `pos` on. -/
theorem exec_fread_source (ch : Choice) {fs : FS} {i : ℕ} {c : Bytes} (hc : fs.data i = c) (pos : ℕ) :
    exec ch (.fread bufferSize ⟨some i, .rb, pos, []⟩) fs =
      (((c.drop pos).take (through ch (min bufferSize (c.length - pos))),
        ⟨some i, .rb, pos + through ch (min bufferSize (c.length - pos)), []⟩), fs) := by
  have hlen : ((c.drop pos).take bufferSize).length = min bufferSize (c.length - pos) := by simp
  have hgot : ((c.drop pos).take bufferSize).take (if ch.fails then ch.amount else bufferSize) =
      (c.drop pos).take (through ch (min bufferSize (c.length - pos))) := by
    rw [take_through ch _ (by simp), hlen, List.take_take, Nat.min_eq_left]
    exact (through_le _ _).trans (Nat.min_le_left _ _)
  have hcount : ((c.drop pos).take (through ch (min bufferSize (c.length - pos)))).length =
      through ch (min bufferSize (c.length - pos)) := by
    have := through_le ch (min bufferSize (c.length - pos))
    simp only [List.length_take, List.length_drop]
    omega
  simp only [exec, FILE.read, hc, hgot, hcount]

/-- The stream of the destination, with what it has accepted against the tally. -/
structure Tallied (c : Bytes) (T : Tally) (j : ℕ) (f : FILE) (fs : FS) : Prop where
  ino : f.ino = some j
  mode : f.mode = .wb
  pos : f.pos = (fs.data j).length
  pending : f.pending.length = T.pending
  bound : T.pos ≤ c.length
  lossless : T.lossless = true → fs.data j ++ f.pending = c.take T.pos
  lossy : T.lossless = false → (fs.data j ++ f.pending).length < T.pos

section Copy

variable {sched : ℕ → Choice} {c : Bytes} {i j : ℕ}

/-- What `fwrite` takes of a piece of the source. -/
theorem taken_source (ch : Choice) (pos g : ℕ) :
    (if ch.fails then ((c.drop pos).take g).take ch.amount else (c.drop pos).take g) =
      (c.drop pos).take (through ch g) := by
  unfold through
  split_ifs
  · rw [List.take_take]
  · rfl

/-- One `fwrite` of the loop. -/
theorem exec_fwrite_source (ch : Choice) (pos g : ℕ) {f : FILE} {fs : FS} (hino : f.ino = some j)
    (hmode : f.mode = .wb) (hpos : f.pos = (fs.data j).length) :
    let filled := f.pending ++ (c.drop pos).take (through ch g)
    exec ch (.fwrite ((c.drop pos).take g) f) fs =
      ((((c.drop pos).take (through ch g)).length, ⟨some j, .wb, f.pos + (filled.take ch.early).length,
        if ch.fails then [] else filled.drop ch.early⟩), fs.write j (fs.data j ++ filled.take ch.early)) := by
  intro filled
  have hino' : (⟨f.ino, .wb, f.pos, filled⟩ : FILE).ino = some j := hino
  simp only [exec, hmode, taken_source]
  rw [flush_eq ch hino' hpos, ← hino]

theorem Tallied.write {T : Tally} {f : FILE} {fs : FS} (h : Tallied c T j f fs) (ch : Choice) {g : ℕ}
    (hg : T.pos + g ≤ c.length) :
    Tallied c (T.write ch g) j (exec ch (.fwrite ((c.drop T.pos).take g) f) fs).1.2
        (exec ch (.fwrite ((c.drop T.pos).take g) f) fs).2 ∧
      Rewrites j fs (exec ch (.fwrite ((c.drop T.pos).take g) f) fs).2 := by
  rw [exec_fwrite_source ch T.pos g h.ino h.mode h.pos]
  set filled := f.pending ++ (c.drop T.pos).take (through ch g) with hfilled
  have hle := through_le ch g
  have hlength : filled.length = T.pending + through ch g := by
    rw [hfilled, List.length_append, h.pending, List.length_take, List.length_drop]
    omega
  have hpending := h.pending
  refine ⟨⟨rfl, rfl, ?_, ?_, hg, ?_, ?_⟩, _, rfl⟩
  · simp [h.pos]
  · simp only [Tally.write]
    split_ifs
    · rfl
    · rw [List.length_drop, hlength]
  · intro hl
    simp only [Tally.write, Bool.and_eq_true, decide_eq_true_eq, Bool.or_eq_true, Bool.not_eq_true'] at hl
    obtain ⟨⟨hT, hg'⟩, hout⟩ := hl
    have hall : fs.data j ++ filled = c.take (T.pos + g) := by
      rw [hfilled, ← List.append_assoc, h.lossless hT, hg', List.take_add]
    rw [FS.data_write, Function.update_self, List.append_assoc]
    split_ifs with hf
    · rw [hf, Bool.true_eq_false, false_or] at hout
      rw [List.take_of_length_le (by omega), List.append_nil]
      exact hall
    · rw [List.take_append_drop]
      exact hall
  · intro hl
    simp only [Tally.write, Bool.and_eq_false_iff, decide_eq_false_iff_not, Bool.or_eq_false_iff,
      Bool.not_eq_false'] at hl
    have hless : T.lossless = false → (fs.data j).length + T.pending < T.pos := fun hT => by
      simpa [hpending] using h.lossy hT
    have hmost : (fs.data j).length + T.pending ≤ T.pos := by
      cases hT : T.lossless with
      | false => exact (hless hT).le
      | true =>
        have htotal := congrArg List.length (h.lossless hT)
        rw [List.length_append, hpending, List.length_take] at htotal
        omega
    rw [FS.data_write, Function.update_self, List.append_assoc, List.length_append, List.length_append,
      List.length_take, hlength]
    simp only [Tally.write]
    split_ifs with hf
    · rw [List.length_nil]
      rcases hl with (hl | hl) | ⟨-, hl⟩
      · have := hless hl
        omega
      all_goals omega
    · rw [List.length_drop, hlength]
      rcases hl with (hl | hl) | ⟨hl, -⟩
      · have := hless hl
        omega
      · omega
      · exact absurd hl hf

/-- The copy loop does what the tally says. -/
theorem copyLoop_scripted (hij : i ≠ j) (fuel : ℕ) :
    ∀ (fuel' : ℕ) (T : Tally) (f : FILE) (fs : FS) (h : History), c.length - T.pos < fuel →
      c.length - T.pos < fuel' → h.length = T.tick → Quiet h → fs.data i = c → Tallied c T j f fs →
      (scripted exec sched).Meets
        (fun o s => Rewrites j fs s.1 ∧ Quiet s.2 ∧
          s.2.length = (copyTally sched c.length fuel' T).tick ∧
          ∃ f', o = some (⟨some i, .rb, (copyTally sched c.length fuel' T).pos, []⟩, f') ∧
            Tallied c (copyTally sched c.length fuel' T) j f' s.1)
        (copyLoop fuel ⟨some i, .rb, T.pos, []⟩ f) (fs, h) := by
  induction fuel with
  | zero => intro _ T _ _ _ hf; omega
  | succ fuel ih =>
    intro fuel' T f fs h hf hf' hlen hq hc ht
    obtain ⟨fuel', rfl⟩ : ∃ k, fuel' = k + 1 := ⟨fuel' - 1, by omega⟩
    rw [copyLoop_succ, copyTally]
    set g := through (sched T.tick) (min bufferSize (c.length - T.pos)) with hg
    have hgle : g ≤ min bufferSize (c.length - T.pos) := through_le _ _
    have hglen : ((c.drop T.pos).take g).length = g := by
      simp only [List.length_take, List.length_drop]
      omega
    have hread : exec (sched h.length) (.fread bufferSize ⟨some i, .rb, T.pos, []⟩) fs =
        (((c.drop T.pos).take g, ⟨some i, .rb, T.pos + g, []⟩), fs) := by
      rw [hlen, exec_fread_source _ hc]
    refine scripted_call hread ?_
    have hq₁ : Quiet (h ++ [⟨.fread bufferSize ⟨some i, .rb, T.pos, []⟩,
        ((c.drop T.pos).take g, ⟨some i, .rb, T.pos + g, []⟩), fs, fs⟩]) := hq.append (by simp)
    dsimp only
    rw [hglen]
    by_cases hpos : g > 0
    · rw [if_pos hpos, if_pos hpos]
      have hbound := ht.bound
      obtain ⟨ht', hw⟩ := ht.write (sched (T.tick + 1)) (g := g) (by omega)
      have hwrite : exec (sched (h ++ [(⟨.fread bufferSize ⟨some i, .rb, T.pos, []⟩,
          ((c.drop T.pos).take g, ⟨some i, .rb, T.pos + g, []⟩), fs, fs⟩ : Event Sys Sys.Res FS)]).length)
          (.fwrite ((c.drop T.pos).take g) f) fs =
          exec (sched (T.tick + 1)) (.fwrite ((c.drop T.pos).take g) f) fs := by
        rw [List.length_append, hlen]
        rfl
      refine scripted_call hwrite ?_
      obtain ⟨content, hcontent⟩ := hw
      have hc' : (exec (sched (T.tick + 1)) (.fwrite ((c.drop T.pos).take g) f) fs).2.data i = c := by
        rw [hcontent, FS.data_write, Function.update_of_ne hij, hc]
      refine (ih fuel' _ _ _ _ ?_ ?_ ?_ (hq₁.append (by simp)) hc' ht').mono ?_
      · dsimp only [Tally.write]; omega
      · dsimp only [Tally.write]; omega
      · simp [hlen, Tally.write]
      · rintro o s ⟨hrw, hrest⟩
        exact ⟨(Rewrites.trans ⟨content, hcontent⟩ hrw), hrest⟩
    · rw [if_neg hpos, if_neg hpos]
      have hg0 : g = 0 := by omega
      refine scripted_ret ⟨Rewrites.refl j fs, hq₁, by simp [hlen], f, by simp [hg0], ?_⟩
      exact ⟨ht.ino, ht.mode, ht.pos, ht.pending, ht.bound, ht.lossless, ht.lossy⟩

/-- Re-reading the source: whether anything comes is decided by the first `fread`. -/
theorem hashLoop_scripted (fuel : ℕ) {fs : FS} (hc : fs.data i = c) :
    ∀ (pos : ℕ) (seen : Bytes) (h : History), c.length - pos < fuel → Quiet h →
      (scripted exec sched).Meets
        (fun o s => s.1 = fs ∧ Quiet s.2 ∧ ∃ m pos',
          o = some (seen ++ (c.drop pos).take m, ⟨some i, .rb, pos', []⟩) ∧
            if 0 < through (sched h.length) (min bufferSize (c.length - pos)) then
              0 < m ∧ pos < c.length
            else m = 0 ∧ s.2.length = h.length + 1)
        (hashLoop fuel ⟨some i, .rb, pos, []⟩ seen) (fs, h) := by
  induction fuel with
  | zero => intro pos _ _ hf; omega
  | succ fuel ih =>
    intro pos seen h hf hq
    rw [hashLoop_succ]
    set g := through (sched h.length) (min bufferSize (c.length - pos)) with hg
    have hgle : g ≤ min bufferSize (c.length - pos) := through_le _ _
    have hglen : ((c.drop pos).take g).length = g := by
      simp only [List.length_take, List.length_drop]
      omega
    refine scripted_call (exec_fread_source _ hc pos) ?_
    rw [← hg]
    have hq₁ : Quiet (h ++ [⟨.fread bufferSize ⟨some i, .rb, pos, []⟩,
        ((c.drop pos).take g, ⟨some i, .rb, pos + g, []⟩), fs, fs⟩]) := hq.append (by simp)
    dsimp only
    rw [hglen]
    by_cases hpos : 0 < g
    · rw [if_pos (by omega)]
      refine (ih (pos + g) _ _ (by omega) hq₁).mono ?_
      rintro o s ⟨hs, hqs, m, pos', ho, -⟩
      refine ⟨hs, hqs, g + m, pos', ?_, ?_⟩
      · rw [ho, List.append_assoc, List.take_add, List.drop_drop]
      · rw [if_pos hpos]
        omega
    · rw [if_neg (by omega)]
      exact scripted_ret ⟨rfl, hq₁, 0, pos + g, by simp, by rw [if_neg hpos]; simp⟩

/-- The destination behind its `fseek`: it holds `X`, and nothing is pending. -/
structure Settled (X : Bytes) (j : ℕ) (f : FILE) (fs : FS) : Prop where
  mode : f.mode = .wb
  pending : f.pending = []
  data : fs.data j = X

/-- What the destination holds once its buffer has been flushed. -/
def settling (ch : Choice) (j : ℕ) (f : FILE) (fs : FS) : Bytes :=
  fs.data j ++ f.pending.take (through ch f.pending.length)

/-- `fseek` empties the buffer of the destination, as far as it gets into the file. -/
theorem exec_fseek_dest {f : FILE} {fs : FS} (hino : f.ino = some j) (hmode : f.mode = .wb)
    (hpos : f.pos = (fs.data j).length) (ch : Choice) :
    Settled (settling ch j f fs) j (exec ch (.fseek f) fs).1.2 (exec ch (.fseek f) fs).2 ∧
      Rewrites j fs (exec ch (.fseek f) fs).2 := by
  have htaken : f.pending.take (ch.flushed f) = f.pending.take (through ch f.pending.length) :=
    take_through ch f.pending le_rfl
  simp only [exec]
  rw [flush_eq ch hino hpos]
  split_ifs with hf
  · exact ⟨⟨hmode, rfl, by simp [settling, htaken]⟩, _, rfl⟩
  · refine ⟨⟨hmode, ?_, by simp [settling, htaken]⟩, _, rfl⟩
    simp [Choice.flushed, hf]

theorem exec_fread_dest (ch : Choice) (fs : FS) {f : FILE} (hf : f.mode = .wb) (count : ℕ) :
    exec ch (.fread count f) fs = (([], f), fs) := by
  have hread : f.read fs count = [] := by
    unfold FILE.read
    rw [hf]
  simp [exec, hread]

theorem exec_fclose_done {f : FILE} (hf : f.pending = []) (ch : Choice) (fs : FS) :
    exec ch (.fclose f) fs = (if ch.fails then -1 else 0, fs) := by
  simp [exec, flush_nil hf]

theorem exec_fseek_source (ch : Choice) (fs : FS) (i pos : ℕ) :
    exec ch (.fseek ⟨some i, .rb, pos, []⟩) fs =
      ((if ch.fails then -1 else 0, ⟨some i, .rb, if ch.fails then pos else 0, []⟩), fs) := by
  simp only [exec, flush_nil (f := ⟨some i, .rb, pos, []⟩) rfl]
  split_ifs <;> rfl

theorem hashSource_scripted (sha256 : Bytes → Bytes) {fuel : ℕ} (hfuel : c.length < fuel) {fs : FS}
    (hc : fs.data i = c) (pos : ℕ) {h : History} (hq : Quiet h) :
    (scripted exec sched).Meets
      (fun o s => s.1 = fs ∧ Quiet s.2 ∧ ∃ seen pos',
        o = some (sha256 seen, ⟨some i, .rb, pos', []⟩) ∧
          if 0 < reread sched h.length pos c.length then seen ≠ [] ∧ seen <:+: c
          else seen = [] ∧ s.2.length = h.length + 2)
      (hashFile sha256 fuel ⟨some i, .rb, pos, []⟩) (fs, h) := by
  rw [hashFile_eq]
  refine scripted_call (exec_fseek_source _ fs i pos) ?_
  set start := if (sched h.length).fails then pos else 0
  have hq₁ : Quiet (h ++ [⟨.fseek ⟨some i, .rb, pos, []⟩,
      (if (sched h.length).fails then -1 else 0, ⟨some i, .rb, start, []⟩), fs, fs⟩]) :=
    hq.append (by simp)
  refine Terms.Meets.bind ((hashLoop_scripted fuel hc start [] _ (by omega) hq₁).mono ?_)
  rintro o ⟨fs₁, h₁⟩ ⟨rfl, hq₂, m, pos', rfl, hm⟩
  rw [Terms.enters_some]
  refine scripted_ret ⟨rfl, hq₂, (c.drop start).take m, pos', rfl, ?_⟩
  rw [List.length_append, List.length_singleton] at hm
  unfold reread
  split_ifs at hm with hpos
  · rw [if_pos hpos]
    refine ⟨?_, (List.take_prefix _ _).isInfix.trans (List.drop_suffix _ _).isInfix⟩
    rw [Ne, List.eq_nil_iff_length_eq_zero, List.length_take, List.length_drop]
    omega
  · rw [if_neg hpos]
    exact ⟨by simp [hm.1], by simp only [hm.2]⟩

/-- Nothing comes back from the destination, but `fseek` flushes it. -/
theorem hashDest_scripted (sha256 : Bytes → Bytes) {fuel : ℕ} (hfuel : 0 < fuel) {dest : FILE}
    {fs : FS} (hino : dest.ino = some j) (hmode : dest.mode = .wb) (hpos : dest.pos = (fs.data j).length)
    {h : History} (hq : Quiet h) :
    (scripted exec sched).Meets
      (fun o s => Quiet s.2 ∧ Rewrites j fs s.1 ∧ s.2.length = h.length + 2 ∧
        ∃ f, o = some (sha256 [], f) ∧ Settled (settling (sched h.length) j dest fs) j f s.1)
      (hashFile sha256 fuel dest) (fs, h) := by
  obtain ⟨fuel, rfl⟩ := Nat.exists_eq_succ_of_ne_zero hfuel.ne'
  obtain ⟨hd, hw⟩ := exec_fseek_dest hino hmode hpos (sched h.length)
  rw [hashFile_eq]
  refine scripted_call rfl ?_
  rw [hashLoop_succ]
  refine scripted_call (exec_fread_dest _ _ hd.mode _) ?_
  exact scripted_ret ⟨(hq.append (by simp)).append (by simp), hw, by simp, _, rfl, hd⟩

/-- `verify_files` accepts when nothing is read again from the source. -/
theorem verifyFiles_scripted (sha256 : Bytes → Bytes) {fuel : ℕ} (hfuel : c.length < fuel)
    (hsha : ∀ bs, bs <:+: c → sha256 bs = sha256 [] → bs = []) {fs : FS} (hc : fs.data i = c)
    (pos : ℕ) {dest : FILE} (hino : dest.ino = some j) (hmode : dest.mode = .wb)
    (hpos : dest.pos = (fs.data j).length) {h : History} (hq : Quiet h) :
    (scripted exec sched).Meets
      (fun o s => Quiet s.2 ∧ Rewrites j fs s.1 ∧ ∃ v k, o = some v ∧ v.2.1.pending = [] ∧
        Settled (settling (sched k) j dest fs) j v.2.2 s.1 ∧
        if 0 < reread sched h.length pos c.length then v.1 = -1
        else v.1 = 0 ∧ k = h.length + 2 ∧ s.2.length = h.length + 4)
      (verifyFiles sha256 fuel ⟨some i, .rb, pos, []⟩ dest) (fs, h) := by
  rw [verifyFiles_eq]
  refine Terms.Meets.bind ((hashSource_scripted sha256 hfuel hc pos hq).mono ?_)
  rintro o ⟨fs₁, h₁⟩ ⟨rfl, hq₁, seen, pos', rfl, hseen⟩
  rw [Terms.enters_some]
  refine Terms.Meets.bind ((hashDest_scripted sha256 (Nat.zero_lt_of_lt hfuel) hino hmode hpos hq₁).mono ?_)
  rintro o ⟨fs₂, h₂⟩ ⟨hq₂, hw₂, hlen, f, rfl, hd₂⟩
  rw [Terms.enters_some]
  dsimp only at hseen hlen hd₂ ⊢
  by_cases hsame : sha256 seen = sha256 []
  · rw [if_pos hsame]
    refine scripted_ret ⟨hq₂, hw₂, _, _, rfl, rfl, hd₂, ?_⟩
    split_ifs at hseen ⊢
    · exact absurd (hsha seen hseen.2 hsame) hseen.1
    · exact ⟨rfl, hseen.2, by dsimp only; omega⟩
  · rw [if_neg hsame]
    refine scripted_ret ⟨hq₂, hw₂, _, _, rfl, rfl, hd₂, ?_⟩
    split_ifs at hseen ⊢
    · rfl
    · exact absurd (by rw [hseen.1]) hsame

/-- A mismatch: both streams are closed and nothing is removed. -/
theorem finish_mismatch {path : Path} {v : ℤ × FILE × FILE} (hv : v.1 = -1)
    (hs : v.2.1.pending = []) (hd : v.2.2.pending = []) {fs : FS} {h : History} (hq : Quiet h) :
    (scripted exec sched).Meets (fun o s => o ≠ none ∧ Quiet s.2 ∧ s.1 = fs)
      (finish path .transfer v) (fs, h) := by
  unfold finish
  refine scripted_call (exec_fclose_done hd _ _) ?_
  refine scripted_call (exec_fclose_done hs _ _) ?_
  rw [if_pos (by rw [hv]; decide)]
  exact scripted_ret ⟨by simp, (hq.append (by simp)).append (by simp), rfl⟩

/-- A match: the source is removed. -/
theorem finish_match {path : Path} {v : ℤ × FILE × FILE} (hv : v.1 = 0)
    (hs : v.2.1.pending = []) (hd : v.2.2.pending = []) {fs : FS} {h : History} (hq : Quiet h) :
    (scripted exec sched).Meets (fun o s => o ≠ none ∧ ∃ h₁ e, Quiet h₁ ∧ s.2 = h₁ ++ [e] ∧
        e.op = .remove path ∧ e.before = fs ∧ e.after = s.1 ∧
        s.1 = (exec (sched (h.length + 2)) (.remove path) fs).2)
      (finish path .transfer v) (fs, h) := by
  unfold finish
  refine scripted_call (exec_fclose_done hd _ _) ?_
  refine scripted_call (exec_fclose_done hs _ _) ?_
  rw [if_neg (by rw [hv]; decide)]
  refine scripted_call Prod.mk.eta.symm ?_
  refine scripted_ret ⟨by simp, _, _, (hq.append (by simp)).append (by simp), rfl, rfl, rfl, rfl, ?_⟩
  simp

/-- What a copy has brought to the destination is `c` exactly when nothing was lost on the way. -/
theorem Tallied.arrived {T : Tally} {f : FILE} {fs : FS} (h : Tallied c T j f fs) (ch : Choice) :
    settling ch j f fs = c ↔ T.pos = c.length ∧ T.lossless = true ∧ through ch T.pending = T.pending := by
  have hbound := h.bound
  have hpending := h.pending
  have hle := through_le ch T.pending
  unfold settling
  rw [h.pending]
  have hlength : (fs.data j ++ f.pending.take (through ch T.pending)).length =
      (fs.data j).length + through ch T.pending := by
    rw [List.length_append, List.length_take, hpending, Nat.min_eq_left hle]
  constructor
  · intro hc
    rw [hc] at hlength
    cases hl : T.lossless with
    | false =>
      have hless := h.lossy hl
      rw [List.length_append, hpending] at hless
      omega
    | true =>
      have htotal := congrArg List.length (h.lossless hl)
      rw [List.length_append, List.length_take, hpending] at htotal
      refine ⟨?_, rfl, ?_⟩ <;> omega
  · rintro ⟨hpos, hl, hall⟩
    rw [hall, ← hpending, List.take_length, h.lossless hl, hpos, List.take_length]

/-- An emptied source: the loop ends at once. -/
theorem copyLoop_empty {fuel : ℕ} (hfuel : 0 < fuel) {fs : FS} (hc : fs.data i = []) (f : FILE)
    {h : History} (hq : Quiet h) :
    (scripted exec sched).Meets
      (fun o s => s.1 = fs ∧ Quiet s.2 ∧ s.2.length = h.length + 1 ∧
        o = some (⟨some i, .rb, 0, []⟩, f))
      (copyLoop fuel ⟨some i, .rb, 0, []⟩ f) (fs, h) := by
  obtain ⟨fuel, rfl⟩ := Nat.exists_eq_succ_of_ne_zero hfuel.ne'
  rw [copyLoop_succ]
  refine scripted_call (exec_fread_source _ hc 0) ?_
  have hnone : through (sched h.length) (min bufferSize (([] : Bytes).length - 0)) = 0 := by
    simpa using through_le (sched h.length) 0
  dsimp only
  rw [hnone, if_neg (by simp)]
  exact scripted_ret ⟨rfl, hq.append (by simp), by simp, rfl⟩

end Copy

section Places

variable {fs : FS} {path : Path} {i j : ℕ}

theorem fileAt_eq : fileAt fs path = some i ↔
    ∃ l, fs.resolve path = some l ∧ fs.node l = some (.file i) := by
  unfold fileAt
  rw [Option.bind_eq_some_iff]
  refine exists_congr fun l => and_congr_right fun _ => ?_
  rcases fs.node l with _ | _ | k | t <;> simp

theorem contentAt_eq {c : Bytes} (h : fileAt fs path = some i) (hc : fs.data i = c) :
    contentAt fs path = some c := by
  rw [contentAt, h, Option.map_some, hc]

/-- Contents play no part in finding a path. -/
theorem resolve_write (content : Bytes) : (fs.write i content).resolve path = fs.resolve path := by
  ext l
  have hout : FS.Persists fs (fs.write i content) := ⟨fun _ h => h, fun _ _ h => h⟩
  have hback : FS.Persists (fs.write i content) fs := ⟨fun _ h => h, fun _ _ h => h⟩
  exact ⟨fun h => FS.resolve_persists _ hback h rfl, fun h => FS.resolve_persists _ hout h rfl⟩

theorem resolveEntry_write (content : Bytes) :
    (fs.write i content).resolveEntry path = fs.resolveEntry path := by
  ext l
  have hout : FS.Persists fs (fs.write i content) := ⟨fun _ h => h, fun _ _ h => h⟩
  have hback : FS.Persists (fs.write i content) fs := ⟨fun _ h => h, fun _ _ h => h⟩
  exact ⟨fun h => FS.resolveEntry_persists _ hback h, fun h => FS.resolveEntry_persists _ hout h⟩

theorem fileAt_write (content : Bytes) : fileAt (fs.write i content) path = fileAt fs path := by
  unfold fileAt
  rw [resolve_write]
  rfl

theorem removeAt_write (content : Bytes) (l : Loc) :
    (fs.write i content).removeAt l = (fs.removeAt l).map (·.write i content) := by
  rcases l with _ | ⟨n, d⟩
  · rfl
  · by_cases hok : fs.node (n :: d) ≠ none ∧ fs.names (n :: d) = []
    · have hok' : (fs.write i content).node (n :: d) ≠ none ∧
        (fs.write i content).names (n :: d) = [] := hok
      simp only [FS.removeAt, dif_pos hok, dif_pos hok', Option.map_some]
      rfl
    · have hok' : ¬ ((fs.write i content).node (n :: d) ≠ none ∧
        (fs.write i content).names (n :: d) = []) := hok
      simp only [FS.removeAt, dif_neg hok, dif_neg hok', Option.map_none]

/-- What `"wb"` opens, and what that does to the other paths. -/
theorem openWrite_opened {f : FILE} {fs₁ : FS} (h : fs.openWrite path = (some f, fs₁)) :
    ∃ j, f = ⟨some j, .wb, 0, []⟩ ∧ fileAt fs₁ path = some j ∧ fs₁.data j = [] ∧
      ((fileAt fs path = some j ∧ fs₁ = fs.write j []) ∨ (fileAt fs path = none ∧ j = fs.next)) ∧
      ∀ other i, fileAt fs other = some i → i ≠ j → fileAt fs₁ other = some i ∧
        fs₁.data i = fs.data i := by
  unfold FS.openWrite at h
  rcases hr : fs.resolve path with _ | l
  · rw [hr] at h; cases h
  rw [hr] at h
  dsimp only at h
  rcases hn : fs.node l with _ | _ | j | t
  · rw [hn] at h
    dsimp only at h
    rcases hcr : fs.create l 0o666 with _ | fs₂
    · rw [hcr] at h; cases h
    rw [hcr] at h
    cases h
    rcases l with _ | ⟨n, d⟩
    · cases hcr
    unfold FS.create at hcr
    dsimp only at hcr
    split_ifs at hcr with hok
    cases hcr
    have hnode : ∀ k, (fs.addFile n d 0o666 hok.1 hok.2.1 hok.2.2).node k =
        if k = n :: d then some (.file fs.next) else fs.node k := fun k => fs.node_addFile
    have hpersists : FS.Persists fs (fs.addFile n d 0o666 hok.1 hok.2.1 hok.2.2) :=
      keeps_addFile.persists
    refine ⟨fs.next, rfl, ?_, by simp, .inr ⟨by simp [fileAt, hr, hn], rfl⟩, ?_⟩
    · refine fileAt_eq.mpr ⟨n :: d, ?_, by rw [hnode, if_pos rfl]⟩
      refine fs.resolve_stays hpersists hr fun _ _ => ?_
      rw [hnode, if_pos rfl]
      simp
    · intro other i hi hne
      obtain ⟨l, hl, hi⟩ := fileAt_eq.mp hi
      have hsame : (fs.addFile n d 0o666 hok.1 hok.2.1 hok.2.2).node l = fs.node l := by
        rw [hnode, if_neg (by rintro rfl; rw [hn] at hi; cases hi)]
      refine ⟨fileAt_eq.mpr ⟨l, fs.resolve_persists hpersists hl hsame, hsame.trans hi⟩, ?_⟩
      exact Function.update_of_ne hne ..
  · rw [hn] at h; cases h
  · rw [hn] at h
    cases h
    have hf : fileAt fs path = some j := fileAt_eq.mpr ⟨l, hr, hn⟩
    refine ⟨j, rfl, by rw [fileAt_write, hf], by simp, .inl ⟨hf, rfl⟩, ?_⟩
    intro other i hi hne
    exact ⟨by rw [fileAt_write, hi], Function.update_of_ne hne ..⟩
  · rw [hn] at h; cases h

/-- `remove` does not make a path lead to another file. -/
theorem fileAt_removeAt {fs' : FS} {l : Loc} (h : fs.removeAt l = some fs')
    (hf : fileAt fs' path = some i) : fileAt fs path = some i := by
  rcases l with _ | ⟨n, d⟩
  · cases h
  unfold FS.removeAt at h
  dsimp only at h
  split_ifs at h with hok
  cases h
  have hnode : ∀ k, (fs.unlink n d (fs.below_none_of_names_nil hok.2)).node k =
    if k = n :: d then none else fs.node k := fun k => fs.node_unlink
  have hback : ∀ k x, (fs.unlink n d (fs.below_none_of_names_nil hok.2)).node k = some x →
      fs.node k = some x := by
    intro k x hk
    rw [hnode] at hk
    split_ifs at hk
    exact hk
  obtain ⟨k, hk, hki⟩ := fileAt_eq.mp hf
  refine fileAt_eq.mpr ⟨k, ?_, hback k _ hki⟩
  exact FS.resolve_persists _ ⟨fun l => hback l _, fun l t => hback l _⟩ hk
    ((hback k _ hki).trans hki.symm)

/-- … and leaves every other file where it is. -/
theorem fileAt_remove {other : Path} (hi : fileAt fs path = some i) (hj : fileAt fs other = some j)
    (hne : j ≠ i) (ch : Choice) :
    fileAt (exec ch (.remove path) fs).2 other = some j ∧
      (exec ch (.remove path) fs).2.data = fs.data := by
  obtain ⟨l, hl, hnode⟩ := fileAt_eq.mp hi
  obtain ⟨l', hl', hnode'⟩ := fileAt_eq.mp hj
  rcases exec_remove_cases ch path fs with he | ⟨n, d, hbelow, he, hex, hs⟩
  · rw [he]
    exact ⟨hj, rfl⟩
  have hll : l' ≠ l := by
    rintro rfl
    rw [hnode] at hnode'
    cases hnode'
    exact hne rfl
  have hdir : fs.node l ≠ some .dir := by simp [hnode]
  have hlast : l' ≠ n :: d := by
    rintro rfl
    have := (fs.entry_leads hl hdir he).2.1 (by simp [hnode'])
    exact hll this.symm
  rw [hs]
  refine ⟨fileAt_eq.mpr ⟨l', fs.resolve_unlink hl hdir he hl' hll, ?_⟩, rfl⟩
  rw [FS.node_unlink, if_neg hlast, hnode']

end Places

section Outcome

variable {sched : ℕ → Choice} {fs : FS} {sourcePath destPath : Path} {i j : ℕ} {c : Bytes}

theorem Quiet.kept {fs : FS} {h : History} (hq : Quiet h)
    (hk : contentAt fs sourcePath = some c ∨ contentAt fs destPath = some c) :
    Kept sourcePath destPath c fs h :=
  ⟨hk, fun e he path hop => absurd hop (hq e he path)⟩

/-- A history with one `remove`, its last call. -/
theorem kept_removed {fs : FS} {h : History} (hq : Quiet h) {e : Event Sys Sys.Res FS} {path : Path}
    (hop : e.op = .remove path) :
    Kept sourcePath destPath c fs (h ++ [e]) ↔
      (contentAt fs sourcePath = some c ∨ contentAt fs destPath = some c) ∧
        contentAt e.before destPath = some c := by
  constructor
  · exact fun hk => ⟨hk.kept, hk.removal e (by simp) path hop⟩
  · rintro ⟨hk, hbefore⟩
    refine ⟨hk, fun e' he' path' hop' => ?_⟩
    rcases List.mem_append.mp he' with he' | he'
    · exact absurd hop' (hq e' he' path')
    · rw [List.mem_singleton.mp he']
      exact hbefore

theorem rewrites_keeps {fs fs' : FS} (h : Rewrites j fs fs') (path : Path) (hij : i ≠ j) :
    fileAt fs' path = fileAt fs path ∧ fs'.data i = fs.data i := by
  obtain ⟨content, rfl⟩ := h
  exact ⟨fileAt_write content, Function.update_of_ne hij ..⟩

/-- The rest of a transaction on two different files. -/
theorem apart_scripted (sha256 : Bytes → Bytes) {fuel : ℕ} (hfuel : c.length < fuel)
    (hsha : ∀ bs, bs <:+: c → sha256 bs = sha256 [] → bs = [])
    (hi : fileAt fs sourcePath = some i) (hc : fs.data i = c) (hj : fileAt fs destPath = some j)
    (hnil : fs.data j = []) (hij : i ≠ j) {h : History} (hq : Quiet h) (hlen : h.length = 2) :
    (scripted exec sched).Meets
      (fun o s => o ≠ none ∧ (Kept sourcePath destPath c s.1 s.2 ↔
        Rereads sched c.length ∨ Arrives sched c.length))
      (copyLoop fuel ⟨some i, .rb, 0, []⟩ ⟨some j, .wb, 0, []⟩ >>= fun s =>
        verifyFiles sha256 fuel s.1 s.2 >>= finish sourcePath .transfer) (fs, h) := by
  have htally : Tallied c ⟨2, 0, 0, true⟩ j ⟨some j, .wb, 0, []⟩ fs :=
    ⟨rfl, rfl, by simp [hnil], rfl, Nat.zero_le _, by simp [hnil], by simp⟩
  refine Terms.Meets.bind ((copyLoop_scripted hij fuel (c.length + 1) ⟨2, 0, 0, true⟩ _ fs h (by simpa)
    (by simp) hlen hq hc htally).mono ?_)
  rintro o ⟨fs₁, h₁⟩ ⟨hw₁, hq₁, hlen₁, f, rfl, ht₁⟩
  have hcopied : copyTally sched c.length (c.length + 1) ⟨2, 0, 0, true⟩ = copied sched c.length := rfl
  rw [hcopied] at hlen₁ ht₁ ⊢
  dsimp only at hw₁ hlen₁ ht₁
  have hc₁ : fs₁.data i = c := (rewrites_keeps hw₁ sourcePath hij).2.trans hc
  rw [Terms.enters_some]
  refine Terms.Meets.bind ((verifyFiles_scripted sha256 hfuel hsha hc₁ _ ht₁.ino ht₁.mode ht₁.pos hq₁).mono ?_)
  rintro o ⟨fs₂, h₂⟩ ⟨hq₂, hw₂, v, k, rfl, hpend, hd₂, hv⟩
  rw [Terms.enters_some]
  dsimp only at hw₂ hd₂ hv
  rw [hlen₁] at hv
  have hw := hw₁.trans hw₂
  obtain ⟨hi₂, hdata₂⟩ := rewrites_keeps hw sourcePath hij
  by_cases hre : 0 < reread sched (copied sched c.length).tick (copied sched c.length).pos c.length
  · -- the digests differ: the source stays
    rw [if_pos hre] at hv
    refine (finish_mismatch hv hpend hd₂.pending hq₂).mono ?_
    rintro o ⟨fs₃, h₃⟩ ⟨ho, hq₃, hsame⟩
    dsimp only at hsame
    subst hsame
    refine ⟨ho, fun _ => .inl hre, fun _ => hq₃.kept (.inl ?_)⟩
    exact contentAt_eq (hi₂.trans hi) (hdata₂.trans hc)
  · -- nothing is read again: the source goes, whatever has arrived
    rw [if_neg hre] at hv
    refine (finish_match hv.1 hpend hd₂.pending hq₂).mono ?_
    rintro o ⟨fs₃, h₃⟩ ⟨ho, h₄, e, hq₄, hh, hop, hbefore, hafter, hlast⟩
    have hj₂ : fileAt fs₂ destPath = some j := by
      obtain ⟨content, rfl⟩ := hw
      exact (fileAt_write content).trans hj
    obtain ⟨hj₃, hdata₃⟩ := fileAt_remove (hi₂.trans hi) hj₂ hij.symm (sched (h₂.length + 2))
    have harr : fs₂.data j = c ↔ Arrives sched c.length := by
      rw [hd₂.data, ht₁.arrived, hv.2.1]
      rfl
    dsimp only at hh hlast ⊢
    refine ⟨ho, ?_⟩
    rw [hh, kept_removed hq₄ hop, hbefore, ← harr]
    constructor
    · rintro ⟨-, hk⟩
      rw [contentAt, hj₂, Option.map_some] at hk
      exact .inr (Option.some.inj hk)
    · rintro (hk | hk)
      · exact absurd hk hre
      · refine ⟨.inr (contentAt_eq (hlast ▸ hj₃) ?_), contentAt_eq hj₂ hk⟩
        rw [hlast, hdata₃, hk]

/-- With the entry of the source gone, the path still leads where it led. -/
def Survives (fs : FS) (sourcePath path : Path) : Prop :=
  match (fs.resolveEntry sourcePath).bind fs.removeAt with
  | some fs' => fileAt fs' path = fileAt fs path
  | none => True

/-- What `remove` leaves of an emptied file: no content, but that as long as the path still leads to it. -/
theorem contentAt_emptied {path : Path} (hpath : fileAt fs path = some i) (ch : Choice) :
    contentAt (exec ch (.remove sourcePath) (fs.write i [])).2 path = some c ↔
      c = [] ∧ (ch.fails = true ∨ Survives fs sourcePath path) := by
  have hstays : contentAt (fs.write i []) path = some [] :=
    contentAt_eq ((fileAt_write []).trans hpath) (by simp)
  have hempty : some [] = some c ↔ c = [] := ⟨fun h => (Option.some.inj h).symm, fun h => by rw [h]⟩
  have hresolve : (fs.write i []).resolveEntry sourcePath = fs.resolveEntry sourcePath :=
    resolveEntry_write []
  by_cases hf : ch.fails = true
  · simp [exec, hf, hstays, hempty]
  have hafter : (exec ch (.remove sourcePath) (fs.write i [])).2 =
      match (fs.resolveEntry sourcePath).bind fs.removeAt with
      | some fs' => fs'.write i []
      | none => fs.write i [] := by
    simp only [exec, if_neg hf, hresolve]
    rcases fs.resolveEntry sourcePath with _ | l
    · rfl
    · simp only [Option.bind_some, removeAt_write]
      rcases fs.removeAt l with _ | fs' <;> rfl
  unfold Survives
  rw [hafter, or_iff_right hf]
  rcases hr : (fs.resolveEntry sourcePath).bind fs.removeAt with _ | fs'
  · dsimp only
    rw [hstays, hempty, and_true]
  obtain ⟨l, -, hl⟩ := Option.bind_eq_some_iff.mp hr
  dsimp only
  rw [contentAt, fileAt_write, hpath]
  cases hk : fileAt fs' path with
  | none => simp
  | some k =>
    obtain rfl : i = k := Option.some.inj (hpath.symm.trans (fileAt_removeAt hl hk))
    simp [hempty]

theorem kept_emptied (hi : fileAt fs sourcePath = some i) (hj : fileAt fs destPath = some i)
    (ch : Choice) :
    let after := (exec ch (.remove sourcePath) (fs.write i [])).2
    (contentAt after sourcePath = some [] ∨ contentAt after destPath = some []) ↔
      ch.fails = true ∨ StillNamed fs sourcePath destPath i := by
  intro after
  have hnamed : StillNamed fs sourcePath destPath i ↔
      Survives fs sourcePath sourcePath ∨ Survives fs sourcePath destPath := by
    unfold StillNamed Survives
    rw [hi, hj]
    rcases (fs.resolveEntry sourcePath).bind fs.removeAt with _ | fs'
    · exact ⟨fun _ => .inl trivial, fun _ => trivial⟩
    · exact Iff.rfl
  rw [contentAt_emptied hi, contentAt_emptied hj, hnamed]
  simp only [true_and]
  tauto

/-- Of an empty file nothing is read again. -/
theorem not_reread_nil (sched : ℕ → Choice) (tick : ℕ) : ¬ 0 < reread sched tick 0 ([] : Bytes).length := by
  have hle := through_le (sched (tick + 1))
    (min bufferSize (([] : Bytes).length - if (sched tick).fails then 0 else 0))
  simp only [List.length_nil, Nat.zero_sub, Nat.min_zero] at hle
  simp only [reread, List.length_nil, Nat.zero_sub, Nat.min_zero]
  omega

/-- The rest of a transaction on one file under two paths. -/
theorem aliased_scripted (sha256 : Bytes → Bytes) {fuel : ℕ} (hfuel : 0 < fuel)
    (hi : fileAt fs sourcePath = some i) (hj : fileAt fs destPath = some i) {h : History}
    (hq : Quiet h) (hlen : h.length = 2) :
    (scripted exec sched).Meets
      (fun o s => o ≠ none ∧ (Kept sourcePath destPath c s.1 s.2 ↔
        c.length = 0 ∧ ((sched 9).fails = true ∨ StillNamed fs sourcePath destPath i)))
      (copyLoop fuel ⟨some i, .rb, 0, []⟩ ⟨some i, .wb, 0, []⟩ >>= fun s =>
        verifyFiles sha256 fuel s.1 s.2 >>= finish sourcePath .transfer) (fs.write i [], h) := by
  refine Terms.Meets.bind ((copyLoop_empty hfuel (by simp) _ hq).mono ?_)
  rintro o ⟨fs₁, h₁⟩ ⟨hs₁, hq₁, hlen₁, rfl⟩
  dsimp only at hs₁ hlen₁
  subst hs₁
  rw [Terms.enters_some]
  have hempty : ∀ bs : Bytes, bs <:+: [] → sha256 bs = sha256 [] → bs = [] :=
    fun bs hbs _ => List.infix_nil.mp hbs
  refine Terms.Meets.bind ((verifyFiles_scripted sha256 (c := []) (j := i) (by simpa) hempty (by simp) 0 rfl rfl
    (by simp) hq₁).mono ?_)
  rintro o ⟨fs₂, h₂⟩ ⟨hq₂, hw₂, v, k, rfl, hpend, hd₂, hv⟩
  rw [if_neg (not_reread_nil sched h₁.length)] at hv
  rw [Terms.enters_some]
  dsimp only at hv
  refine (finish_match hv.1 hpend hd₂.pending hq₂).mono ?_
  rintro o ⟨fs₃, h₃⟩ ⟨ho, h₄, e, hq₄, hh, hop, hbefore, hafter, hlast⟩
  obtain ⟨content, hcontent⟩ := hw₂
  have hnil : fs₂.data i = [] := by
    rw [hd₂.data]
    simp [settling]
  have hs₂ : fs₂ = fs.write i [] := by
    dsimp only at hcontent
    rw [hcontent, FS.data_write, Function.update_self] at hnil
    rw [hcontent, hnil, write_write]
  have htick : h₂.length + 2 = 9 := by
    have := hv.2.2
    omega
  dsimp only at hh hlast hlen₁ ⊢
  rw [htick, hs₂] at hlast
  refine ⟨ho, ?_⟩
  have hbeforeAt : contentAt (fs.write i []) destPath = some [] :=
    contentAt_eq ((fileAt_write []).trans hj) (by simp)
  rw [hh, kept_removed hq₄ hop, hbefore, hs₂, hbeforeAt, List.length_eq_zero_iff]
  have hiff := kept_emptied hi hj (sched 9)
  rw [← hlast] at hiff
  constructor
  · rintro ⟨hk, hc⟩
    have hc : c = [] := (Option.some.inj hc).symm
    subst hc
    exact ⟨rfl, hiff.mp hk⟩
  · rintro ⟨rfl, hk⟩
    exact ⟨hiff.mpr hk, rfl⟩

/-- The second `fopen` fails where the destination does not open. -/
theorem exec_fopen_blocked (h0 : (sched 0).fails = false) (hopens : ¬ Opens sched fs destPath) :
    exec (sched 1) (.fopen destPath .wb) fs = (none, fs) := by
  by_cases h1 : (sched 1).fails = true
  · simp [exec, h1]
  rcases openWrite_cases fs destPath with ⟨j, fs₁, hw⟩ | hw
  · refine absurd ⟨h0, by simpa using h1, ?_⟩ hopens
    simp [hw]
  · simp [exec, h1, hw]

/-- How a transaction begins: a file does not open, or the destination is the source itself and has lost its
content, or it is another file and empty. -/
theorem transactTransferFile_meets (sha256 : Bytes → Bytes) {fuel : ℕ} {method : TransferMethod}
    (hi : fileAt fs sourcePath = some i) {post : Option ℤ → FS × History → Prop}
    (blocked : ¬ Opens sched fs destPath → ∀ h, Quiet h → post (some transactErrOpen) (fs, h))
    (aliased : Opens sched fs destPath → fileAt fs destPath = some i → ∀ h, Quiet h → h.length = 2 →
      (scripted exec sched).Meets post
        (copyLoop fuel ⟨some i, .rb, 0, []⟩ ⟨some i, .wb, 0, []⟩ >>= fun s =>
          verifyFiles sha256 fuel s.1 s.2 >>= finish sourcePath method) (fs.write i [], h))
    (apart : Opens sched fs destPath → fileAt fs destPath ≠ some i → ∀ j fs₁ h,
      fs.openWrite destPath = (some ⟨some j, .wb, 0, []⟩, fs₁) → i ≠ j → Quiet h → h.length = 2 →
      (scripted exec sched).Meets post
        (copyLoop fuel ⟨some i, .rb, 0, []⟩ ⟨some j, .wb, 0, []⟩ >>= fun s =>
          verifyFiles sha256 fuel s.1 s.2 >>= finish sourcePath method) (fs₁, h)) :
    (scripted exec sched).Meets post (transactTransferFile sha256 fuel sourcePath destPath method) (fs, []) := by
  have hquiet : Quiet [] := by simp [Quiet]
  have hread : fs.openRead sourcePath = some ⟨some i, .rb, 0, []⟩ := by
    obtain ⟨l, hl, hn⟩ := fileAt_eq.mp hi
    simp [FS.openRead, hl, hn]
  rw [transactTransferFile_eq]
  by_cases h0 : (sched 0).fails = true
  · have hopen : exec (sched 0) (.fopen sourcePath .rb) fs = (none, fs) := by simp [exec, h0]
    have hnot : ¬ Opens sched fs destPath := fun h => by simp [h.1] at h0
    exact scripted_call hopen (scripted_ret (blocked hnot _ (hquiet.append (by simp))))
  have hopen : exec (sched 0) (.fopen sourcePath .rb) fs = (some ⟨some i, .rb, 0, []⟩, fs) := by
    simp only [exec, if_neg h0, hread]
  refine scripted_call hopen ?_
  dsimp only
  by_cases hopens : Opens sched fs destPath
  · have hwrite : exec (sched 1) (.fopen destPath .wb) fs = fs.openWrite destPath := by
      simp [exec, hopens.2.1]
    rcases hw : fs.openWrite destPath with ⟨_ | f, fs₁⟩
    · exact absurd (by rw [hw]) hopens.2.2
    rw [hw] at hwrite
    refine scripted_call hwrite ?_
    obtain ⟨j, rfl, -, -, hfrom, -⟩ := openWrite_opened hw
    have hq : ∀ e e' : Event Sys Sys.Res FS, (∀ path, e.op ≠ .remove path) → (∀ path, e'.op ≠ .remove path) →
        Quiet ([] ++ [e] ++ [e']) := fun e e' he he' => (hquiet.append he).append he'
    dsimp only
    by_cases hij : i = j
    · subst hij
      rcases hfrom with ⟨hsame, rfl⟩ | ⟨-, hfresh⟩
      · exact aliased hopens hsame _ (hq _ _ (by simp) (by simp)) rfl
      · obtain ⟨l, -, hl⟩ := fileAt_eq.mp hi
        exact absurd hfresh (fs.node_fresh hl).ne
    · have hother : fileAt fs destPath ≠ some i := by
        rintro h
        rcases hfrom with ⟨h', -⟩ | ⟨h', -⟩
        · exact hij (Option.some.inj (h.symm.trans h'))
        · simp [h] at h'
      exact apart hopens hother j fs₁ _ hw hij (hq _ _ (by simp) (by simp)) rfl
  · have hblocked : exec (sched 1) (.fopen destPath .wb) fs = (none, fs) :=
      exec_fopen_blocked (by simpa using h0) hopens
    refine scripted_call hblocked (scripted_call (exec_fclose_done rfl _ _) (scripted_ret (blocked hopens _ ?_)))
    exact ((hquiet.append (by simp)).append (by simp)).append (by simp)

/-- A moved file is kept exactly in the safe cases. -/
theorem transactTransferFile_kept_iff (sha256 : Bytes → Bytes) {fuel : ℕ}
    (hi : fileAt fs sourcePath = some i) (hc : fs.data i = c) (hfuel : c.length < fuel)
    (hsha : ∀ bs, bs <:+: c → sha256 bs = sha256 [] → bs = []) (sched : ℕ → Choice) :
    let p := transactTransferFile sha256 fuel sourcePath destPath .transfer
    (run exec sched p 0 fs).result ≠ none ∧
      (Kept sourcePath destPath c (run exec sched p 0 fs).state (trace exec sched p 0 fs) ↔
        Safe sched fs sourcePath destPath i c.length) := by
  intro p
  have hkept : contentAt fs sourcePath = some c := contentAt_eq hi hc
  suffices hmeets : (scripted exec sched).Meets (fun o s => o ≠ none ∧
      (Kept sourcePath destPath c s.1 s.2 ↔ Safe sched fs sourcePath destPath i c.length)) p (fs, []) by
    simpa using scripted_run hmeets
  refine transactTransferFile_meets sha256 hi ?blocked ?aliased ?apart
  case blocked =>
    intro hopens h hq
    exact ⟨by simp, fun _ => .inl hopens, fun _ => hq.kept (.inl hkept)⟩
  case aliased =>
    intro hopens hsame h hq hlen
    refine (aliased_scripted (c := c) sha256 (Nat.zero_lt_of_lt hfuel) hi hsame hq hlen).mono ?_
    rintro o s ⟨ho, hiff⟩
    refine ⟨ho, hiff.trans ⟨fun h => .inr (.inr ⟨hsame, h⟩), ?_⟩⟩
    rintro (h | ⟨h, -⟩ | ⟨-, h⟩)
    · exact absurd hopens h
    · exact absurd hsame h
    · exact h
  case apart =>
    intro hopens hother j fs₁ h hw hij hq hlen
    obtain ⟨j', hfile, hj, hnil, -, hothers⟩ := openWrite_opened hw
    obtain rfl : j = j' := by simpa using hfile
    obtain ⟨hi₁, hdata₁⟩ := hothers sourcePath i hi hij
    refine (apart_scripted sha256 hfuel hsha hi₁ (hdata₁.trans hc) hj hnil hij hq hlen).mono ?_
    rintro o s ⟨ho, hiff⟩
    refine ⟨ho, hiff.trans ⟨fun h => .inr (.inl ⟨hother, h⟩), ?_⟩⟩
    rintro (h | ⟨-, h⟩ | ⟨h, -⟩)
    · exact absurd hopens h
    · exact h
    · exact absurd h hother

theorem copyTally_clean (hs : ∀ t, (sched t).clean) (len fuel : ℕ) (T : Tally) (hT : T.pos ≤ len)
    (hf : len - T.pos < fuel) :
    (copyTally sched len fuel T).pos = len ∧ (copyTally sched len fuel T).lossless = T.lossless := by
  have hclean : ∀ t, (sched t).fails = false := hs
  have hall : ∀ t n, through (sched t) n = n := fun t n => by simp [through, hclean]
  induction fuel generalizing T with
  | zero => omega
  | succ fuel ih =>
    rw [copyTally]
    simp only [hall]
    have hbuf : 0 < bufferSize := by decide
    split_ifs with hpos
    · have hlossless : (T.write (sched (T.tick + 1)) (min bufferSize (len - T.pos))).lossless = T.lossless := by
        simp [Tally.write, hall, hclean]
      rw [← hlossless]
      exact ih _ (by dsimp only [Tally.write]; omega) (by dsimp only [Tally.write]; omega)
    · exact ⟨by dsimp only; omega, rfl⟩

/-- Without faults, only a second path to the same file is dangerous. -/
theorem Safe.of_clean (hs : ∀ t, (sched t).clean) (hne : fileAt fs destPath ≠ some i) (len : ℕ) :
    Safe sched fs sourcePath destPath i len := by
  refine .inr (.inl ⟨hne, .inr ?_⟩)
  obtain ⟨hpos, hlossless⟩ := copyTally_clean hs len (len + 1) ⟨2, 0, 0, true⟩ (Nat.zero_le _) (by simp)
  refine ⟨hpos, hlossless, ?_⟩
  have hlast := hs ((copied sched len).tick + 2)
  rw [Choice.clean] at hlast
  simp [through, hlast]

end Outcome

/-- One file, `/a`. -/
def single : FS := (FS.empty.addFile (bytes "a") [] 0o666 FS.empty.node_root validName_a (by decide)).write 0 [1]

theorem transactTransferFile_kept_single :
    let p := transactTransferFile id 2 (bytes "/a") (bytes "/b") .transfer
    (run exec (fun _ => Choice.plain) p 0 single).result ≠ none ∧
      (Kept (bytes "/a") (bytes "/b") [1] (run exec (fun _ => Choice.plain) p 0 single).state
          (trace exec (fun _ => Choice.plain) p 0 single) ↔
        Safe (fun _ => Choice.plain) single (bytes "/a") (bytes "/b") 0 1) :=
  transactTransferFile_kept_iff id (i := 0) (c := [1]) (by decide) (by decide) (by decide)
    (fun _ _ h => h) _

/-- A disk that does not read: the third call, the `fread` of the copy, and the fifth, the `fread`
of `hash_file`. -/
def unreadable (t : ℕ) : Choice :=
  if t = 2 ∨ t = 4 then ⟨true, 0, 0, id, fun names => List.Perm.refl names⟩ else Choice.plain

/-- Both reads of the source fail: nothing is copied, and the source is removed. -/
theorem not_kept_unreadable :
    let p := transactTransferFile id 2 (bytes "/a") (bytes "/b") .transfer
    ¬ Kept (bytes "/a") (bytes "/b") [1] (run exec unreadable p 0 single).state
      (trace exec unreadable p 0 single) := by
  intro p h
  have hlost : contentAt (run exec unreadable p 0 single).state (bytes "/a") ≠ some [1] ∧
      contentAt (run exec unreadable p 0 single).state (bytes "/b") ≠ some [1] := by decide +kernel
  exact h.kept.elim hlost.1 hlost.2

end Reportman.NoLoss
