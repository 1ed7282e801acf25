import Mathlib
import Reportman.NoLoss

/-!
# What a transaction leaves behind

The destination is opened `"wb"`, so nothing can be read back from it: it verifies only if nothing is read
again from the source either. By then the earlier backup is gone, and what the copy brought to the
destination stays there.
-/
namespace Reportman.Transaction
open Resumable FileSystem TransferFile Faults NoLoss

/-- What the destination holds and what its buffer holds at the end of the copy loop, from the call number
`tick` on, with the source read up to `pos`. A failing `fwrite` empties the buffer. -/
def poured (sched : ℕ → Choice) (c : Bytes) : ℕ → ℕ → ℕ → Bytes × Bytes → Bytes × Bytes
  | 0, _, _, held => held
  | fuel + 1, tick, pos, held =>
      let got := through (sched tick) (min bufferSize (c.length - pos))
      if got > 0 then
        let write := sched (tick + 1)
        let filled := held.2 ++ (c.drop pos).take (through write got)
        poured sched c fuel (tick + 2) (pos + got)
          (held.1 ++ filled.take write.early, if write.fails then [] else filled.drop write.early)
      else held

/-- The number of the next call after a hash loop that begins with call number `tick`. -/
def rehashed (sched : ℕ → Choice) (len : ℕ) : ℕ → ℕ → ℕ → ℕ
  | 0, tick, _ => tick
  | fuel + 1, tick, pos =>
      let got := through (sched tick) (min bufferSize (len - pos))
      if got > 0 then rehashed sched len fuel (tick + 1) (pos + got) else tick + 1

section Delivered

variable (sched : ℕ → Choice) (c : Bytes)

/-- The number of the `fseek` of the destination. -/
def secondSeek : ℕ :=
  rehashed sched c.length (c.length + 1) ((copied sched c.length).tick + 1)
    (if (sched (copied sched c.length).tick).fails then (copied sched c.length).pos else 0)

/-- What reaches the destination: the `fseek` is the last call that flushes anything. -/
def delivered : Bytes :=
  let held := poured sched c (c.length + 1) 2 0 ([], [])
  held.1 ++ held.2.take (through (sched (secondSeek sched c)) held.2.length)

end Delivered

/-- Where nothing is read again, the hash loop makes one call. -/
theorem rehashed_of_not_rereads {sched : ℕ → Choice} {len : ℕ} (h : ¬ Rereads sched len) :
    rehashed sched len (len + 1) ((copied sched len).tick + 1)
        (if (sched (copied sched len).tick).fails then (copied sched len).pos else 0) =
      (copied sched len).tick + 2 := by
  rw [Rereads, reread] at h
  rw [rehashed, if_neg h]

section Copy

variable {sched : ℕ → Choice} {c : Bytes} {i j : ℕ}

/-- The content that the copy loop gives to the destination. -/
theorem copyLoop_poured (hij : i ≠ j) (fuel : ℕ) :
    ∀ (fuel' tick pos : ℕ) (f : FILE) (fs : FS) (h : History), c.length - pos < fuel →
      c.length - pos < fuel' → h.length = tick → fs.data i = c → f.ino = some j → f.mode = .wb →
      f.pos = (fs.data j).length →
      (scripted exec sched).Meets
        (fun o s => ∃ source f', o = some (source, f') ∧
          (s.1.data j, f'.pending) = poured sched c fuel' tick pos (fs.data j, f.pending))
        (copyLoop fuel ⟨some i, .rb, pos, []⟩ f) (fs, h) := by
  induction fuel with
  | zero => intro _ _ pos _ _ _ hf; omega
  | succ fuel ih =>
    intro fuel' tick pos f fs h hf hf' hlen hc hino hmode hfpos
    obtain ⟨fuel', rfl⟩ : ∃ k, fuel' = k + 1 := ⟨fuel' - 1, by omega⟩
    rw [copyLoop_succ, poured]
    set g := through (sched tick) (min bufferSize (c.length - pos)) with hg
    have hgle : g ≤ min bufferSize (c.length - pos) := through_le _ _
    have hglen : ((c.drop pos).take g).length = g := by
      simp only [List.length_take, List.length_drop]
      omega
    have hread : exec (sched h.length) (.fread bufferSize ⟨some i, .rb, pos, []⟩) fs =
        (((c.drop pos).take g, ⟨some i, .rb, pos + g, []⟩), fs) := by
      rw [hlen, exec_fread_source _ hc]
    refine scripted_call hread ?_
    dsimp only
    rw [hglen]
    by_cases hpos : g > 0
    · rw [if_pos hpos, if_pos hpos]
      set filled := f.pending ++ (c.drop pos).take (through (sched (tick + 1)) g)
      have hwrite : exec (sched (h ++ [(⟨.fread bufferSize ⟨some i, .rb, pos, []⟩,
          ((c.drop pos).take g, ⟨some i, .rb, pos + g, []⟩), fs, fs⟩ : Event Sys Sys.Res FS)]).length)
          (.fwrite ((c.drop pos).take g) f) fs =
          ((((c.drop pos).take (through (sched (tick + 1)) g)).length,
            ⟨some j, .wb, f.pos + (filled.take (sched (tick + 1)).early).length,
              if (sched (tick + 1)).fails then [] else filled.drop (sched (tick + 1)).early⟩),
            fs.write j (fs.data j ++ filled.take (sched (tick + 1)).early)) := by
        rw [List.length_append, hlen, List.length_singleton]
        exact exec_fwrite_source _ pos g hino hmode hfpos
      refine scripted_call hwrite ?_
      refine (ih fuel' (tick + 2) (pos + g) _ _ _ (by omega) (by omega) ?_ ?_ rfl rfl ?_).mono ?_
      · simp [hlen]
      · rw [FS.data_write, Function.update_of_ne hij, hc]
      · simp [hfpos]
      · rintro o s ⟨source, f', rfl, htotal⟩
        refine ⟨source, f', rfl, htotal.trans ?_⟩
        rw [FS.data_write, Function.update_self]
    · rw [if_neg hpos, if_neg hpos]
      exact scripted_ret ⟨_, f, rfl, rfl⟩

/-- The calls of the hash loop on the source. -/
theorem hashLoop_rehashed (fuel : ℕ) {fs : FS} (hc : fs.data i = c) :
    ∀ (fuel' pos : ℕ) (seen : Bytes) (h : History), c.length - pos < fuel → c.length - pos < fuel' →
      (scripted exec sched).Meets
        (fun o s => o ≠ none ∧ s.2.length = rehashed sched c.length fuel' h.length pos)
        (hashLoop fuel ⟨some i, .rb, pos, []⟩ seen) (fs, h) := by
  induction fuel with
  | zero => intro _ pos _ _ hf; omega
  | succ fuel ih =>
    intro fuel' pos seen h hf hf'
    obtain ⟨fuel', rfl⟩ : ∃ k, fuel' = k + 1 := ⟨fuel' - 1, by omega⟩
    rw [hashLoop_succ, rehashed]
    set g := through (sched h.length) (min bufferSize (c.length - pos)) with hg
    have hgle : g ≤ min bufferSize (c.length - pos) := through_le _ _
    have hglen : ((c.drop pos).take g).length = g := by
      simp only [List.length_take, List.length_drop]
      omega
    refine scripted_call (exec_fread_source _ hc pos) ?_
    rw [← hg]
    dsimp only
    rw [hglen]
    by_cases hpos : g > 0
    · rw [if_pos hpos, if_pos (by omega : g ≠ 0)]
      refine (ih fuel' (pos + g) _ _ (by omega) (by omega)).mono ?_
      rintro o s ⟨ho, hs⟩
      rw [hs, List.length_append, List.length_singleton]
      exact ⟨ho, rfl⟩
    · rw [if_neg hpos, if_neg (by omega)]
      exact scripted_ret ⟨by simp, by simp⟩

/-- `verify_files`, up to the number of the next call. -/
theorem verifyFiles_outcome (sha256 : Bytes → Bytes) {fuel : ℕ} (hfuel : c.length < fuel)
    (hsha : ∀ bs, bs <:+: c → sha256 bs = sha256 [] → bs = []) {fs : FS} (hc : fs.data i = c)
    (pos : ℕ) {dest : FILE} (hino : dest.ino = some j) (hmode : dest.mode = .wb)
    (hpos : dest.pos = (fs.data j).length) {h : History} (hq : Quiet h) :
    let seek := rehashed sched c.length (c.length + 1) (h.length + 1)
      (if (sched h.length).fails then pos else 0)
    (scripted exec sched).Meets
      (fun o s => Rewrites j fs s.1 ∧ s.2.length = seek + 2 ∧ ∃ v, o = some v ∧ v.2.1.pending = [] ∧
        Settled (settling (sched seek) j dest fs) j v.2.2 s.1 ∧
        v.1 = if 0 < reread sched h.length pos c.length then -1 else 0)
      (verifyFiles sha256 fuel ⟨some i, .rb, pos, []⟩ dest) (fs, h) := by
  intro seek
  have hticks : (scripted exec sched).Meets (fun _ s => s.2.length = seek)
      (hashFile sha256 fuel ⟨some i, .rb, pos, []⟩) (fs, h) := by
    rw [hashFile_eq]
    refine scripted_call (exec_fseek_source _ fs i pos) ?_
    refine Terms.Meets.bind ((hashLoop_rehashed fuel hc (c.length + 1) _ [] _ (by omega) (by omega)).mono ?_)
    rintro (_ | r) ⟨fs₁, h₁⟩ ⟨ho, hlen⟩
    · exact absurd rfl ho
    · rw [Terms.enters_some]
      exact scripted_ret (by simpa using hlen)
  rw [verifyFiles_eq]
  refine Terms.Meets.bind ((Terms.Meets.and (hashSource_scripted sha256 hfuel hc pos hq) hticks).mono ?_)
  rintro o ⟨fs₁, h₁⟩ ⟨⟨rfl, hq₁, seen, pos', rfl, hseen⟩, hseek⟩
  rw [Terms.enters_some]
  refine Terms.Meets.bind ((hashDest_scripted sha256 (Nat.zero_lt_of_lt hfuel) hino hmode hpos hq₁).mono ?_)
  rintro o ⟨fs₂, h₂⟩ ⟨hq₂, hw₂, hlen, f, rfl, hd₂⟩
  rw [Terms.enters_some]
  dsimp only at hseen hseek hlen hd₂ ⊢
  rw [hseek] at hlen hd₂
  by_cases hre : 0 < reread sched h.length pos c.length
  · rw [if_pos hre] at hseen
    have hdiffer : sha256 seen ≠ sha256 [] := fun hsame => hseen.1 (hsha seen hseen.2 hsame)
    rw [if_neg hdiffer, if_pos hre]
    exact scripted_ret ⟨hw₂, hlen, _, rfl, rfl, hd₂, rfl⟩
  · rw [if_neg hre] at hseen
    rw [hseen.1, if_pos rfl, if_neg hre]
    exact scripted_ret ⟨hw₂, hlen, _, rfl, rfl, hd₂, rfl⟩

/-- What the closing and the removal do. -/
theorem finish_outcome {path : Path} {method : TransferMethod} {v : ℤ × FILE × FILE}
    (hs : v.2.1.pending = []) (hd : v.2.2.pending = []) {fs : FS} {h : History} :
    (scripted exec sched).Meets (fun o s =>
        if v.1 < 0 then o = some transactHashFailed ∧ s.1 = fs
        else o = some transactSuccess ∧ s.1 = match method with
          | .transfer => (exec (sched (h.length + 2)) (.remove path) fs).2
          | .backup => fs)
      (finish path method v) (fs, h) := by
  unfold finish
  refine scripted_call (exec_fclose_done hd _ _) (scripted_call (exec_fclose_done hs _ _) ?_)
  by_cases hv : v.1 < 0
  · simp only [if_pos hv]
    exact scripted_ret ⟨rfl, rfl⟩
  · simp only [if_neg hv]
    cases method with
    | backup => exact scripted_ret ⟨rfl, rfl⟩
    | transfer =>
      refine scripted_call Prod.mk.eta.symm (scripted_ret ⟨rfl, ?_⟩)
      simp

end Copy

section Outcome

variable {sched : ℕ → Choice} {fs : FS} {sourcePath destPath : Path} {i j : ℕ} {c : Bytes}
  {method : TransferMethod}

/-- What a transaction on two open files returns and leaves. -/
structure Left (sched : ℕ → Choice) (sourcePath : Path) (j : ℕ) (c : Bytes) (method : TransferMethod) (fs : FS)
    (o : Option ℤ) (fs' : FS) : Prop where
  failed : Rereads sched c.length → o = some transactHashFailed ∧ Rewrites j fs fs' ∧
    fs'.data j = delivered sched c
  done : ¬ Rereads sched c.length → o = some transactSuccess ∧ ∃ fs₁, Rewrites j fs fs₁ ∧
    fs₁.data j = delivered sched c ∧ fs' = match method with
      | .transfer => (exec (sched (secondSeek sched c + 4)) (.remove sourcePath) fs₁).2
      | .backup => fs₁
  arrived : ¬ Rereads sched c.length → (delivered sched c = c ↔ Arrives sched c.length)

theorem apart_outcome (sha256 : Bytes → Bytes) {fuel : ℕ} (hfuel : c.length < fuel)
    (hsha : ∀ bs, bs <:+: c → sha256 bs = sha256 [] → bs = []) (hc : fs.data i = c)
    (hnil : fs.data j = []) (hij : i ≠ j) {h : History} (hq : Quiet h) (hlen : h.length = 2) :
    (scripted exec sched).Meets (fun o s => Left sched sourcePath j c method fs o s.1)
      (copyLoop fuel ⟨some i, .rb, 0, []⟩ ⟨some j, .wb, 0, []⟩ >>= fun s =>
        verifyFiles sha256 fuel s.1 s.2 >>= finish sourcePath method) (fs, h) := by
  have htally : Tallied c ⟨2, 0, 0, true⟩ j ⟨some j, .wb, 0, []⟩ fs :=
    ⟨rfl, rfl, by simp [hnil], rfl, Nat.zero_le _, by simp [hnil], by simp⟩
  refine Terms.Meets.bind ((Terms.Meets.and
    (copyLoop_scripted hij fuel (c.length + 1) ⟨2, 0, 0, true⟩ _ fs h (by simpa) (by simp) hlen hq hc htally)
    (copyLoop_poured hij fuel (c.length + 1) 2 0 ⟨some j, .wb, 0, []⟩ fs h (by simpa) (by simp) hlen hc rfl
      rfl (by simp [hnil]))).mono ?_)
  rintro o ⟨fs₁, h₁⟩ ⟨⟨hw₁, hq₁, hlen₁, f, rfl, ht₁⟩, source, f', ho, htotal⟩
  rw [Option.some.injEq, Prod.mk.injEq] at ho
  obtain ⟨-, rfl⟩ := ho
  have hcopied : copyTally sched c.length (c.length + 1) ⟨2, 0, 0, true⟩ = copied sched c.length := rfl
  rw [hcopied] at hlen₁ ht₁ ⊢
  dsimp only at hw₁ hlen₁ ht₁ htotal
  rw [hnil] at htotal
  have hc₁ : fs₁.data i = c := (rewrites_keeps hw₁ sourcePath hij).2.trans hc
  rw [Terms.enters_some]
  refine Terms.Meets.bind ((verifyFiles_outcome sha256 hfuel hsha hc₁ _ ht₁.ino ht₁.mode ht₁.pos hq₁).mono ?_)
  rintro o ⟨fs₂, h₂⟩ ⟨hw₂, hlen₂, v, rfl, hpend, hd₂, hv⟩
  rw [Terms.enters_some]
  dsimp only at hw₂ hlen₂ hd₂ hv
  rw [hlen₁] at hlen₂ hd₂ hv
  refine (finish_outcome hpend hd₂.pending).mono ?_
  rintro o ⟨fs₃, h₃⟩ hrest
  have hw := hw₁.trans hw₂
  dsimp only at hlen₂ hrest
  rw [hlen₂] at hrest
  have hdata : fs₂.data j = delivered sched c := by
    rw [hd₂.data, delivered, ← htotal]
    rfl
  constructor
  · intro hre
    unfold Rereads at hre
    rw [if_pos hre] at hv
    rw [hv, if_pos (by decide)] at hrest
    obtain ⟨ho, rfl⟩ := hrest
    exact ⟨ho, hw, hdata⟩
  · intro hre
    unfold Rereads at hre
    rw [if_neg hre] at hv
    rw [hv, if_neg (by decide)] at hrest
    exact ⟨hrest.1, fs₂, hw, hdata, hrest.2⟩
  · intro hre
    rw [← hdata, hd₂.data, rehashed_of_not_rereads hre, ht₁.arrived]
    rfl

/-- The source under both paths has been cut to nothing, and nothing is read again. -/
theorem aliased_outcome (sha256 : Bytes → Bytes) {fuel : ℕ} (hfuel : 0 < fuel) (hnil : fs.data i = [])
    {h : History} (hq : Quiet h) (hlen : h.length = 2) :
    (scripted exec sched).Meets (fun o s => o = some transactSuccess ∧ s.1 = match method with
        | .transfer => (exec (sched 9) (.remove sourcePath) fs).2
        | .backup => fs)
      (copyLoop fuel ⟨some i, .rb, 0, []⟩ ⟨some i, .wb, 0, []⟩ >>= fun s =>
        verifyFiles sha256 fuel s.1 s.2 >>= finish sourcePath method) (fs, h) := by
  refine Terms.Meets.bind ((copyLoop_empty hfuel hnil _ hq).mono ?_)
  rintro o ⟨fs₁, h₁⟩ ⟨hs₁, hq₁, hlen₁, rfl⟩
  dsimp only at hs₁ hlen₁
  subst hs₁
  rw [Terms.enters_some]
  have hempty : ∀ bs : Bytes, bs <:+: [] → sha256 bs = sha256 [] → bs = [] :=
    fun bs hbs _ => List.infix_nil.mp hbs
  refine Terms.Meets.bind ((verifyFiles_outcome sha256 (c := []) (j := i) (by simpa) hempty hnil 0 rfl rfl
    (by simp [hnil]) hq₁).mono ?_)
  rintro o ⟨fs₂, h₂⟩ ⟨hw₂, hlen₂, v, rfl, hpend, hd₂, hv⟩
  rw [if_neg (not_reread_nil sched h₁.length)] at hv
  rw [Terms.enters_some]
  refine (finish_outcome hpend hd₂.pending).mono ?_
  rintro o s hrest
  rw [hv, if_neg (by decide)] at hrest
  obtain ⟨content, hcontent⟩ := hw₂
  dsimp only at hcontent hlen₂ hrest
  have hsame : fs₂ = fs₁ := by
    have hdata : fs₂.data i = [] := by
      rw [hd₂.data]
      simp [settling, hnil]
    rw [hcontent, FS.data_write, Function.update_self] at hdata
    rw [hcontent, hdata, ← hnil, write_self]
  have htick : h₂.length + 2 = 9 := by
    have hone : through (sched (h₁.length + 1)) (min bufferSize (([] : Bytes).length -
        if (sched h₁.length).fails then 0 else 0)) = 0 := by
      simpa using through_le (sched (h₁.length + 1)) 0
    rw [rehashed, hone, if_neg (by simp)] at hlen₂
    omega
  rw [hsame, htick] at hrest
  exact hrest

/-- What a transaction on the file `i` comes to. -/
structure Comes (sched : ℕ → Choice) (sourcePath destPath : Path) (i : ℕ) (c : Bytes) (method : TransferMethod)
    (fs : FS) (o : Option ℤ) (fs' : FS) : Prop where
  blocked : ¬ Opens sched fs destPath → o = some transactErrOpen ∧ fs' = fs
  aliased : Opens sched fs destPath → fileAt fs destPath = some i → o = some transactSuccess ∧
    fs' = match method with
      | .transfer => (exec (sched 9) (.remove sourcePath) (fs.write i [])).2
      | .backup => fs.write i []
  apart : Opens sched fs destPath → fileAt fs destPath ≠ some i → ∃ j fs₁,
    fs.openWrite destPath = (some ⟨some j, .wb, 0, []⟩, fs₁) ∧ i ≠ j ∧
      Left sched sourcePath j c method fs₁ o fs'

variable (destPath method) in
theorem transactTransferFile_comes (sha256 : Bytes → Bytes) {fuel : ℕ} (hi : fileAt fs sourcePath = some i)
    (hc : fs.data i = c) (hfuel : c.length < fuel)
    (hsha : ∀ bs, bs <:+: c → sha256 bs = sha256 [] → bs = []) (sched : ℕ → Choice) :
    let o := run exec sched (transactTransferFile sha256 fuel sourcePath destPath method) 0 fs
    Comes sched sourcePath destPath i c method fs o.result o.state := by
  suffices hmeets : (scripted exec sched).Meets (fun o s =>
      Comes sched sourcePath destPath i c method fs o s.1)
      (transactTransferFile sha256 fuel sourcePath destPath method) (fs, []) from scripted_run hmeets
  refine transactTransferFile_meets sha256 hi ?blocked ?aliased ?apart
  case blocked =>
    intro hopens h hq
    exact ⟨fun _ => ⟨rfl, rfl⟩, fun h => absurd h hopens, fun h => absurd h hopens⟩
  case aliased =>
    intro hopens hsame h hq hlen
    refine (aliased_outcome sha256 (Nat.zero_lt_of_lt hfuel) (by simp) hq hlen).mono ?_
    rintro o s ho
    exact ⟨fun h => absurd hopens h, fun _ _ => ho, fun _ h => absurd hsame h⟩
  case apart =>
    intro hopens hother j fs₁ h hw hij hq hlen
    obtain ⟨j', hfile, -, hnil, -, hothers⟩ := openWrite_opened hw
    obtain rfl : j = j' := by simpa using hfile
    obtain ⟨-, hdata₁⟩ := hothers sourcePath i hi hij
    refine (apart_outcome sha256 hfuel hsha (hdata₁.trans hc) hnil hij hq hlen).mono ?_
    rintro o s hleft
    exact ⟨fun h => absurd hopens h, fun _ h => absurd h hother, fun _ _ => ⟨j, fs₁, hw, hij, hleft⟩⟩

/-- A code other than success means that both paths hold what they held. -/
def FailsClean (sourcePath destPath : Path) (fs : FS) (o : Outcome ℤ FS) : Prop :=
  o.result ≠ none ∧ (o.result ≠ some transactSuccess →
    contentAt o.state sourcePath = contentAt fs sourcePath ∧ contentAt o.state destPath = contentAt fs destPath)

/-- A failure changes nothing exactly when there is none after the opening, or what has been copied is what
was there before. -/
theorem transactTransferFile_failsClean_iff (sha256 : Bytes → Bytes) {fuel : ℕ}
    (hi : fileAt fs sourcePath = some i) (hc : fs.data i = c) (hfuel : c.length < fuel)
    (hsha : ∀ bs, bs <:+: c → sha256 bs = sha256 [] → bs = []) (method : TransferMethod)
    (sched : ℕ → Choice) :
    FailsClean sourcePath destPath fs
        (run exec sched (transactTransferFile sha256 fuel sourcePath destPath method) 0 fs) ↔
      ¬ Opens sched fs destPath ∨ fileAt fs destPath = some i ∨ ¬ Rereads sched c.length ∨
        contentAt fs destPath = some (delivered sched c) := by
  have hcomes := transactTransferFile_comes destPath method sha256 hi hc hfuel hsha sched
  generalize run exec sched (transactTransferFile sha256 fuel sourcePath destPath method) 0 fs = o at hcomes ⊢
  dsimp only at hcomes
  rw [FailsClean]
  by_cases hopens : Opens sched fs destPath
  swap
  · obtain ⟨ho, hstate⟩ := hcomes.blocked hopens
    exact iff_of_true ⟨by simp [ho], fun _ => by rw [hstate]; exact ⟨rfl, rfl⟩⟩ (.inl hopens)
  by_cases hsame : fileAt fs destPath = some i
  · have ho := (hcomes.aliased hopens hsame).1
    exact iff_of_true ⟨by simp [ho], fun h => absurd ho h⟩ (.inr (.inl hsame))
  obtain ⟨j, fs₁, hw, hij, hleft⟩ := hcomes.apart hopens hsame
  obtain ⟨j', hfile, hj, -, -, hothers⟩ := openWrite_opened hw
  obtain rfl : j = j' := by simpa using hfile
  by_cases hre : Rereads sched c.length
  swap
  · have ho := (hleft.done hre).1
    exact iff_of_true ⟨by simp [ho], fun h => absurd ho h⟩ (.inr (.inr (.inl hre)))
  obtain ⟨ho, hrewrites, hdata⟩ := hleft.failed hre
  obtain ⟨hi₁, hdata₁⟩ := hothers sourcePath i hi hij
  obtain ⟨hfile₂, hdata₂⟩ := rewrites_keeps hrewrites sourcePath hij
  have hsource : contentAt o.state sourcePath = contentAt fs sourcePath :=
    (contentAt_eq (hfile₂.trans hi₁) (hdata₂.trans (hdata₁.trans hc))).trans (contentAt_eq hi hc).symm
  have hdest : contentAt o.state destPath = some (delivered sched c) :=
    contentAt_eq ((rewrites_keeps hrewrites destPath hij).1.trans hj) hdata
  have hfailed : o.result ≠ some transactSuccess := by rw [ho]; decide
  constructor
  · rintro ⟨-, h⟩
    exact .inr (.inr (.inr ((h hfailed).2.symm.trans hdest)))
  · rintro (h | h | h | h)
    · exact absurd hopens h
    · exact absurd h hsame
    · exact absurd hre h
    · exact ⟨by simp [ho], fun _ => ⟨hsource, hdest.trans h.symm⟩⟩

def lengthAt (fs : FS) (path : Path) : ℕ := ((contentAt fs path).getD []).length

/-- One of the two files is not opened, or something is read again from a source that is not the destination
itself. -/
def Refused (sched : ℕ → Choice) (fs : FS) (sourcePath destPath : Path) : Prop :=
  ¬ Opens sched fs destPath ∨
    (fileAt fs destPath ≠ fileAt fs sourcePath ∧ Rereads sched (lengthAt fs sourcePath))

/-- The whole source arrives; or it is the destination itself, is empty, and can still be found there. -/
def Delivers (sched : ℕ → Choice) (fs : FS) (sourcePath destPath : Path) (method : TransferMethod) : Prop :=
  (fileAt fs destPath ≠ fileAt fs sourcePath ∧ Arrives sched (lengthAt fs sourcePath)) ∨
    (fileAt fs destPath = fileAt fs sourcePath ∧ lengthAt fs sourcePath = 0 ∧
      (method = .transfer → (sched 9).fails = true ∨ Survives fs sourcePath destPath))

/-- What was at the first path is at the second. -/
def Copied (fs fs' : FS) (sourcePath destPath : Path) : Prop :=
  ∃ c, contentAt fs sourcePath = some c ∧ contentAt fs' destPath = some c

/-- A transaction from any call of a run on, with whatever fuel it has returned. -/
theorem transactTransferFile_comes_from (sha256 : Bytes → Bytes) {fuel : ℕ}
    (hsha : ∀ bs, sha256 bs = sha256 [] → bs = []) (hi : fileAt fs sourcePath = some i) (hc : fs.data i = c)
    {t t' : ℕ} {status : ℤ} {fs' : FS}
    (hrun : run exec sched (transactTransferFile sha256 fuel sourcePath destPath method) t fs =
      ⟨some status, t', fs'⟩) :
    Comes (fun k => sched (t + k)) sourcePath destPath i c method fs (some status) fs' := by
  have henough : c.length < max fuel (c.length + 1) := by omega
  have hcomes := transactTransferFile_comes destPath method sha256 hi hc henough (fun bs _ => hsha bs)
    (fun k => sched (t + k))
  have hcut := transactTransferFile_cut sha256 (le_max_left fuel (c.length + 1)) sourcePath destPath method
  have hreturns :
      (run exec sched (transactTransferFile sha256 fuel sourcePath destPath method) t fs).result ≠ none := by
    simp [hrun]
  have hmore := (hcut.run_eq hreturns).trans hrun
  have hshift := hmore.symm.trans (run_shift exec sched _ t 0 fs)
  rw [Outcome.mk.injEq] at hshift
  rw [hshift.1, hshift.2.2]
  exact hcomes

/-- What the status of a transaction says, and what it leaves unsaid. -/
theorem transactTransferFile_copied_iff (sha256 : Bytes → Bytes) {fuel : ℕ}
    (hsha : ∀ bs, sha256 bs = sha256 [] → bs = []) (hi : fileAt fs sourcePath = some i) {t t' : ℕ} {status : ℤ}
    {fs' : FS} (hrun : run exec sched (transactTransferFile sha256 fuel sourcePath destPath method) t fs =
      ⟨some status, t', fs'⟩) :
    (status = transactSuccess ↔ ¬ Refused (fun k => sched (t + k)) fs sourcePath destPath) ∧
      (status = transactSuccess →
        (Copied fs fs' sourcePath destPath ↔ Delivers (fun k => sched (t + k)) fs sourcePath destPath method)) := by
  obtain ⟨c, hc⟩ : ∃ c, fs.data i = c := ⟨_, rfl⟩
  have hcontent : contentAt fs sourcePath = some c := contentAt_eq hi hc
  have hlength : lengthAt fs sourcePath = c.length := by simp [lengthAt, hcontent]
  have hcopied : Copied fs fs' sourcePath destPath ↔ contentAt fs' destPath = some c := by
    simp [Copied, hcontent]
  have hcomes := transactTransferFile_comes_from sha256 hsha hi hc hrun
  generalize (fun k => sched (t + k)) = script at hcomes ⊢
  rw [hcopied, Refused, Delivers, hlength, hi]
  by_cases hopens : Opens script fs destPath
  swap
  · obtain ⟨hstatus, -⟩ := hcomes.blocked hopens
    have hfailed : status ≠ transactSuccess := by
      rw [Option.some.inj hstatus]
      decide
    exact ⟨iff_of_false hfailed (not_not_intro (.inl hopens)), fun h => absurd h hfailed⟩
  by_cases hsame : fileAt fs destPath = some i
  · obtain ⟨hstatus, hstate⟩ := hcomes.aliased hopens hsame
    refine ⟨iff_of_true (Option.some.inj hstatus) (by simp [hopens, hsame]), fun _ => ?_⟩
    rw [hstate, List.length_eq_zero_iff]
    cases method with
    | backup =>
      have hleft : contentAt (fs.write i []) destPath = some [] :=
        contentAt_eq ((fileAt_write []).trans hsame) (by simp)
      have hempty : some [] = some c ↔ c = [] := ⟨fun h => (Option.some.inj h).symm, fun h => by rw [h]⟩
      simp [hleft, hempty, hsame]
    | transfer => simp [contentAt_emptied hsame, hsame]
  obtain ⟨j, fs₁, hw, hij, hleft⟩ := hcomes.apart hopens hsame
  by_cases hre : Rereads script c.length
  · have hfailed : status ≠ transactSuccess := by
      rw [Option.some.inj (hleft.failed hre).1]
      decide
    exact ⟨iff_of_false hfailed (not_not_intro (.inr ⟨hsame, hre⟩)), fun h => absurd h hfailed⟩
  · obtain ⟨hstatus, fs₂, hrewrites, hdata, hstate⟩ := hleft.done hre
    refine ⟨iff_of_true (Option.some.inj hstatus) (by simp [hopens, hre]), fun _ => ?_⟩
    obtain ⟨j', hfile, hj, -, -, hothers⟩ := openWrite_opened hw
    obtain rfl : j = j' := by simpa using hfile
    have hj₂ := (rewrites_keeps hrewrites destPath hij).1.trans hj
    have hi₂ := (rewrites_keeps hrewrites sourcePath hij).1.trans (hothers sourcePath i hi hij).1
    have hdest : contentAt fs' destPath = some (delivered script c) := by
      rw [hstate]
      cases method with
      | backup => exact contentAt_eq hj₂ hdata
      | transfer =>
        obtain ⟨hj₃, hdata₃⟩ := fileAt_remove hi₂ hj₂ hij.symm (script (secondSeek script c + 4))
        exact contentAt_eq hj₃ (by rw [hdata₃, hdata])
    rw [hdest, Option.some.injEq, hleft.arrived hre]
    simp [hsame]

end Outcome

/-- Two files, `/a` and its earlier backup `/b`. -/
def backedUp : FS :=
  (NoLoss.single.addFile (bytes "b") [] 0o666 NoLoss.single.node_root (by decide) (by decide)).write 1 [2]

theorem transactTransferFile_failsClean_backedUp :
    FailsClean (bytes "/a") (bytes "/b") backedUp
        (run exec (fun _ => Choice.plain) (transactTransferFile id 2 (bytes "/a") (bytes "/b") .backup) 0 backedUp) ↔
      ¬ Opens (fun _ => Choice.plain) backedUp (bytes "/b") ∨ fileAt backedUp (bytes "/b") = some 0 ∨
        ¬ Rereads (fun _ => Choice.plain) 1 ∨
          contentAt backedUp (bytes "/b") = some (delivered (fun _ => Choice.plain) [1]) :=
  transactTransferFile_failsClean_iff id (i := 0) (c := [1]) (by decide) (by decide) (by decide)
    (fun _ _ h => h) .backup _

/-- Without any fault a backup fails, and the earlier one is gone. -/
theorem not_failsClean_backedUp :
    ¬ FailsClean (bytes "/a") (bytes "/b") backedUp
      (run exec (fun _ => Choice.plain) (transactTransferFile id 2 (bytes "/a") (bytes "/b") .backup) 0
        backedUp) := by
  intro h
  have hresult : (run exec (fun _ => Choice.plain)
      (transactTransferFile id 2 (bytes "/a") (bytes "/b") .backup) 0 backedUp).result ≠
      some transactSuccess := by decide +kernel
  have hlost : contentAt (run exec (fun _ => Choice.plain)
      (transactTransferFile id 2 (bytes "/a") (bytes "/b") .backup) 0 backedUp).state (bytes "/b") ≠
      contentAt backedUp (bytes "/b") := by decide +kernel
  exact hlost (h.2 hresult).2

/-- The path names the regular file `i`, and no link to it. -/
def Names (fs : FS) (path : Path) (i : ℕ) : Prop :=
  ∃ l, fs.resolveEntry path = some l ∧ fs.resolve path = some l ∧ fs.node l = some (.file i)

section Clean

variable {fs : FS} {sourcePath destPath : Path} {i j : ℕ} {c : Bytes}

theorem Names.fileAt (h : Names fs sourcePath i) : fileAt fs sourcePath = some i := by
  obtain ⟨l, -, hl, hn⟩ := h
  exact fileAt_eq.mpr ⟨l, hl, hn⟩

/-- A removed file is gone. -/
theorem Names.removed (h : Names fs sourcePath i) {ch : Choice} (hch : ch.clean) :
    NoLoss.fileAt (exec ch (.remove sourcePath) fs).2 sourcePath = none := by
  obtain ⟨l, hentry, hresolve, hnode⟩ := h
  rcases l with _ | ⟨n, d⟩
  · rw [fs.node_root] at hnode
    cases hnode
  have hdir : fs.node (n :: d) ≠ some .dir := by simp [hnode]
  have hempty : fs.names (n :: d) = [] := by
    refine List.eq_nil_iff_forall_not_mem.mpr fun m hm => hdir ?_
    exact fs.node_parent (fs.mem_names.mp hm)
  have hok : fs.node (n :: d) ≠ none ∧ fs.names (n :: d) = [] := ⟨by simp [hnode], hempty⟩
  have hafter : (exec ch (.remove sourcePath) fs).2 = fs.unlink n d (fs.below_none_of_names_nil hempty) := by
    rw [Choice.clean] at hch
    simp only [exec, hch, Bool.false_eq_true, if_false, hentry, Option.bind_some, FS.removeAt, dif_pos hok]
  have hstart := hentry
  unfold FS.resolveEntry at hstart
  split at hstart
  · cases hstart
  next m above hrev =>
    split_ifs at hstart with hm
    obtain ⟨e, hwalk, he⟩ := Option.bind_eq_some_iff.mp hstart
    split_ifs at he with hedir
    obtain ⟨rfl, rfl⟩ : m = n ∧ e = d := by simpa using he
    have hcomps : components sourcePath = above.reverse ++ [m] := by
      rw [← List.reverse_reverse (components _), hrev, List.reverse_cons]
    set fs' := fs.unlink m e (fs.below_none_of_names_nil hempty) with hfs'
    have hunlinked (k : Loc) : fs'.node k = if k = m :: e then none else fs.node k := fs.node_unlink
    have hwalk' : fs'.walk FS.maxLinks [] above.reverse = some e :=
      fs.walk_unlink hresolve hdir hentry _ _ _ fs.node_root hwalk (List.cons_ne_self m e).symm
    have hedir' : fs'.node e = some .dir := by
      rw [hunlinked, if_neg (List.cons_ne_self m e).symm, hedir]
    obtain ⟨k, hk⟩ := fs'.walk_append_dir _ _ above.reverse [m] hwalk' hedir'
    have hmissing : fs'.node (m :: e) = none := by rw [hunlinked, if_pos rfl]
    have hresolve' : fs'.resolve sourcePath = some (m :: e) := by
      have hne : sourcePath ≠ [] := TransferDirectory.resolve_ne_nil hresolve
      rw [FS.resolve, if_neg hne, hcomps, hk, FS.walk_leaf hm (by simp [hmissing]) (by simp [hmissing]),
        if_pos rfl]
    rw [hafter, NoLoss.fileAt, hresolve', Option.bind_some, hmissing]

variable {sched : ℕ → Choice}

/-- Without faults all of a nonempty source is read again. -/
theorem rereads_clean (hclean : ∀ t, (sched t).clean) (len : ℕ) : Rereads sched len ↔ 0 < len := by
  have hseek := hclean (copied sched len).tick
  have hread := hclean ((copied sched len).tick + 1)
  rw [Choice.clean] at hseek hread
  have hbuffer : 0 < bufferSize := by decide
  simp only [Rereads, reread, through, hseek, hread, Bool.false_eq_true, if_false]
  omega

theorem delivered_nil : delivered sched [] = [] := by
  have hgot := through_le (sched 2) (min bufferSize (([] : Bytes).length - 0))
  have hnone : poured sched [] (([] : Bytes).length + 1) 2 0 ([], []) = ([], []) := by
    rw [poured, if_neg]
    simpa using hgot
  rw [delivered, hnone, List.take_nil, List.append_nil]

/-- What a transaction is for. -/
structure Transacted (method : TransferMethod) (sourcePath destPath : Path) (c : Bytes) (o : Outcome ℤ FS) :
    Prop where
  success : o.result = some transactSuccess
  copied : contentAt o.state destPath = some c
  source : contentAt o.state sourcePath = match method with
    | .backup => some c
    | .transfer => none

/-- Without faults a transaction succeeds on the empty file only. -/
theorem transactTransferFile_transacted_iff (sha256 : Bytes → Bytes) {fuel : ℕ} (hi : Names fs sourcePath i)
    (hj : fileAt fs destPath = some j) (hij : i ≠ j) (hc : fs.data i = c) (hfuel : c.length < fuel)
    (hsha : ∀ bs, bs <:+: c → sha256 bs = sha256 [] → bs = []) (hclean : ∀ t, (sched t).clean)
    (method : TransferMethod) :
    Transacted method sourcePath destPath c
        (run exec sched (transactTransferFile sha256 fuel sourcePath destPath method) 0 fs) ↔ c = [] := by
  have hcomes := transactTransferFile_comes destPath method sha256 hi.fileAt hc hfuel
    hsha sched
  generalize run exec sched (transactTransferFile sha256 fuel sourcePath destPath method) 0 fs = o at hcomes ⊢
  dsimp only at hcomes
  have hopens : Opens sched fs destPath := by
    obtain ⟨l, hl, hn⟩ := fileAt_eq.mp hj
    exact ⟨hclean 0, hclean 1, by simp [FS.openWrite, hl, hn]⟩
  have hother : fileAt fs destPath ≠ some i := by
    rw [hj, Ne, Option.some.injEq]
    exact hij.symm
  obtain ⟨j', fs₁, hw, hij', hleft⟩ := hcomes.apart hopens hother
  obtain ⟨j'', hfile, hj₁, -, hfrom, hothers⟩ := openWrite_opened hw
  obtain rfl : j' = j'' := by simpa using hfile
  obtain ⟨hj', hfs₁⟩ : fileAt fs destPath = some j' ∧ fs₁ = fs.write j' [] := by
    rcases hfrom with h | ⟨h, -⟩
    · exact h
    · rw [hj] at h
      cases h
  have hre := rereads_clean hclean c.length
  constructor
  · intro h
    by_contra hne
    have hfailed := (hleft.failed (hre.mpr (List.length_pos_iff.mpr hne))).1
    rw [h.success] at hfailed
    exact absurd hfailed (by decide)
  · rintro rfl
    obtain ⟨ho, fs₂, ⟨content, hfs₂⟩, hdata, hstate⟩ := hleft.done (by rw [hre]; simp)
    have hkept (path : Path) : fileAt fs₂ path = fileAt fs path := by
      rw [hfs₂, hfs₁, fileAt_write, fileAt_write]
    have hsource : fs₂.data i = [] := by
      rw [hfs₂, hfs₁, FS.data_write, FS.data_write, Function.update_of_ne hij', Function.update_of_ne hij', hc]
    rw [delivered_nil] at hdata
    cases method with
    | backup =>
      dsimp only at hstate
      subst hstate
      exact ⟨ho, contentAt_eq ((hkept _).trans hj') hdata, contentAt_eq ((hkept _).trans hi.fileAt) hsource⟩
    | transfer =>
      dsimp only at hstate
      have hnames : Names fs₂ sourcePath i := by
        obtain ⟨l, hentry, hresolve, hnode⟩ := hi
        refine ⟨l, ?_, ?_, ?_⟩
        · rw [hfs₂, hfs₁, resolveEntry_write, resolveEntry_write, hentry]
        · rw [hfs₂, hfs₁, resolve_write, resolve_write, hresolve]
        · rw [hfs₂, hfs₁]
          exact hnode
      obtain ⟨hdest, hdata'⟩ := fileAt_remove hnames.fileAt ((hkept _).trans hj') hij'.symm
        (sched (secondSeek sched [] + 4))
      refine ⟨ho, ?_, ?_⟩
      · rw [hstate]
        exact contentAt_eq hdest (by rw [hdata', hdata])
      · rw [hstate, contentAt, hnames.removed (hclean _), Option.map_none]

end Clean

/-- Two files, `/a` empty and `/b`. -/
def emptied : FS := backedUp.write 0 []

theorem transactTransferFile_transacted_emptied :
    (Transacted .transfer (bytes "/a") (bytes "/b") []
      (run exec (fun _ => Choice.plain) (transactTransferFile id 1 (bytes "/a") (bytes "/b") .transfer) 0 emptied) ↔
      ([] : Bytes) = []) ∧
    (Transacted .backup (bytes "/a") (bytes "/b") [1]
      (run exec (fun _ => Choice.plain) (transactTransferFile id 2 (bytes "/a") (bytes "/b") .backup) 0 backedUp) ↔
      ([1] : Bytes) = []) :=
  ⟨transactTransferFile_transacted_iff id (i := 0) (j := 1) ⟨[bytes "a"], by decide, by decide, by decide⟩
    (by decide) (by decide) (by decide) (by decide) (fun _ _ h => h)
    (fun _ => (rfl : Choice.plain.clean)) .transfer,
  transactTransferFile_transacted_iff id (i := 0) (j := 1) ⟨[bytes "a"], by decide, by decide, by decide⟩
    (by decide) (by decide) (by decide) (by decide) (fun _ _ h => h)
    (fun _ => (rfl : Choice.plain.clean)) .backup⟩

/-- One byte is not transferred. -/
theorem not_transacted_backedUp :
    ¬ Transacted .transfer (bytes "/a") (bytes "/b") [1]
      (run exec (fun _ => Choice.plain) (transactTransferFile id 2 (bytes "/a") (bytes "/b") .transfer) 0
        backedUp) := by
  intro h
  have hresult : (run exec (fun _ => Choice.plain)
      (transactTransferFile id 2 (bytes "/a") (bytes "/b") .transfer) 0 backedUp).result ≠
      some transactSuccess := by decide +kernel
  exact hresult h.success

end Reportman.Transaction
