import Mathlib
import Reportman.Resumable

/-!
# Programs side by side

A pool is a family of programs over one state. A step is a call of one of them, and which of them makes the next
call is left open. When what each guarantees is something that all others may rely on, each comes out as it does
among others that keep to their side; and as the programs are trees, a pool of finitely many ends.
-/
namespace Reportman.Resumable

variable {ι Op κ σ α : Type} {Res : Op → Type}

/-- The programs with what they have left to do, and the state that they share. -/
structure Pool (ι Op : Type) (Res : Op → Type) (α σ : Type) where
  programs : ι → Program Op Res α
  state : σ

namespace Pool

section Specifications

variable {T : ι → Terms Op Res κ σ} {post : ι → Option α → σ → Prop} {J : σ → Prop} {P : Pool ι Op Res α σ}

/-- Every program of a pool meets its specification, and what they share is in order. -/
structure Meets (T : ι → Terms Op Res κ σ) (post : ι → Option α → σ → Prop) (J : σ → Prop)
    (P : Pool ι Op Res α σ) : Prop where
  each : ∀ i, (T i).Meets (post i) (P.programs i) P.state
  shared : J P.state

/-- A program that has returned has done so with its postcondition. -/
theorem Meets.returned (h : Meets T post J P) {i : ι} {a : α} (hi : P.programs i = .ret a) :
    post i (some a) P.state := by
  have hmeets := h.each i
  rw [hi] at hmeets
  exact hmeets P.state ((T i).rely_refl _)

theorem Meets.halted (h : Meets T post J P) {i : ι} (hi : P.programs i = .halt) : post i none P.state := by
  have hmeets := h.each i
  rw [hi] at hmeets
  exact hmeets P.state ((T i).rely_refl _)

end Specifications

section Steps

variable [DecidableEq ι] (exec : κ → (op : Op) → σ → Res op × σ) (allowed : κ → Prop)

inductive Step : Pool ι Op Res α σ → Pool ι Op Res α σ → Prop
  | call {P : Pool ι Op Res α σ} {i : ι} {op : Op} {next : Res op → Program Op Res α} (c : κ)
      (hi : P.programs i = .call op next) (hc : allowed c) :
      Step P ⟨Function.update P.programs i (next (exec c op P.state).1), (exec c op P.state).2⟩

variable {exec allowed} {T : ι → Terms Op Res κ σ} {post : ι → Option α → σ → Prop} {J : σ → Prop}
  {P P' : Pool ι Op Res α σ}

/-- The terms of the programs fit each other as long as `J` holds. -/
structure Compatible (exec : κ → (op : Op) → σ → Res op × σ) (allowed : κ → Prop) (T : ι → Terms Op Res κ σ)
    (J : σ → Prop) : Prop where
  exec : ∀ i, (T i).exec = exec
  allowed : ∀ i c, allowed c → (T i).allowed c
  shared : ∀ i op r s s', J s → (T i).guarantee op r s s' → J s'
  rely : ∀ i j, i ≠ j → ∀ op r s s', J s → (T i).guarantee op r s s' → (T j).rely s s'

theorem Meets.step (h : Meets T post J P) (hT : Compatible exec allowed T J) (hstep : Step exec allowed P P') :
    Meets T post J P' := by
  cases hstep with
  | @call i op next c hi hc =>
    have hmeets := h.each i
    rw [hi] at hmeets
    obtain ⟨hguarantee, hnext⟩ := hmeets P.state ((T i).rely_refl _) c (hT.allowed i c hc)
    rw [hT.exec i] at hguarantee hnext
    refine ⟨fun j => ?_, hT.shared i op _ _ _ h.shared hguarantee⟩
    by_cases hj : j = i
    · subst hj
      change (T j).Meets (post j) (Function.update P.programs j _ j) _
      rw [Function.update_self]
      exact hnext
    · change (T j).Meets (post j) (Function.update P.programs i _ j) _
      rw [Function.update_of_ne hj]
      exact (h.each j).stable (hT.rely i j (Ne.symm hj) op _ _ _ h.shared hguarantee)

/-- The parallel rule. -/
theorem Meets.run (h : Meets T post J P) (hT : Compatible exec allowed T J)
    (hrun : Relation.ReflTransGen (Step exec allowed) P P') : Meets T post J P' := by
  induction hrun with
  | refl => exact h
  | tail _ hstep ih => exact ih.step hT hstep

/-- The next call of a program, if it makes one. -/
def turn (exec : κ → (op : Op) → σ → Res op × σ) (P : Pool ι Op Res α σ) (i : ι) (c : κ) : Pool ι Op Res α σ :=
  match P.programs i with
  | .call op next => ⟨Function.update P.programs i (next (exec c op P.state).1), (exec c op P.state).2⟩
  | .ret _ => P
  | .halt => P

/-- One turn after the other. -/
theorem turns_reach (turns : List (ι × κ)) (hallowed : ∀ t ∈ turns, allowed t.2) :
    Relation.ReflTransGen (Step exec allowed) P (turns.foldl (fun P t => turn exec P t.1 t.2) P) := by
  induction turns generalizing P with
  | nil => exact .refl
  | cons t turns ih =>
    obtain ⟨hfirst, hrest⟩ := List.forall_mem_cons.1 hallowed
    have hturns := @ih (turn exec P t.1 t.2) hrest
    cases ht : P.programs t.1 with
    | call op next =>
      have hstep : Step exec allowed P (turn exec P t.1 t.2) := by
        simp only [turn, ht]
        exact .call t.2 ht hfirst
      exact .head hstep hturns
    | ret a => simpa [turn, ht] using hturns
    | halt => simpa [turn, ht] using hturns

end Steps

section Ends

variable [DecidableEq ι] {exec : κ → (op : Op) → σ → Res op × σ} {allowed : κ → Prop}

/-- What is left after a call. -/
inductive After : Program Op Res α → Program Op Res α → Prop
  | call (op : Op) (next : Res op → Program Op Res α) (r : Res op) : After (next r) (.call op next)

theorem after_wellFounded : WellFounded (After : Program Op Res α → Program Op Res α → Prop) := by
  refine ⟨fun p => ?_⟩
  induction p with
  | ret a => exact ⟨_, nofun⟩
  | halt => exact ⟨_, nofun⟩
  | call op next ih =>
    refine ⟨_, fun q hq => ?_⟩
    cases hq with
    | call op next r => exact ih r

/-- The programs, without their names. -/
def all [Fintype ι] (P : Pool ι Op Res α σ) : Multiset (Program Op Res α) := Finset.univ.val.map P.programs

theorem all_step [Fintype ι] {P P' : Pool ι Op Res α σ} (h : Step exec allowed P P') :
    Relation.CutExpand After P'.all P.all := by
  cases h with
  | @call i op next c hi hc =>
    refine ⟨{next (exec c op P.state).1}, P.programs i, fun q hq => ?_, ?_⟩
    · obtain rfl := Multiset.mem_singleton.1 hq
      rw [hi]
      exact .call op next _
    · have hsplit : (Finset.univ : Finset ι).val = i ::ₘ (Finset.univ : Finset ι).val.erase i :=
        (Multiset.cons_erase (Finset.mem_univ_val i)).symm
      have hnot : i ∉ (Finset.univ : Finset ι).val.erase i := (Finset.univ : Finset ι).nodup.notMem_erase
      have hrest : ((Finset.univ : Finset ι).val.erase i).map
          (Function.update P.programs i (next (exec c op P.state).1)) =
          ((Finset.univ : Finset ι).val.erase i).map P.programs :=
        Multiset.map_congr rfl fun j hj => Function.update_of_ne (ne_of_mem_of_not_mem hj hnot) ..
      change Finset.univ.val.map (Function.update P.programs i (next (exec c op P.state).1)) + {P.programs i} =
        Finset.univ.val.map P.programs + {next (exec c op P.state).1}
      rw [hsplit, Multiset.map_cons, Multiset.map_cons, Function.update_self, hrest]
      simp only [← Multiset.singleton_add]
      abel

/-- There is no end of calls only if there is no end of programs. -/
theorem step_wellFounded [Finite ι] :
    WellFounded fun P' P : Pool ι Op Res α σ => Step exec allowed P P' := by
  have := Fintype.ofFinite ι
  exact Subrelation.wf (fun h => all_step h) (InvImage.wf all after_wellFounded.cutExpand)

/-- Programs that run together come to a point where none can go on. -/
theorem exists_stuck [Finite ι] (P : Pool ι Op Res α σ) :
    ∃ P', Relation.ReflTransGen (Step exec allowed) P P' ∧ ∀ P'', ¬ Step exec allowed P' P'' := by
  obtain ⟨P', hreach, hlast⟩ :=
    step_wellFounded.has_min {P' | Relation.ReflTransGen (Step exec allowed) P P'} ⟨P, .refl⟩
  exact ⟨P', hreach, fun P'' hstep => hlast P'' (hreach.tail hstep) hstep⟩

end Ends

end Pool

section Invariants

variable {β : Type} {T : Terms Op Res κ σ} {I : σ → Prop} {Q : α → Prop} {s : σ}

/-- What the others keep. -/
def Terms.Stable (T : Terms Op Res κ σ) (I : σ → Prop) : Prop := ∀ s s', I s → T.rely s s' → I s'

/-- `I` wherever a program ends, and `Q` of what it returns. -/
def Terms.Keeping (I : σ → Prop) (Q : α → Prop) (o : Option α) (s : σ) : Prop := I s ∧ ∀ a, o = some a → Q a

namespace Terms

theorem Meets.keep_ret {a : α} (hI : T.Stable I) (h : I s) (ha : Q a) :
    T.Meets (Keeping I Q) (Program.ret a : Program Op Res α) s := by
  refine fun s' hr => ⟨hI _ _ h hr, ?_⟩
  rintro _ ⟨⟩
  exact ha

theorem Meets.keep_halt (hI : T.Stable I) (h : I s) : T.Meets (Keeping I Q) (Program.halt : Program Op Res α) s :=
  fun _ hr => ⟨hI _ _ h hr, nofun⟩

/-- A call that keeps `I`, wherever the others have gone meanwhile. -/
theorem Meets.keep_call {op : Op} {next : Res op → Program Op Res α} {post : Option α → σ → Prop}
    (hI : T.Stable I) (h : I s)
    (hcall : ∀ c s, I s → T.guarantee op (T.exec c op s).1 s (T.exec c op s).2 ∧ I (T.exec c op s).2)
    (hnext : ∀ c s, I s → I (T.exec c op s).2 → T.Meets post (next (T.exec c op s).1) (T.exec c op s).2) :
    T.Meets post (.call op next) s := by
  intro s₁ hr c _
  have hs₁ := hI _ _ h hr
  obtain ⟨hguarantee, hs₂⟩ := hcall c s₁ hs₁
  exact ⟨hguarantee, hnext c s₁ hs₁ hs₂⟩

/-- One part after the other, each with its own invariant. -/
theorem Meets.keep_bind {I' : σ → Prop} {Q' : β → Prop} {p : Program Op Res α} {f : α → Program Op Res β}
    (h : T.Meets (Keeping I Q) p s) (hweak : ∀ s, I s → I' s)
    (hf : ∀ a s, Q a → I s → T.Meets (Keeping I' Q') (f a) s) : T.Meets (Keeping I' Q') (p >>= f) s := by
  refine Meets.bind (h.mono ?_)
  rintro (_ | a) s' ⟨hs', ha⟩
  · exact ⟨hweak s' hs', nofun⟩
  · exact hf a s' (ha a rfl) hs'

theorem Meets.keep_mono {Q' : α → Prop} {p : Program Op Res α} (h : T.Meets (Keeping I Q) p s)
    (hQ : ∀ a, Q a → Q' a) : T.Meets (Keeping I Q') p s :=
  h.mono fun _ _ ho => ⟨ho.1, fun a ha => hQ a (ho.2 a ha)⟩

end Terms

end Invariants

end Reportman.Resumable
