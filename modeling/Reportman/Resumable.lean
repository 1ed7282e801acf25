import Mathlib

/-!
# Resumable programs and their rely–guarantee rules

A program is a tree of calls: after each call it waits for the response and goes on with the
subtree the response selects, so it can be stopped and resumed between any two calls. One tree
serves every reading of a program: run alone, run under a schedule of faults, or run while other
programs move the shared state between its calls.
-/
namespace Reportman.Resumable

/-- `halt` is the end of the process itself: nothing after it runs. -/
inductive Program (Op : Type) (Res : Op → Type) (α : Type)
  | ret (a : α)
  | halt
  | call (op : Op) (next : Res op → Program Op Res α)

variable {Op : Type} {Res : Op → Type} {α β κ σ : Type}

namespace Program

def bind : Program Op Res α → (α → Program Op Res β) → Program Op Res β
  | .ret a, f => f a
  | .halt, _ => .halt
  | .call op next, f => .call op fun r => (next r).bind f

instance : Monad (Program Op Res) where
  pure := .ret
  bind := Program.bind

/-- The program that makes one call and returns its response. -/
def perform (op : Op) : Program Op Res (Res op) := .call op .ret

@[simp] theorem pure_eq (a : α) : (pure a : Program Op Res α) = .ret a := rfl
@[simp] theorem ret_bind (a : α) (f : α → Program Op Res β) : (ret a >>= f) = f a := rfl
@[simp] theorem halt_bind (f : α → Program Op Res β) : (halt >>= f) = halt := rfl
@[simp] theorem call_bind (op : Op) (next : Res op → Program Op Res α)
    (f : α → Program Op Res β) : (call op next >>= f) = call op fun r => next r >>= f := rfl
@[simp] theorem perform_bind (op : Op) (f : Res op → Program Op Res β) :
    (perform op >>= f) = call op f := rfl

instance : LawfulMonad (Program Op Res) := LawfulMonad.mk' _
  (fun p => by
    induction p with
    | ret a => rfl
    | halt => rfl
    | call op next ih => exact congrArg (call op) (funext ih))
  (fun _ _ => rfl)
  (fun p f g => by
    induction p with
    | ret a => rfl
    | halt => rfl
    | call op next ih => exact congrArg (call op) (funext ih))

end Program

/-- What a program has come to: its result (`none` after `halt`), the number of the next call and
the state. -/
structure Outcome (α σ : Type) where
  result : Option α
  tick : ℕ
  state : σ

/-- One call of a run, with its response and the states around it. -/
structure Event (Op : Type) (Res : Op → Type) (σ : Type) where
  op : Op
  res : Res op
  before : σ
  after : σ

section Runs

variable (exec : κ → (op : Op) → σ → Res op × σ) (sched : ℕ → κ)

/-- Run alone: call number `t` is executed with the choice `sched t`. -/
def run : Program Op Res α → ℕ → σ → Outcome α σ
  | .ret a, t, s => ⟨some a, t, s⟩
  | .halt, t, s => ⟨none, t, s⟩
  | .call op next, t, s =>
      let out := exec (sched t) op s
      run (next out.1) (t + 1) out.2

/-- The calls that `run` makes, in order. -/
def trace : Program Op Res α → ℕ → σ → List (Event Op Res σ)
  | .ret _, _, _ => []
  | .halt, _, _ => []
  | .call op next, t, s =>
      let out := exec (sched t) op s
      ⟨op, out.1, s, out.2⟩ :: trace (next out.1) (t + 1) out.2

/-- A run of the first program comes to where the second is left to do. -/
inductive Reaches : Program Op Res α → ℕ → σ → Program Op Res α → ℕ → σ → Prop
  | here (p : Program Op Res α) (t : ℕ) (s : σ) : Reaches p t s p t s
  | call {op : Op} {next : Res op → Program Op Res α} {t : ℕ} {s : σ} {q : Program Op Res α} {t' : ℕ}
      {s' : σ} (h : Reaches (next (exec (sched t) op s).1) (t + 1) (exec (sched t) op s).2 q t' s') :
      Reaches (.call op next) t s q t' s'

/-- Continue a finished run with the rest of the program. -/
def Outcome.andThen (o : Outcome α σ) (f : α → Program Op Res β) : Outcome β σ :=
  match o.result with
  | some a => run exec sched (f a) o.tick o.state
  | none => ⟨none, o.tick, o.state⟩

theorem run_bind (p : Program Op Res α) (f : α → Program Op Res β) (t : ℕ) (s : σ) :
    run exec sched (p >>= f) t s = (run exec sched p t s).andThen exec sched f := by
  induction p generalizing t s with
  | ret a => rfl
  | halt => rfl
  | call op next ih => exact ih _ _ _

variable {exec sched} in
theorem Reaches.bind {p q : Program Op Res α} {t t' : ℕ} {s s' : σ}
    (h : Reaches exec sched p t s q t' s') (f : α → Program Op Res β) :
    Reaches exec sched (p >>= f) t s (q >>= f) t' s' := by
  induction h with
  | here p t s => exact .here _ _ _
  | call _ ih => exact .call ih

variable {exec sched} in
/-- A first part that returns leaves the rest to do. -/
theorem Reaches.after {p : Program Op Res α} {t t' : ℕ} {s s' : σ} {a : α}
    (h : run exec sched p t s = ⟨some a, t', s'⟩) {f : α → Program Op Res β} {q : Program Op Res β}
    {t'' : ℕ} {s'' : σ} (hq : Reaches exec sched (f a) t' s' q t'' s'') :
    Reaches exec sched (p >>= f) t s q t'' s'' := by
  induction p generalizing t s with
  | ret b =>
    cases h
    exact hq
  | halt => cases h
  | call op next ih => exact .call (ih _ h)

variable {exec sched} in
theorem Reaches.trans {p q r : Program Op Res α} {t t' t'' : ℕ} {s s' s'' : σ}
    (h : Reaches exec sched p t s q t' s') (h' : Reaches exec sched q t' s' r t'' s'') :
    Reaches exec sched p t s r t'' s'' := by
  induction h with
  | here p t s => exact h'
  | call _ ih => exact .call (ih h')

variable {exec sched} in
/-- A run comes to its last state. -/
theorem Reaches.last {p : Program Op Res α} {t : ℕ} {s : σ} {o : Outcome α σ} (h : run exec sched p t s = o) :
    ∃ q t', Reaches exec sched p t s q t' o.state := by
  induction p generalizing t s with
  | ret a =>
    cases h
    exact ⟨_, _, .here _ _ _⟩
  | halt =>
    cases h
    exact ⟨_, _, .here _ _ _⟩
  | call op next ih =>
    obtain ⟨q, t', hreach⟩ := ih _ h
    exact ⟨q, t', .call hreach⟩

variable {exec sched} in
/-- A call that a run comes to is in its trace. -/
theorem Reaches.mem_trace {p q : Program Op Res α} {t t' : ℕ} {s s' : σ}
    (h : Reaches exec sched p t s q t' s') {op : Op} {next : Res op → Program Op Res α}
    (hq : q = .call op next) :
    ⟨op, (exec (sched t') op s').1, s', (exec (sched t') op s').2⟩ ∈ trace exec sched p t s := by
  induction h with
  | here p t s =>
    rw [hq]
    exact List.mem_cons_self
  | call _ ih => exact List.mem_cons_of_mem _ (ih hq)

variable {exec sched} in
/-- What is left to do makes only calls of the whole run, … -/
theorem Reaches.trace_subset {p q : Program Op Res α} {t t' : ℕ} {s s' : σ}
    (h : Reaches exec sched p t s q t' s') : trace exec sched q t' s' ⊆ trace exec sched p t s := by
  induction h with
  | here p t s => exact fun e he => he
  | call _ ih => exact fun e he => List.mem_cons_of_mem _ (ih he)

variable {exec sched} in
/-- … and comes to the same end. -/
theorem Reaches.run_eq {p q : Program Op Res α} {t t' : ℕ} {s s' : σ}
    (h : Reaches exec sched p t s q t' s') : run exec sched q t' s' = run exec sched p t s := by
  induction h with
  | here p t s => rfl
  | call _ ih => exact ih

variable {exec sched} in
/-- What every call preserves holds wherever the run is broken off. -/
theorem Reaches.invariant {J : σ → Prop} {p q : Program Op Res α} {t t' : ℕ} {s s' : σ}
    (h : Reaches exec sched p t s q t' s') (hJ : ∀ e ∈ trace exec sched p t s, J e.before → J e.after)
    (hs : J s) : J s' := by
  induction h with
  | here p t s => exact hs
  | call _ ih => exact ih (fun e he => hJ e (List.mem_cons_of_mem _ he)) (hJ _ (List.mem_cons_self ..) hs)

/-- What every call of a run preserves holds in its last state. -/
theorem run_invariant {J : σ → Prop} {p : Program Op Res α} {t : ℕ} {s : σ}
    (hJ : ∀ e ∈ trace exec sched p t s, J e.before → J e.after) (hs : J s) :
    J (run exec sched p t s).state := by
  induction p generalizing t s with
  | ret a => exact hs
  | halt => exact hs
  | call op next ih =>
    refine ih _ (fun e he => hJ e (List.mem_cons_of_mem _ he)) ?_
    exact hJ _ (List.mem_cons_self ..) hs

/-- … and in every state on the way. -/
theorem trace_invariant {J : σ → Prop} {p : Program Op Res α} {t : ℕ} {s : σ}
    (hJ : ∀ e ∈ trace exec sched p t s, J e.before → J e.after) (hs : J s) :
    ∀ e ∈ trace exec sched p t s, J e.before ∧ J e.after := by
  induction p generalizing t s with
  | ret a => simp [trace]
  | halt => simp [trace]
  | call op next ih =>
    have hfirst := hJ _ (List.mem_cons_self ..) hs
    intro e he
    rcases List.mem_cons.mp he with rfl | he
    · exact ⟨hs, hfirst⟩
    · exact ih _ (fun e he => hJ e (List.mem_cons_of_mem _ he)) hfirst e he

/-- Each call of a run is executed under some choice. -/
theorem trace_exec {p : Program Op Res α} {t : ℕ} {s : σ} {e : Event Op Res σ} (he : e ∈ trace exec sched p t s) :
    ∃ c, exec c e.op e.before = (e.res, e.after) := by
  induction p generalizing t s with
  | ret a => cases he
  | halt => cases he
  | call op next ih =>
    rcases List.mem_cons.mp he with rfl | he
    · exact ⟨sched t, rfl⟩
    · exact ih _ he

/-- A run that begins with call number `t` is a run of its own under the rest of the schedule. -/
theorem run_shift (p : Program Op Res α) (t n : ℕ) (s : σ) :
    run exec sched p (t + n) s =
      ⟨(run exec (fun k => sched (t + k)) p n s).result, t + (run exec (fun k => sched (t + k)) p n s).tick,
        (run exec (fun k => sched (t + k)) p n s).state⟩ := by
  induction p generalizing n s with
  | ret a => rfl
  | halt => rfl
  | call op next ih => exact ih _ (n + 1) _

theorem trace_shift (p : Program Op Res α) (t n : ℕ) (s : σ) :
    trace exec sched p (t + n) s = trace exec (fun k => sched (t + k)) p n s := by
  induction p generalizing n s with
  | ret a => rfl
  | halt => rfl
  | call op next ih => exact congrArg (_ :: ·) (ih _ (n + 1) _)

end Runs

/-- The first program ends the process in some branches of the second. -/
inductive Program.Cut : Program Op Res α → Program Op Res α → Prop
  | ret (a : α) : Cut (.ret a) (.ret a)
  | halt (q : Program Op Res α) : Cut .halt q
  | call {op : Op} {next next' : Res op → Program Op Res α} (h : ∀ r, Cut (next r) (next' r)) :
      Cut (.call op next) (.call op next')

namespace Program.Cut

theorem refl (p : Program Op Res α) : Cut p p := by
  induction p with
  | ret a => exact .ret a
  | halt => exact .halt _
  | call op next ih => exact .call ih

theorem bind {p q : Program Op Res α} (h : Cut p q) {f g : α → Program Op Res β} (hf : ∀ a, Cut (f a) (g a)) :
    Cut (p >>= f) (q >>= g) := by
  induction h with
  | ret a => exact hf a
  | halt q => exact .halt _
  | call _ ih => exact .call ih

/-- A run that returns does not come to such a branch. -/
theorem run_eq {p q : Program Op Res α} (h : Cut p q) {exec : κ → (op : Op) → σ → Res op × σ} {sched : ℕ → κ}
    {t : ℕ} {s : σ} (hp : (run exec sched p t s).result ≠ none) : run exec sched q t s = run exec sched p t s := by
  induction h generalizing t s with
  | ret a => rfl
  | halt q => exact absurd rfl hp
  | call _ ih => exact ih _ hp

end Program.Cut

/-- The terms on which a program runs: `exec` executes a call under a choice of the environment,
`allowed` are the choices that can occur, `rely` is what the other programs may do to the state
between two calls, and `guarantee` is what each call of the program itself must satisfy. -/
structure Terms (Op : Type) (Res : Op → Type) (κ σ : Type) where
  exec : κ → (op : Op) → σ → Res op × σ
  allowed : κ → Prop
  rely : σ → σ → Prop
  guarantee : (op : Op) → Res op → σ → σ → Prop
  rely_refl : ∀ s, rely s s
  rely_trans : ∀ {a b c}, rely a b → rely b c → rely a c

namespace Terms

variable (T : Terms Op Res κ σ)

/-- `T.Meets post p s`: started in `s`, every call of `p` keeps the guarantee and every end of `p`
satisfies `post`, whatever the choices and whatever the others do within the rely. -/
def Meets (post : Option α → σ → Prop) : Program Op Res α → σ → Prop
  | .ret a, s => ∀ s', T.rely s s' → post (some a) s'
  | .halt, s => ∀ s', T.rely s s' → post none s'
  | .call op next, s => ∀ s', T.rely s s' → ∀ c, T.allowed c →
      T.guarantee op (T.exec c op s').1 s' (T.exec c op s').2 ∧
        Meets post (next (T.exec c op s').1) (T.exec c op s').2

/-- How the rest of a sequence is entered: with the value returned, or not at all. -/
def Enters (f : α → Program Op Res β) (post : Option β → σ → Prop) : Option α → σ → Prop
  | some a, s => T.Meets post (f a) s
  | none, s => post none s

theorem enters_some (f : α → Program Op Res β) (post : Option β → σ → Prop) (a : α) :
    T.Enters f post (some a) = T.Meets post (f a) := rfl

variable {T}

/-- A specification holds from every state the others may have moved to. -/
theorem Meets.stable {post : Option α → σ → Prop} {p : Program Op Res α} {s s' : σ}
    (h : T.Meets post p s) (hr : T.rely s s') : T.Meets post p s' := by
  cases p with
  | ret a => exact fun s'' hs => h s'' (T.rely_trans hr hs)
  | halt => exact fun s'' hs => h s'' (T.rely_trans hr hs)
  | call op next => exact fun s'' hs => h s'' (T.rely_trans hr hs)

theorem Meets.mono {post post' : Option α → σ → Prop} {p : Program Op Res α} {s : σ}
    (h : T.Meets post p s) (hp : ∀ o s, post o s → post' o s) : T.Meets post' p s := by
  induction p generalizing s with
  | ret a => exact fun s' hs => hp _ _ (h s' hs)
  | halt => exact fun s' hs => hp _ _ (h s' hs)
  | call op next ih =>
    intro s' hs c hc
    obtain ⟨hg, hn⟩ := h s' hs c hc
    exact ⟨hg, ih _ hn⟩

/-- Two things that hold at the end of a program hold together. -/
theorem Meets.and {P Q : Option α → σ → Prop} {p : Program Op Res α} {s : σ} (h : T.Meets P p s)
    (h' : T.Meets Q p s) : T.Meets (fun o s => P o s ∧ Q o s) p s := by
  induction p generalizing s with
  | ret a => exact fun s' hr => ⟨h s' hr, h' s' hr⟩
  | halt => exact fun s' hr => ⟨h s' hr, h' s' hr⟩
  | call op next ih =>
    intro s' hr ch hch
    obtain ⟨hg, hn⟩ := h s' hr ch hch
    exact ⟨hg, ih _ hn (h' s' hr ch hch).2⟩

/-- The sequence rule. -/
theorem Meets.bind {post : Option β → σ → Prop} {p : Program Op Res α}
    {f : α → Program Op Res β} {s : σ} (h : T.Meets (T.Enters f post) p s) :
    T.Meets post (p >>= f) s := by
  induction p generalizing s with
  | ret a => exact h s (T.rely_refl s)
  | halt => exact h
  | call op next ih =>
    intro s' hs c hc
    obtain ⟨hg, hn⟩ := h s' hs c hc
    exact ⟨hg, ih _ hn⟩

/-- The postcondition of a program that always returns. -/
def Returns (P : α → σ → Prop) : Option α → σ → Prop
  | some a, s => P a s
  | none, _ => False

theorem Returns.ne_none {P : α → σ → Prop} {o : Option α} {s : σ} (h : Returns P o s) :
    o ≠ none := by
  rintro rfl
  exact h

/-- What holds whatever the value returned. -/
theorem Returns.holds {P : σ → Prop} {o : Option α} {s : σ} (h : Returns (fun _ => P) o s) : P s := by
  cases o with
  | none => exact h.elim
  | some a => exact h

/-- The sequence rule after a first part that always returns. -/
theorem Meets.bind_returns {P : α → σ → Prop} {post : Option β → σ → Prop} {p : Program Op Res α}
    {f : α → Program Op Res β} {s : σ} (h : T.Meets (Returns P) p s)
    (hf : ∀ a s', P a s' → T.Meets post (f a) s') : T.Meets post (p >>= f) s := by
  refine Meets.bind (h.mono ?_)
  intro o s' ho
  cases o with
  | none => exact ho.elim
  | some a => exact hf a s' ho

/-- A call followed by the rest of the program: name its outcome, then check the guarantee and go
on from there. -/
theorem Meets.call {post : Option α → σ → Prop} {op : Op} {next : Res op → Program Op Res α}
    {s : σ} (h : ∀ s₁, T.rely s s₁ → ∀ c, T.allowed c → ∃ r s₂, T.exec c op s₁ = (r, s₂) ∧
      T.guarantee op r s₁ s₂ ∧ T.Meets post (next r) s₂) :
    T.Meets post (.call op next) s := by
  intro s₁ hs c hc
  obtain ⟨r, s₂, he, hg, hn⟩ := h s₁ hs c hc
  rw [he]
  exact ⟨hg, hn⟩

/-- The loop rule: `I` speaks of the elements already processed and of what they have come to. -/
theorem Meets.foldlM_value {γ : Type} {I : List γ → β → σ → Prop}
    (hI : ∀ done b s s', I done b s → T.rely s s' → I done b s') {f : β → γ → Program Op Res β} {l : List γ}
    (step : ∀ done x rest, l = done ++ x :: rest → ∀ b s, I done b s →
      T.Meets (Returns fun b' s' => I (done ++ [x]) b' s') (f b x) s) {b : β} {s : σ} (h : I [] b s) :
    T.Meets (Returns fun b' s' => I l b' s') (l.foldlM f b) s := by
  suffices hs : ∀ (rest done : List γ) (b : β) (s : σ), l = done ++ rest → I done b s →
      T.Meets (Returns fun b' s' => I l b' s') (rest.foldlM f b) s from hs l [] b s rfl h
  intro rest
  induction rest with
  | nil =>
    intro done b s hl h s' hr
    rw [hl, List.append_nil]
    exact hI _ _ _ _ h hr
  | cons x rest ih =>
    intro done b s hl h
    rw [List.foldlM_cons]
    refine Meets.bind_returns (step done x rest hl b s h) fun b' s' h' => ?_
    exact ih (done ++ [x]) b' s' (by rw [hl, List.append_assoc]; rfl) h'

/-- … and when it speaks of the state alone. -/
theorem Meets.foldlM {γ : Type} {I : List γ → σ → Prop} (hI : ∀ done s s', I done s → T.rely s s' → I done s')
    {f : β → γ → Program Op Res β} {l : List γ}
    (step : ∀ done x rest, l = done ++ x :: rest → ∀ b s, I done s →
      T.Meets (Returns fun _ s' => I (done ++ [x]) s') (f b x) s) {b : β} {s : σ} (h : I [] s) :
    T.Meets (Returns fun _ s' => I l s') (l.foldlM f b) s :=
  Meets.foldlM_value (I := fun done _ => I done) (fun done _ => hI done) step h

/-- The loop rule for an invariant that also holds where the process ends. -/
theorem Meets.foldlM_invariant {γ : Type} {I : σ → Prop} (hI : ∀ s s', I s → T.rely s s' → I s')
    {f : β → γ → Program Op Res β} {l : List γ}
    (step : ∀ x ∈ l, ∀ b s, I s → T.Meets (fun _ s' => I s') (f b x) s) {b : β} {s : σ} (h : I s) :
    T.Meets (fun _ s' => I s') (l.foldlM f b) s := by
  induction l generalizing b s with
  | nil => exact fun s' hr => hI s s' h hr
  | cons x l ih =>
    rw [List.foldlM_cons]
    refine Meets.bind ((step x (List.mem_cons_self ..) b s h).mono ?_)
    rintro (_ | b') s' h'
    · exact h'
    · exact ih (fun y hy => step y (List.mem_cons_of_mem _ hy)) h'

theorem Meets.ret {post : Option α → σ → Prop} {a : α} {s : σ}
    (h : ∀ s', T.rely s s' → post (some a) s') :
    T.Meets post (Program.ret a : Program Op Res α) s := h

/-- A run alone under allowed choices is covered by the specification: it ends in the
postcondition and each of its calls keeps the guarantee. -/
theorem Meets.run {post : Option α → σ → Prop} {p : Program Op Res α} {s : σ}
    (h : T.Meets post p s) (sched : ℕ → κ) (ha : ∀ t, T.allowed (sched t)) (t : ℕ) :
    post (run T.exec sched p t s).result (run T.exec sched p t s).state ∧
      ∀ e ∈ trace T.exec sched p t s, T.guarantee e.op e.res e.before e.after := by
  induction p generalizing s t with
  | ret a => exact ⟨h s (T.rely_refl s), by simp [trace]⟩
  | halt => exact ⟨h s (T.rely_refl s), by simp [trace]⟩
  | call op next ih =>
    obtain ⟨hg, hn⟩ := h s (T.rely_refl s) (sched t) (ha t)
    obtain ⟨hpost, htrace⟩ := ih _ hn (t + 1)
    refine ⟨hpost, ?_⟩
    intro e he
    rcases List.mem_cons.mp he with rfl | he
    · exact hg
    · exact htrace e he

/-- The run of a program that always returns. -/
theorem Meets.run_returns {P : α → σ → Prop} {p : Program Op Res α} {s : σ} (h : T.Meets (Returns P) p s)
    (sched : ℕ → κ) (ha : ∀ t, T.allowed (sched t)) (t : ℕ) :
    ∃ a t' s', Resumable.run T.exec sched p t s = ⟨some a, t', s'⟩ ∧ P a s' := by
  have hpost := (h.run sched ha t).1
  rcases hrun : Resumable.run T.exec sched p t s with ⟨_ | a, t', s'⟩
  · rw [hrun] at hpost
    exact hpost.elim
  · rw [hrun] at hpost
    exact ⟨a, t', s', rfl, hpost⟩

end Terms

/-- Whatever its calls return, a program makes only calls with `P`, and returns only values with
`Q`. -/
def Program.Always (P : (op : Op) → Res op → Prop) (Q : α → Prop) : Program Op Res α → Prop
  | .ret a => Q a
  | .halt => True
  | .call op next => ∀ r, P op r ∧ (next r).Always P Q

namespace Program

variable {P : (op : Op) → Res op → Prop} {Q : α → Prop}

theorem Always.mono {P' : (op : Op) → Res op → Prop} {Q' : α → Prop} {p : Program Op Res α}
    (h : p.Always P Q) (hP : ∀ op r, P op r → P' op r) (hQ : ∀ a, Q a → Q' a) : p.Always P' Q' := by
  induction p with
  | ret a => exact hQ a h
  | halt => trivial
  | call op next ih => exact fun r => ⟨hP op r (h r).1, ih r (h r).2⟩

theorem Always.bind {Q' : β → Prop} {p : Program Op Res α} {f : α → Program Op Res β}
    (h : p.Always P Q) (hf : ∀ a, Q a → (f a).Always P Q') : (p >>= f).Always P Q' := by
  induction p with
  | ret a => exact hf a h
  | halt => trivial
  | call op next ih => exact fun r => ⟨(h r).1, ih r (h r).2⟩

theorem Always.trace {exec : κ → (op : Op) → σ → Res op × σ} {sched : ℕ → κ} {p : Program Op Res α} {t : ℕ} {s : σ}
    (h : p.Always P Q) : ∀ e ∈ trace exec sched p t s, P e.op e.res := by
  induction p generalizing t s with
  | ret a => exact nofun
  | halt => exact nofun
  | call op next ih =>
    intro e he
    rcases List.mem_cons.mp he with rfl | he
    · exact (h _).1
    · exact ih _ (h _).2 e he

end Program

section Yields

variable (exec : κ → (op : Op) → σ → Res op × σ)

/-- Partial correctness: whatever the choices, a program that returns does so with `P`. -/
def Program.Yields (P : α → σ → Prop) : Program Op Res α → σ → Prop
  | .ret a, s => P a s
  | .halt, _ => True
  | .call op next, s => ∀ c, (next (exec c op s).1).Yields P (exec c op s).2

namespace Program

variable {exec} {P : α → σ → Prop} {s : σ}

theorem Yields.mono {P' : α → σ → Prop} {p : Program Op Res α} (h : p.Yields exec P s)
    (hP : ∀ a s, P a s → P' a s) : p.Yields exec P' s := by
  induction p generalizing s with
  | ret a => exact hP a s h
  | halt => trivial
  | call op next ih => exact fun c => ih _ (h c)

theorem Yields.bind {P' : β → σ → Prop} {p : Program Op Res α} {f : α → Program Op Res β}
    (h : p.Yields exec P s) (hf : ∀ a s', P a s' → (f a).Yields exec P' s') :
    (p >>= f).Yields exec P' s := by
  induction p generalizing s with
  | ret a => exact hf a s h
  | halt => trivial
  | call op next ih => exact fun c => ih _ (h c)

theorem Yields.run {p : Program Op Res α} (h : p.Yields exec P s) (sched : ℕ → κ) {t : ℕ} {a : α}
    (hresult : (run exec sched p t s).result = some a) : P a (run exec sched p t s).state := by
  induction p generalizing s t with
  | ret b =>
    cases hresult
    exact h
  | halt => cases hresult
  | call op next ih => exact ih _ (h (sched t)) hresult

/-- A program whose calls all keep `J`. -/
theorem Always.yields {A : (op : Op) → Res op → Prop} {Q : α → Prop} {J : σ → Prop} {p : Program Op Res α}
    (h : p.Always A Q) (hA : ∀ c op s, A op (exec c op s).1 → J s → J (exec c op s).2) (hs : J s) :
    p.Yields exec (fun a s' => Q a ∧ J s') s := by
  induction p generalizing s with
  | ret a => exact ⟨h, hs⟩
  | halt => trivial
  | call op next ih => exact fun c => ih _ (h _).2 (hA c op s (h _).1 hs)

/-- A program that never returns. -/
theorem Always.never {A : (op : Op) → Res op → Prop} {p : Program Op Res α}
    (h : p.Always A fun _ => False) : p.Yields exec P s := by
  induction p generalizing s with
  | ret a => exact h.elim
  | halt => trivial
  | call op next ih => exact fun c => ih _ (h _).2

end Program

end Yields

section Script

variable (exec : κ → (op : Op) → σ → Res op × σ) (sched : ℕ → κ)

/-- The terms of a run alone under a fixed schedule, as seen from inside: the state carries the
calls made so far, and their number selects the next choice. -/
def scripted : Terms Op Res Unit (σ × List (Event Op Res σ)) where
  exec := fun _ op s =>
    let out := exec (sched s.2.length) op s.1
    (out.1, out.2, s.2 ++ [⟨op, out.1, s.1, out.2⟩])
  allowed := fun _ => True
  rely := Eq
  guarantee := fun _ _ _ _ => True
  rely_refl := fun _ => rfl
  rely_trans := Eq.trans

variable {exec sched} {post : Option α → σ × List (Event Op Res σ) → Prop}
  {s : σ} {h : List (Event Op Res σ)}

theorem scripted_ret {a : α} (hp : post (some a) (s, h)) :
    (scripted exec sched).Meets post (Program.ret a : Program Op Res α) (s, h) := by
  rintro _ rfl
  exact hp

theorem scripted_halt (hp : post none (s, h)) :
    (scripted exec sched).Meets post (Program.halt : Program Op Res α) (s, h) := by
  rintro _ rfl
  exact hp

/-- One call, with the choice that is due. -/
theorem scripted_call {op : Op} {next : Res op → Program Op Res α} {r : Res op} {s' : σ}
    (he : exec (sched h.length) op s = (r, s'))
    (hn : (scripted exec sched).Meets post (next r) (s', h ++ [⟨op, r, s, s'⟩])) :
    (scripted exec sched).Meets post (.call op next) (s, h) := by
  rintro _ rfl _ -
  refine ⟨trivial, ?_⟩
  simpa only [scripted, he] using hn

/-- One call, whatever comes of it. -/
theorem scripted_each {op : Op} {next : Res op → Program Op Res α}
    (hn : ∀ r s', exec (sched h.length) op s = (r, s') →
      (scripted exec sched).Meets post (next r) (s', h ++ [⟨op, r, s, s'⟩])) :
    (scripted exec sched).Meets post (.call op next) (s, h) :=
  scripted_call Prod.mk.eta.symm (hn _ _ Prod.mk.eta.symm)

/-- What is shown of a script holds of the run: of its result, its state and its trace. -/
theorem scripted_run {p : Program Op Res α} (hp : (scripted exec sched).Meets post p (s, h)) :
    post (run exec sched p h.length s).result
      ((run exec sched p h.length s).state, h ++ trace exec sched p h.length s) := by
  induction p generalizing s h with
  | ret a => simpa [run, trace] using hp _ rfl
  | halt => simpa [run, trace] using hp _ rfl
  | call op next ih =>
    have hn := ih _ (hp _ rfl () trivial).2
    simpa [run, trace, scripted, List.append_assoc] using hn

/-- A script that makes only calls with `P`. -/
theorem Program.Always.scripted {P : (op : Op) → Res op → Prop} {Q : α → Prop}
    {p : Program Op Res α} (hp : p.Always P Q) :
    (Resumable.scripted exec sched).Meets (fun o s' => (∀ a, o = some a → Q a) ∧
      ∃ ext, s'.2 = h ++ ext ∧ ∀ e ∈ ext, P e.op e.res) p (s, h) := by
  induction p generalizing s h with
  | ret a => exact scripted_ret ⟨by rintro _ ⟨⟩; exact hp, [], (List.append_nil h).symm, nofun⟩
  | halt => exact scripted_halt ⟨nofun, [], (List.append_nil h).symm, nofun⟩
  | call op next ih =>
    refine scripted_each fun r s' _ => ?_
    refine (ih r (hp r).2).mono ?_
    rintro o s'' ⟨hQ, ext, hext, hP⟩
    refine ⟨hQ, ⟨op, r, s, s'⟩ :: ext, by simp [hext], ?_⟩
    rintro e (_ | ⟨_, he⟩)
    · exact (hp r).1
    · exact hP e he

end Script

end Reportman.Resumable
