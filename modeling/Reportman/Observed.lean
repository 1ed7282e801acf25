import Mathlib
import Reportman.Resumable

/-!
# Observed and interpreted programs

A program can be carried out by the programs of a lower level, one for each of its calls. Its calls can
then be observed with the states around them, and so can its runs under any answers.
-/
namespace Reportman.Resumable

variable {Op Op' : Type} {Res : Op → Type} {Res' : Op' → Type} {α β γ κ σ : Type}

/-- A call with its answer. -/
abbrev Answered (Op : Type) (Res : Op → Type) := (op : Op) × Res op

namespace Program

/-- Each call is carried out by the program of `h` for it. -/
def interpret (h : (op : Op) → Program Op' Res' (Res op)) : Program Op Res α → Program Op' Res' α
  | .ret a => .ret a
  | .halt => .halt
  | .call op next => h op >>= fun r => (next r).interpret h

variable (h : (op : Op) → Program Op' Res' (Res op))

theorem interpret_bind (p : Program Op Res α) (f : α → Program Op Res β) :
    (p >>= f).interpret h = p.interpret h >>= fun a => (f a).interpret h := by
  induction p with
  | ret a => rfl
  | halt => rfl
  | call op next ih =>
    simp only [call_bind, interpret, bind_assoc]
    exact congrArg (h op >>= ·) (funext ih)

theorem interpret_perform (op : Op) : (perform op : Program Op Res (Res op)).interpret h = h op :=
  bind_pure (h op)

theorem interpret_interpret {Op'' : Type} {Res'' : Op'' → Type} (h' : (op : Op') → Program Op'' Res'' (Res' op))
    (p : Program Op Res α) : (p.interpret h).interpret h' = p.interpret fun op => (h op).interpret h' := by
  induction p with
  | ret a => rfl
  | halt => rfl
  | call op next ih =>
    rw [interpret, interpret_bind, interpret]
    exact congrArg ((h op).interpret h' >>= ·) (funext ih)

theorem interpret_foldlM (f : β → γ → Program Op Res β) (l : List γ) (b : β) :
    (l.foldlM f b).interpret h = l.foldlM (fun b x => (f b x).interpret h) b := by
  induction l generalizing b with
  | nil => rfl
  | cons x l ih =>
    rw [List.foldlM_cons, List.foldlM_cons, interpret_bind]
    exact congrArg ((f b x).interpret h >>= ·) (funext ih)

end Program

/-- A call that was carried out from the lower call number `tick` on, with its answer and the states
around it. -/
structure Carried (Op : Type) (Res : Op → Type) (σ : Type) where
  op : Op
  res : Res op
  tick : ℕ
  before : σ
  after : σ

section Carried

variable (exec : κ → (op : Op') → σ → Res' op × σ) (sched : ℕ → κ) (h : (op : Op) → Program Op' Res' (Res op))

/-- The calls of a program as its interpretation carries them out. -/
def Program.carried : Program Op Res α → ℕ → σ → List (Carried Op Res σ)
  | .ret _, _, _ => []
  | .halt, _, _ => []
  | .call op next, t, s =>
      let o := run exec sched (h op) t s
      match o.result with
      | none => []
      | some r => ⟨op, r, t, s, o.state⟩ :: (next r).carried o.tick o.state

/-- If the interpretation returns, then with a result, calls, a number of the next call and a state in `Q`. -/
def Program.Carries (Q : α → List (Carried Op Res σ) → ℕ → σ → Prop) : Program Op Res α → ℕ → σ → Prop
  | .ret a, t, s => Q a [] t s
  | .halt, _, _ => True
  | .call op next, t, s => ∀ r t' s', run exec sched (h op) t s = ⟨some r, t', s'⟩ →
      (next r).Carries (fun a log => Q a (⟨op, r, t, s, s'⟩ :: log)) t' s'

namespace Program.Carries

variable {exec sched h} {Q : α → List (Carried Op Res σ) → ℕ → σ → Prop} {t : ℕ} {s : σ}

theorem mono {Q' : α → List (Carried Op Res σ) → ℕ → σ → Prop} {p : Program Op Res α}
    (hp : p.Carries exec sched h Q t s) (hQ : ∀ a log t s, Q a log t s → Q' a log t s) :
    p.Carries exec sched h Q' t s := by
  induction p generalizing Q Q' t s with
  | ret a => exact hQ a [] t s hp
  | halt => trivial
  | call op next ih => exact fun r t' s' hr => ih r (hp r t' s' hr) fun a log => hQ a _

theorem bind {Q' : β → List (Carried Op Res σ) → ℕ → σ → Prop} {p : Program Op Res α}
    {f : α → Program Op Res β} (hp : p.Carries exec sched h Q t s)
    (hf : ∀ a log t s, Q a log t s →
      (f a).Carries exec sched h (fun b log' => Q' b (log ++ log')) t s) :
    (p >>= f).Carries exec sched h Q' t s := by
  induction p generalizing Q Q' t s with
  | ret a => exact hf a [] t s hp
  | halt => trivial
  | call op next ih => exact fun r t' s' hr => ih r (hp r t' s' hr) fun a log => hf a _

/-- The loop rule: the invariant speaks of the elements that are done, of all calls so far and of the state. -/
theorem foldlM {I : List γ → β → List (Carried Op Res σ) → σ → Prop} {f : β → γ → Program Op Res β}
    {l : List γ} (step : ∀ done x rest, l = done ++ x :: rest → ∀ b log t s, I done b log s →
      (f b x).Carries exec sched h (fun b' log' _ s' => I (done ++ [x]) b' (log ++ log') s') t s)
    {b : β} {log : List (Carried Op Res σ)} (hI : I [] b log s) :
    (l.foldlM f b).Carries exec sched h (fun b' log' _ s' => I l b' (log ++ log') s') t s := by
  suffices hrest : ∀ (rest done : List γ) (b : β) (log : List (Carried Op Res σ)) (t : ℕ) (s : σ),
      l = done ++ rest → I done b log s →
      (rest.foldlM f b).Carries exec sched h (fun b' log' _ s' => I l b' (log ++ log') s') t s from
    hrest l [] b log t s rfl hI
  intro rest
  induction rest with
  | nil =>
    intro done b log t s hl hI
    rw [List.append_nil] at hl
    subst hl
    simpa [Program.Carries] using hI
  | cons x rest ih =>
    intro done b log t s hl hI
    rw [List.foldlM_cons]
    refine (step done x rest hl b log t s hI).bind fun b' log' t' s' hI' => ?_
    have hrest := ih (done ++ [x]) b' (log ++ log') t' s' (by simpa using hl) hI'
    simpa only [List.append_assoc] using hrest

/-- A run of the interpretation that returns has made calls in `Q`. -/
theorem run {p : Program Op Res α} (hp : p.Carries exec sched h Q t s) {a : α}
    (hrun : (run exec sched (p.interpret h) t s).result = some a) :
    Q a (p.carried exec sched h t s) (Resumable.run exec sched (p.interpret h) t s).tick
      (Resumable.run exec sched (p.interpret h) t s).state := by
  induction p generalizing Q t s with
  | ret b =>
    cases hrun
    exact hp
  | halt => cases hrun
  | call op next ih =>
    simp only [interpret, run_bind, Outcome.andThen, carried] at hrun ⊢
    rcases hcall : Resumable.run exec sched (h op) t s with ⟨_ | r, t', s'⟩
    · simp [hcall] at hrun
    · simp only [hcall] at hrun ⊢
      exact ih r (hp r t' s' hcall) hrun

/-- One call, carried out by a program with a specification. -/
theorem call {T : Terms Op' Res' κ σ} {op : Op} {next : Res op → Program Op Res α} {P : Res op → σ → Prop}
    (hcall : T.Meets (Terms.Returns P) (h op) s) (ha : ∀ t, T.allowed (sched t)) (hT : T.exec = exec)
    (hnext : ∀ r t' s', P r s' →
      (next r).Carries exec sched h (fun a log => Q a (⟨op, r, t, s, s'⟩ :: log)) t' s') :
    (Program.call op next).Carries exec sched h Q t s := by
  subst hT
  intro r t' s' hrun
  have hpost := (hcall.run sched ha t).1
  rw [hrun] at hpost
  exact hnext r t' s' hpost

end Program.Carries

variable {exec sched h} in
/-- A run whose calls have got answers that another environment might have given is a run in that environment
too, if nothing else decides them there. -/
theorem Program.exists_schedule {κ' : Type} [Nonempty κ'] (answer : κ' → (op : Op) → Unit → Res op × Unit)
    (p : Program Op Res α) (t : ℕ) (s : σ) (hreturns : (run exec sched (p.interpret h) t s).result ≠ none)
    (hanswers : ∀ c ∈ p.carried exec sched h t s, ∃ k, (answer k c.op ()).1 = c.res) : ∃ sched' : ℕ → κ',
      (run answer sched' p 0 ()).result = (run exec sched (p.interpret h) t s).result ∧
      (trace answer sched' p 0 ()).map (fun e => (⟨e.op, e.res⟩ : Answered Op Res)) =
        (p.carried exec sched h t s).map fun c => ⟨c.op, c.res⟩ := by
  induction p generalizing t s with
  | ret a => exact ⟨fun _ => Classical.arbitrary κ', rfl, rfl⟩
  | halt => exact absurd rfl hreturns
  | call op next ih =>
    simp only [interpret, run_bind, Outcome.andThen, carried] at hreturns hanswers ⊢
    rcases hcall : run exec sched (h op) t s with ⟨_ | r, t', s'⟩
    · simp [hcall] at hreturns
    simp only [hcall] at hreturns hanswers ⊢
    obtain ⟨k, hk⟩ := hanswers _ (List.mem_cons_self ..)
    obtain ⟨later, hresult, htrace⟩ := ih r t' s' hreturns fun c hc => hanswers c (List.mem_cons_of_mem _ hc)
    obtain ⟨sched', hfirst, hlater⟩ : ∃ sched' : ℕ → κ', sched' 0 = k ∧ (fun n => sched' (1 + n)) = later :=
      ⟨fun n => if n = 0 then k else later (n - 1), rfl, funext fun n => by simp⟩
    have hanswer : answer (sched' 0) op () = (r, ()) := by
      rw [hfirst]
      exact Prod.ext hk rfl
    refine ⟨sched', ?_, ?_⟩
    · simp only [run, hanswer]
      rw [show (0 + 1 : ℕ) = 1 + 0 from rfl, run_shift, hlater, hresult]
    · simp only [trace, hanswer, List.map_cons]
      rw [show (0 + 1 : ℕ) = 1 + 0 from rfl, trace_shift, hlater, htrace]

end Carried

section Ends

/-- A run to its end: the calls with their answers, and the result, unless the process has ended before. -/
inductive Program.Ran : Program Op Res α → List (Answered Op Res) → Option α → Prop
  | ret (a : α) : Ran (.ret a) [] (some a)
  | halt : Ran .halt [] none
  | call {op : Op} {next : Res op → Program Op Res α} {r : Res op} {log : List (Answered Op Res)} {o : Option α}
      (h : Ran (next r) log o) : Ran (.call op next) (⟨op, r⟩ :: log) o

variable {log : List (Answered Op Res)}

theorem Program.ran_call {op : Op} {next : Res op → Program Op Res α} {o : Option α} :
    Ran (.call op next) log o ↔ ∃ r rest, log = ⟨op, r⟩ :: rest ∧ Ran (next r) rest o := by
  constructor
  · intro h
    cases h with
    | call h => exact ⟨_, _, rfl, h⟩
  · rintro ⟨r, rest, rfl, h⟩
    exact .call h

theorem Program.ran_halt {o : Option α} : Ran (halt : Program Op Res α) log o ↔ log = [] ∧ o = none := by
  constructor
  · intro h
    cases h
    exact ⟨rfl, rfl⟩
  · rintro ⟨rfl, rfl⟩
    exact .halt

/-- Every run in an environment comes to its end. -/
theorem Program.ran_trace {exec : κ → (op : Op) → σ → Res op × σ} {sched : ℕ → κ} (p : Program Op Res α) (t : ℕ)
    (s : σ) : Ran p ((trace exec sched p t s).map fun e => ⟨e.op, e.res⟩) (Resumable.run exec sched p t s).result := by
  induction p generalizing t s with
  | ret a => exact .ret a
  | halt => exact .halt
  | call op next ih => exact .call (ih _ _ _)

end Ends

end Reportman.Resumable
