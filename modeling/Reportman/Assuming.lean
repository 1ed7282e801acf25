import Mathlib
import Reportman.Resumable

/-!
# What a program upholds as long as its environment keeps to its side

The state beside a program may be an observer's: what he makes of the calls that he has seen. A program
upholds a guarantee under an assumption if every call meets the guarantee, provided that this call and all
before it have met the assumption.
-/
namespace Reportman.Resumable

variable {Op : Type} {Res : Op → Type} {α β κ σ : Type} (exec : κ → (op : Op) → σ → Res op × σ)
  (assumed guarantee : (op : Op) → Res op → σ → Prop)

def Program.Upholds (post : Option α → σ → Prop) : Program Op Res α → σ → Prop
  | .ret a, s => post (some a) s
  | .halt, s => post none s
  | .call op next, s => ∀ c, assumed op (exec c op s).1 s → guarantee op (exec c op s).1 s ∧
      (next (exec c op s).1).Upholds post (exec c op s).2

namespace Program

variable {exec assumed guarantee} {post : Option α → σ → Prop} {s : σ}

theorem Upholds.mono {post' : Option α → σ → Prop} {p : Program Op Res α}
    (h : p.Upholds exec assumed guarantee post s) (hpost : ∀ o s, post o s → post' o s) :
    p.Upholds exec assumed guarantee post' s := by
  induction p generalizing s with
  | ret a => exact hpost _ _ h
  | halt => exact hpost _ _ h
  | call op next ih =>
    intro c hc
    obtain ⟨hg, hnext⟩ := h c hc
    exact ⟨hg, ih _ hnext⟩

/-- The first program may end the process only where the second might. -/
theorem Upholds.bind {post' : Option β → σ → Prop} {p : Program Op Res α} {f : α → Program Op Res β}
    (h : p.Upholds exec assumed guarantee post s)
    (hf : ∀ a s', post (some a) s' → (f a).Upholds exec assumed guarantee post' s')
    (hhalt : ∀ s', post none s' → post' none s') :
    (p >>= f).Upholds exec assumed guarantee post' s := by
  induction p generalizing s with
  | ret a => exact hf a s h
  | halt => exact hhalt s h
  | call op next ih =>
    intro c hc
    obtain ⟨hg, hnext⟩ := h c hc
    exact ⟨hg, ih _ hnext⟩

/-- A program whose calls all keep `J` and, with `J`, meet the guarantee. -/
theorem Always.upholds {A : (op : Op) → Res op → Prop} {Q : α → Prop} {J : σ → Prop} {p : Program Op Res α}
    (h : p.Always A Q) (hA : ∀ c op s, A op (exec c op s).1 → assumed op (exec c op s).1 s → J s →
      guarantee op (exec c op s).1 s ∧ J (exec c op s).2) (hs : J s) :
    p.Upholds exec assumed guarantee (fun o s' => (∀ a, o = some a → Q a) ∧ J s') s := by
  induction p generalizing s with
  | ret a =>
    refine ⟨?_, hs⟩
    rintro _ ⟨⟩
    exact h
  | halt => exact ⟨nofun, hs⟩
  | call op next ih =>
    intro c hc
    obtain ⟨hg, hJ⟩ := hA c op s (h _).1 hc hs
    exact ⟨hg, ih _ (h _).2 hJ⟩

/-- In a run in which every call meets the assumption, every call meets the guarantee. -/
theorem Upholds.run {p : Program Op Res α} (h : p.Upholds exec assumed guarantee post s) (sched : ℕ → κ)
    {t : ℕ} (hassumed : ∀ e ∈ trace exec sched p t s, assumed e.op e.res e.before) :
    (∀ e ∈ trace exec sched p t s, guarantee e.op e.res e.before) ∧
      post (run exec sched p t s).result (run exec sched p t s).state := by
  induction p generalizing s t with
  | ret a => exact ⟨nofun, h⟩
  | halt => exact ⟨nofun, h⟩
  | call op next ih =>
    have hhere := hassumed _ (List.mem_cons_self ..)
    obtain ⟨hg, hnext⟩ := h (sched t) hhere
    obtain ⟨htrace, hpost⟩ := ih _ hnext (t := t + 1) fun e he => hassumed e (List.mem_cons_of_mem _ he)
    refine ⟨?_, hpost⟩
    intro e he
    cases he with
    | head => exact hg
    | tail _ he => exact htrace e he

end Program

end Reportman.Resumable
