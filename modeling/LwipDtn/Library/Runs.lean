/-!
Runs of a system with labelled steps. A condition on the state and the label restricts
the runs to those whose steps all meet it.
-/

namespace Runs

variable {σ ε : Type}

structure System (σ ε : Type) where
  start : σ → Prop
  step : σ → ε → σ → Prop

/-- The states reached by the runs whose steps all meet the condition. -/
inductive System.Reaches (S : System σ ε) (meets : σ → ε → Prop) : σ → Prop where
  | start {s : σ} (first : S.start s) : S.Reaches meets s
  | step {s s' : σ} {e : ε} (run : S.Reaches meets s) (condition : meets s e)
      (next : S.step s e s') : S.Reaches meets s'

def System.resumed (S : System σ ε) (s : σ) : System σ ε := { S with start := (· = s) }

variable {S : System σ ε} {meets : σ → ε → Prop}

/-- What holds at the start and is kept by every step that meets the condition holds in
every state reached. -/
theorem System.Reaches.invariant {P : σ → Prop} (start : ∀ s, S.start s → P s)
    (step : ∀ s e s', P s → meets s e → S.step s e s' → P s') {s : σ} (h : S.Reaches meets s) :
    P s := by
  induction h with
  | start first => exact start _ first
  | step _ condition next ih => exact step _ _ _ ih condition next

theorem System.Reaches.mono {meets' : σ → ε → Prop} (weaker : ∀ s e, meets s e → meets' s e) {s : σ}
    (h : S.Reaches meets s) : S.Reaches meets' s := by
  induction h with
  | start first => exact .start first
  | step _ condition next ih => exact ih.step (weaker _ _ condition) next

end Runs
