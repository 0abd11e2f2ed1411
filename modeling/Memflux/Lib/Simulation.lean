import Mathlib

/-! # Runs of labelled steps

`Run step s ls s'` is a finite run from `s` to `s'` with the labels `ls` in order.
There is one rule for an invariant, one for a simulation by another system, whose
labels are a function of the first one's, and one for the steps of a run.
-/

namespace Simulation

variable {σ τ ι κ : Type}

inductive Run (step : σ → ι → σ → Prop) : σ → List ι → σ → Prop where
  | nil (s : σ) : Run step s [] s
  | cons {s s₁ s' : σ} {l : ι} {ls : List ι} : step s l s₁ → Run step s₁ ls s' →
      Run step s (l :: ls) s'

variable {step : σ → ι → σ → Prop} {s s₁ s' : σ} {ls ls' : List ι}

theorem Run.single {l : ι} (h : step s l s') : Run step s [l] s' := .cons h (.nil s')

theorem Run.append (h : Run step s ls s₁) (h' : Run step s₁ ls' s') : Run step s (ls ++ ls') s' := by
  induction h with
  | nil s => exact h'
  | cons hstep _ ih => exact .cons hstep (ih h')

/-- A run over two lists of labels passes through a state between them. -/
theorem Run.split (h : Run step s (ls ++ ls') s') :
    ∃ s₁, Run step s ls s₁ ∧ Run step s₁ ls' s' := by
  induction ls generalizing s with
  | nil => exact ⟨s, .nil s, h⟩
  | cons l ls ih =>
      cases h with
      | cons hstep hrest =>
          obtain ⟨s₁, hfirst, hlast⟩ := ih hrest
          exact ⟨s₁, .cons hstep hfirst, hlast⟩

theorem Run.mono {step' : σ → ι → σ → Prop} (h : Run step s ls s')
    (hstep : ∀ s l s', step s l s' → step' s l s') : Run step' s ls s' := by
  induction h with
  | nil s => exact .nil s
  | cons hfirst _ ih => exact .cons (hstep _ _ _ hfirst) ih

theorem Run.invariant {I : σ → Prop} (h : Run step s ls s')
    (hstep : ∀ s l s', step s l s' → I s → I s') (hs : I s) : I s' := by
  induction h with
  | nil s => exact hs
  | cons hfirst _ ih => exact ih (hstep _ _ _ hfirst hs)

theorem Run.invariant_of {I : σ → Prop} (h : Run step s ls s')
    (hstep : ∀ s l s', l ∈ ls → step s l s' → I s → I s') (hs : I s) : I s' := by
  induction h with
  | nil s => exact hs
  | cons hfirst _ ih =>
      exact ih (fun _ _ _ hl => hstep _ _ _ (List.mem_cons_of_mem _ hl))
        (hstep _ _ _ List.mem_cons_self hfirst hs)

/-- What holds of the empty run and is kept when one step more is taken holds of every run. -/
theorem Run.history {P : List ι → σ → Prop} (h : Run step s ls s') (hnil : P [] s)
    (hsnoc : ∀ ls s₁ l s₂, Run step s ls s₁ → P ls s₁ → step s₁ l s₂ → P (ls ++ [l]) s₂) :
    P ls s' := by
  have hfrom : ∀ s₁ ls s', Run step s₁ ls s' → ∀ past, Run step s past s₁ → P past s₁ →
      P (past ++ ls) s' := by
    intro s₁ ls s' h
    induction h with
    | nil s₁ =>
        intro past _ hpast
        rwa [List.append_nil]
    | @cons s₁ s₂ s' l ls hfirst _ ih =>
        intro past hrun hpast
        have hnext := ih (past ++ [l]) (hrun.append (.single hfirst)) (hsnoc _ _ _ _ hrun hpast hfirst)
        rwa [List.append_assoc] at hnext
  exact hfrom s ls s' h [] (.nil s) hnil

/-- If every step of the first system can be followed by the second one, every run can. -/
theorem Run.simulated {step' : τ → κ → τ → Prop} {label : ι → κ} {R : σ → τ → Prop}
    (h : Run step s ls s')
    (hstep : ∀ s l s' a, step s l s' → R s a → ∃ a', step' a (label l) a' ∧ R s' a')
    {a : τ} (hs : R s a) : ∃ a', Run step' a (ls.map label) a' ∧ R s' a' := by
  induction h generalizing a with
  | nil s => exact ⟨a, .nil a, hs⟩
  | cons hfirst _ ih =>
      obtain ⟨a₁, hfirst', hs₁⟩ := hstep _ _ _ a hfirst hs
      obtain ⟨a', hrest, hs'⟩ := ih hs₁
      exact ⟨a', .cons hfirst' hrest, hs'⟩

end Simulation
