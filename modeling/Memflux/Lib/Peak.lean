import Mathlib

/-! # Growing only when full

A pool of containers with `k` places each. If a step that adds a container finds the pool
full, and fills a place of the new one, a run never has more containers than its peak
load needs.
-/

namespace Pools

variable {σ : Type}

structure GrowsWhenFull (step : σ → σ → Prop) (I : σ → Prop) (count load : σ → ℕ) (k : ℕ) : Prop where
  keeps : ∀ {s s'}, I s → step s s' → I s'
  holds : ∀ {s}, I s → load s ≤ count s * k
  grows : ∀ {s s'}, I s → step s s' →
    count s' ≤ count s ∨ count s' = count s + 1 ∧ load s' = count s * k + 1

variable {step : σ → σ → Prop} {I : σ → Prop} {count load : σ → ℕ} {k : ℕ}

/-- A step to a load that `n` containers hold leads to at most `n` containers. -/
theorem GrowsWhenFull.step_le (h : GrowsWhenFull step I count load k) {s s' : σ} {n : ℕ} (hs : I s)
    (hstep : step s s') (hcount : count s ≤ n) (hload : load s' ≤ n * k) : count s' ≤ n := by
  obtain hle | ⟨hmore, hfull⟩ := h.grows hs hstep
  · exact hle.trans hcount
  · have hlt : count s * k < n * k := by omega
    have hroom : count s < n := Nat.lt_of_mul_lt_mul_right hlt
    omega

/-- On a run, the containers stay within `n` exactly when the load stays within what `n`
containers hold. -/
theorem GrowsWhenFull.peak (h : GrowsWhenFull step I count load k) {s : σ} {ss : List σ} {n : ℕ}
    (hs : I s) (hcount : count s ≤ n) (hrun : (s :: ss).IsChain step) :
    (∀ s' ∈ ss, count s' ≤ n) ↔ ∀ s' ∈ ss, load s' ≤ n * k := by
  induction ss generalizing s with
  | nil => simp
  | cons s₁ ss ih =>
      obtain ⟨hstep, hrest⟩ := List.isChain_cons_cons.mp hrun
      have hs₁ := h.keeps hs hstep
      simp only [List.forall_mem_cons]
      constructor
      · rintro ⟨hfirst, hothers⟩
        exact ⟨(h.holds hs₁).trans (Nat.mul_le_mul_right k hfirst), (ih hs₁ hfirst hrest).mp hothers⟩
      · rintro ⟨hfirst, hothers⟩
        have hcount₁ := h.step_le hs hstep hcount hfirst
        exact ⟨hcount₁, (ih hs₁ hcount₁ hrest).mpr hothers⟩

end Pools
