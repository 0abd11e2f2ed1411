import Mathlib

/-! # Loops that may stop early

A loop over a list that tests its state before each item and leaves at the first
test that says so. The items it goes through form an initial segment of the list,
and what it computes is the fold over that segment.
-/

namespace EarlyExit

variable {σ α : Type}

/-- `for (x : l) { if (stop(s)) break; s = body(s, x); }` -/
def loopUntil (stop : σ → Bool) (body : σ → α → σ) : σ → List α → σ
  | s, [] => s
  | s, x :: l => if stop s then s else loopUntil stop body (body s x) l

def visited (stop : σ → Bool) (body : σ → α → σ) : σ → List α → List α
  | _, [] => []
  | s, x :: l => if stop s then [] else x :: visited stop body (body s x) l

variable {stop : σ → Bool} {body : σ → α → σ}

theorem loopUntil_eq_foldl (s : σ) (l : List α) :
    loopUntil stop body s l = (visited stop body s l).foldl body s := by
  induction l generalizing s with
  | nil => rfl
  | cons x l ih =>
      unfold loopUntil visited
      split
      · rfl
      · rw [ih, List.foldl_cons]

theorem visited_initial (s : σ) (l : List α) : visited stop body s l <+: l := by
  induction l generalizing s with
  | nil => exact List.nil_prefix
  | cons x l ih =>
      unfold visited
      split
      · exact List.nil_prefix
      · exact (List.prefix_cons_inj x).mpr (ih _)

theorem not_stop_before {s : σ} {l l₁ l₂ : List α} {x : α}
    (h : visited stop body s l = l₁ ++ x :: l₂) : stop (l₁.foldl body s) = false := by
  induction l generalizing s l₁ with
  | nil =>
      unfold visited at h
      simp at h
  | cons y l ih =>
      unfold visited at h
      split at h
      · simp at h
      · rename_i hstop
        cases l₁ with
        | nil => simpa using hstop
        | cons z l₁ =>
            obtain ⟨rfl, hrest⟩ := List.cons.inj h
            rw [List.foldl_cons]
            exact ih hrest

/-- The loop goes through every initial segment before whose items its test says no. -/
theorem prefix_visited {s : σ} {l l₁ : List α} (hl : l₁ <+: l)
    (hgo : ∀ l₀ x l₂, l₁ = l₀ ++ x :: l₂ → stop (l₀.foldl body s) = false) :
    l₁ <+: visited stop body s l := by
  induction l generalizing s l₁ with
  | nil => exact hl
  | cons y l ih =>
      cases l₁ with
      | nil => exact List.nil_prefix
      | cons z l₁ =>
          obtain ⟨rfl, htail⟩ := List.cons_prefix_cons.mp hl
          have hfirst : stop s = false := hgo [] z l₁ rfl
          unfold visited
          rw [if_neg (by simp [hfirst])]
          refine (List.prefix_cons_inj z).mpr (ih htail fun l₀ x l₂ h => ?_)
          exact hgo (z :: l₀) x l₂ (by rw [h]; rfl)

theorem stop_at_end {s : σ} {l l₁ : List α} {x : α} (h : l = visited stop body s l ++ x :: l₁) :
    stop ((visited stop body s l).foldl body s) = true := by
  induction l generalizing s with
  | nil => simp at h
  | cons y l ih =>
      unfold visited at h ⊢
      split
      · assumption
      · rename_i hgo
        rw [if_neg hgo, List.cons_append] at h
        rw [List.foldl_cons]
        exact ih (List.cons.inj h).2

theorem loopUntil_map {f : α → α} (hbody : ∀ s x, body s (f x) = body s x) (s : σ) (l : List α) :
    loopUntil stop body s (l.map f) = loopUntil stop body s l := by
  induction l generalizing s with
  | nil => rfl
  | cons x l ih =>
      rw [List.map_cons]
      unfold loopUntil
      rw [hbody, ih]

/-- Two runs of the loop from states that the test does not tell apart and the body
keeps so. -/
theorem loopUntil_related {R : σ → σ → Prop} (hstop : ∀ s s', R s s' → stop s' = stop s)
    (hbody : ∀ s s' x, R s s' → R (body s x) (body s' x)) {s s' : σ} (h : R s s') (l : List α) :
    R (loopUntil stop body s l) (loopUntil stop body s' l) := by
  induction l generalizing s s' with
  | nil => exact h
  | cons x l ih =>
      unfold loopUntil
      rw [hstop s s' h]
      split
      · exact h
      · exact ih (hbody s s' x h)

end EarlyExit
