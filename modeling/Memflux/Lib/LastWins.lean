import Mathlib

/-! # The last assignment wins

Commands that each give values to some fields of a state. After a run every field has
the value of the last command that gave it one, so running the commands again changes
nothing, and neighbours that write different fields can be exchanged.
-/

namespace LastWins

variable {σ ι α : Type} {V : α → Type}

/-- Of the states in `inv`, a command in `ok` gives the field `x` the value `writes x i`,
or leaves it. -/
structure Assigns (step : σ → ι → Option σ) (get : (x : α) → σ → V x)
    (writes : (x : α) → ι → Option (V x)) (inv : σ → Prop) (ok : ι → Prop) : Prop where
  inv_step : ∀ {s s' i}, inv s → step s i = some s' → inv s'
  get_step : ∀ {s s' i}, inv s → ok i → step s i = some s' →
    ∀ x, get x s' = (writes x i).getD (get x s)

/-- The value of the last command that writes the field. -/
def lastWrite (writes : (x : α) → ι → Option (V x)) (x : α) (l : List ι) : Option (V x) :=
  (l.filterMap (writes x)).getLast?

variable {writes : (x : α) → ι → Option (V x)}

@[simp] theorem lastWrite_nil (x : α) : lastWrite writes x [] = none := rfl

@[simp] theorem lastWrite_snoc (x : α) (l : List ι) (i : ι) :
    lastWrite writes x (l ++ [i]) = (writes x i).or (lastWrite writes x l) := by
  unfold lastWrite
  rw [List.filterMap_append]
  cases h : writes x i with
  | none => simp [h]
  | some v => simp [h]

theorem lastWrite_exchange (x : α) (l₁ l₂ : List ι) {i j : ι}
    (h : writes x i = none ∨ writes x j = none) :
    lastWrite writes x (l₁ ++ j :: i :: l₂) = lastWrite writes x (l₁ ++ i :: j :: l₂) := by
  unfold lastWrite
  rw [List.filterMap_append, List.filterMap_append]
  rcases h with h | h <;> simp only [List.filterMap_cons, h]

section

variable {step : σ → ι → Option σ} {get : (x : α) → σ → V x} {inv : σ → Prop} {ok : ι → Prop}

theorem Assigns.run (h : Assigns step get writes inv ok) {l : List ι} (hl : ∀ i ∈ l, ok i)
    {s s' : σ} (hs : inv s) (hrun : l.foldlM step s = some s') :
    inv s' ∧ ∀ x, get x s' = (lastWrite writes x l).getD (get x s) := by
  induction l using List.reverseRecOn generalizing s' with
  | nil =>
      cases hrun
      exact ⟨hs, fun x => rfl⟩
  | append_singleton l i ih =>
      rw [List.foldlM_append] at hrun
      obtain ⟨s₁, hbefore, hlast⟩ := Option.bind_eq_some_iff.mp hrun
      have hstep : step s₁ i = some s' := by simpa using hlast
      obtain ⟨hinv, hfields⟩ := ih (fun j hj => hl j (List.mem_append_left _ hj)) hbefore
      refine ⟨h.inv_step hinv hstep, fun x => ?_⟩
      have hi : ok i := hl i (by simp)
      rw [h.get_step hinv hi hstep x, hfields x, lastWrite_snoc]
      cases writes x i <;> rfl

theorem Assigns.again (h : Assigns step get writes inv ok) {l : List ι} (hl : ∀ i ∈ l, ok i)
    {s s' s'' : σ} (hs : inv s) (hrun : l.foldlM step s = some s')
    (hagain : l.foldlM step s' = some s'') (x : α) : get x s'' = get x s' := by
  obtain ⟨hinv, hfields⟩ := h.run hl hs hrun
  rw [(h.run hl hinv hagain).2 x, hfields x]
  cases lastWrite writes x l <;> rfl

theorem Assigns.exchange (h : Assigns step get writes inv ok) {l₁ l₂ : List ι} {i j : ι}
    (hl : ∀ c ∈ l₁ ++ i :: j :: l₂, ok c) (hij : ∀ x, writes x i = none ∨ writes x j = none)
    {s s' s'' : σ} (hs : inv s) (hrun : (l₁ ++ i :: j :: l₂).foldlM step s = some s')
    (hswap : (l₁ ++ j :: i :: l₂).foldlM step s = some s'') (x : α) : get x s'' = get x s' := by
  have hl' : ∀ c ∈ l₁ ++ j :: i :: l₂, ok c := by
    intro c hc
    apply hl
    simp only [List.mem_append, List.mem_cons] at hc ⊢
    tauto
  rw [(h.run hl' hs hswap).2 x, (h.run hl hs hrun).2 x, lastWrite_exchange x l₁ l₂ (hij x)]

end

end LastWins
