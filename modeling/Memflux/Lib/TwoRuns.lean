import Mathlib

/-! # Two runs of a program that can fail

`Related R x y` says that two runs end alike: both return, with results related
by `R`, or both stop with one error. There is one rule for each way a `do` block
is put together, so that a proof about two runs follows the text of the program.
-/

namespace TwoRuns

variable {ε α β α' β' : Type}

/-- Both return related results, or both stop with the same error. -/
inductive Related (R : α → β → Prop) : Except ε α → Except ε β → Prop where
  | ok {a : α} {b : β} (h : R a b) : Related R (.ok a) (.ok b)
  | error (e : ε) : Related R (.error e) (.error e)

variable {R : α → β → Prop} {S : α' → β' → Prop} {x : Except ε α} {y : Except ε β}

theorem Related.mono {R' : α → β → Prop} (h : Related R x y) (hR : ∀ a b, R a b → R' a b) :
    Related R' x y := by
  cases h with
  | ok h => exact .ok (hR _ _ h)
  | error e => exact .error e

theorem Related.same (x : Except ε α) : Related (fun a b => b = a) x x := by
  cases x with
  | ok a => exact .ok rfl
  | error e => exact .error e

/-- The continuations need only agree on results that the first runs can return. -/
theorem Related.bind_of {f : α → Except ε α'} {g : β → Except ε β'} (h : Related R x y)
    (hfg : ∀ a b, x = .ok a → R a b → Related S (f a) (g b)) : Related S (x >>= f) (y >>= g) := by
  cases h with
  | ok h => exact hfg _ _ rfl h
  | error e => exact .error e

theorem Related.bind {f : α → Except ε α'} {g : β → Except ε β'} (h : Related R x y)
    (hfg : ∀ a b, R a b → Related S (f a) (g b)) : Related S (x >>= f) (y >>= g) :=
  h.bind_of fun a b _ => hfg a b

theorem Related.eq_of {x y : Except ε α} (h : Related (fun a b => b = a) x y) : y = x := by
  cases h with
  | ok h => rw [h]
  | error e => rfl

end TwoRuns
