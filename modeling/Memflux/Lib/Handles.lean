import Mathlib

/-! # Handles

A trace of opening, using and closing handles is legal if no handle is used or closed
while it is not open, and none is opened twice. Reading a legal trace gives the handles
that are open at its end, the last opened first.
-/

namespace Handles

variable {η : Type} [DecidableEq η]

inductive Use (η : Type) where
  | opened (h : η)
  | used (h : η)
  | closed (h : η)
  deriving DecidableEq

def step (s : List η) : Use η → Option (List η)
  | .opened h => if h ∈ s then none else some (h :: s)
  | .used h => if h ∈ s then some s else none
  | .closed h => if h ∈ s then some (s.erase h) else none

/-- The handles that are open after a trace; `none` if it is not legal. -/
def openAfter (s : List η) : List (Use η) → Option (List η)
  | [] => some s
  | u :: us => (step s u).bind fun s' => openAfter s' us

theorem openAfter_append (s : List η) (us vs : List (Use η)) :
    openAfter s (us ++ vs) = (openAfter s us).bind fun s' => openAfter s' vs := by
  induction us generalizing s with
  | nil => rfl
  | cons u us ih =>
      rw [List.cons_append, openAfter, openAfter]
      cases step s u with
      | none => rfl
      | some s' => exact ih s'

@[simp] theorem openAfter_nil (s : List η) : openAfter s [] = some s := rfl

@[simp] theorem openAfter_opened {s : List η} {h : η} (us : List (Use η)) (hnew : h ∉ s) :
    openAfter s (.opened h :: us) = openAfter (h :: s) us := by
  rw [openAfter, step, if_neg hnew, Option.bind_some]

@[simp] theorem openAfter_used {s : List η} {h : η} (us : List (Use η)) (hopen : h ∈ s) :
    openAfter s (.used h :: us) = openAfter s us := by
  rw [openAfter, step, if_pos hopen, Option.bind_some]

@[simp] theorem openAfter_closed {s : List η} {h : η} (us : List (Use η)) (hopen : h ∈ s) :
    openAfter s (.closed h :: us) = openAfter (s.erase h) us := by
  rw [openAfter, step, if_pos hopen, Option.bind_some]

theorem openAfter_used_of_not_mem {s : List η} {h : η} (us : List (Use η)) (hnot : h ∉ s) :
    openAfter s (.used h :: us) = none := by
  rw [openAfter, step, if_neg hnot, Option.bind_none]

end Handles
