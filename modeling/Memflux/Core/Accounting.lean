import Memflux.Core.Actions

/-! # The unit of the reclaimed amount

A target adds to `reclaimed_total` either the bytes that `process_madvise` advised
or a drop of anonymous RSS in KiB. The loop compares the sum with a budget in KiB,
and the result divides it by 1024 as if it were in bytes.
-/

namespace Memflux.Core

open Double EarlyExit

section

variable {F : Type} [Double F]

/-! ## What is counted -/

/-- After the candidates `l` there are targets and budget left. -/
def Turn (cfg : Config F) (k : Answers F) (l : List (ProcessStat F)) : Prop :=
  paying cfg k l < cfg.maxTargets ∧ u64 (amounts cfg k l) < cfg.budget

/-- The candidates `l` get their turn, and no other. -/
structure Tried (cfg : Config F) (k : Answers F) (cands l : List (ProcessStat F)) : Prop where
  initial : l <+: cands
  turn : ∀ l₀ ps l₁, l = l₀ ++ ps :: l₁ → Turn cfg k l₀
  last : ∀ ps l₁, cands = l ++ ps :: l₁ → ¬ Turn cfg k l

/-- The drop of anonymous RSS that a target adds, in KiB. -/
def drop (cfg : Config F) (k : Answers F) (ps : ProcessStat F) : Nat :=
  let a := k.attempt ps.pid
  if a.opened = false ∨ a.before = 0 then 0
  else if cfg.enableHeapTrim = true ∧ cfg.dryRun = false ∧ advisedBytes a ≠ 0 then 0
  else a.before - a.after

theorem targets_tried (cfg : Config F) (e : Engine F) (k : Answers F) :
    Tried cfg k (candidates cfg k e.snapshot) (targets cfg e k) where
  initial := targets_initial cfg e k
  turn _ _ _ h := (done_iff _).mp (not_stop_before h)
  last _ _ h hturn := by
    have hstop := stop_at_end h
    have hgo := (done_iff (e := e) _).mpr hturn
    rw [targets] at hgo
    rw [hgo] at hstop
    cases hstop

theorem tried_eq {cfg : Config F} {e : Engine F} {k : Answers F} {l : List (ProcessStat F)}
    (h : Tried cfg k (candidates cfg k e.snapshot) l) : l = targets cfg e k := by
  have hpre : l <+: targets cfg e k :=
    prefix_visited h.initial fun l₀ ps l₁ hl => (done_iff l₀).mpr (h.turn l₀ ps l₁ hl)
  obtain ⟨rest, hrest⟩ := hpre
  cases rest with
  | nil => rw [← hrest, List.append_nil]
  | cons ps rest =>
      obtain ⟨l₂, hl₂⟩ := targets_initial cfg e k
      have hcands : candidates cfg k e.snapshot = l ++ ps :: (rest ++ l₂) := by
        rw [← hl₂, ← hrest]
        simp
      exact absurd ((targets_tried cfg e k).turn l ps rest hrest.symm) (h.last _ _ hcands)

/-! ## The sum -/

end

end Memflux.Core
