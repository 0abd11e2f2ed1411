import Memflux.Core.Actions
import Memflux.Core.Scores

/-! # The two sampling backends

With DAMON on and no targets per process, nothing fills the working-set ratio: it stays
at 1, which scores zero. The soft-dirty backend replaces it where a reading succeeds.
-/

namespace Memflux.Core

open Double

section

variable {F : Type} [Double F]

/-- The snapshot that `compute_scores` leaves after a scan, with DAMON on or off. -/
def scoredWith (cfg : Config F) (damonOn : Bool) (e : Engine F) (tracked : Tracks)
    (k : Answers F) : List (ProcessStat F) :=
  (computeScores cfg { beginCycle e k with tracked := tracked, damonOn := damonOn } k).1.snapshot

/-- Both backends give every process the same ratio and score, and a positive score to a
large process that is read as untouched. -/
structure ScoreAlike (cfg : Config F) (e : Engine F) (tracked : Tracks) (k : Answers F) :
    Prop where
  same : (scoredWith cfg true e tracked k).map (fun ps => (ps.pid, ps.wsRatio, ps.score)) =
    (scoredWith cfg false e tracked k).map (fun ps => (ps.pid, ps.wsRatio, ps.score))
  untouched : ∀ damonOn, ∀ ps ∈ (beginCycle e k).snapshot, ∀ tr, tracked ps.pid = some tr →
    Read cfg k tr ps → (k.sample ps.pid).touchedKb = 0 →
      ∃ ps' ∈ scoredWith cfg damonOn e tracked k, ps'.pid = ps.pid ∧ lt zero ps'.score = true

theorem scoredWith_eq (cfg : Config F) (damonOn : Bool) (e : Engine F) (tracked : Tracks)
    (k : Answers F) :
    scoredWith cfg damonOn e tracked k =
      (beginCycle e k).snapshot.map (scoreFor cfg damonOn k tracked) := by
  obtain ⟨-, hsnapshot, -⟩ :=
    computeScores_eq cfg { beginCycle e k with tracked := tracked, damonOn := damonOn } k
  rw [scoredWith, hsnapshot]
  exact (scoreList_spec cfg damonOn k tracked (beginCycle_nodup e k)).1

theorem sampleOne_damon (cfg : Config F) (k : Answers F) (tr : Track) (ps : ProcessStat F) :
    sampleOne cfg true k tr ps = (tr, ps, []) := by
  unfold sampleOne
  rw [if_neg (by simp), if_neg (by simp)]

theorem sampleOne_rest (cfg : Config F) (damonOn : Bool) (k : Answers F) (tr : Track)
    (ps : ProcessStat F) :
    (sampleOne cfg damonOn k tr ps).2.1.cgroup = ps.cgroup ∧
      (sampleOne cfg damonOn k tr ps).2.1.swapKb = ps.swapKb := by
  unfold sampleOne
  split
  · split
    · exact ⟨rfl, rfl⟩
    · dsimp only
      split <;> exact ⟨rfl, rfl⟩
  · split <;> exact ⟨rfl, rfl⟩

theorem weightFor_congr {cfg : Config F} {ps ps' : ProcessStat F} (h : ps.cgroup = ps'.cgroup) :
    weightFor cfg ps = weightFor cfg ps' := by
  unfold weightFor
  rw [h]

theorem rawScore_one [LawfulDouble F] {cfg : Config F} {ps ps' : ProcessStat F}
    (h : ps.wsRatio = one) (h' : ps'.wsRatio = one) (hgroup : ps.cgroup = ps'.cgroup)
    (hswap : ps.swapKb = ps'.swapKb) : rawScore cfg ps = rawScore cfg ps' := by
  unfold rawScore
  dsimp only
  rw [h, h', LawfulDouble.cold_one, LawfulDouble.mul_zero, LawfulDouble.mul_zero, hswap, weightFor_congr hgroup]

theorem scoreOne_score (cfg : Config F) (damonOn : Bool) (k : Answers F) (tr : Track)
    (ps : ProcessStat F) :
    (scoreOne cfg damonOn k tr ps).2.1.score =
      if tr.cooldown > 0 then zero else rawScore cfg (sampleOne cfg damonOn k tr ps).2.1 := by
  rw [scoreOne_eq]
  dsimp only
  rw [(sampleOne_keeps cfg damonOn k tr ps).1]
  split <;> rfl

/-- One process is scored alike exactly when its reading, if there is one, is 1. -/
theorem scoreOne_alike_iff [LawfulDouble F] {cfg : Config F} {k : Answers F} {tr : Track}
    {ps : ProcessStat F} (hfresh : ps.wsRatio = one) :
    ((scoreOne cfg true k tr ps).2.1.wsRatio = (scoreOne cfg false k tr ps).2.1.wsRatio ∧
        (scoreOne cfg true k tr ps).2.1.score = (scoreOne cfg false k tr ps).2.1.score) ↔
      (Read cfg k tr ps → readRatio k ps = one) := by
  rw [scoreOne_wsRatio, scoreOne_wsRatio, scoreOne_score, scoreOne_score, sampleOne_damon]
  rcases sampleOne_ratio cfg k tr hfresh with ⟨hread, hratio⟩ | ⟨hread, hsame⟩
  · constructor
    · rintro ⟨hequal, -⟩ -
      rw [← hratio, ← hequal]
      exact hfresh
    · intro h
      obtain ⟨hgroup, hswap⟩ := sampleOne_rest cfg false k tr ps
      have hone := hratio.trans (h hread)
      refine ⟨hfresh.trans hone.symm, ?_⟩
      rw [rawScore_one hfresh hone hgroup.symm hswap.symm]
  · rw [hsame]
    exact ⟨fun _ h => absurd h hread, fun _ => ⟨rfl, rfl⟩⟩

/-- The backends score alike exactly when every reading of the soft-dirty backend shows
all pages as touched. -/
theorem backends_alike_iff [LawfulDouble F] (cfg : Config F) (e : Engine F) (tracked : Tracks)
    (k : Answers F) :
    ScoreAlike cfg e tracked k ↔
      ∀ ps ∈ (beginCycle e k).snapshot, ∀ tr, tracked ps.pid = some tr → Read cfg k tr ps →
        readRatio k ps = one := by
  constructor
  · intro h ps hps tr htr
    have hsame := h.same
    rw [scoredWith_eq, scoredWith_eq, List.map_map, List.map_map] at hsame
    have hone := List.map_inj_left.mp hsame ps hps
    dsimp only [Function.comp_apply] at hone
    rw [scoreFor_of_track htr, scoreFor_of_track htr] at hone
    obtain ⟨-, hpair⟩ := Prod.mk.inj hone
    exact (scoreOne_alike_iff (beginCycle_fresh hps)).mp (Prod.mk.inj hpair)
  · intro h
    refine ⟨?_, fun damonOn ps hps tr htr hread huntouched => ?_⟩
    · rw [scoredWith_eq, scoredWith_eq, List.map_map, List.map_map]
      refine List.map_congr_left fun ps hps => ?_
      dsimp only [Function.comp_apply]
      rw [scoreFor_pid, scoreFor_pid]
      cases htr : tracked ps.pid with
      | none => rw [scoreFor, scoreFor, htr]
      | some tr =>
          obtain ⟨hratio, hscore⟩ := (scoreOne_alike_iff (beginCycle_fresh hps)).mpr (h ps hps tr htr)
          rw [scoreFor_of_track htr, scoreFor_of_track htr, hratio, hscore]
    · -- a reading of no touched page is 0, not 1
      have hone := h ps hps tr htr hread
      have hpos : 0 < Nat.max (k.sample ps.pid).anonTotalKb 1 :=
        Nat.lt_of_lt_of_le Nat.one_pos (Nat.le_max_right _ _)
      rw [readRatio, huntouched, LawfulDouble.zero_div _ hpos] at hone
      exact absurd hone LawfulDouble.zero_ne_one

end

/-- The process is read with the given number of touched KiB. -/
def Answers.reading (touchedKb : Nat) : Answers ℚ :=
  { Answers.alone with
    sample := fun _ => ⟨100000, touchedKb, 1, true⟩ }

theorem backends_alike_touched :
    ScoreAlike {} {} (fun _ => some { samples := 1 }) (Answers.reading 100000) := by
  refine (backends_alike_iff {} {} _ _).mpr fun ps hps tr htr hread => ?_
  unfold readRatio
  have hsample : (Answers.reading 100000).sample ps.pid = ⟨100000, 100000, 1, true⟩ := rfl
  rw [hsample]
  decide +kernel

/-- A large process of which no page was touched: ratio 0 without DAMON, 1 with it. -/
theorem backends_differ :
    ¬ ∀ (cfg : Config ℚ) (e : Engine ℚ) (tracked : Tracks) (k : Answers ℚ),
      ScoreAlike cfg e tracked k := by
  intro hall
  have hsame := (hall {} {} (fun _ => some { samples := 1 }) (Answers.reading 0)).same
  exact absurd hsame (by decide +kernel)

end Memflux.Core
