import Memflux.Core.Backends
import Memflux.Core.Effects

/-! # After DAMON is on

Nothing switches DAMON off again, and while it is on every process keeps the ratio that
the scan gave it, which scores zero. So from the first cycle that switches it on no cycle
opens a process, clears its bits or gives advice on its memory, forced ones included.
-/

namespace Memflux.Core

open Double EarlyExit

section

variable {F : Type} [Double F]

def Event.Touches : Event F → Prop
  | .clearRefs _ => True
  | .pidfdOpen _ _ => True
  | .madvise _ _ _ _ => True
  | _ => False

/-- A score of zero is below the minimum, whatever factors are applied to it: the minimum
is positive, and no weight is infinite or NaN. -/
structure ZeroBelow (cfg : Config F) : Prop where
  cooling : lt zero cfg.minScore = true
  weighted : ∀ ps : ProcessStat F, ∀ swap ∈ [(dec 13 1 : F), one],
    lt (mul (mul zero swap) (weightFor cfg ps)) cfg.minScore = true

/-! ## The latch -/

theorem computeScores_damonOn (cfg : Config F) (e : Engine F) (k : Answers F) :
    (computeScores cfg e k).1.damonOn = e.damonOn := by
  unfold computeScores
  cases hon : e.damonOn with
  | false =>
      dsimp only
      rw [if_neg (by simp), hon]
  | true =>
      dsimp only
      rw [if_pos rfl, damonSample_eq]
      dsimp only
      rw [hon]

/-- Whether DAMON is on once a cycle has had its chance to switch it on. -/
def damonAfter (cfg : Config F) (e : Engine F) (k : Answers F) : Bool :=
  e.damonOn || (cfg.enableDamon && k.damonAvailable && !k.damonEnabled && k.damonSwitched)

theorem damonInit_damonOn (cfg : Config F) (dc : DamonConfig) (e : Engine F) (k : Answers F) :
    (damonInit cfg dc e k).1.damonOn = damonAfter cfg e k := by
  unfold damonAfter
  rcases damonInit_events cfg dc e k with ⟨⟨hoff, hasked, havailable, henabled⟩, -⟩ | ⟨hnot, -⟩
  · rw [damonInit, if_pos ⟨hoff, hasked, havailable, henabled⟩, hoff, hasked, havailable, henabled]
    rfl
  · have hkeep : (damonInit cfg dc e k).1 = e := congrArg Prod.fst (if_neg hnot)
    rw [hkeep]
    cases hon : e.damonOn with
    | true => rfl
    | false =>
        have hsome : ¬ (cfg.enableDamon = true ∧ k.damonAvailable = true ∧ k.damonEnabled = false) :=
          fun h => hnot ⟨hon, h⟩
        cases hasked : cfg.enableDamon <;> cases havailable : k.damonAvailable <;>
          cases henabled : k.damonEnabled <;> simp_all

theorem openCycle_damonOn (cfg : Config F) (e : Engine F) (k : Answers F) :
    (openCycle cfg e k).1.damonOn = damonAfter cfg e k :=
  (ebpfInit_keeps _ k).2.2.trans (damonInit_damonOn cfg (cycleDamonConfig cfg) (beginCycle e k) k)

theorem scoringEngine_latch (cfg : Config F) (e : Engine F) (k : Answers F) (c : Call) :
    (scoringEngine cfg e k c).damonOn = damonAfter cfg e k := by
  cases c with
  | run => exact (thrashGuard_keeps _ k).2.trans (openCycle_damonOn cfg e k)
  | force => exact damonInit_damonOn cfg {} (beginCycle e k) k

theorem prepare_damonOn (cfg : Config F) (e : Engine F) (k : Answers F) (c : Call) :
    (prepare cfg e k c).1.damonOn = damonAfter cfg e k := by
  cases hscores : scores k c with
  | true =>
      rw [prepare_of_scores cfg e hscores, computeScores_damonOn, scoringEngine_latch]
  | false => rw [prepare_of_not_scores cfg e hscores, openCycle_damonOn]

theorem outcome_damonOn (e : Engine F) (st : Step F) :
    (st.outcome e).engine.damonOn = damonAfter st.cfg e st.answers := by
  unfold Step.outcome
  cases hacts : acts st.cfg st.answers st.call with
  | true =>
      rw [cycle_of_acts hacts]
      exact prepare_damonOn st.cfg e st.answers st.call
  | false =>
      rw [cycle_of_not_acts hacts]
      exact prepare_damonOn st.cfg e st.answers st.call

/-! ## Nobody is eligible -/

theorem scan_score {e : Engine F} {k : Answers F} {ps : ProcessStat F}
    (h : ps ∈ (beginCycle e k).snapshot) : ps.score = zero := by
  rw [beginCycle_snapshot] at h
  obtain ⟨entry, -, hscan⟩ := List.mem_filterMap.mp h
  unfold scanEntry at hscan
  split at hscan
  · cases hscan
  · rw [← Option.some.inj hscan]

theorem scoreFor_below [LawfulDouble F] {cfg : Config F} (hzero : ZeroBelow cfg) {e : Engine F}
    {k : Answers F} (tracked : Tracks) {ps : ProcessStat F} (hps : ps ∈ (beginCycle e k).snapshot) :
    lt (scoreFor cfg true k tracked ps).score cfg.minScore = true := by
  unfold scoreFor
  split
  · rw [scan_score hps]
    exact hzero.cooling
  · rename_i tr _
    rw [scoreOne_score, sampleOne_damon]
    split
    · exact hzero.cooling
    · unfold rawScore
      dsimp only
      rw [beginCycle_fresh hps, LawfulDouble.cold_one, LawfulDouble.mul_zero]
      apply hzero.weighted
      split <;> simp

theorem prepared_below [LawfulDouble F] {cfg : Config F} (hzero : ZeroBelow cfg) {e : Engine F}
    {k : Answers F} {c : Call} (hscores : scores k c = true) (hon : damonAfter cfg e k = true) :
    ∀ ps ∈ (prepare cfg e k c).1.snapshot, eligible cfg ps = false := by
  intro ps hps
  obtain ⟨-, hsnapshot, -⟩ := computeScores_eq cfg (scoringEngine cfg e k c) k
  rw [prepare_of_scores cfg e hscores, hsnapshot, scoringEngine_latch, hon,
    scoringEngine_snapshot, (scoreList_spec cfg true k _ (beginCycle_nodup e k)).1] at hps
  obtain ⟨ps₀, hps₀, rfl⟩ := List.mem_map.mp hps
  unfold eligible
  rw [scoreFor_below hzero _ hps₀]
  rfl

theorem candidates_below {cfg : Config F} {k : Answers F} {snapshot : List (ProcessStat F)}
    (h : ∀ ps ∈ snapshot, eligible cfg ps = false) : candidates cfg k snapshot = [] := by
  have hnone : snapshot.filter (eligible cfg) = [] :=
    List.filter_eq_nil_iff.mpr fun ps hps => by rw [h ps hps]; decide
  rw [candidates, hnone]
  exact List.Perm.eq_nil (k.sort_perm [])

/-- Without candidates nothing is done to a process, and nothing is obtained. -/
theorem runActions_nobody {cfg : Config F} {e : Engine F} {k : Answers F}
    (h : ∀ ps ∈ e.snapshot, eligible cfg ps = false) :
    (∀ ev ∈ (runActions cfg e k).events, ¬ ev.Touches) ∧ (runActions cfg e k).ret = 0 := by
  have hnone : targets cfg e k = [] := by
    have hprefix := targets_initial cfg e k
    rw [candidates_below h] at hprefix
    exact List.prefix_nil.mp hprefix
  refine ⟨fun ev hev => ?_, ?_⟩
  · rw [runActions_events, hnone, List.flatMap_nil, List.nil_append] at hev
    rcases List.mem_cons.mp hev with rfl | hev
    · exact id
    · unfold cgroupReclaim at hev
      split at hev
      · rw [List.mem_singleton.mp hev]
        exact id
      · cases hev
  · show (actAll cfg e k).total / 1024 = 0
    rw [actAll_eq, hnone]
    exact Nat.zero_div 1024

theorem prepare_untouched (cfg : Config F) (e : Engine F) (k : Answers F) (c : Call)
    (hon : damonAfter cfg e k = true) : ∀ ev ∈ (prepare cfg e k c).2, ¬ ev.Touches := by
  have hinit : ∀ dc, ∀ ev ∈ (damonInit cfg dc (beginCycle e k) k).2, ¬ ev.Touches := by
    intro dc ev hev
    rcases damonInit_events cfg dc (beginCycle e k) k with ⟨-, h⟩ | ⟨-, h⟩
    · rw [h] at hev
      rcases List.mem_cons.mp hev with rfl | hev
      · exact id
      · rw [List.mem_singleton.mp hev]
        exact id
    · rw [h] at hev
      cases hev
  have hclear : (computeScores cfg (scoringEngine cfg e k c) k).2 = [] := by
    have hnodup : ((scoringEngine cfg e k c).snapshot.map (·.pid)).Nodup := by
      rw [scoringEngine_snapshot]
      exact beginCycle_nodup e k
    obtain ⟨-, -, hevents⟩ := computeScores_eq cfg (scoringEngine cfg e k c) k
    rw [hevents, scoringEngine_latch, hon, scoreList_events_eq cfg true k hnodup]
    refine List.flatMap_eq_nil_iff.mpr fun ps _ => ?_
    unfold clearsFor
    split
    · rfl
    · rw [sampleOne_damon]
  intro ev hev
  cases c with
  | run =>
      unfold prepare openCycle at hev
      dsimp only at hev
      have hopen : ∀ ev ∈ (damonInit cfg (cycleDamonConfig cfg) (beginCycle e k) k).2 ++
          [.psi k.psi, .meminfo k.mem], ¬ ev.Touches := by
        intro ev hev
        rcases List.mem_append.mp hev with hev | hev
        · exact hinit _ ev hev
        · simp only [List.mem_cons, List.not_mem_nil, or_false] at hev
          rcases hev with rfl | rfl <;> exact id
      split at hev
      · exact hopen ev hev
      · rcases List.mem_append.mp hev with hev | hev
        · exact hopen ev hev
        · have hnil : ev ∈ (computeScores cfg (scoringEngine cfg e k .run) k).2 := hev
          rw [hclear] at hnil
          cases hnil
  | force =>
      unfold prepare at hev
      dsimp only at hev
      rcases List.mem_append.mp hev with hev | hev
      · rcases List.mem_append.mp hev with hev | hev
        · exact hinit _ ev hev
        · have hnil : ev ∈ (computeScores cfg (scoringEngine cfg e k .force) k).2 := hev
          rw [hclear] at hnil
          cases hnil
      · rw [List.mem_singleton.mp hev]
        exact id

theorem outcome_nobody [LawfulDouble F] (e : Engine F) (st : Step F) (hzero : ZeroBelow st.cfg)
    (hon : damonAfter st.cfg e st.answers = true) :
    (∀ ev ∈ (st.outcome e).events, ¬ ev.Touches) ∧ (st.outcome e).ret = 0 := by
  have hprepare := prepare_untouched st.cfg e st.answers st.call hon
  unfold Step.outcome
  cases hacts : acts st.cfg st.answers st.call with
  | true =>
      obtain ⟨hevents, hret⟩ :=
        runActions_nobody (k := st.answers) (prepared_below hzero (scores_of_acts hacts) hon)
      rw [cycle_of_acts hacts]
      refine ⟨fun ev hev => ?_, hret⟩
      rcases List.mem_append.mp hev with hev | hev
      · exact hprepare ev hev
      · exact hevents ev hev
  | false =>
      rw [cycle_of_not_acts hacts]
      exact ⟨hprepare, rfl⟩

/-- A history that begins with DAMON on, or with a cycle that switches it on. -/
theorem history_nobody [LawfulDouble F] {l : List (Step F)} {e : Engine F}
    (hzero : ∀ st ∈ l, ZeroBelow st.cfg)
    (hon : ∀ st ∈ l.head?, damonAfter st.cfg e st.answers = true) :
    ∀ x ∈ history e l, (∀ ev ∈ (x.2.outcome x.1).events, ¬ ev.Touches) ∧ (x.2.outcome x.1).ret = 0 := by
  induction l generalizing e with
  | nil => exact fun _ h => nomatch h
  | cons st l ih =>
      have hfirst := hon st rfl
      intro x hx
      rcases List.mem_cons.mp hx with rfl | hx
      · exact outcome_nobody e st (hzero st List.mem_cons_self) hfirst
      · refine ih (fun st' h => hzero st' (List.mem_cons_of_mem st h)) (fun st' _ => ?_) x hx
        rw [damonAfter, outcome_damonOn, hfirst]
        rfl

/-- The default configuration. -/
theorem zeroBelow_default : ZeroBelow ({} : Config ℚ) where
  cooling := by decide +kernel
  weighted ps swap hswap := by
    have hweight : weightFor ({} : Config ℚ) ps = one := rfl
    rw [hweight]
    simp only [List.mem_cons, List.not_mem_nil, or_false] at hswap
    rcases hswap with rfl | rfl <;> decide +kernel

end

end Memflux.Core
