import Memflux.Core.Cooldown
import Memflux.Core.Latch
import Memflux.Lib.Least

/-! # What the engine remembers

While DAMON is on each scored cycle sorts the large processes into the list of targets and
cuts it at sixty-four. The list is never emptied, so it holds the least process ids of all
the large processes of the past. And every process that a scan ever listed keeps its
record in the table, whether it lives or not.
-/

namespace Memflux.Core

open Double Selecting

section

variable {F : Type} [Double F]

/-! ## Targets -/

def largePids (cfg : Config F) (snapshot : List (ProcessStat F)) : List Nat :=
  (snapshot.filter fun ps => decide (cfg.minAnonKb / 2 ≤ ps.anonKb)).map (·.pid)

theorem computeScores_targets (cfg : Config F) (e : Engine F) (k : Answers F) :
    (computeScores cfg e k).1.damonTargets =
      if e.damonOn then settle 64 (e.damonTargets ++ largePids cfg e.snapshot) else e.damonTargets := by
  unfold computeScores
  dsimp only
  split <;> rfl

theorem damonInit_targets (cfg : Config F) (dc : DamonConfig) (e : Engine F) (k : Answers F) :
    (damonInit cfg dc e k).1.damonTargets = e.damonTargets := by
  unfold damonInit
  split <;> rfl

theorem ebpfInit_targets (e : Engine F) (k : Answers F) :
    (ebpfInit e k).damonTargets = e.damonTargets := by
  unfold ebpfInit
  split <;> rfl

theorem thrashGuard_targets (e : Engine F) (k : Answers F) :
    (thrashGuard e k).damonTargets = e.damonTargets := by
  unfold thrashGuard
  split <;> rfl

theorem openCycle_targets (cfg : Config F) (e : Engine F) (k : Answers F) :
    (openCycle cfg e k).1.damonTargets = e.damonTargets :=
  (ebpfInit_targets _ k).trans (damonInit_targets cfg (cycleDamonConfig cfg) (beginCycle e k) k)

theorem scoringEngine_targets (cfg : Config F) (e : Engine F) (k : Answers F) (c : Call) :
    (scoringEngine cfg e k c).damonTargets = e.damonTargets := by
  cases c with
  | run => exact (thrashGuard_targets _ k).trans (openCycle_targets cfg e k)
  | force => exact damonInit_targets cfg {} (beginCycle e k) k

def sampledPids (e : Engine F) (st : Step F) : List Nat :=
  if scores st.answers st.call && damonAfter st.cfg e st.answers then
    largePids st.cfg (beginCycle e st.answers).snapshot
  else []

theorem prepare_targets (cfg : Config F) (e : Engine F) (k : Answers F) (c : Call) :
    (prepare cfg e k c).1.damonTargets =
      if scores k c && damonAfter cfg e k then
        settle 64 (e.damonTargets ++ largePids cfg (beginCycle e k).snapshot)
      else e.damonTargets := by
  cases hscores : scores k c with
  | true =>
      rw [prepare_of_scores cfg e hscores, computeScores_targets, scoringEngine_latch,
        scoringEngine_targets, scoringEngine_snapshot, Bool.true_and]
  | false => rw [prepare_of_not_scores cfg e hscores, openCycle_targets, Bool.false_and, if_neg (by decide)]

theorem outcome_targets (e : Engine F) (st : Step F) :
    (st.outcome e).engine.damonTargets =
      if scores st.answers st.call && damonAfter st.cfg e st.answers then
        settle 64 (e.damonTargets ++ sampledPids e st)
      else e.damonTargets := by
  have hprepare : (prepare st.cfg e st.answers st.call).1.damonTargets = _ :=
    prepare_targets st.cfg e st.answers st.call
  unfold sampledPids
  have hsame : (st.outcome e).engine.damonTargets = (prepare st.cfg e st.answers st.call).1.damonTargets := by
    unfold Step.outcome
    cases hacts : acts st.cfg st.answers st.call with
    | true =>
        rw [cycle_of_acts hacts]
        rfl
    | false => rw [cycle_of_not_acts hacts]
  rw [hsame, hprepare]
  split <;> rfl

/-- The large processes of all the cycles that scored with DAMON on. -/
def everSampled (e : Engine F) (l : List (Step F)) : Set Nat :=
  { pid | ∃ x ∈ history e l, pid ∈ sampledPids x.1 x.2 }

theorem play_targets {e : Engine F} {S : Set Nat} (h : Least 64 S e.damonTargets) (l : List (Step F)) :
    Least 64 (S ∪ everSampled e l) (play e l).damonTargets := by
  induction l generalizing e S with
  | nil =>
      have hnone : everSampled e [] = ∅ := Set.eq_empty_iff_forall_notMem.mpr fun pid hpid => by
        obtain ⟨x, hx, -⟩ := hpid
        cases hx
      rw [hnone, Set.union_empty]
      exact h
  | cons st l ih =>
      have hsplit : everSampled e (st :: l) =
          { x | x ∈ sampledPids e st } ∪ everSampled (st.outcome e).engine l := by
        ext pid
        simp [everSampled, history]
      have hnext : Least 64 (S ∪ { x | x ∈ sampledPids e st }) (st.outcome e).engine.damonTargets := by
        rw [outcome_targets]
        cases hcycle : scores st.answers st.call && damonAfter st.cfg e st.answers with
        | true => exact h.settle (sampledPids e st)
        | false =>
            have hnone : sampledPids e st = [] := by
              unfold sampledPids
              rw [hcycle]
              rfl
            rw [hnone]
            simpa using h
      rw [hsplit, ← Set.union_assoc]
      exact ih hnext

/-- In every history the targets are, in order, the sixty-four least ids of the processes
that were large in some cycle that scored with DAMON on, or all of these. -/
theorem targets_least (l : List (Step F)) :
    Least 64 (everSampled ({} : Engine F) l) (play ({} : Engine F) l).damonTargets := by
  have hstart : Least 64 (∅ : Set Nat) ({} : Engine F).damonTargets := Least.empty 64
  have hall := play_targets hstart l
  rwa [Set.empty_union] at hall

/-! ## Records -/

def known (tracked : Tracks) : Set Nat := { pid | tracked pid ≠ none }

theorem known_update (tracked : Tracks) (pid : Nat) (tr : Track) :
    known (Function.update tracked pid (some tr)) = insert pid (known tracked) := by
  ext q
  by_cases hq : q = pid
  · subst hq
    simp [known]
  · simp [known, hq]

theorem known_rewrite {tracked : Tracks} {pid : Nat} (h : tracked pid ≠ none) (tr : Track) :
    known (Function.update tracked pid (some tr)) = known tracked := by
  rw [known_update]
  exact Set.insert_eq_of_mem h

def pids (l : List (ProcessStat F)) : Set Nat := { pid | ∃ ps ∈ l, ps.pid = pid }

theorem foldl_scanOne_known (k : Answers F) (l : List (Nat × ProcStat))
    (st : Tracks × List (ProcessStat F)) :
    known (l.foldl (scanOne k) st).1 = known st.1 ∪ pids (l.filterMap (scanEntry k)) := by
  induction l generalizing st with
  | nil => simp [pids]
  | cons entry l ih =>
      rw [List.foldl_cons, ih, scanOne_eq]
      cases hscan : scanEntry k entry with
      | none =>
          rw [if_pos rfl, List.filterMap_cons_none hscan]
      | some ps =>
          rw [if_neg (Option.some_ne_none ps), List.filterMap_cons_some hscan]
          dsimp only
          rw [known_update, ← (scanEntry_pid hscan).1]
          ext q
          simp only [pids, Set.mem_union, Set.mem_insert_iff, Set.mem_ofPred_eq, List.mem_cons,
            exists_eq_or_imp]
          tauto

theorem beginCycle_known (e : Engine F) (k : Answers F) :
    known (beginCycle e k).tracked = known e.tracked ∪ pids (beginCycle e k).snapshot := by
  rw [beginCycle_snapshot]
  exact foldl_scanOne_known k k.procs (e.tracked, [])

theorem foldl_guardFaults_known (l : List (Nat × Nat)) (tracked : Tracks) :
    known (l.foldl guardFaults tracked) = known tracked := by
  induction l generalizing tracked with
  | nil => rfl
  | cons entry l ih =>
      rw [List.foldl_cons, ih]
      unfold guardFaults
      split
      · rfl
      · rename_i tr htr
        split
        · exact known_rewrite (by simp [htr]) _
        · rfl

theorem scoreList_known (cfg : Config F) (on : Bool) (k : Answers F) (tracked : Tracks)
    (l : List (ProcessStat F)) : known (scoreList cfg on k tracked l).1 = known tracked := by
  induction l generalizing tracked with
  | nil => rfl
  | cons ps l ih =>
      unfold scoreList
      split
      · exact ih tracked
      · rename_i tr htr
        exact (ih _).trans (known_rewrite (by simp [htr]) _)

theorem scoringEngine_known (cfg : Config F) (e : Engine F) (k : Answers F) (c : Call) :
    known (scoringEngine cfg e k c).tracked = known (beginCycle e k).tracked := by
  cases c with
  | run =>
      rw [← (openCycle_keeps cfg e k).1, scoringEngine, thrashGuard]
      split
      · exact foldl_guardFaults_known k.faults _
      · rfl
  | force => rw [scoringEngine, (damonInit_keeps cfg {} (beginCycle e k) k).1]

theorem prepare_known (cfg : Config F) (e : Engine F) (k : Answers F) (c : Call) :
    known (prepare cfg e k c).1.tracked = known (beginCycle e k).tracked ∧
      pids (prepare cfg e k c).1.snapshot = pids (beginCycle e k).snapshot := by
  cases hscores : scores k c with
  | true =>
      obtain ⟨htracked, hsnapshot, -⟩ := computeScores_eq cfg (scoringEngine cfg e k c) k
      rw [prepare_of_scores cfg e hscores, htracked, hsnapshot, scoreList_known, scoringEngine_known,
        scoringEngine_snapshot, (scoreList_spec cfg _ k _ (beginCycle_nodup e k)).1]
      refine ⟨rfl, ?_⟩
      ext q
      simp [pids, scoreFor_pid]
  | false =>
      rw [prepare_of_not_scores cfg e hscores, (openCycle_keeps cfg e k).1, (openCycle_keeps cfg e k).2]
      exact ⟨rfl, rfl⟩

theorem foldl_tryTarget_known {cfg : Config F} {k : Answers F} {l : List (ProcessStat F)} (s : Acting F)
    (h : ∀ ps ∈ l, ps.pid ∈ known s.tracked) :
    known (l.foldl (tryTarget cfg k) s).tracked = known s.tracked := by
  induction l generalizing s with
  | nil => rfl
  | cons ps l ih =>
      have hstep : known (tryTarget cfg k s ps).tracked = known s.tracked := by
        rw [tryTarget_eq]
        dsimp only
        unfold retrack
        split
        · exact known_rewrite (h ps List.mem_cons_self) _
        · rfl
      rw [List.foldl_cons, ih, hstep]
      rw [hstep]
      exact fun ps' h' => h ps' (List.mem_cons_of_mem ps h')

theorem outcome_known (e : Engine F) (st : Step F) :
    known (st.outcome e).engine.tracked =
      known e.tracked ∪ pids (beginCycle e st.answers).snapshot := by
  obtain ⟨hknown, hpids⟩ := prepare_known st.cfg e st.answers st.call
  rw [← beginCycle_known, ← hknown]
  unfold Step.outcome
  cases hacts : acts st.cfg st.answers st.call with
  | true =>
      rw [cycle_of_acts hacts]
      dsimp only
      rw [runActions_tracked]
      refine foldl_tryTarget_known _ fun ps hps => ?_
      have hlisted : ps.pid ∈ pids (prepare st.cfg e st.answers st.call).1.snapshot :=
        ⟨ps, (mem_targets hps).1, rfl⟩
      rw [hpids] at hlisted
      show ps.pid ∈ known (prepare st.cfg e st.answers st.call).1.tracked
      rw [hknown, beginCycle_known]
      exact .inr hlisted
  | false => rw [cycle_of_not_acts hacts]

def everScanned (e : Engine F) (l : List (Step F)) : Set Nat :=
  { pid | ∃ x ∈ history e l, pid ∈ pids (beginCycle x.1 x.2.answers).snapshot }

/-- After any history the processes with a record are those that some scan listed: no
record is ever dropped. -/
theorem records_kept (l : List (Step F)) :
    known (play ({} : Engine F) l).tracked = everScanned ({} : Engine F) l := by
  have hall : ∀ e : Engine F, known (play e l).tracked = known e.tracked ∪ everScanned e l := by
    induction l with
    | nil =>
        intro e
        have hnone : everScanned e [] = ∅ := Set.eq_empty_iff_forall_notMem.mpr fun pid hpid => by
          obtain ⟨x, hx, -⟩ := hpid
          cases hx
        rw [hnone, Set.union_empty]
        rfl
    | cons st l ih =>
        intro e
        have hsplit : everScanned e (st :: l) =
            pids (beginCycle e st.answers).snapshot ∪ everScanned (st.outcome e).engine l := by
          ext pid
          simp [everScanned, history]
        rw [hsplit, ← Set.union_assoc, ← outcome_known]
        exact ih (st.outcome e).engine
  have hnone : known ({} : Engine F).tracked = ∅ := Set.eq_empty_iff_forall_notMem.mpr fun pid h => h rfl
  rw [hall, hnone, Set.empty_union]

end

end Memflux.Core
