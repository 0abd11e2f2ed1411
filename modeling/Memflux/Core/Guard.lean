import Memflux.Core.Accounting
import Memflux.Core.Latch

/-! # The crisis guard

Two readings pass the guard although they show a crisis: a MemAvailable of 0, which it
takes for one that was not read, and the second PSI reading, which it never sees. What a
cycle then does depends on the configuration, on what the engine remembers of the
processes and on what the kernel answers about them.
-/

namespace Memflux.Core

open Double EarlyExit

section

variable {F : Type} [Double F]

/-! ## The candidates of a cycle -/

/-- The processes of the scan, each scored from the track it had, or from a new one. -/
def scoredScan (cfg : Config F) (e : Engine F) (k : Answers F) : List (ProcessStat F) :=
  (k.procs.filterMap (scanEntry k)).map
    (scoreFor cfg (damonAfter cfg e k) k fun pid => some ((e.tracked pid).getD {}))

/-- Two tracks from which a process gets the same score. -/
structure ScoresAs (a b : Track) : Prop where
  samples : a.samples = b.samples
  touched : a.wsTouchedKb = b.wsTouchedKb
  cooling : 0 < a.cooldown ↔ 0 < b.cooldown

theorem ScoresAs.trans {a b c : Track} (h : ScoresAs a b) (h' : ScoresAs b c) : ScoresAs a c :=
  ⟨h.samples.trans h'.samples, h.touched.trans h'.touched, h.cooling.trans h'.cooling⟩

theorem sampleOne_scoresAs (cfg : Config F) (damonOn : Bool) (k : Answers F) {a b : Track}
    (h : ScoresAs a b) (ps : ProcessStat F) :
    (sampleOne cfg damonOn k a ps).2.1 = (sampleOne cfg damonOn k b ps).2.1 := by
  unfold sampleOne
  rw [h.samples, h.touched]
  split
  · split
    · rfl
    · dsimp only
      split <;> rfl
  · split <;> rfl

theorem scoreOne_scoresAs (cfg : Config F) (damonOn : Bool) (k : Answers F) {a b : Track}
    (h : ScoresAs a b) (ps : ProcessStat F) :
    (scoreOne cfg damonOn k a ps).2.1 = (scoreOne cfg damonOn k b ps).2.1 := by
  have hsample := sampleOne_scoresAs cfg damonOn k h ps
  have hcool : 0 < (sampleOne cfg damonOn k a ps).1.cooldown ↔
      0 < (sampleOne cfg damonOn k b ps).1.cooldown := by
    rw [(sampleOne_keeps cfg damonOn k a ps).1, (sampleOne_keeps cfg damonOn k b ps).1]
    exact h.cooling
  rw [scoreOne_eq, scoreOne_eq]
  dsimp only
  by_cases hpos : 0 < (sampleOne cfg damonOn k a ps).1.cooldown
  · rw [if_pos hpos, if_pos (hcool.mp hpos), hsample]
  · rw [if_neg hpos, if_neg (mt hcool.mpr hpos), hsample]

theorem sameButFaults_scoresAs {a b : Tracks} (h : SameButFaults a b) (q : Nat) :
    ScoresAs ((a q).getD {}) ((b q).getD {}) := by
  have hq := h q
  obtain ⟨-, htouched, hcool, hsamples, -, -⟩ := Track.mk.inj hq
  exact ⟨hsamples, htouched, by rw [hcool]⟩

/-- The thrash guard lengthens cooldowns, starts none, and forgets no process. -/
theorem guardFaults_scoresAs (tracked : Tracks) (entry : Nat × Nat) (q : Nat) :
    ScoresAs ((guardFaults tracked entry q).getD {}) ((tracked q).getD {}) ∧
      (tracked q ≠ none → guardFaults tracked entry q ≠ none) := by
  unfold guardFaults
  cases htr : tracked entry.1 with
  | none => exact ⟨⟨rfl, rfl, Iff.rfl⟩, id⟩
  | some tr =>
      dsimp only
      split
      · rename_i hraise
        by_cases hq : q = entry.1
        · subst hq
          rw [Function.update_self, htr]
          refine ⟨⟨rfl, rfl, fun _ => hraise.2, fun _ => ?_⟩, fun _ => Option.some_ne_none _⟩
          exact lt_of_lt_of_le hraise.2 (le_max_left _ _)
        · rw [Function.update_of_ne hq]
          exact ⟨⟨rfl, rfl, Iff.rfl⟩, id⟩
      · exact ⟨⟨rfl, rfl, Iff.rfl⟩, id⟩

theorem foldl_guardFaults_scoresAs (l : List (Nat × Nat)) (tracked : Tracks) (q : Nat) :
    ScoresAs ((l.foldl guardFaults tracked q).getD {}) ((tracked q).getD {}) ∧
      (tracked q ≠ none → l.foldl guardFaults tracked q ≠ none) := by
  induction l generalizing tracked with
  | nil => exact ⟨⟨rfl, rfl, Iff.rfl⟩, id⟩
  | cons entry l ih =>
      obtain ⟨hscores, hkeep⟩ := guardFaults_scoresAs tracked entry q
      obtain ⟨hscores', hkeep'⟩ := ih (guardFaults tracked entry)
      exact ⟨hscores'.trans hscores, hkeep' ∘ hkeep⟩

theorem thrashGuard_scoresAs (e : Engine F) (k : Answers F) (q : Nat) :
    ScoresAs (((thrashGuard e k).tracked q).getD {}) ((e.tracked q).getD {}) ∧
      (e.tracked q ≠ none → (thrashGuard e k).tracked q ≠ none) := by
  unfold thrashGuard
  split
  · exact foldl_guardFaults_scoresAs k.faults e.tracked q
  · exact ⟨⟨rfl, rfl, Iff.rfl⟩, id⟩

/-- The engine that scores in a `run_cycle`: its DAMON flag and its tracks. -/
theorem scoringEngine_run (cfg : Config F) (e : Engine F) (k : Answers F) :
    (scoringEngine cfg e k .run).damonOn = damonAfter cfg e k ∧
      ∀ ps ∈ (beginCycle e k).snapshot,
        ∃ tr, (scoringEngine cfg e k .run).tracked ps.pid = some tr ∧
          ScoresAs tr ((e.tracked ps.pid).getD {}) := by
  have hopen := (openCycle_keeps cfg e k).1
  refine ⟨scoringEngine_latch cfg e k .run, fun ps hps => ?_⟩
  obtain ⟨hscores, hkeep⟩ := thrashGuard_scoresAs (openCycle cfg e k).1 k ps.pid
  rw [hopen] at hscores hkeep
  obtain ⟨tr, htr⟩ := Option.ne_none_iff_exists'.mp (hkeep (beginCycle_tracked hps))
  rw [htr, Option.getD_some] at hscores
  exact ⟨tr, htr, hscores.trans (sameButFaults_scoresAs (beginCycle_same e k) ps.pid)⟩

theorem prepare_snapshot {cfg : Config F} {e : Engine F} {k : Answers F}
    (h : acts cfg k .run = true) : (prepare cfg e k .run).1.snapshot = scoredScan cfg e k := by
  obtain ⟨hdamon, htracked⟩ := scoringEngine_run cfg e k
  have hsnap := scoringEngine_snapshot cfg e k .run
  obtain ⟨-, hsnapshot, -⟩ := computeScores_eq cfg (scoringEngine cfg e k .run) k
  have hnodup : ((scoringEngine cfg e k .run).snapshot.map (·.pid)).Nodup :=
    hsnap ▸ beginCycle_nodup e k
  rw [prepare_of_scores cfg e (scores_of_acts h), hsnapshot,
    (scoreList_spec cfg _ k _ hnodup).1, hsnap, hdamon, scoredScan, beginCycle_snapshot]
  refine List.map_congr_left fun ps hps => ?_
  rw [← beginCycle_snapshot e k] at hps
  obtain ⟨tr, htr, hsame⟩ := htracked ps hps
  rw [scoreFor_of_track htr, scoreFor]
  exact scoreOne_scoresAs cfg _ k hsame ps

/-! ## What is left to do -/

/-- `heap_trim` is off, or no candidate that gets its turn can be opened, has anonymous
memory and has a mapping worth trimming. -/
def NothingToAdvise (cfg : Config F) (k : Answers F) (cands : List (ProcessStat F)) : Prop :=
  cfg.enableHeapTrim = false ∨ cfg.dryRun = true ∨
    ∀ l, Tried cfg k cands l → ∀ ps ∈ l, (k.attempt ps.pid).opened = false ∨
      (k.attempt ps.pid).before = 0 ∨ ∀ v ∈ (k.attempt ps.pid).vmas, trimmed v = false

/-- The gate to the root group is shut, its file does not open, or the candidates that
get their turn leave at most 64 MiB of the budget. -/
def NothingToRequest (cfg : Config F) (k : Answers F) (cands : List (ProcessStat F)) : Prop :=
  cgroupGate cfg k = false ∨ k.reclaimOpens = false ∨
    ∀ l, Tried cfg k cands l → cgroupWant cfg (u64 (amounts cfg k l)) ≤ 64 * 1024

theorem nothingToAdvise_iff (cfg : Config F) (e : Engine F) (k : Answers F) :
    NothingToAdvise cfg k (candidates cfg k e.snapshot) ↔
      ¬ ∃ ps ∈ targets cfg e k, Advised cfg k ps := by
  constructor
  · rintro h ⟨ps, hps, hopen, hbefore, hon, hdry, v, hv, htrim⟩
    rcases h with h | h | h
    · rw [h] at hon
      cases hon
    · rw [h] at hdry
      cases hdry
    · rcases h _ (targets_tried cfg e k) ps hps with h | h | h
      · rw [h] at hopen
        cases hopen
      · exact hbefore h
      · rw [h v hv] at htrim
        cases htrim
  · intro h
    by_contra hnot
    obtain ⟨hon, hnot⟩ := not_or.mp hnot
    obtain ⟨hdry, hnot⟩ := not_or.mp hnot
    refine hnot fun l hl ps hps => ?_
    obtain rfl := tried_eq hl
    by_contra hbad
    obtain ⟨hopen, hbad⟩ := not_or.mp hbad
    obtain ⟨hbefore, hbad⟩ := not_or.mp hbad
    simp only [not_forall, Bool.not_eq_false] at hopen hbad hon
    simp only [Bool.not_eq_true] at hdry
    obtain ⟨v, hv, htrim⟩ := hbad
    exact h ⟨ps, hps, hopen, hbefore, hon, hdry, v, hv, htrim⟩

theorem nothingToRequest_iff (cfg : Config F) (e : Engine F) (k : Answers F) :
    NothingToRequest cfg k (candidates cfg k e.snapshot) ↔ ¬ Requests cfg e k := by
  constructor
  · rintro h ⟨hgate, hwant, hopens⟩
    rcases h with h | h | h
    · rw [h] at hgate
      cases hgate
    · rw [h] at hopens
      cases hopens
    · exact absurd hwant (Nat.not_lt.mpr (h _ (targets_tried cfg e k)))
  · intro h
    by_contra hnot
    obtain ⟨hgate, hnot⟩ := not_or.mp hnot
    obtain ⟨hopens, hnot⟩ := not_or.mp hnot
    refine hnot fun l hl => ?_
    obtain rfl := tried_eq hl
    by_contra hwant
    exact h ⟨by simpa using hgate, Nat.lt_of_not_le hwant, by simpa using hopens⟩

/-! ## The guard -/

/-- A cycle keeps to the guard exactly when, if it goes on to act, a MemAvailable of 0 is
followed by no advice and no request, and a later crisis by no request. -/
theorem guarded_runCycle_iff (cfg : Config F) (e : Engine F) (k : Answers F) :
    Guarded (runCycle cfg e k).events ↔
      (acts cfg k .run = true →
        (k.mem.totalKb ≠ 0 ∧ k.mem.availableKb = 0 →
          ¬ (∃ ps ∈ targets cfg (prepare cfg e k .run).1 k, Advised cfg k ps) ∧
            ¬ Requests cfg (prepare cfg e k .run).1 k) ∧
        ((.psi k.psiLater : Event F).ShowsCrisis →
          ¬ Requests cfg (prepare cfg e k .run).1 k)) := by
  have hidle := prepare_idle cfg e k .run
  cases hacts : acts cfg k .run with
  | false =>
      have hev : (runCycle cfg e k).events = (prepare cfg e k .run).2 :=
        congrArg Outcome.events (cycle_of_not_acts (c := .run) hacts)
      rw [hev]
      exact ⟨fun _ h => absurd h (by decide), fun _ => guarded_of_idle hidle⟩
  | true =>
      obtain ⟨hmeminfo, hreadings⟩ := prepare_readings (e := e) hacts
      have hev : (runCycle cfg e k).events = (prepare cfg e k .run).2 ++
          (runActions cfg (prepare cfg e k .run).1 k).events :=
        congrArg Outcome.events (cycle_of_acts (c := .run) hacts)
      rw [hev]
      generalize (prepare cfg e k .run).1 = e' at *
      generalize (prepare cfg e k .run).2 = pre at *
      constructor
      · intro h _
        obtain ⟨-, hrest, hcross⟩ := List.pairwise_append.mp h
        refine ⟨fun hzero => ?_, guarded_runActions_iff.mp hrest⟩
        have hshow : (.meminfo k.mem : Event F).ShowsCrisis := ⟨hzero.1, Or.inl hzero.2⟩
        rw [← not_or, ← actsIn_iff]
        rintro ⟨a, ha, hact⟩
        exact hcross _ hmeminfo a ha hshow hact
      · intro h
        obtain ⟨hzero, hlater⟩ := h rfl
        refine List.pairwise_append.mpr
          ⟨guarded_of_idle hidle, guarded_runActions_iff.mpr hlater, fun r hr a ha hs hact => ?_⟩
        have hnone := hzero (hreadings r hr hs)
        rw [← not_or, ← actsIn_iff] at hnone
        exact hnone ⟨a, ha, hact⟩

/-- The guard holds exactly when, if a cycle goes on to act, a MemAvailable of 0 finds
nothing to advise and nothing to request, and a second PSI reading that shows a crisis
finds nothing to request. -/
theorem crisis_guard_iff (cfg : Config F) (e : Engine F) (k : Answers F) :
    Guarded (runCycle cfg e k).events ↔
      (acts cfg k .run = true →
        (k.mem.totalKb ≠ 0 ∧ k.mem.availableKb = 0 →
          NothingToAdvise cfg k (candidates cfg k (scoredScan cfg e k)) ∧
            NothingToRequest cfg k (candidates cfg k (scoredScan cfg e k))) ∧
        ((.psi k.psiLater : Event F).ShowsCrisis →
          NothingToRequest cfg k (candidates cfg k (scoredScan cfg e k)))) := by
  rw [guarded_runCycle_iff]
  refine forall_congr' fun hacts => ?_
  rw [← prepare_snapshot hacts, nothingToAdvise_iff, nothingToRequest_iff]

end

/-- MemAvailable reads 0 of a million KiB, and the cycle goes on to ask the root group
for 512 KiB. -/
theorem guard_passes_zero :
    ¬ ∀ (cfg : Config ℚ) (e : Engine ℚ) (k : Answers ℚ), Guarded (runCycle cfg e k).events := by
  intro hall
  let k : Answers ℚ := { Answers.still with
    psi := { someAvg10 := 1 / 2, ok := true }
    mem := { totalKb := 1000000, availableKb := 0 }
    psiLater := { someAvg10 := 1 / 2, ok := true }
    cgroupAvailable := true
    reclaimOpens := true }
  have hacts : acts {} k .run = true := by decide +kernel
  have hreq : Requests {} (prepare {} {} k .run).1 k := by
    show _ ∧ _ ∧ _
    decide +kernel
  have hguard := hall {} {} k
  rw [runCycle_events hacts] at hguard
  exact (List.pairwise_append.mp hguard).2.2 _ (prepare_readings hacts).1 _
    ((memoryReclaim_iff _ _ _ _).mpr ⟨hreq, rfl⟩) ⟨by decide, Or.inl rfl⟩ trivial

end Memflux.Core
