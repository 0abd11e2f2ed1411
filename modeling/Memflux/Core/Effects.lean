import Memflux.Core.Actions
import Memflux.Core.Scores

/-! # What a cycle does

A cycle prepares (scan, DAMON, readings, scores) and then acts or returns. The
preparation writes to `clear_refs` and may switch DAMON on; only `run_actions` gives
advice and asks the root group for memory. The crisis guard and the dry run are
statements about the events of a cycle.
-/

namespace Memflux.Core

open Double EarlyExit

section

variable {F : Type} [Double F]

/-! ## The two parts of a cycle -/

/-- The engine and the events when `run_actions` starts, or when the cycle returns. -/
def prepare (cfg : Config F) (e : Engine F) (k : Answers F) : Call → Engine F × List (Event F)
  | .run =>
      let (e, ev) := openCycle cfg e k
      if crisis k.psi k.mem then (e, ev)
      else
        let (e, ev') := computeScores cfg (thrashGuard e k) k
        (e, ev ++ ev')
  | .force =>
      let (e, ev) := damonInit cfg {} (beginCycle e k) k
      let (e, ev') := computeScores cfg e k
      (e, ev ++ ev' ++ [.meminfo k.mem])

/-- The cycle goes on to `run_actions`. -/
def acts (cfg : Config F) (k : Answers F) : Call → Bool
  | .run => !crisis k.psi k.mem && (pressure cfg k.psi k.mem || cfg.dryRun)
  | .force => true

theorem cycle_of_acts {cfg : Config F} {e : Engine F} {k : Answers F} {c : Call}
    (h : acts cfg k c = true) :
    cycle cfg e k c =
      { runActions cfg (prepare cfg e k c).1 k with
        events := (prepare cfg e k c).2 ++ (runActions cfg (prepare cfg e k c).1 k).events } := by
  cases c with
  | run =>
      obtain ⟨hcrisis, hgo⟩ := Bool.and_eq_true_iff.mp h
      have hcrisis : crisis k.psi k.mem = false := by simpa using hcrisis
      have hgo : ¬ (pressure cfg k.psi k.mem = false ∧ cfg.dryRun = false) := by
        rintro ⟨h₁, h₂⟩
        simp [h₁, h₂] at hgo
      simp [cycle, runCycle, prepare, hcrisis, hgo]
  | force => simp [cycle, forceCycle, prepare]

theorem runCycle_events {cfg : Config F} {e : Engine F} {k : Answers F}
    (h : acts cfg k .run = true) :
    (runCycle cfg e k).events =
      (prepare cfg e k .run).2 ++ (runActions cfg (prepare cfg e k .run).1 k).events :=
  congrArg Outcome.events (cycle_of_acts (c := .run) h)

theorem cycle_of_not_acts {cfg : Config F} {e : Engine F} {k : Answers F} {c : Call}
    (h : acts cfg k c = false) :
    cycle cfg e k c =
      { engine := (prepare cfg e k c).1, events := (prepare cfg e k c).2, ret := 0 } := by
  cases c with
  | run =>
      by_cases hcrisis : crisis k.psi k.mem = true
      · simp [cycle, runCycle, prepare, hcrisis]
      · have hstay : pressure cfg k.psi k.mem = false ∧ cfg.dryRun = false := by
          simpa [acts, hcrisis] using h
        simp [cycle, runCycle, prepare, hcrisis, hstay]
  | force => cases h

def scores (k : Answers F) : Call → Bool
  | .run => !crisis k.psi k.mem
  | .force => true

def scoringEngine (cfg : Config F) (e : Engine F) (k : Answers F) : Call → Engine F
  | .run => thrashGuard (openCycle cfg e k).1 k
  | .force => (damonInit cfg {} (beginCycle e k) k).1

theorem scores_of_acts {cfg : Config F} {k : Answers F} {c : Call} (h : acts cfg k c = true) :
    scores k c = true := by
  cases c with
  | run => exact (Bool.and_eq_true_iff.mp h).1
  | force => rfl

theorem prepare_of_scores (cfg : Config F) (e : Engine F) {k : Answers F} {c : Call}
    (h : scores k c = true) :
    (prepare cfg e k c).1 = (computeScores cfg (scoringEngine cfg e k c) k).1 := by
  cases c with
  | run =>
      have hcalm : crisis k.psi k.mem = false := by simpa [scores] using h
      unfold prepare
      dsimp only
      rw [if_neg (by simp [hcalm])]
      rfl
  | force => rfl

theorem prepare_of_not_scores (cfg : Config F) (e : Engine F) {k : Answers F} {c : Call}
    (h : scores k c = false) : (prepare cfg e k c).1 = (openCycle cfg e k).1 := by
  cases c with
  | run =>
      have hcrisis : crisis k.psi k.mem = true := by simpa [scores] using h
      unfold prepare
      dsimp only
      rw [if_pos hcrisis]
  | force => cases h

theorem damonInit_keeps (cfg : Config F) (dc : DamonConfig) (e : Engine F) (k : Answers F) :
    (damonInit cfg dc e k).1.tracked = e.tracked ∧
      (damonInit cfg dc e k).1.snapshot = e.snapshot ∧
      (damonInit cfg dc e k).1.ebpfOn = e.ebpfOn := by
  unfold damonInit
  split <;> exact ⟨rfl, rfl, rfl⟩

theorem ebpfInit_keeps (e : Engine F) (k : Answers F) :
    (ebpfInit e k).tracked = e.tracked ∧ (ebpfInit e k).snapshot = e.snapshot ∧
      (ebpfInit e k).damonOn = e.damonOn := by
  unfold ebpfInit
  split <;> exact ⟨rfl, rfl, rfl⟩

theorem thrashGuard_keeps (e : Engine F) (k : Answers F) :
    (thrashGuard e k).snapshot = e.snapshot ∧ (thrashGuard e k).damonOn = e.damonOn := by
  unfold thrashGuard
  split <;> exact ⟨rfl, rfl⟩

theorem openCycle_keeps (cfg : Config F) (e : Engine F) (k : Answers F) :
    (openCycle cfg e k).1.tracked = (beginCycle e k).tracked ∧
      (openCycle cfg e k).1.snapshot = (beginCycle e k).snapshot := by
  obtain ⟨htracked, hsnapshot, -⟩ := damonInit_keeps cfg (cycleDamonConfig cfg) (beginCycle e k) k
  obtain ⟨htracked', hsnapshot', -⟩ :=
    ebpfInit_keeps (damonInit cfg (cycleDamonConfig cfg) (beginCycle e k) k).1 k
  exact ⟨htracked'.trans htracked, hsnapshot'.trans hsnapshot⟩

theorem scoringEngine_snapshot (cfg : Config F) (e : Engine F) (k : Answers F) (c : Call) :
    (scoringEngine cfg e k c).snapshot = (beginCycle e k).snapshot := by
  cases c with
  | run => exact (thrashGuard_keeps _ k).1.trans (openCycle_keeps cfg e k).2
  | force => exact (damonInit_keeps cfg {} (beginCycle e k) k).2.1

/-! ## Events of the preparation -/

theorem sampleOne_events {cfg : Config F} {damonOn : Bool} {k : Answers F} {tr : Track}
    {ps : ProcessStat F} {ev : Event F} (h : ev ∈ (sampleOne cfg damonOn k tr ps).2.2) :
    ev = .clearRefs ps.pid := by
  unfold sampleOne at h
  split at h
  · split at h
    · exact List.mem_singleton.mp h
    · dsimp only at h
      split at h <;> cases h
  · split at h <;> cases h

theorem scoreList_events {cfg : Config F} {damonOn : Bool} {k : Answers F}
    {l : List (ProcessStat F)} {tracked : Tracks} {ev : Event F}
    (h : ev ∈ (scoreList cfg damonOn k tracked l).2.2) : ∃ pid, ev = .clearRefs pid := by
  induction l generalizing tracked with
  | nil => cases h
  | cons ps l ih =>
      unfold scoreList at h
      split at h
      · exact ih h
      · rcases List.mem_append.mp h with h | h
        · rw [scoreOne_events] at h
          exact ⟨_, sampleOne_events h⟩
        · exact ih h

theorem computeScores_events {cfg : Config F} {e : Engine F} {k : Answers F} {ev : Event F}
    (h : ev ∈ (computeScores cfg e k).2) : ∃ pid, ev = .clearRefs pid :=
  scoreList_events h

/-- DAMON is asked for, there, and not on yet. -/
def DamonStarts (cfg : Config F) (e : Engine F) (k : Answers F) : Prop :=
  e.damonOn = false ∧ cfg.enableDamon = true ∧ k.damonAvailable = true ∧ k.damonEnabled = false

theorem beginCycle_damonOn (e : Engine F) (k : Answers F) :
    (beginCycle e k).damonOn = e.damonOn := rfl

theorem damonInit_events (cfg : Config F) (dc : DamonConfig) (e : Engine F) (k : Answers F) :
    (DamonStarts cfg e k ∧
        (damonInit cfg dc e k).2 = [.damonConfigure dc, .damonSwitch k.damonSwitched]) ∨
      (¬ DamonStarts cfg e k ∧ (damonInit cfg dc e k).2 = []) := by
  unfold damonInit
  by_cases h : DamonStarts cfg e k
  · exact Or.inl ⟨h, congrArg Prod.snd (if_pos h)⟩
  · exact Or.inr ⟨h, congrArg Prod.snd (if_neg h)⟩

/-- The configuration that the two kinds of cycles give to DAMON. -/
def damonConfigOf (cfg : Config F) : Call → DamonConfig
  | .run => cycleDamonConfig cfg
  | .force => {}

/-- Readings and writes to `clear_refs`. -/
def Event.Passive : Event F → Prop
  | .psi _ => True
  | .meminfo _ => True
  | .clearRefs _ => True
  | _ => False

theorem prepare_events (cfg : Config F) (e : Engine F) (k : Answers F) (c : Call) :
    ∃ rest, (prepare cfg e k c).2 =
        (damonInit cfg (damonConfigOf cfg c) (beginCycle e k) k).2 ++ rest ∧
      ∀ ev ∈ rest, ev.Passive := by
  cases c with
  | run =>
      unfold prepare openCycle
      dsimp only [damonConfigOf]
      split
      · refine ⟨[.psi k.psi, .meminfo k.mem], rfl, fun ev hev => ?_⟩
        simp only [List.mem_cons, List.not_mem_nil, or_false] at hev
        rcases hev with rfl | rfl <;> exact trivial
      · refine ⟨[.psi k.psi, .meminfo k.mem] ++ _, List.append_assoc _ _ _, fun ev hev => ?_⟩
        rcases List.mem_append.mp hev with hev | hev
        · simp only [List.mem_cons, List.not_mem_nil, or_false] at hev
          rcases hev with rfl | rfl <;> exact trivial
        · obtain ⟨pid, rfl⟩ := computeScores_events hev
          exact trivial
  | force =>
      unfold prepare
      dsimp only [damonConfigOf]
      refine ⟨_ ++ [.meminfo k.mem], List.append_assoc _ _ _, fun ev hev => ?_⟩
      rcases List.mem_append.mp hev with hev | hev
      · obtain ⟨pid, rfl⟩ := computeScores_events hev
        exact trivial
      · obtain rfl := List.mem_singleton.mp hev
        exact trivial

/-! ## Events of `run_actions` -/

/-- A target is given advice on one of its mappings. -/
def Advised (cfg : Config F) (k : Answers F) (ps : ProcessStat F) : Prop :=
  (k.attempt ps.pid).opened = true ∧ (k.attempt ps.pid).before ≠ 0 ∧ cfg.enableHeapTrim = true ∧
    cfg.dryRun = false ∧ ∃ v ∈ (k.attempt ps.pid).vmas, trimmed v = true

theorem heapTrim_advises {cfg : Config F} {pid : Nat} {a : Attempt} {mode : ReclaimMode}
    (hon : cfg.enableHeapTrim = true) (hdry : cfg.dryRun = false) :
    (heapTrim (F := F) cfg pid a mode).2 =
      (a.vmas.filter trimmed).map fun v => .madvise pid v.1.start v.1.len mode := by
  have hfold : ∀ (l : List (VmaRange × Int)) (st : Nat × List (Event F)),
      (l.foldl (trimVma pid mode) st).2 =
        st.2 ++ (l.filter trimmed).map fun v => .madvise pid v.1.start v.1.len mode := by
    intro l
    induction l with
    | nil => simp
    | cons v l ih =>
        intro st
        rw [List.foldl_cons, ih, trimVma_eq, List.filter_cons]
        split <;> simp
  unfold heapTrim
  rw [if_neg (by simp [hon, hdry]), hfold]
  rfl

theorem madvise_iff (cfg : Config F) (k : Answers F) (ps : ProcessStat F) :
    (∃ pid start len mode, .madvise pid start len mode ∈ targetEvents cfg k ps) ↔
      Advised cfg k ps := by
  unfold targetEvents
  constructor
  · rintro ⟨pid, start, len, mode, h⟩
    split at h
    · rename_i hopen
      have h := (List.mem_cons.mp h).resolve_left (by simp)
      unfold actOn at h
      split at h
      · cases h
      · rename_i hbefore
        have h : .madvise pid start len mode ∈
            (heapTrim cfg ps.pid (k.attempt ps.pid) (modeFor cfg ps)).2 := h
        have hdry := (heapTrim_events h).2
        have hon : cfg.enableHeapTrim = true := by
          by_contra hoff
          unfold heapTrim at h
          rw [if_pos (Or.inl (by simpa using hoff))] at h
          cases h
        rw [heapTrim_advises hon hdry] at h
        obtain ⟨v, hv, -⟩ := List.mem_map.mp h
        exact ⟨hopen, hbefore, hon, hdry, v, (List.mem_filter.mp hv).1, (List.mem_filter.mp hv).2⟩
    · simp at h
  · rintro ⟨hopen, hbefore, hon, hdry, v, hv, htrim⟩
    refine ⟨ps.pid, v.1.start, v.1.len, modeFor cfg ps, ?_⟩
    rw [if_pos hopen, actOn, if_neg hbefore]
    refine List.mem_cons_of_mem _ ?_
    show _ ∈ (heapTrim cfg ps.pid (k.attempt ps.pid) (modeFor cfg ps)).2
    rw [heapTrim_advises hon hdry]
    exact List.mem_map.mpr ⟨v, List.mem_filter.mpr ⟨hv, htrim⟩, rfl⟩

/-! ## The crisis guard -/

/-- PSI is valid and its full average reaches 25 %, or MemAvailable is below 5 % of a
positive MemTotal, down to 0. -/
def Event.ShowsCrisis : Event F → Prop
  | .psi s => s.ok = true ∧ le (dec 25 2) s.fullAvg10 = true
  | .meminfo m => m.totalKb ≠ 0 ∧ (m.availableKb = 0 ∨ lt (m.availRatio : F) (dec 5 2) = true)
  | _ => False

/-- A call of `process_madvise` or a write to `memory.reclaim`. -/
def Event.Acts : Event F → Prop
  | .madvise _ _ _ _ => True
  | .memoryReclaim _ => True
  | _ => False

/-- Nothing is done after a reading that shows a crisis. -/
def Guarded (evs : List (Event F)) : Prop := evs.Pairwise fun r a => r.ShowsCrisis → ¬ a.Acts

theorem guarded_of_idle {evs : List (Event F)} (h : ∀ a ∈ evs, ¬ a.Acts) : Guarded evs :=
  List.pairwise_of_forall_mem_list fun _ _ a ha _ => h a ha

theorem guarded_of_calm {evs : List (Event F)} (h : ∀ r ∈ evs, ¬ r.ShowsCrisis) : Guarded evs :=
  List.pairwise_of_forall_mem_list fun r hr _ _ hs => absurd hs (h r hr)

theorem Event.Passive.not_acts {ev : Event F} (h : ev.Passive) : ¬ ev.Acts := by
  cases ev <;> first | exact id | exact h.elim

theorem prepare_idle (cfg : Config F) (e : Engine F) (k : Answers F) (c : Call) :
    ∀ a ∈ (prepare cfg e k c).2, ¬ a.Acts := by
  intro a ha
  obtain ⟨rest, hev, hrest⟩ := prepare_events cfg e k c
  rw [hev, List.mem_append] at ha
  rcases ha with ha | ha
  · rcases damonInit_events cfg (damonConfigOf cfg c) (beginCycle e k) k with ⟨-, h⟩ | ⟨-, h⟩
    · rw [h] at ha
      simp only [List.mem_cons, List.not_mem_nil, or_false] at ha
      rcases ha with rfl | rfl <;> exact id
    · rw [h] at ha
      cases ha
  · exact (hrest a ha).not_acts

/-- What the guard lets pass shows no crisis, except a MemAvailable of 0. -/
theorem crisis_false {psi : PsiSnapshot F} {m : MemInfo} (h : crisis psi m = false) :
    ¬ (Event.psi psi).ShowsCrisis ∧
      ((Event.meminfo m : Event F).ShowsCrisis → m.totalKb ≠ 0 ∧ m.availableKb = 0) := by
  obtain ⟨hpsi, hmem⟩ := Bool.or_eq_false_iff.mp h
  refine ⟨fun ⟨hok, hle⟩ => by simp [hok, hle] at hpsi, fun ⟨htotal, hlow⟩ => ⟨htotal, ?_⟩⟩
  by_contra havail
  have hlow := hlow.resolve_left havail
  simp [MemInfo.read, htotal, havail, hlow] at hmem

/-- The readings of a cycle that goes on to act, among its first events. -/
theorem prepare_readings {cfg : Config F} {e : Engine F} {k : Answers F}
    (h : acts cfg k .run = true) :
    ((.meminfo k.mem : Event F) ∈ (prepare cfg e k .run).2) ∧
      ∀ r ∈ (prepare cfg e k .run).2, r.ShowsCrisis →
        k.mem.totalKb ≠ 0 ∧ k.mem.availableKb = 0 := by
  have hcrisis : crisis k.psi k.mem = false := by
    have hleft := (Bool.and_eq_true_iff.mp h).1
    simpa using hleft
  obtain ⟨hpsi, hmem⟩ := crisis_false hcrisis
  have hev : (prepare cfg e k .run).2 =
      (damonInit cfg (cycleDamonConfig cfg) (beginCycle e k) k).2 ++
        (.psi k.psi :: .meminfo k.mem ::
          (computeScores cfg (thrashGuard (openCycle cfg e k).1 k) k).2) := by
    simp [prepare, openCycle, hcrisis]
  rw [hev]
  refine ⟨by simp, fun r hr hs => ?_⟩
  rcases List.mem_append.mp hr with hr | hr
  · rcases damonInit_events cfg (cycleDamonConfig cfg) (beginCycle e k) k with ⟨-, h⟩ | ⟨-, h⟩
    · rw [h] at hr
      simp only [List.mem_cons, List.not_mem_nil, or_false] at hr
      rcases hr with rfl | rfl <;> exact hs.elim
    · rw [h] at hr
      cases hr
  · rcases List.mem_cons.mp hr with rfl | hr
    · exact absurd hs hpsi
    · rcases List.mem_cons.mp hr with rfl | hr
      · exact hmem hs
      · obtain ⟨pid, rfl⟩ := computeScores_events hr
        exact hs.elim

/-- What `run_actions` does: advice to targets and a request to the root group. -/
theorem runActions_acts {cfg : Config F} {e : Engine F} {k : Answers F} {a : Event F}
    (ha : a ∈ (runActions cfg e k).events) (hact : a.Acts) :
    (∃ ps ∈ targets cfg e k, Advised cfg k ps) ∨ Requests cfg e k := by
  cases a with
  | madvise pid start len mode =>
      rw [runActions_events, List.mem_append, List.mem_cons] at ha
      rcases ha with ha | ha | ha
      · obtain ⟨ps, hps, ha⟩ := List.mem_flatMap.mp ha
        exact Or.inl ⟨ps, hps, (madvise_iff cfg k ps).mp ⟨_, _, _, _, ha⟩⟩
      · cases ha
      · exact Or.inr (cgroupReclaim_mem ha).1
  | memoryReclaim bytes => exact Or.inr ((memoryReclaim_iff cfg e k bytes).mp ha).1
  | _ => exact hact.elim

theorem actsIn_iff {cfg : Config F} {e : Engine F} {k : Answers F} :
    (∃ a ∈ (runActions cfg e k).events, a.Acts) ↔
      (∃ ps ∈ targets cfg e k, Advised cfg k ps) ∨ Requests cfg e k := by
  constructor
  · rintro ⟨a, ha, hact⟩
    exact runActions_acts ha hact
  · rintro (⟨ps, hps, hadv⟩ | hreq)
    · obtain ⟨pid, start, len, mode, hmem⟩ := (madvise_iff cfg k ps).mpr hadv
      refine ⟨.madvise pid start len mode, ?_, trivial⟩
      rw [runActions_events]
      exact List.mem_append_left _ (List.mem_flatMap.mpr ⟨ps, hps, hmem⟩)
    · exact ⟨_, (memoryReclaim_iff cfg e k _).mpr ⟨hreq, rfl⟩, trivial⟩

/-- Within the actions the only reading is that of PSI, and only the request comes after it. -/
theorem guarded_runActions_iff {cfg : Config F} {e : Engine F} {k : Answers F} :
    Guarded (runActions cfg e k).events ↔
      ((.psi k.psiLater : Event F).ShowsCrisis → ¬ Requests cfg e k) := by
  rw [runActions_events]
  constructor
  · intro h hlater hreq
    have hlast := (List.pairwise_append.mp h).2.1
    have hmem : .memoryReclaim (cgroupWant cfg (u64 (amounts cfg k (targets cfg e k)))) ∈
        (cgroupReclaim cfg k (u64 (amounts cfg k (targets cfg e k)))).2 := by
      rw [cgroupReclaim_of_requests hreq]
      exact List.mem_singleton_self _
    exact (List.pairwise_cons.mp hlast).1 _ hmem hlater trivial
  · intro hlater
    have hcalm : ∀ r ∈ (targets cfg e k).flatMap (targetEvents cfg k), ¬ r.ShowsCrisis := by
      intro r hr
      obtain ⟨ps, -, hr⟩ := List.mem_flatMap.mp hr
      rcases targetEvents_cases hr with ⟨ok, rfl⟩ | ⟨start, len, rfl, -⟩ <;> exact id
    refine List.pairwise_append.mpr ⟨guarded_of_calm hcalm, List.pairwise_cons.mpr
      ⟨fun a ha hs _ => hlater hs (cgroupReclaim_mem ha).1, guarded_of_calm fun r hr => ?_⟩,
      fun r hr _ _ hs => absurd hs (hcalm r hr)⟩
    obtain ⟨-, rfl⟩ := cgroupReclaim_mem hr
    exact id

end

end Memflux.Core
