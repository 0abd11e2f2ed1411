import Memflux.Core.Effects
import Memflux.Core.WorkingSet

/-! # The working-set window

A run of cycles beside a process that writes to its pages. A write sets the page's
soft-dirty bit, the sampler counts the bits, and the engine clears them when it samples
the process for the first time, and never again: the window starts there and only grows.
A cycle that scores the process without reading its bits, because it is small or sampled
for the first time, gives it the ratio 1.
-/

namespace Memflux.Core

open Double

section

variable {F : Type} [Double F]

/-! ## One process and the engine -/

/-- What the sampler meets in one cycle: the mappings, and a pagemap file that shows the
soft-dirty bits beside anything else. -/
structure View where
  maps : List VmaRange
  file : (Nat → Bool) → PagemapFile
  entry : (Nat → Bool) → Nat → Nat
  serves : ∀ dirty, (file dirty).Serves (entry dirty)
  bit : ∀ dirty page, softDirty (entry dirty page) = dirty page
  room : (anonPages maps).length ≤ 2 ^ 52

/-- The result of `sample_working_set`. -/
def View.sample (v : View) (dirty : Nat → Bool) : WsSample :=
  (sampleWorkingSet (v.file dirty) (anonPages v.maps).length v.maps).getD {}

theorem View.sample_eq (v : View) (dirty : Nat → Bool) :
    v.sample dirty =
      { anonTotalKb := (anonPages v.maps).length * 4
        touchedKb := (anonPages v.maps).countP dirty * 4
        regions := v.maps.length
        ok := true } := by
  have hcount : (fun page => softDirty (v.entry dirty page)) = dirty := funext (v.bit dirty)
  rw [View.sample, sampleWorkingSet_spec (v.serves dirty) (le_refl _), Option.getD_some, hcount]

/-- The engine, and the soft-dirty bits of one process. -/
structure Watched (F : Type) [Double F] where
  engine : Engine F := {}
  dirty : Nat → Bool

/-- The process writes to a page, or the daemon makes a cycle. -/
inductive Move (F : Type) [Double F] where
  | write (page : Nat)
  | cycle (st : Step F) (view : View)

/-- A cycle that gets a given sample of the process. -/
def Step.seeing (st : Step F) (pid : Nat) (s : WsSample) : Step F :=
  { st with answers := { st.answers with sample := Function.update st.answers.sample pid s } }

def Event.clears (pid : Nat) : Event F → Bool
  | .clearRefs q => decide (q = pid)
  | _ => false

def Watched.move (pid : Nat) (s : Watched F) : Move F → Watched F
  | .write page => { s with dirty := Function.update s.dirty page true }
  | .cycle st view =>
      let out := (st.seeing pid (view.sample s.dirty)).outcome s.engine
      { engine := out.engine
        dirty := if out.events.any (Event.clears pid) then fun _ => false else s.dirty }

def timeline (pid : Nat) (s : Watched F) : List (Move F) → List (Watched F × Move F)
  | [] => []
  | m :: t => (s, m) :: timeline pid (s.move pid m) t

/-- The soft-dirty backend goes through the process in this cycle. -/
def sampled (e : Engine F) (st : Step F) (pid : Nat) : Bool :=
  scores st.answers st.call && !(damonInit st.cfg {} e st.answers).1.damonOn &&
    (beginCycle e st.answers).snapshot.any fun ps =>
      decide (ps.pid = pid ∧ st.cfg.minAnonKb / 2 < ps.anonKb)

/-- The soft-dirty backend scores the process in this cycle, sampled or not. -/
def backendScores (e : Engine F) (st : Step F) (pid : Nat) : Bool :=
  scores st.answers st.call && !(damonInit st.cfg {} e st.answers).1.damonOn &&
    (beginCycle e st.answers).snapshot.any fun ps => decide (ps.pid = pid)

def Move.scored (pid : Nat) (s : Watched F) : Move F → Bool
  | .write _ => false
  | .cycle st _ => backendScores s.engine st pid

def Move.samples (pid : Nat) (s : Watched F) : Move F → Bool
  | .write _ => false
  | .cycle st _ => sampled s.engine st pid

theorem scored_of_samples {pid : Nat} {s : Watched F} {m : Move F} (h : m.samples pid s = true) :
    m.scored pid s = true := by
  cases m with
  | write page => cases h
  | cycle st view =>
      obtain ⟨hgo, hany⟩ := Bool.and_eq_true_iff.mp h
      obtain ⟨ps, hps, hboth⟩ := List.any_eq_true.mp hany
      refine Bool.and_eq_true_iff.mpr ⟨hgo, List.any_eq_true.mpr ⟨ps, hps, ?_⟩⟩
      exact decide_eq_true (of_decide_eq_true hboth).1

def Move.writes (page : Nat) : Move F → Bool
  | .write p => decide (p = page)
  | .cycle _ _ => false

def written (t : List (Watched F × Move F)) (page : Nat) : Bool := t.any fun x => x.2.writes page

/-! ## The samples of a process -/

def samplings (tracked : Tracks) (pid : Nat) : Int := ((tracked pid).getD {}).samples

theorem beginCycle_samplings (e : Engine F) (k : Answers F) (q : Nat) :
    samplings (beginCycle e k).tracked q = samplings e.tracked q := by
  have hsame := congrArg Track.samples (beginCycle_same e k q)
  exact hsame

theorem guardFaults_samplings (tracked : Tracks) (entry : Nat × Nat) (q : Nat) :
    samplings (guardFaults tracked entry) q = samplings tracked q ∧
      (tracked q ≠ none → guardFaults tracked entry q ≠ none) := by
  unfold guardFaults
  cases htr : tracked entry.1 with
  | none => exact ⟨rfl, id⟩
  | some tr =>
      dsimp only
      split
      · by_cases hq : q = entry.1
        · subst hq
          refine ⟨?_, fun _ => by simp⟩
          unfold samplings
          rw [Function.update_self, htr]
          rfl
        · unfold samplings
          rw [Function.update_of_ne hq]
          exact ⟨rfl, id⟩
      · exact ⟨rfl, id⟩

theorem foldl_guardFaults_samplings (l : List (Nat × Nat)) (tracked : Tracks) (q : Nat) :
    samplings (l.foldl guardFaults tracked) q = samplings tracked q ∧
      (tracked q ≠ none → l.foldl guardFaults tracked q ≠ none) := by
  induction l generalizing tracked with
  | nil => exact ⟨rfl, id⟩
  | cons entry l ih =>
      obtain ⟨hsame, hkeep⟩ := guardFaults_samplings tracked entry q
      obtain ⟨hsame', hkeep'⟩ := ih (guardFaults tracked entry)
      exact ⟨hsame'.trans hsame, hkeep' ∘ hkeep⟩

/-- The engine that a cycle scores: the processes of its scan are tracked, and were
sampled as often as before. -/
theorem scoringEngine_samplings (cfg : Config F) (e : Engine F) (k : Answers F) (c : Call) :
    (∀ q, samplings (scoringEngine cfg e k c).tracked q = samplings e.tracked q) ∧
      ∀ ps ∈ (beginCycle e k).snapshot, (scoringEngine cfg e k c).tracked ps.pid ≠ none := by
  have hscan := beginCycle_samplings e k
  cases c with
  | run =>
      have hopen := (openCycle_keeps cfg e k).1
      have hguard : ∀ q, samplings (thrashGuard (openCycle cfg e k).1 k).tracked q =
            samplings (openCycle cfg e k).1.tracked q ∧
          ((openCycle cfg e k).1.tracked q ≠ none →
            (thrashGuard (openCycle cfg e k).1 k).tracked q ≠ none) := by
        intro q
        unfold thrashGuard
        split
        · exact foldl_guardFaults_samplings k.faults _ q
        · exact ⟨rfl, id⟩
      rw [hopen] at hguard
      exact ⟨fun q => (hguard q).1.trans (hscan q),
        fun ps hps => (hguard ps.pid).2 (beginCycle_tracked hps)⟩
  | force =>
      have htracked : (scoringEngine cfg e k .force).tracked = (beginCycle e k).tracked :=
        (damonInit_keeps cfg {} (beginCycle e k) k).1
      rw [htracked]
      exact ⟨hscan, fun ps hps => beginCycle_tracked hps⟩

theorem scoringEngine_damonOn (cfg : Config F) (e : Engine F) (k : Answers F) (c : Call) :
    (scoringEngine cfg e k c).damonOn = (damonInit cfg {} e k).1.damonOn := by
  have hsame : ∀ dc, (damonInit cfg dc (beginCycle e k) k).1.damonOn =
      (damonInit cfg {} e k).1.damonOn := by
    intro dc
    unfold damonInit
    rw [beginCycle_damonOn]
    split <;> rfl
  cases c with
  | run => exact ((thrashGuard_keeps _ k).2.trans (ebpfInit_keeps _ k).2.2).trans (hsame _)
  | force => exact hsame {}

theorem foldl_tryTarget_samplings {cfg : Config F} {k : Answers F} (l : List (ProcessStat F))
    (s : Acting F) (q : Nat) :
    samplings (l.foldl (tryTarget cfg k) s).tracked q = samplings s.tracked q := by
  induction l generalizing s with
  | nil => rfl
  | cons ps l ih =>
      rw [List.foldl_cons, ih, tryTarget_eq]
      dsimp only
      unfold retrack
      split
      · by_cases hq : q = ps.pid
        · subst hq
          unfold samplings
          rw [Function.update_self]
          rfl
        · unfold samplings
          rw [Function.update_of_ne hq]
      · rfl

/-- Acting changes neither the snapshot nor how often a process was sampled. -/
theorem outcome_keeps (e : Engine F) (st : Step F) :
    (st.outcome e).engine.snapshot = (prepare st.cfg e st.answers st.call).1.snapshot ∧
      ∀ q, samplings (st.outcome e).engine.tracked q =
        samplings (prepare st.cfg e st.answers st.call).1.tracked q := by
  cases hacts : acts st.cfg st.answers st.call with
  | false =>
      rw [Step.outcome, cycle_of_not_acts hacts]
      exact ⟨rfl, fun _ => rfl⟩
  | true =>
      rw [Step.outcome, cycle_of_acts hacts]
      refine ⟨rfl, fun q => ?_⟩
      have htracked : (runActions st.cfg (prepare st.cfg e st.answers st.call).1
          st.answers).engine.tracked = _ := congrArg Acting.tracked (actAll_eq _ _ _)
      dsimp only
      rw [htracked, foldl_tryTarget_samplings]
      rfl

/-! ## When the bits are cleared -/

theorem damonInit_clears (cfg : Config F) (dc : DamonConfig) (e : Engine F) (k : Answers F)
    (pid : Nat) : (damonInit cfg dc e k).2.any (Event.clears pid) = false := by
  unfold damonInit
  split <;> rfl

theorem runActions_clears (cfg : Config F) (e : Engine F) (k : Answers F) (pid : Nat) :
    (runActions cfg e k).events.any (Event.clears pid) = false := by
  rw [List.any_eq_false]
  intro ev hev
  rw [runActions_events] at hev
  rcases List.mem_append.mp hev with hev | hev
  · obtain ⟨ps, -, hev⟩ := List.mem_flatMap.mp hev
    rcases targetEvents_cases hev with ⟨ok, rfl⟩ | ⟨start, len, rfl, -⟩ <;> exact Bool.false_ne_true
  · rcases List.mem_cons.mp hev with rfl | hev
    · exact Bool.false_ne_true
    · rw [(cgroupReclaim_mem hev).2]
      exact Bool.false_ne_true

theorem outcome_clears (e : Engine F) (st : Step F) (pid : Nat) :
    (st.outcome e).events.any (Event.clears pid) =
      (scores st.answers st.call &&
        (computeScores st.cfg (scoringEngine st.cfg e st.answers st.call) st.answers).2.any
          (Event.clears pid)) := by
  have hprep : (prepare st.cfg e st.answers st.call).2.any (Event.clears pid) =
      (scores st.answers st.call &&
        (computeScores st.cfg (scoringEngine st.cfg e st.answers st.call) st.answers).2.any
          (Event.clears pid)) := by
    obtain ⟨cfg, k, c⟩ := st
    cases c with
    | run =>
        have hopen : (openCycle cfg e k).2.any (Event.clears pid) = false := by
          have hstart := damonInit_clears cfg (cycleDamonConfig cfg) (beginCycle e k) k pid
          unfold openCycle
          rw [List.any_append, hstart]
          rfl
        unfold prepare scores
        dsimp only
        cases crisis k.psi k.mem with
        | true => exact hopen
        | false =>
            rw [if_neg (by simp), List.any_append, hopen]
            rfl
    | force =>
        have hstart := damonInit_clears cfg {} (beginCycle e k) k pid
        unfold prepare
        dsimp only
        rw [List.any_append, List.any_append, hstart, Bool.false_or]
        exact Bool.or_false _
  rw [← hprep]
  cases hacts : acts st.cfg st.answers st.call with
  | false => rw [Step.outcome, cycle_of_not_acts hacts]
  | true =>
      rw [Step.outcome, cycle_of_acts hacts]
      dsimp only
      rw [List.any_append, runActions_clears, Bool.or_false]

theorem outcome_of_scored {e : Engine F} {st : Step F} (hscores : scores st.answers st.call = true)
    {ps : ProcessStat F} (hps : ps ∈ (beginCycle e st.answers).snapshot) :
    ∃ tr : Track, tr.samples = samplings e.tracked ps.pid ∧
      samplings (st.outcome e).engine.tracked ps.pid =
        (sampleOne st.cfg (damonInit st.cfg {} e st.answers).1.damonOn st.answers tr ps).1.samples ∧
      (st.outcome e).events.any (Event.clears ps.pid) =
        (sampleOne st.cfg (damonInit st.cfg {} e st.answers).1.damonOn st.answers tr ps).2.2.any
          (Event.clears ps.pid) ∧
      ∀ ps' ∈ (st.outcome e).engine.snapshot, ps'.pid = ps.pid → ps'.wsRatio =
        (sampleOne st.cfg (damonInit st.cfg {} e st.answers).1.damonOn st.answers tr ps).2.1.wsRatio := by
  have hnodup := beginCycle_nodup e st.answers
  have hsnap := scoringEngine_snapshot st.cfg e st.answers st.call
  obtain ⟨hsame, htracked⟩ := scoringEngine_samplings st.cfg e st.answers st.call
  obtain ⟨tr, htr⟩ := Option.ne_none_iff_exists'.mp (htracked ps hps)
  obtain ⟨htab, hlist, hevents⟩ := computeScores_eq st.cfg
    (scoringEngine st.cfg e st.answers st.call) st.answers
  rw [scoringEngine_damonOn, hsnap] at htab hlist hevents
  generalize (damonInit st.cfg {} e st.answers).1.damonOn = damonOn at htab hlist hevents ⊢
  obtain ⟨hmap, -, hin⟩ := scoreList_spec st.cfg damonOn st.answers
    (scoringEngine st.cfg e st.answers st.call).tracked hnodup
  have huniq : ∀ ps' ∈ (beginCycle e st.answers).snapshot, ps'.pid = ps.pid → ps' = ps :=
    fun ps' h he => List.inj_on_of_nodup_map hnodup h hps he
  obtain ⟨houtsnap, houtsame⟩ := outcome_keeps e st
  refine ⟨tr, ?_, ?_, ?_, fun ps' hps' hpid => ?_⟩
  · rw [← hsame, samplings, htr]
    rfl
  · rw [houtsame, prepare_of_scores _ _ hscores, htab, samplings, hin ps hps, htr, Option.map_some,
      Option.getD_some, scoreOne_samples]
  · rw [outcome_clears, hscores, Bool.true_and, hevents, scoreList_events_eq _ _ _ hnodup,
      List.any_flatMap]
    have hone : clearsFor st.cfg damonOn st.answers
        (scoringEngine st.cfg e st.answers st.call).tracked ps =
          (sampleOne st.cfg damonOn st.answers tr ps).2.2 := by rw [clearsFor, htr]
    rw [← hone]
    refine Bool.eq_iff_iff.mpr ⟨fun h => ?_, fun h => List.any_eq_true.mpr ⟨ps, hps, h⟩⟩
    obtain ⟨ps', hps', h⟩ := List.any_eq_true.mp h
    suffices he : ps' = ps by rwa [he] at h
    refine huniq ps' hps' ?_
    obtain ⟨ev, hev, hclears⟩ := List.any_eq_true.mp h
    unfold clearsFor at hev
    split at hev
    · cases hev
    · rw [sampleOne_events hev] at hclears
      exact of_decide_eq_true hclears
  · rw [houtsnap, prepare_of_scores _ _ hscores, hlist, hmap] at hps'
    obtain ⟨ps₀, hps₀, rfl⟩ := List.mem_map.mp hps'
    rw [scoreFor_pid] at hpid
    obtain rfl := huniq ps₀ hps₀ hpid
    rw [scoreFor_of_track htr, scoreOne_wsRatio]

/-- A cycle that samples the process counts it, and clears the bits if it is the first. -/
theorem outcome_of_sampled {e : Engine F} {st : Step F} {pid : Nat} (h : sampled e st pid = true) :
    samplings (st.outcome e).engine.tracked pid = samplings e.tracked pid + 1 ∧
      (st.outcome e).events.any (Event.clears pid) = decide (samplings e.tracked pid = 0) ∧
      (samplings e.tracked pid ≠ 0 → (st.answers.sample pid).ok = true →
        (st.answers.sample pid).anonTotalKb ≠ 0 →
          ∀ ps ∈ (st.outcome e).engine.snapshot, ps.pid = pid → ps.wsRatio =
            div (ofNat (st.answers.sample pid).touchedKb)
              (ofNat (Nat.max (st.answers.sample pid).anonTotalKb 1))) := by
  obtain ⟨hgo, hany⟩ := Bool.and_eq_true_iff.mp h
  obtain ⟨hscores, hoff⟩ := Bool.and_eq_true_iff.mp hgo
  obtain ⟨ps, hps, hboth⟩ := List.any_eq_true.mp hany
  obtain ⟨rfl, hlarge⟩ := of_decide_eq_true hboth
  obtain ⟨tr, htr, hcount, hclears, hratio⟩ := outcome_of_scored hscores hps
  have hoff : (damonInit st.cfg {} e st.answers).1.damonOn = false := by simpa using hoff
  rw [hoff] at hcount hclears hratio
  rcases sampleOne_samples st.cfg false st.answers tr ps with ⟨-, -, hsamples, hev⟩ | ⟨hnot, -⟩
  · refine ⟨by rw [hcount, hsamples, htr], ?_, fun hlater hok htotal ps' hps' hpid => ?_⟩
    · rw [hclears, hev, htr]
      split
      · rename_i hfirst
        simp [hfirst, Event.clears]
      · rename_i hlater
        simp [hlater]
    · rw [hratio ps' hps' hpid]
      rw [← htr] at hlater
      rcases sampleOne_ratio st.cfg st.answers tr
        (beginCycle_fresh hps) with ⟨-, hread⟩ | ⟨hnot, -⟩
      · exact hread
      · exact absurd ⟨hlarge, hlater, hok, htotal⟩ hnot
  · exact absurd ⟨rfl, hlarge⟩ hnot

/-- A cycle that scores the process without a reading leaves it the ratio 1. -/
theorem outcome_of_unread {e : Engine F} {st : Step F} {pid : Nat}
    (h : backendScores e st pid = true)
    (hno : ¬ (sampled e st pid = true ∧ samplings e.tracked pid ≠ 0)) :
    ∀ ps ∈ (st.outcome e).engine.snapshot, ps.pid = pid → ps.wsRatio = one := by
  obtain ⟨hgo, hany⟩ := Bool.and_eq_true_iff.mp h
  obtain ⟨hscores, hoff⟩ := Bool.and_eq_true_iff.mp hgo
  obtain ⟨ps, hps, hpid⟩ := List.any_eq_true.mp hany
  obtain rfl := of_decide_eq_true hpid
  obtain ⟨tr, htr, -, -, hratio⟩ := outcome_of_scored hscores hps
  have hdamon : (damonInit st.cfg {} e st.answers).1.damonOn = false := by simpa using hoff
  rw [hdamon] at hratio
  intro ps' hps' hpid'
  rw [hratio ps' hps' hpid']
  rcases sampleOne_ratio st.cfg st.answers tr (beginCycle_fresh hps) with ⟨hread, -⟩ | ⟨-, hsame⟩
  · refine absurd ⟨?_, htr ▸ hread.2.1⟩ hno
    unfold sampled
    rw [hgo]
    exact List.any_eq_true.mpr ⟨ps, hps, decide_eq_true ⟨rfl, hread.1⟩⟩
  · rw [hsame]
    exact beginCycle_fresh hps

theorem outcome_of_not_sampled {e : Engine F} {st : Step F} {pid : Nat}
    (h : sampled e st pid = false) :
    samplings (st.outcome e).engine.tracked pid = samplings e.tracked pid ∧
      (st.outcome e).events.any (Event.clears pid) = false := by
  cases hscores : scores st.answers st.call with
  | false =>
      obtain ⟨-, hsame⟩ := outcome_keeps e st
      rw [outcome_clears, hscores, hsame, prepare_of_not_scores _ _ hscores,
        (openCycle_keeps st.cfg e st.answers).1]
      exact ⟨beginCycle_samplings e st.answers pid, rfl⟩
  | true =>
      by_cases hscan : ∃ ps ∈ (beginCycle e st.answers).snapshot, ps.pid = pid
      · obtain ⟨ps, hps, rfl⟩ := hscan
        obtain ⟨tr, htr, hcount, hclears, -⟩ := outcome_of_scored hscores hps
        have hnot : ¬ ((damonInit st.cfg {} e st.answers).1.damonOn = false ∧
            st.cfg.minAnonKb / 2 < ps.anonKb) := by
          rintro ⟨hoff, hlarge⟩
          refine absurd ?_ (Bool.eq_false_iff.mp h)
          unfold sampled
          rw [hscores, hoff]
          exact List.any_eq_true.mpr ⟨ps, hps, decide_eq_true ⟨rfl, hlarge⟩⟩
        rcases sampleOne_samples st.cfg (damonInit st.cfg {} e st.answers).1.damonOn st.answers tr
          ps with ⟨hoff, hlarge, -⟩ | ⟨-, hsamples, hev⟩
        · exact absurd ⟨hoff, hlarge⟩ hnot
        · rw [hcount, hclears, hsamples, hev, htr]
          exact ⟨rfl, rfl⟩
      · have hnodup := beginCycle_nodup e st.answers
        have hsnap := scoringEngine_snapshot st.cfg e st.answers st.call
        obtain ⟨htab, -, hevents⟩ := computeScores_eq st.cfg
          (scoringEngine st.cfg e st.answers st.call) st.answers
        rw [hsnap] at htab hevents
        obtain ⟨-, hout, -⟩ := scoreList_spec st.cfg
          (scoringEngine st.cfg e st.answers st.call).damonOn st.answers
          (scoringEngine st.cfg e st.answers st.call).tracked hnodup
        have hnot : pid ∉ (beginCycle e st.answers).snapshot.map (·.pid) := by
          intro hmem
          obtain ⟨ps, hps, hpid⟩ := List.mem_map.mp hmem
          exact hscan ⟨ps, hps, hpid⟩
        obtain ⟨-, hsame⟩ := outcome_keeps e st
        constructor
        · rw [hsame, prepare_of_scores _ _ hscores, htab, samplings, hout pid hnot]
          exact (scoringEngine_samplings st.cfg e st.answers st.call).1 pid
        · rw [outcome_clears, hscores, Bool.true_and, hevents, scoreList_events_eq _ _ _ hnodup,
            List.any_eq_false]
          intro ev hev
          obtain ⟨ps, hps, hev⟩ := List.mem_flatMap.mp hev
          unfold clearsFor at hev
          split at hev
          · cases hev
          · rw [sampleOne_events hev]
            intro hclears
            exact hscan ⟨ps, hps, of_decide_eq_true hclears⟩

/-! ## Runs -/

/-- A move that samples is counted and clears the bits if it is the first to do so. Any
other move sets the bits that it writes. -/
theorem move_spec (pid : Nat) (s : Watched F) (m : Move F) :
    (m.samples pid s = true ∧ (∀ page, m.writes page = false) ∧
        samplings (s.move pid m).engine.tracked pid = samplings s.engine.tracked pid + 1 ∧
        (s.move pid m).dirty =
          if samplings s.engine.tracked pid = 0 then fun _ => false else s.dirty) ∨
      (m.samples pid s = false ∧
        samplings (s.move pid m).engine.tracked pid = samplings s.engine.tracked pid ∧
        ∀ page, (s.move pid m).dirty page = (s.dirty page || m.writes page)) := by
  cases m with
  | write p =>
      refine Or.inr ⟨rfl, rfl, fun page => ?_⟩
      show Function.update s.dirty p true page = (s.dirty page || decide (p = page))
      by_cases hp : page = p
      · subst hp
        simp
      · rw [Function.update_of_ne hp, decide_eq_false (Ne.symm hp), Bool.or_false]
  | cycle st view =>
      cases hsampled : (Move.cycle st view).samples pid s with
      | true =>
          have hst : sampled s.engine (st.seeing pid (view.sample s.dirty)) pid = true := hsampled
          obtain ⟨hcount, hclears, -⟩ := outcome_of_sampled hst
          refine Or.inl ⟨rfl, fun _ => rfl, hcount, ?_⟩
          unfold Watched.move
          dsimp only
          rw [hclears]
          split <;> simp_all
      | false =>
          have hst : sampled s.engine (st.seeing pid (view.sample s.dirty)) pid = false := hsampled
          obtain ⟨hcount, hclears⟩ := outcome_of_not_sampled hst
          refine Or.inr ⟨rfl, hcount, fun page => ?_⟩
          unfold Watched.move
          dsimp only
          rw [hclears, if_neg (by simp)]
          exact (Bool.or_false _).symm

theorem dirty_after {pid : Nat} {t : List (Move F)} {s : Watched F}
    (hs : 0 < samplings s.engine.tracked pid) {u v : List (Watched F × Move F)}
    {y : Watched F × Move F} (ht : timeline pid s t = u ++ y :: v) :
    0 < samplings y.1.engine.tracked pid ∧
      ∀ page, y.1.dirty page = (s.dirty page || written u page) := by
  induction u generalizing s t with
  | nil =>
      cases t with
      | nil => cases ht
      | cons m t =>
          obtain ⟨rfl, -⟩ := List.cons.inj ht
          exact ⟨hs, fun page => (Bool.or_false _).symm⟩
  | cons x u ih =>
      cases t with
      | nil => cases ht
      | cons m t =>
          obtain ⟨rfl, hrest⟩ := List.cons.inj ht
          have hcons : ∀ page, written ((s, m) :: u) page = (m.writes page || written u page) :=
            fun page => List.any_cons
          rcases move_spec pid s m with ⟨-, hwrites, hcount, hdirty⟩ | ⟨-, hcount, hdirty⟩
          · obtain ⟨hy, hlater⟩ := ih (s := s.move pid m) (by omega) hrest
            refine ⟨hy, fun page => ?_⟩
            rw [hlater, hcons, hwrites, hdirty, if_neg (by omega), Bool.false_or]
          · obtain ⟨hy, hlater⟩ := ih (s := s.move pid m) (by omega) hrest
            refine ⟨hy, fun page => ?_⟩
            rw [hlater, hcons, hdirty, Bool.or_assoc]

/-- From a process that was never sampled: once it was, the bits show the writes after
some sampling, that is after the first one. -/
theorem dirty_iff {pid : Nat} {t : List (Move F)} {s : Watched F}
    (hs : samplings s.engine.tracked pid = 0) {u v : List (Watched F × Move F)}
    {y : Watched F × Move F} (ht : timeline pid s t = u ++ y :: v)
    (hsampled : ∃ x ∈ u, x.2.samples pid x.1 = true) :
    0 < samplings y.1.engine.tracked pid ∧
      ∀ page, y.1.dirty page = true ↔
        ∃ a w b, u = a ++ w :: b ∧ w.2.samples pid w.1 = true ∧ written b page = true := by
  induction u generalizing s t with
  | nil =>
      obtain ⟨x, hx, -⟩ := hsampled
      cases hx
  | cons x u ih =>
      cases t with
      | nil => cases ht
      | cons m t =>
          obtain ⟨rfl, hrest⟩ := List.cons.inj ht
          rcases move_spec pid s m with ⟨hfirst, -, hcount, hdirty⟩ | ⟨hnot, hcount, -⟩
          · obtain ⟨hy, hlater⟩ := dirty_after (s := s.move pid m) (by omega) hrest
            rw [hdirty, if_pos hs] at hlater
            refine ⟨hy, fun page => ?_⟩
            rw [hlater page, Bool.false_or]
            constructor
            · exact fun hw => ⟨[], (s, m), u, rfl, hfirst, hw⟩
            · rintro ⟨a, w, b, hu, -, hw⟩
              cases a with
              | nil =>
                  obtain ⟨-, rfl⟩ := List.cons.inj hu
                  exact hw
              | cons z a =>
                  obtain ⟨-, rfl⟩ := List.cons.inj hu
                  obtain ⟨x, hx, hwrites⟩ := List.any_eq_true.mp hw
                  exact List.any_eq_true.mpr ⟨x, by simp [hx], hwrites⟩
          · have htail : ∃ x ∈ u, x.2.samples pid x.1 = true := by
              obtain ⟨x, hx, hsamples⟩ := hsampled
              rcases List.mem_cons.mp hx with rfl | hx
              · rw [hnot] at hsamples
                cases hsamples
              · exact ⟨x, hx, hsamples⟩
            obtain ⟨hy, hlater⟩ := ih (s := s.move pid m) (by omega) hrest htail
            refine ⟨hy, fun page => (hlater page).trans ⟨?_, ?_⟩⟩
            · rintro ⟨a, w, b, rfl, hsamples, hw⟩
              exact ⟨(s, m) :: a, w, b, rfl, hsamples, hw⟩
            · rintro ⟨a, w, b, hu, hsamples, hw⟩
              cases a with
              | nil =>
                  obtain ⟨rfl, -⟩ := List.cons.inj hu
                  rw [hnot] at hsamples
                  cases hsamples
              | cons z a =>
                  obtain ⟨-, rfl⟩ := List.cons.inj hu
                  exact ⟨a, w, b, rfl, hsamples, hw⟩

/-- A process that was not sampled in a part of a run has its old number of samplings. -/
theorem samplings_after {pid : Nat} {t : List (Move F)} {s : Watched F}
    {u v : List (Watched F × Move F)} {y : Watched F × Move F} (ht : timeline pid s t = u ++ y :: v)
    (hnone : ∀ x ∈ u, x.2.samples pid x.1 = false) :
    samplings y.1.engine.tracked pid = samplings s.engine.tracked pid := by
  induction u generalizing s t with
  | nil =>
      cases t with
      | nil => cases ht
      | cons m t =>
          obtain ⟨rfl, -⟩ := List.cons.inj ht
          rfl
  | cons x u ih =>
      cases t with
      | nil => cases ht
      | cons m t =>
          obtain ⟨rfl, hrest⟩ := List.cons.inj ht
          have hlater := ih hrest fun z hz => hnone z (List.mem_cons_of_mem _ hz)
          rcases move_spec pid s m with ⟨hsamples, -⟩ | ⟨-, hcount, -⟩
          · have hfirst := hnone (s, m) List.mem_cons_self
            rw [hsamples] at hfirst
            cases hfirst
          · exact hlater.trans hcount

/-! ## The window -/

/-- Two cycles of a run that score the process, with none between them. -/
structure NextScored (pid : Nat) (hist u c v : List (Watched F × Move F))
    (x : Watched F × Move F) (s : Watched F) (st : Step F) (view : View) : Prop where
  split : hist = u ++ x :: (c ++ (s, .cycle st view) :: v)
  previous : x.2.scored pid x.1 = true
  between : ∀ z ∈ c, z.2.scored pid z.1 = false
  this : backendScores s.engine st pid = true

/-- At each scored cycle after the first, the ratio is the share of the private anonymous
pages that were written since the previous scored cycle. -/
def SlidingWindow (pid : Nat) (hist : List (Watched F × Move F)) : Prop :=
  ∀ u c v x s st view, NextScored pid hist u c v x s st view → anonPages view.maps ≠ [] →
    ∀ ps ∈ (s.move pid (.cycle st view)).engine.snapshot, ps.pid = pid →
      ps.wsRatio = div (ofNat ((anonPages view.maps).countP (written c) * 4))
        (ofNat ((anonPages view.maps).length * 4))

/-- The page counts in the cycle `st`: all pages do while the bits are not read, that is
if the process is small now or was never sampled before, and then those written since
some sampling. -/
def Counts (pid : Nat) (past : List (Watched F × Move F)) (s : Watched F) (st : Step F)
    (page : Nat) : Prop :=
  sampled s.engine st pid = true → (∃ w ∈ past, w.2.samples pid w.1 = true) →
    ∃ a w b, past = a ++ w :: b ∧ w.2.samples pid w.1 = true ∧ written b page = true

/-- Every page that counts in a scored cycle was written since the previous one. -/
def NothingStale (pid : Nat) (hist : List (Watched F × Move F)) : Prop :=
  ∀ u c v x s st view, NextScored pid hist u c v x s st view →
    ∀ page ∈ anonPages view.maps, Counts pid (u ++ x :: c) s st page → written c page = true

theorem ratio_of_read {pid : Nat} {s : Watched F} {st : Step F} {view : View}
    (hthis : sampled s.engine st pid = true) (hpos : samplings s.engine.tracked pid ≠ 0)
    (hpages : anonPages view.maps ≠ []) {ps : ProcessStat F}
    (hps : ps ∈ (s.move pid (.cycle st view)).engine.snapshot) (hpid : ps.pid = pid) :
    ps.wsRatio = div (ofNat ((anonPages view.maps).countP s.dirty * 4))
      (ofNat ((anonPages view.maps).length * 4)) := by
  have hlen := List.length_pos_iff.mpr hpages
  have hthis : sampled s.engine (st.seeing pid (view.sample s.dirty)) pid = true := hthis
  obtain ⟨-, -, hratio⟩ := outcome_of_sampled hthis
  have hsample : (st.seeing pid (view.sample s.dirty)).answers.sample pid = view.sample s.dirty :=
    Function.update_self _ _ _
  have hread := view.sample_eq s.dirty
  have hmax : Nat.max ((anonPages view.maps).length * 4) 1 = (anonPages view.maps).length * 4 :=
    Nat.max_eq_left (by omega)
  have htouched := congrArg WsSample.touchedKb hread
  have htotal := congrArg WsSample.anonTotalKb hread
  rw [hsample, htouched, htotal, hmax] at hratio
  dsimp only at hratio
  exact hratio hpos (congrArg WsSample.ok hread) (by omega) ps hps hpid

/-- In a scored cycle the ratio is the share of the pages that count. -/
theorem ratio_counts [LawfulDouble F] {pid : Nat} {t : List (Move F)} {s₀ : Watched F}
    (hs₀ : samplings s₀.engine.tracked pid = 0) {u c v : List (Watched F × Move F)}
    {x : Watched F × Move F} {s : Watched F} {st : Step F} {view : View}
    (h : NextScored pid (timeline pid s₀ t) u c v x s st view) (hpages : anonPages view.maps ≠ []) :
    ∃ shown : Nat → Bool, (∀ page, shown page = true ↔ Counts pid (u ++ x :: c) s st page) ∧
      ∀ ps ∈ (s.move pid (.cycle st view)).engine.snapshot, ps.pid = pid →
        ps.wsRatio = div (ofNat ((anonPages view.maps).countP shown * 4))
          (ofNat ((anonPages view.maps).length * 4)) := by
  have hsplit : timeline pid s₀ t = (u ++ x :: c) ++ (s, .cycle st view) :: v := by
    rw [h.split, List.append_assoc, List.cons_append]
  by_cases hreads : sampled s.engine st pid = true ∧
      ∃ w ∈ u ++ x :: c, w.2.samples pid w.1 = true
  · obtain ⟨hthis, hbefore⟩ := hreads
    obtain ⟨hpos, hdirty⟩ := dirty_iff hs₀ hsplit hbefore
    refine ⟨s.dirty, fun page => (hdirty page).trans ⟨fun hset _ _ => hset, fun hset => ?_⟩, ?_⟩
    · exact hset hthis hbefore
    · exact fun ps => ratio_of_read hthis (ne_of_gt hpos) hpages
  · refine ⟨fun _ => true, fun page => ⟨fun _ hthis hbefore => ?_, fun _ => rfl⟩, ?_⟩
    · exact absurd ⟨hthis, hbefore⟩ hreads
    · have hlen := List.length_pos_iff.mpr hpages
      have hno : ¬ (sampled s.engine st pid = true ∧ samplings s.engine.tracked pid ≠ 0) := by
        rintro ⟨hthis, hpos⟩
        have hnone : ∀ w ∈ u ++ x :: c, w.2.samples pid w.1 = false := by
          intro w hw
          by_contra hw'
          exact hreads ⟨hthis, w, hw, by simpa using hw'⟩
        exact hpos ((samplings_after hsplit hnone).trans hs₀)
      have hthis : backendScores s.engine (st.seeing pid (view.sample s.dirty)) pid = true := h.this
      intro ps hps hpid
      have hone := outcome_of_unread hthis hno ps hps hpid
      rw [hone, List.countP_true, LawfulDouble.div_full _ hlen view.room]

theorem counts_of_written {pid : Nat} {u c : List (Watched F × Move F)} {x : Watched F × Move F}
    {s : Watched F} {st : Step F} (hbetween : ∀ z ∈ c, z.2.scored pid z.1 = false) {page : Nat}
    (hw : written c page = true) :
    Counts pid (u ++ x :: c) s st page := by
  rintro - ⟨w, hmem, hsamples⟩
  obtain ⟨a, b, hsplit⟩ := List.append_of_mem hmem
  refine ⟨a, w, b, hsplit, hsamples, ?_⟩
  -- the sampling lies no later than the previous scored cycle
  have hscored : w.2.scored pid w.1 = true := scored_of_samples hsamples
  rcases List.append_eq_append_iff.mp hsplit.symm with ⟨l, rfl, hl⟩ | ⟨l, rfl, hl⟩
  · cases l with
    | nil =>
        obtain ⟨-, rfl⟩ := List.cons.inj hl
        exact hw
    | cons z l =>
        obtain ⟨-, rfl⟩ := List.cons.inj hl
        have hb : written (l ++ x :: c) page = true := by
          obtain ⟨y, hy, hwrites⟩ := List.any_eq_true.mp hw
          exact List.any_eq_true.mpr ⟨y, by simp [hy], hwrites⟩
        exact hb
  · cases l with
    | nil =>
        obtain ⟨-, rfl⟩ := List.cons.inj hl
        exact hw
    | cons z l =>
        obtain ⟨-, rfl⟩ := List.cons.inj hl
        have hquiet := hbetween w (by simp)
        rw [hscored] at hquiet
        cases hquiet

theorem countP_eq_iff {l : List Nat} {p q : Nat → Bool} (hpq : ∀ a ∈ l, p a = true → q a = true) :
    l.countP q = l.countP p ↔ ∀ a ∈ l, q a = true → p a = true := by
  induction l with
  | nil => simp
  | cons a l ih =>
      have hle := List.countP_mono_left fun b hb => hpq b (List.mem_cons_of_mem a hb)
      have htail := ih fun b hb => hpq b (List.mem_cons_of_mem a hb)
      have hhead := hpq a List.mem_cons_self
      rw [List.countP_cons, List.countP_cons, List.forall_mem_cons, ← htail]
      cases hp : p a <;> cases hq : q a <;> simp_all
      omega

theorem mem_snapshot_of_scored {e : Engine F} {st : Step F} {pid : Nat}
    (h : backendScores e st pid = true) : ∃ ps ∈ (st.outcome e).engine.snapshot, ps.pid = pid := by
  obtain ⟨hgo, hany⟩ := Bool.and_eq_true_iff.mp h
  obtain ⟨hscores, -⟩ := Bool.and_eq_true_iff.mp hgo
  obtain ⟨ps, hps, hpid⟩ := List.any_eq_true.mp hany
  obtain ⟨-, hlist, -⟩ := computeScores_eq st.cfg
    (scoringEngine st.cfg e st.answers st.call) st.answers
  rw [scoringEngine_snapshot,
    (scoreList_spec st.cfg _ st.answers _ (beginCycle_nodup e st.answers)).1] at hlist
  rw [(outcome_keeps e st).1, prepare_of_scores _ _ hscores, hlist]
  exact ⟨_, List.mem_map_of_mem hps, (scoreFor_pid _ _ _ _ ps).trans (of_decide_eq_true hpid)⟩

/-- The ratios are those of a sliding window exactly when every page that counts in a
scored cycle was written since the previous one. -/
theorem window_iff [LawfulDouble F] (pid : Nat) (dirty : Nat → Bool) (t : List (Move F)) :
    SlidingWindow pid (timeline pid { dirty := dirty } t) ↔
      NothingStale pid (timeline pid { dirty := dirty } t) := by
  have hs₀ : samplings ({ dirty := dirty } : Watched F).engine.tracked pid = 0 := rfl
  constructor
  · intro h u c v x s st view hnext page hpage hcounts
    have hpages : anonPages view.maps ≠ [] := List.ne_nil_of_mem hpage
    have hlen := List.length_pos_iff.mpr hpages
    have hthis : backendScores s.engine (st.seeing pid (view.sample s.dirty)) pid = true := hnext.this
    obtain ⟨ps, hps, hpid⟩ := mem_snapshot_of_scored hthis
    have hfresh := h _ _ _ _ _ _ _ hnext hpages ps hps hpid
    obtain ⟨shown, hshown, hratio⟩ := ratio_counts hs₀ hnext hpages
    rw [hratio ps hps hpid] at hfresh
    have hcount := LawfulDouble.count_inj _ _ _ List.countP_le_length List.countP_le_length hlen
      view.room hfresh
    refine (countP_eq_iff fun p _ hp => ?_).mp hcount page hpage ((hshown page).mpr hcounts)
    exact (hshown p).mpr (counts_of_written hnext.between hp)
  · intro h u c v x s st view hnext hpages ps hps hpid
    obtain ⟨shown, hshown, hratio⟩ := ratio_counts hs₀ hnext hpages
    have hcount : (anonPages view.maps).countP shown = (anonPages view.maps).countP (written c) := by
      refine (countP_eq_iff fun p _ hp => ?_).mpr fun page hpage hset => ?_
      · exact (hshown p).mpr (counts_of_written hnext.between hp)
      · exact h u c v x s st view hnext page hpage ((hshown page).mp hset)
    rw [hratio ps hps hpid, hcount]

end

/-- A file that gives every entry it is asked for. -/
def PagemapFile.whole (entry : Nat → Nat) : PagemapFile where
  opens := true
  seek _ := true
  pread _ off bytes := ⟨bytes, fun i => entry (off / 8 + i)⟩
  pread_le _ _ _ := le_refl _

theorem PagemapFile.whole_serves (entry : Nat → Nat) : (PagemapFile.whole entry).Serves entry := by
  refine ⟨rfl, fun _ => rfl, fun call page want hwant => ⟨want, hwant, le_refl _, ?_, ?_⟩⟩
  · show ((want * 8 : Nat) : Int) = ((8 * want : Nat) : Int)
    rw [Nat.mul_comm]
  · intro i _
    show entry (8 * page / 8 + i) = entry (page + i)
    rw [Nat.mul_div_cancel_left page (by decide)]

/-- One private anonymous page at address 0. -/
def View.onePage : View where
  maps := [⟨0, 4096, true, true, true⟩]
  file dirty := .whole fun page => if dirty page then 2 ^ 55 else 0
  entry dirty page := if dirty page then 2 ^ 55 else 0
  serves dirty := PagemapFile.whole_serves _
  bit dirty page := by cases dirty page <;> decide
  room := by decide

/-- One cycle over the process with one page. -/
def Move.tick : Move ℚ := .cycle { cfg := {}, answers := Answers.alone, call := .force } .onePage

/-- A kernel with one process that is too small to be sampled. -/
def Answers.light : Answers ℚ :=
  { Answers.still with
    procs := [(2, { rssKb := 100, anonRssKb := 100, comm := ascii "a", ok := true })]
    distinct := by decide }

def Move.smallTick : Move ℚ := .cycle { cfg := {}, answers := Answers.light, call := .force } .onePage

/-- The page is written in every window, one of which ends while the process is small. -/
theorem window_small :
    SlidingWindow 2 (timeline 2 { dirty := fun _ => false }
      [Move.tick, .write 0, Move.smallTick, .write 0, Move.tick]) := by
  refine (window_iff 2 _ _).mpr fun u c v x s st view hnext page hpage _ => ?_
  obtain ⟨hsplit, hprev, hbetween, -⟩ := hnext
  have hzero : ∀ (s' : Watched ℚ) st', (s, Move.cycle st view) = (s', Move.cycle st' .onePage) →
      page = 0 := by
    intro s' st' h
    cases h
    exact List.mem_singleton.mp hpage
  simp only [timeline] at hsplit
  rcases u with _ | ⟨_, _ | ⟨_, _ | ⟨_, _ | ⟨_, u⟩⟩⟩⟩ <;>
    simp only [List.nil_append, List.cons_append, List.cons.injEq] at hsplit
  · -- from the first cycle: to the second, and not past it
    obtain ⟨rfl, hsplit⟩ := hsplit
    rcases c with _ | ⟨_, _ | ⟨_, _ | ⟨_, c⟩⟩⟩ <;>
      simp only [List.nil_append, List.cons_append, List.cons.injEq] at hsplit
    · cases hsplit.1
    · obtain ⟨rfl, hcycle, -⟩ := hsplit
      rw [hzero _ _ hcycle.symm]
      rfl
    · cases hsplit.2.2.1
    · obtain ⟨-, rfl, -⟩ := hsplit
      have hquiet := hbetween _ (List.mem_cons_of_mem _ List.mem_cons_self)
      exact absurd hquiet (by decide +kernel)
  · obtain ⟨-, rfl, -⟩ := hsplit
    cases hprev
  · -- from the second cycle to the third
    obtain ⟨-, -, rfl, hsplit⟩ := hsplit
    rcases c with _ | ⟨_, _ | ⟨_, c⟩⟩ <;>
      simp only [List.nil_append, List.cons_append, List.cons.injEq] at hsplit
    · cases hsplit.1
    · obtain ⟨rfl, hcycle, -⟩ := hsplit
      rw [hzero _ _ hcycle.symm]
      rfl
    · have hlen := congrArg List.length hsplit.2.2
      simp at hlen
  · obtain ⟨-, -, -, rfl, -⟩ := hsplit
    cases hprev
  · have hlen := congrArg List.length hsplit.2.2.2.2
    simp at hlen
    omega

/-- A page written before the second sampling, and not again, still counts in the third:
the ratio is 1 and not 0. -/
theorem window_grows :
    ¬ ∀ (pid : Nat) (dirty : Nat → Bool) (t : List (Move ℚ)),
      SlidingWindow pid (timeline pid { dirty := dirty } t) := by
  intro hall
  let s₀ : Watched ℚ := { dirty := fun _ => false }
  let s₁ := s₀.move 2 Move.tick
  let s₂ := s₁.move 2 (.write 0)
  let s₃ := s₂.move 2 Move.tick
  have hnext : NextScored 2 (timeline 2 s₀ [Move.tick, .write 0, Move.tick, Move.tick])
      [(s₀, Move.tick), (s₁, .write 0)] [] [] (s₂, Move.tick) s₃
      { cfg := {}, answers := Answers.alone, call := .force } .onePage :=
    ⟨rfl, by decide +kernel, by simp, by decide +kernel⟩
  have hread : (s₃.move 2 Move.tick).engine.snapshot.any
      (fun ps => decide (ps.pid = 2 ∧ ps.wsRatio = 1)) = true := by
    decide +kernel
  obtain ⟨ps, hps, hboth⟩ := List.any_eq_true.mp hread
  obtain ⟨hpid, hone⟩ := of_decide_eq_true hboth
  have hratio := hall 2 _ _ _ _ _ _ _ _ _ hnext (by decide) ps hps hpid
  rw [hone] at hratio
  exact absurd hratio (by decide +kernel)

end Memflux.Core
