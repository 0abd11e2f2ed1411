import Memflux.Core.Effects

/-! # Cooldowns

A process that gave memory gets a cooldown of 5, the thrash guard raises a positive
cooldown to 20, and every cycle that scores the process takes one off and scores it
zero. A score of zero keeps the process from being tried when the minimal score is
positive.
-/

namespace Memflux.Core

open Double EarlyExit

section

variable {F : Type} [Double F]

def cool (tracked : Tracks) (pid : Nat) : Int := ((tracked pid).getD {}).cooldown

theorem cool_update_self (tracked : Tracks) (pid : Nat) (tr : Track) :
    cool (Function.update tracked pid (some tr)) pid = tr.cooldown := by
  simp [cool]

theorem cool_update_of_ne (tracked : Tracks) {pid q : Nat} (o : Option Track) (h : q ≠ pid) :
    cool (Function.update tracked pid o) q = cool tracked q := by
  simp [cool, Function.update_of_ne h]

theorem beginCycle_cool (e : Engine F) (k : Answers F) (q : Nat) :
    cool (beginCycle e k).tracked q = cool e.tracked q := by
  have hsame := congrArg Track.cooldown (beginCycle_same e k q)
  exact hsame

/-! ## The thrash guard -/

theorem guardFaults_spec (tracked : Tracks) (entry : Nat × Nat) (q : Nat) :
    cool tracked q ≤ cool (guardFaults tracked entry) q ∧
      (entry.1 = q → 20000 < entry.2 → 0 < cool tracked q → 20 ≤ cool (guardFaults tracked entry) q) := by
  unfold guardFaults
  cases htr : tracked entry.1 with
  | none =>
      refine ⟨le_refl _, fun hq _ hpos => ?_⟩
      simp [cool, ← hq, htr] at hpos
  | some tr =>
      dsimp only
      by_cases hq : q = entry.1
      · subst hq
        have hcool : cool tracked entry.1 = tr.cooldown := by simp [cool, htr]
        split
        · rw [cool_update_self, hcool]
          exact ⟨le_max_left _ _, fun _ _ _ => le_max_right _ _⟩
        · rename_i hlow
          refine ⟨le_refl _, fun _ hn hpos => absurd ⟨hn, ?_⟩ hlow⟩
          rwa [hcool] at hpos
      · split
        · rw [cool_update_of_ne _ _ hq]
          exact ⟨le_refl _, fun h => absurd h.symm hq⟩
        · exact ⟨le_refl _, fun h => absurd h.symm hq⟩

theorem foldl_guardFaults (l : List (Nat × Nat)) (tracked : Tracks) (q : Nat) :
    cool tracked q ≤ cool (l.foldl guardFaults tracked) q ∧
      (0 < cool tracked q → (∃ n, 20000 < n ∧ (q, n) ∈ l) →
        20 ≤ cool (l.foldl guardFaults tracked) q) := by
  induction l generalizing tracked with
  | nil => exact ⟨le_refl _, fun _ ⟨_, _, h⟩ => absurd h List.not_mem_nil⟩
  | cons entry l ih =>
      obtain ⟨hle, hraise⟩ := guardFaults_spec tracked entry q
      obtain ⟨hle', hraise'⟩ := ih (guardFaults tracked entry)
      refine ⟨hle.trans hle', fun hpos hseen => ?_⟩
      obtain ⟨n, hn, hmem⟩ := hseen
      rcases List.mem_cons.mp hmem with rfl | hmem
      · exact (hraise rfl hn hpos).trans hle'
      · exact hraise' (hpos.trans_le hle) ⟨n, hn, hmem⟩

/-- The guard lowers no cooldown, and raises those it is about to 20. -/
theorem thrashGuard_spec (e : Engine F) (k : Answers F) (q : Nat) :
    cool e.tracked q ≤ cool (thrashGuard e k).tracked q ∧
      (e.ebpfOn = true → k.ebpfLoaded = true → 0 < cool e.tracked q →
        (∃ n, 20000 < n ∧ (q, n) ∈ k.faults) → 20 ≤ cool (thrashGuard e k).tracked q) := by
  obtain ⟨hle, hraise⟩ := foldl_guardFaults k.faults e.tracked q
  unfold thrashGuard
  split
  · exact ⟨hle, fun _ _ => hraise⟩
  · rename_i hoff
    exact ⟨le_refl _, fun hon hloaded => absurd ⟨hon, hloaded⟩ hoff⟩

/-! ## Scores -/

/-- Scoring takes at most one off each cooldown, and only off a process of the snapshot. -/
theorem computeScores_cool (cfg : Config F) {e : Engine F} (k : Answers F)
    (hnodup : (e.snapshot.map (·.pid)).Nodup) :
    (∀ q, q ∉ e.snapshot.map (·.pid) →
        cool (computeScores cfg e k).1.tracked q = cool e.tracked q) ∧
      (∀ q, cool e.tracked q - 1 ≤ cool (computeScores cfg e k).1.tracked q) ∧
      ∀ ps ∈ (computeScores cfg e k).1.snapshot, cool e.tracked ps.pid > 0 → ps.score = zero := by
  obtain ⟨htracked, hsnapshot, -⟩ := computeScores_eq cfg e k
  obtain ⟨hmap, hout, hin⟩ := scoreList_spec cfg e.damonOn k e.tracked hnodup
  have hother : ∀ q, q ∉ e.snapshot.map (·.pid) →
      cool (computeScores cfg e k).1.tracked q = cool e.tracked q := by
    intro q hq
    rw [htracked, cool, hout q hq, cool]
  refine ⟨hother, fun q => ?_, fun ps hps hpos => ?_⟩
  · by_cases hq : q ∈ e.snapshot.map (·.pid)
    · obtain ⟨ps, hps, rfl⟩ := List.mem_map.mp hq
      rw [htracked]
      unfold cool
      rw [hin ps hps]
      cases e.tracked ps.pid with
      | none => simp
      | some tr =>
          rw [Option.map_some, Option.getD_some, Option.getD_some,
            (scoreOne_spec cfg e.damonOn k tr ps).1]
          split <;> omega
    · have hsame := hother q hq
      omega
  · rw [hsnapshot, hmap] at hps
    obtain ⟨ps₀, -, rfl⟩ := List.mem_map.mp hps
    rw [scoreFor_pid] at hpos
    cases htr : e.tracked ps₀.pid with
    | none =>
        rw [cool, htr] at hpos
        cases hpos
    | some tr =>
        rw [cool, htr] at hpos
        rw [scoreFor_of_track htr]
        exact (scoreOne_spec cfg e.damonOn k tr ps₀).2.2 hpos

/-! ## One cycle -/

/-- A cycle that is not cut short by the crisis guard has the process in its scan. -/
def scored (e : Engine F) (st : Step F) (pid : Nat) : Bool :=
  scores st.answers st.call && decide (pid ∈ (beginCycle e st.answers).snapshot.map (·.pid))

/-- The tracer is on in a `run_cycle`, from before or from now. -/
def EbpfOn (e : Engine F) (k : Answers F) : Prop :=
  e.ebpfOn = true ∨ k.ebpfAvailable = true ∧ k.ebpfLoads = true

/-- The thrash guard of a `run_cycle` sees more than 20000 faults of the process while
it has a cooldown. -/
def Thrashes (e : Engine F) (st : Step F) (pid : Nat) : Prop :=
  st.call = .run ∧ EbpfOn e st.answers ∧ st.answers.ebpfLoaded = true ∧ 0 < cool e.tracked pid ∧
    ∃ n, 20000 < n ∧ (pid, n) ∈ st.answers.faults

theorem ebpfInit_on {e : Engine F} {k : Answers F} (h : EbpfOn e k) :
    (ebpfInit e k).ebpfOn = true := by
  unfold ebpfInit
  by_cases hstart : e.ebpfOn = false ∧ k.ebpfAvailable = true
  · rw [if_pos hstart]
    rcases h with h | h
    · rw [hstart.1] at h
      cases h
    · exact h.2
  · rw [if_neg hstart]
    by_contra hoff
    have hoff : e.ebpfOn = false := by simpa using hoff
    rcases h with h | h
    · rw [hoff] at h
      cases h
    · exact hstart ⟨hoff, h.1⟩

/-- What the engine has when `run_actions` starts: each cooldown lost at most one, in a
cycle that scores the process; the thrash guard left at least 19; and who had a
cooldown scores zero. -/
structure Prepared (e : Engine F) (st : Step F) (e' : Engine F) : Prop where
  kept : ∀ q, scored e st q = false → cool e.tracked q ≤ cool e'.tracked q
  less : ∀ q, cool e.tracked q - 1 ≤ cool e'.tracked q
  raised : ∀ q, Thrashes e st q → scored e st q = true → 19 ≤ cool e'.tracked q
  zero : acts st.cfg st.answers st.call = true →
    ∀ ps ∈ e'.snapshot, 0 < cool e.tracked ps.pid → ps.score = zero

/-- A cycle scores from cooldowns that are at least those it started with. -/
theorem scoringEngine_cool (e : Engine F) (st : Step F) (q : Nat) :
    cool e.tracked q ≤ cool (scoringEngine st.cfg e st.answers st.call).tracked q ∧
      (Thrashes e st q → 20 ≤ cool (scoringEngine st.cfg e st.answers st.call).tracked q) := by
  obtain ⟨cfg, k, c⟩ := st
  have hscan := beginCycle_cool e k q
  cases c with
  | run =>
      obtain ⟨hle, hraise⟩ := thrashGuard_spec (openCycle cfg e k).1 k q
      rw [(openCycle_keeps cfg e k).1, hscan] at hle hraise
      refine ⟨hle, fun hthrash => ?_⟩
      obtain ⟨-, hebpf, hloaded, hpos, hseen⟩ := hthrash
      have hon : EbpfOn (damonInit cfg (cycleDamonConfig cfg) (beginCycle e k) k).1 k := by
        unfold EbpfOn
        rw [(damonInit_keeps cfg (cycleDamonConfig cfg) (beginCycle e k) k).2.2]
        exact hebpf
      exact hraise (ebpfInit_on hon) hloaded hpos hseen
  | force =>
      unfold scoringEngine
      dsimp only
      rw [(damonInit_keeps cfg {} (beginCycle e k) k).1, hscan]
      refine ⟨le_refl _, fun hthrash => ?_⟩
      cases hthrash.1

theorem prepared (e : Engine F) (st : Step F) :
    Prepared e st (prepare st.cfg e st.answers st.call).1 := by
  cases hscores : scores st.answers st.call with
  | false =>
      have hsame : ∀ q, cool (prepare st.cfg e st.answers st.call).1.tracked q = cool e.tracked q := by
        intro q
        rw [prepare_of_not_scores _ _ hscores, (openCycle_keeps st.cfg e st.answers).1]
        exact beginCycle_cool e st.answers q
      refine ⟨fun q _ => (hsame q).ge, fun q => ?_, fun q _ hq => ?_, fun hacts => ?_⟩
      · have hq := hsame q
        omega
      · rw [scored, hscores] at hq
        cases hq
      · rw [scores_of_acts hacts] at hscores
        cases hscores
  | true =>
      have hsnap := scoringEngine_snapshot st.cfg e st.answers st.call
      have hnodup := beginCycle_nodup e st.answers
      rw [← hsnap] at hnodup
      obtain ⟨hout, hless, hzero⟩ := computeScores_cool st.cfg st.answers hnodup
      have hfrom := scoringEngine_cool e st
      rw [prepare_of_scores _ _ hscores]
      refine ⟨fun q hq => ?_, fun q => ?_, fun q hq _ => ?_, fun _ ps hps hpos => ?_⟩
      · rw [hout q (by rw [hsnap]; simpa [scored, hscores] using hq)]
        exact (hfrom q).1
      · have hstep := hless q
        have hle := (hfrom q).1
        omega
      · have hstep := hless q
        have hle := (hfrom q).2 hq
        omega
      · exact hzero ps hps (lt_of_lt_of_le hpos (hfrom ps.pid).1)

/-! ## The targets -/

/-- The process that an event is about, when the cycle acts on it. -/
def Event.target : Event F → Option Nat
  | .pidfdOpen pid _ => some pid
  | .madvise pid _ _ _ => some pid
  | _ => none

def ActsOn (e : Engine F) (st : Step F) (pid : Nat) : Prop :=
  ∃ ev ∈ (st.outcome e).events, ev.target = some pid

/-- `run_actions` obtains memory from the process. -/
def Obtains (e : Engine F) (st : Step F) (pid : Nat) : Prop :=
  acts st.cfg st.answers st.call = true ∧
    ∃ ps ∈ targets st.cfg (prepare st.cfg e st.answers st.call).1 st.answers,
      ps.pid = pid ∧ amount st.cfg st.answers ps ≠ 0

theorem retrack_cool (cfg : Config F) (k : Answers F) (tracked : Tracks) (ps : ProcessStat F)
    (q : Nat) :
    cool (retrack cfg k tracked ps) q =
      if ps.pid = q ∧ amount cfg k ps ≠ 0 then 5 else cool tracked q := by
  unfold retrack
  by_cases hgot : amount cfg k ps = 0
  · simp [hgot]
  · by_cases hq : ps.pid = q
    · subst hq
      simp [hgot, cool_update_self]
    · simp [hgot, hq, cool_update_of_ne _ _ (Ne.symm hq)]

/-- The loop gives a cooldown of 5 to those that gave something and leaves the others. -/
theorem foldl_cool {cfg : Config F} {k : Answers F} (l : List (ProcessStat F)) (s : Acting F)
    (q : Nat) :
    ((∃ ps ∈ l, ps.pid = q ∧ amount cfg k ps ≠ 0) →
        cool (l.foldl (tryTarget cfg k) s).tracked q = 5) ∧
      ((∀ ps ∈ l, ps.pid = q → amount cfg k ps = 0) →
        cool (l.foldl (tryTarget cfg k) s).tracked q = cool s.tracked q) := by
  induction l generalizing s with
  | nil => exact ⟨fun ⟨_, h, _⟩ => absurd h List.not_mem_nil, fun _ => rfl⟩
  | cons ps l ih =>
      have hstep : cool (tryTarget cfg k s ps).tracked q =
          if ps.pid = q ∧ amount cfg k ps ≠ 0 then 5 else cool s.tracked q := by
        rw [tryTarget_eq]
        exact retrack_cool cfg k s.tracked ps q
      obtain ⟨hpaid, hsame⟩ := ih (tryTarget cfg k s ps)
      constructor
      · rintro ⟨ps', hps', hq, hgot⟩
        by_cases hlater : ∃ ps ∈ l, ps.pid = q ∧ amount cfg k ps ≠ 0
        · exact hpaid hlater
        · have hfirst : ps' = ps := by
            refine (List.mem_cons.mp hps').resolve_right fun h => hlater ⟨ps', h, hq, hgot⟩
          subst hfirst
          rw [List.foldl_cons, hsame ?_, hstep, if_pos ⟨hq, hgot⟩]
          intro ps'' h hq''
          by_contra hgot''
          exact hlater ⟨ps'', h, hq'', hgot''⟩
      · intro h
        rw [List.foldl_cons, hsame fun ps' hps' => h ps' (List.mem_cons_of_mem _ hps'), hstep,
          if_neg]
        rintro ⟨hq, hgot⟩
        exact hgot (h ps List.mem_cons_self hq)

theorem runActions_tracked (cfg : Config F) (e : Engine F) (k : Answers F) :
    (runActions cfg e k).engine.tracked =
      ((targets cfg e k).foldl (tryTarget cfg k) (.start e)).tracked := by
  rw [← actAll_eq]
  rfl

theorem outcome_cool_of_obtains {e : Engine F} {st : Step F} {q : Nat} (h : Obtains e st q) :
    cool (st.outcome e).engine.tracked q = 5 := by
  obtain ⟨hacts, hpaid⟩ := h
  rw [Step.outcome, cycle_of_acts hacts]
  dsimp only
  rw [runActions_tracked]
  exact (foldl_cool _ _ q).1 hpaid

theorem outcome_cool_of_not_obtains {e : Engine F} {st : Step F} {q : Nat}
    (h : ¬ Obtains e st q) :
    cool (st.outcome e).engine.tracked q =
      cool (prepare st.cfg e st.answers st.call).1.tracked q := by
  cases hacts : acts st.cfg st.answers st.call with
  | false => rw [Step.outcome, cycle_of_not_acts hacts]
  | true =>
      rw [Step.outcome, cycle_of_acts hacts]
      dsimp only
      rw [runActions_tracked]
      refine (foldl_cool _ _ q).2 fun ps hps hq => ?_
      by_contra hgot
      exact h ⟨hacts, ps, hps, hq, hgot⟩

/-- A candidate is a process of the snapshot whose score reaches the minimum. -/
theorem mem_targets {cfg : Config F} {e : Engine F} {k : Answers F} {ps : ProcessStat F}
    (h : ps ∈ targets cfg e k) : ps ∈ e.snapshot ∧ lt ps.score cfg.minScore = false := by
  have hcand := (targets_initial cfg e k).subset h
  have hfilter := ((k.sort_perm _).mem_iff).mp hcand
  obtain ⟨hmem, helig⟩ := List.mem_filter.mp hfilter
  have hscore := (Bool.and_eq_true_iff.mp helig).1
  exact ⟨hmem, by simpa using hscore⟩

theorem prepare_target (cfg : Config F) (e : Engine F) (k : Answers F) (c : Call) {ev : Event F}
    (h : ev ∈ (prepare cfg e k c).2) : ev.target = none := by
  obtain ⟨rest, hev, hrest⟩ := prepare_events cfg e k c
  rw [hev] at h
  rcases List.mem_append.mp h with h | h
  · rcases damonInit_events cfg (damonConfigOf cfg c) (beginCycle e k) k with ⟨-, hd⟩ | ⟨-, hd⟩
    · rw [hd] at h
      rcases List.mem_cons.mp h with rfl | h
      · rfl
      · rw [List.mem_singleton.mp h]
        rfl
    · rw [hd] at h
      cases h
  · have hpassive := hrest ev h
    cases ev with
    | pidfdOpen pid ok => cases hpassive
    | madvise pid start len mode => cases hpassive
    | _ => rfl

/-- Who has a cooldown when a cycle starts is not acted on, if a score of zero is below
the configured minimum. -/
theorem not_actsOn {e : Engine F} {st : Step F} {q : Nat} (hpos : 0 < cool e.tracked q)
    (hmin : lt zero st.cfg.minScore = true) : ¬ ActsOn e st q := by
  rintro ⟨ev, hev, htarget⟩
  cases hacts : acts st.cfg st.answers st.call with
  | false =>
      rw [Step.outcome, cycle_of_not_acts hacts] at hev
      rw [prepare_target _ _ _ _ hev] at htarget
      cases htarget
  | true =>
      rw [Step.outcome, cycle_of_acts hacts] at hev
      rcases List.mem_append.mp hev with hev | hev
      · rw [prepare_target _ _ _ _ hev] at htarget
        cases htarget
      · rw [runActions_events] at hev
        rcases List.mem_append.mp hev with hev | hev
        · obtain ⟨ps, hps, hev⟩ := List.mem_flatMap.mp hev
          have hpid : ps.pid = q := by
            rcases targetEvents_cases hev with ⟨ok, rfl⟩ | ⟨start, len, rfl, -⟩ <;>
              exact Option.some.inj htarget
          obtain ⟨hmem, hscore⟩ := mem_targets hps
          rw [(prepared e st).zero hacts ps hmem (hpid ▸ hpos), hmin] at hscore
          cases hscore
        · rcases List.mem_cons.mp hev with rfl | hev
          · cases htarget
          · rw [(cgroupReclaim_mem hev).2] at htarget
            cases htarget

theorem not_obtains {e : Engine F} {st : Step F} {q : Nat} (hpos : 0 < cool e.tracked q)
    (hmin : lt zero st.cfg.minScore = true) : ¬ Obtains e st q := by
  rintro ⟨hacts, ps, hps, hpid, -⟩
  obtain ⟨hmem, hscore⟩ := mem_targets hps
  rw [(prepared e st).zero hacts ps hmem (hpid ▸ hpos), hmin] at hscore
  cases hscore

/-! ## Runs -/

/-- One cycle takes at most one off a cooldown, and none when it does not score. -/
theorem outcome_cool {e : Engine F} {st : Step F} {q : Nat} (hpos : 0 < cool e.tracked q)
    (hmin : lt zero st.cfg.minScore = true) :
    cool e.tracked q ≤ cool (st.outcome e).engine.tracked q + (scored e st q).toNat := by
  have hprep := prepared e st
  rw [outcome_cool_of_not_obtains (not_obtains hpos hmin)]
  cases hscored : scored e st q with
  | false =>
      have hkept := hprep.kept q hscored
      simpa using hkept
  | true =>
      have hless := hprep.less q
      rw [Bool.toNat_true]
      omega

def scoredCycles (pid : Nat) (hist : List (Engine F × Step F)) : Nat :=
  hist.countP fun x => scored x.1 x.2 pid

theorem cool_outlasts {q : Nat} {l : List (Step F)} {e : Engine F}
    (hmin : ∀ st ∈ l, lt zero st.cfg.minScore = true)
    {mid later : List (Engine F × Step F)} {y : Engine F × Step F}
    (hl : history e l = mid ++ y :: later) (hlong : (scoredCycles q mid : Int) < cool e.tracked q) :
    0 < cool y.1.tracked q := by
  induction mid generalizing e l with
  | nil =>
      cases l with
      | nil => cases hl
      | cons st l =>
          obtain ⟨rfl, -⟩ := List.cons.inj hl
          simpa [scoredCycles] using hlong
  | cons x mid ih =>
      cases l with
      | nil => cases hl
      | cons st l =>
          obtain ⟨rfl, hrest⟩ := List.cons.inj hl
          have hcount : scoredCycles q ((e, st) :: mid) =
              scoredCycles q mid + (scored e st q).toNat := by
            unfold scoredCycles
            rw [List.countP_cons]
            cases scored e st q <;> rfl
          have hone := outcome_cool (q := q) (e := e) (by omega) (hmin st List.mem_cons_self)
          exact ih (fun st' h => hmin st' (List.mem_cons_of_mem _ h)) hrest (by omega)

theorem history_after {l : List (Step F)} {e : Engine F} {h₁ tail : List (Engine F × Step F)}
    {x : Engine F × Step F} (hl : history e l = h₁ ++ x :: tail) :
    ∃ l', l' ⊆ l ∧ tail = history (x.2.outcome x.1).engine l' := by
  induction h₁ generalizing e l with
  | nil =>
      cases l with
      | nil => cases hl
      | cons st l =>
          obtain ⟨rfl, rfl⟩ := List.cons.inj hl
          exact ⟨l, List.subset_cons_self _ _, rfl⟩
  | cons z h₁ ih =>
      cases l with
      | nil => cases hl
      | cons st l =>
          obtain ⟨l', hsub, htail⟩ := ih (List.cons.inj hl).2
          exact ⟨l', List.subset_cons_of_subset _ hsub, htail⟩

/-- A process that gave memory rests for the next 5 cycles that score it. One that the
thrash guard caught rests in that cycle and in the 19 that score it afterwards. -/
structure Rests (hist : List (Engine F × Step F)) (pid : Nat) : Prop where
  afterGiving : ∀ h₁ x mid y h₂, hist = h₁ ++ x :: (mid ++ y :: h₂) → Obtains x.1 x.2 pid →
    scoredCycles pid mid < 5 → ¬ ActsOn y.1 y.2 pid
  thrashing : ∀ x ∈ hist, Thrashes x.1 x.2 pid → scored x.1 x.2 pid = true → ¬ ActsOn x.1 x.2 pid
  afterThrashing : ∀ h₁ x mid y h₂, hist = h₁ ++ x :: (mid ++ y :: h₂) → Thrashes x.1 x.2 pid →
    scored x.1 x.2 pid = true → scoredCycles pid mid < 19 → ¬ ActsOn y.1 y.2 pid

/-- In a run whose configurations all ask for a positive score, cooldowns are kept. -/
theorem cooldown_kept (e : Engine F) {l : List (Step F)}
    (hmin : ∀ st ∈ l, lt zero st.cfg.minScore = true) (pid : Nat) : Rests (history e l) pid := by
  have hlater : ∀ h₁ x mid y h₂, history e l = h₁ ++ x :: (mid ++ y :: h₂) →
      (scoredCycles pid mid : Int) < cool (x.2.outcome x.1).engine.tracked pid →
        ¬ ActsOn y.1 y.2 pid := by
    intro h₁ x mid y h₂ hl hlong
    have hy : y.2 ∈ l := mem_history (e := e) (by rw [hl]; simp)
    obtain ⟨l', hsub, htail⟩ := history_after hl
    have hpos := cool_outlasts (fun st h => hmin st (hsub h)) htail.symm hlong
    exact not_actsOn hpos (hmin y.2 hy)
  constructor
  · intro h₁ x mid y h₂ hl hobt hcount
    refine hlater h₁ x mid y h₂ hl ?_
    rw [outcome_cool_of_obtains hobt]
    omega
  · intro x hx hthrash _
    exact not_actsOn hthrash.2.2.2.1 (hmin x.2 (mem_history hx))
  · intro h₁ x mid y h₂ hl hthrash hscored hcount
    refine hlater h₁ x mid y h₂ hl ?_
    have hx : x.2 ∈ l := mem_history (e := e) (by rw [hl]; simp)
    rw [outcome_cool_of_not_obtains (not_obtains hthrash.2.2.2.1 (hmin x.2 hx))]
    have hraised := (prepared x.1 x.2).raised pid hthrash hscored
    omega

end

/-- The process's RSS falls by 10000 KiB around every attempt. -/
def Answers.shrinking : Answers ℚ :=
  { Answers.alone with
    attempt := fun pid =>
      { Answers.alone.attempt pid with opened := true, before := 100000, after := 90000 } }

theorem cooldown_kept_shrinking :
    Rests (history {} (List.replicate 8
      ({ cfg := {}, answers := Answers.shrinking, call := .force } : Step ℚ))) 2 :=
  cooldown_kept {} (fun st h => by rw [List.eq_of_mem_replicate h]; decide +kernel) 2

/-- With `min_score` 0 the score of a cooling process is high enough: it gives memory in
one cycle and is acted on in the next. -/
theorem cooldown_ignored :
    ¬ ∀ (cfg : Config ℚ) (l : List (Answers ℚ × Call)) (pid : Nat),
      Rests (history {} (l.map fun a => ⟨cfg, a.1, a.2⟩)) pid := by
  intro hall
  let cfg : Config ℚ := { minScore := 0 }
  let st : Step ℚ := { cfg := cfg, answers := Answers.shrinking, call := .force }
  have hpaid : (targets cfg (prepare cfg {} Answers.shrinking .force).1 Answers.shrinking).any
      (fun ps => decide (ps.pid = 2 ∧ amount cfg Answers.shrinking ps ≠ 0)) = true := by
    decide +kernel
  have hacted : (st.outcome (st.outcome {}).engine).events.any
      (fun ev => decide (ev.target = some 2)) = true := by
    decide +kernel
  have hobt : Obtains {} st 2 := by
    obtain ⟨ps, hps, hgot⟩ := List.any_eq_true.mp hpaid
    exact ⟨rfl, ps, hps, of_decide_eq_true hgot⟩
  have hacts : ActsOn (st.outcome {}).engine st 2 := by
    obtain ⟨ev, hev, htarget⟩ := List.any_eq_true.mp hacted
    exact ⟨ev, hev, of_decide_eq_true htarget⟩
  have hrests := hall cfg [(Answers.shrinking, .force), (Answers.shrinking, .force)] 2
  exact hrests.afterGiving [] ({}, st) [] ((st.outcome {}).engine, st) [] rfl hobt (by decide) hacts

end Memflux.Core
