import Memflux.Core.Cycle

/-! # Scans and scores

A scan lists the processes of the directory that pass its tests and changes nothing of
a tracked process but its fault count. Scoring goes through distinct processes, so that
each one is scored from the track it had before.
-/

namespace Memflux.Core

open Double

section

variable {F : Type} [Double F]

/-! ## The scan -/

/-- What the scan adds to the snapshot for an entry of the directory. -/
def scanEntry (k : Answers F) (entry : Nat × ProcStat) : Option (ProcessStat F) :=
  if entry.1 ≤ 1 ∨ (entry.2.ok = false ∨ entry.2.rssKb = 0) ∨ entry.2.comm.head? = some 91 ∨
      entry.1 = k.self then none
  else some
    { pid := entry.1, comm := entry.2.comm, cgroup := entry.2.cgroup, rssKb := entry.2.rssKb,
      anonKb := entry.2.anonRssKb, fileKb := entry.2.fileRssKb, swapKb := entry.2.swapKb }

theorem scanEntry_pid {k : Answers F} {entry : Nat × ProcStat} {ps : ProcessStat F}
    (h : scanEntry k entry = some ps) : ps.pid = entry.1 ∧ ps.wsRatio = one := by
  unfold scanEntry at h
  split at h
  · cases h
  · cases h
    exact ⟨rfl, rfl⟩

/-- Two tables that differ in fault counts only, an untracked process counting as one
with a new track. -/
def SameButFaults (a b : Tracks) : Prop :=
  ∀ q, { (a q).getD {} with prevMajflt := 0 } = { (b q).getD {} with prevMajflt := 0 }

theorem scanOne_eq (k : Answers F) (st : Tracks × List (ProcessStat F)) (entry : Nat × ProcStat) :
    scanOne k st entry =
      if scanEntry k entry = none then st
      else
        (Function.update st.1 entry.1
            (some { (st.1 entry.1).getD {} with prevMajflt := entry.2.majflt }),
          st.2 ++ (scanEntry k entry).toList) := by
  obtain ⟨pid, s⟩ := entry
  unfold scanOne scanEntry
  dsimp only
  by_cases h₁ : pid ≤ 1
  · simp [h₁]
  · by_cases h₂ : s.ok = false ∨ s.rssKb = 0
    · simp [h₁, h₂]
    · by_cases h₃ : s.comm.head? = some 91
      · simp [h₁, h₂, h₃]
      · by_cases h₄ : pid = k.self
        · simp [h₂, h₃, h₄]
        · simp [h₁, h₂, h₃, h₄]

theorem sameButFaults_update (tracked : Tracks) (pid n : Nat) :
    SameButFaults (Function.update tracked pid
      (some { (tracked pid).getD {} with prevMajflt := n })) tracked := by
  intro q
  by_cases hq : q = pid
  · subst hq
    rw [Function.update_self]
    rfl
  · rw [Function.update_of_ne hq]

theorem foldl_scanOne (k : Answers F) (l : List (Nat × ProcStat))
    (st : Tracks × List (ProcessStat F)) :
    SameButFaults (l.foldl (scanOne k) st).1 st.1 ∧
      (l.foldl (scanOne k) st).2 = st.2 ++ l.filterMap (scanEntry k) ∧
      (∀ q, st.1 q ≠ none → (l.foldl (scanOne k) st).1 q ≠ none) ∧
      ∀ ps ∈ l.filterMap (scanEntry k), (l.foldl (scanOne k) st).1 ps.pid ≠ none := by
  induction l generalizing st with
  | nil => exact ⟨fun _ => rfl, by simp, fun _ h => h, by simp⟩
  | cons entry l ih =>
      obtain ⟨hsame, hlist, hkeep, htracked⟩ := ih (scanOne k st entry)
      have hone := scanOne_eq k st entry
      cases hscan : scanEntry k entry with
      | none =>
          rw [hscan, if_pos rfl] at hone
          rw [List.foldl_cons, List.filterMap_cons_none hscan]
          rw [hone] at hsame hlist hkeep htracked ⊢
          exact ⟨hsame, hlist, hkeep, htracked⟩
      | some ps =>
          rw [hscan, if_neg (Option.some_ne_none ps)] at hone
          rw [List.foldl_cons, List.filterMap_cons_some hscan]
          rw [hone] at hsame hlist hkeep htracked ⊢
          have hadd : ∀ q, st.1 q ≠ none ∨ q = ps.pid → Function.update st.1 entry.1
              (some { (st.1 entry.1).getD {} with prevMajflt := entry.2.majflt }) q ≠ none := by
            intro q hq
            by_cases he : q = entry.1
            · subst he
              simp
            · rw [Function.update_of_ne he]
              exact hq.resolve_right fun h => he (h.trans (scanEntry_pid hscan).1)
          refine ⟨fun q => (hsame q).trans (sameButFaults_update st.1 _ _ q), ?_,
            fun q hq => hkeep q (hadd q (Or.inl hq)), fun ps' hps' => ?_⟩
          · rw [hlist]
            simp
          · rcases List.mem_cons.mp hps' with rfl | hps'
            · exact hkeep _ (hadd _ (Or.inr rfl))
            · exact htracked ps' hps'

theorem beginCycle_snapshot (e : Engine F) (k : Answers F) :
    (beginCycle e k).snapshot = k.procs.filterMap (scanEntry k) :=
  (foldl_scanOne k k.procs (e.tracked, [])).2.1

theorem beginCycle_same (e : Engine F) (k : Answers F) :
    SameButFaults (beginCycle e k).tracked e.tracked :=
  (foldl_scanOne k k.procs (e.tracked, [])).1

theorem beginCycle_tracked {e : Engine F} {k : Answers F} {ps : ProcessStat F}
    (h : ps ∈ (beginCycle e k).snapshot) : (beginCycle e k).tracked ps.pid ≠ none := by
  rw [beginCycle_snapshot] at h
  exact (foldl_scanOne k k.procs (e.tracked, [])).2.2.2 ps h

theorem beginCycle_nodup (e : Engine F) (k : Answers F) :
    ((beginCycle e k).snapshot.map (·.pid)).Nodup := by
  have hsub : ((k.procs.filterMap (scanEntry k)).map (·.pid)).Sublist (k.procs.map Prod.fst) := by
    generalize k.procs = l
    induction l with
    | nil => exact List.Sublist.refl _
    | cons entry l ih =>
        cases hscan : scanEntry k entry with
        | none =>
            rw [List.filterMap_cons_none hscan]
            exact ih.cons _
        | some ps =>
            rw [List.filterMap_cons_some hscan, List.map_cons, List.map_cons,
              (scanEntry_pid hscan).1]
            exact ih.cons_cons _
  rw [beginCycle_snapshot]
  exact k.distinct.sublist hsub

theorem beginCycle_fresh {e : Engine F} {k : Answers F} {ps : ProcessStat F}
    (h : ps ∈ (beginCycle e k).snapshot) : ps.wsRatio = one := by
  rw [beginCycle_snapshot] at h
  obtain ⟨entry, -, hscan⟩ := List.mem_filterMap.mp h
  exact (scanEntry_pid hscan).2

/-! ## Scores -/

theorem sampleOne_keeps (cfg : Config F) (damonOn : Bool) (k : Answers F) (tr : Track)
    (ps : ProcessStat F) :
    (sampleOne cfg damonOn k tr ps).1.cooldown = tr.cooldown ∧
      (sampleOne cfg damonOn k tr ps).2.1.pid = ps.pid := by
  unfold sampleOne
  split
  · split
    · exact ⟨rfl, rfl⟩
    · dsimp only
      split <;> exact ⟨rfl, rfl⟩
  · split <;> exact ⟨rfl, rfl⟩

theorem scoreOne_eq (cfg : Config F) (damonOn : Bool) (k : Answers F) (tr : Track)
    (ps : ProcessStat F) :
    scoreOne cfg damonOn k tr ps =
      let r := sampleOne cfg damonOn k tr ps
      if r.1.cooldown > 0 then
        ({ r.1 with cooldown := r.1.cooldown - 1 }, { r.2.1 with score := zero }, r.2.2)
      else (r.1, { r.2.1 with score := rawScore cfg r.2.1 }, r.2.2) := rfl

/-- A scored process loses one from its cooldown, and scores zero while it has one. -/
theorem scoreOne_spec (cfg : Config F) (damonOn : Bool) (k : Answers F) (tr : Track)
    (ps : ProcessStat F) :
    (scoreOne cfg damonOn k tr ps).1.cooldown =
        (if tr.cooldown > 0 then tr.cooldown - 1 else tr.cooldown) ∧
      (scoreOne cfg damonOn k tr ps).2.1.pid = ps.pid ∧
      (tr.cooldown > 0 → (scoreOne cfg damonOn k tr ps).2.1.score = zero) := by
  obtain ⟨hcool, hpid⟩ := sampleOne_keeps cfg damonOn k tr ps
  rw [scoreOne_eq]
  dsimp only
  rw [hcool]
  split
  · exact ⟨rfl, hpid, fun _ => rfl⟩
  · exact ⟨hcool, hpid, fun h => absurd h ‹_›⟩

/-- The soft-dirty backend has a reading of the process. -/
def Read (cfg : Config F) (k : Answers F) (tr : Track) (ps : ProcessStat F) : Prop :=
  cfg.minAnonKb / 2 < ps.anonKb ∧ tr.samples ≠ 0 ∧ (k.sample ps.pid).ok = true ∧
    (k.sample ps.pid).anonTotalKb ≠ 0

/-- The share of its pages that a reading shows as touched. -/
def readRatio (k : Answers F) (ps : ProcessStat F) : F :=
  div (ofNat (k.sample ps.pid).touchedKb) (ofNat (Nat.max (k.sample ps.pid).anonTotalKb 1))

/-- The ratio of the soft-dirty backend, for a process of a fresh scan. -/
theorem sampleOne_ratio (cfg : Config F) (k : Answers F) (tr : Track) {ps : ProcessStat F}
    (hfresh : ps.wsRatio = one) :
    (Read cfg k tr ps ∧ (sampleOne cfg false k tr ps).2.1.wsRatio = readRatio k ps) ∨
      (¬ Read cfg k tr ps ∧ (sampleOne cfg false k tr ps).2.1 = ps) := by
  unfold sampleOne
  by_cases hlarge : cfg.minAnonKb / 2 < ps.anonKb
  · rw [if_pos ⟨rfl, hlarge⟩]
    by_cases hfirst : tr.samples = 0
    · rw [if_pos hfirst]
      exact Or.inr ⟨fun h => h.2.1 hfirst, rfl⟩
    · rw [if_neg hfirst]
      dsimp only
      by_cases hread : (k.sample ps.pid).ok = true ∧ (k.sample ps.pid).anonTotalKb ≠ 0
      · rw [if_pos hread]
        exact Or.inl ⟨⟨hlarge, hfirst, hread⟩, rfl⟩
      · rw [if_neg hread]
        exact Or.inr ⟨fun h => hread h.2.2, rfl⟩
  · rw [if_neg fun h => hlarge h.2, if_pos rfl]
    refine Or.inr ⟨fun h => hlarge h.1, ?_⟩
    rw [← hfresh]

theorem scoreOne_wsRatio (cfg : Config F) (damonOn : Bool) (k : Answers F) (tr : Track)
    (ps : ProcessStat F) :
    (scoreOne cfg damonOn k tr ps).2.1.wsRatio = (sampleOne cfg damonOn k tr ps).2.1.wsRatio := by
  rw [scoreOne_eq]
  dsimp only
  split <;> rfl

/-- The soft-dirty backend counts a sampling and clears the bits at the first one. -/
theorem sampleOne_samples (cfg : Config F) (damonOn : Bool) (k : Answers F) (tr : Track)
    (ps : ProcessStat F) :
    (damonOn = false ∧ cfg.minAnonKb / 2 < ps.anonKb ∧
        (sampleOne cfg damonOn k tr ps).1.samples = tr.samples + 1 ∧
        (sampleOne cfg damonOn k tr ps).2.2 = if tr.samples = 0 then [.clearRefs ps.pid] else []) ∨
      (¬ (damonOn = false ∧ cfg.minAnonKb / 2 < ps.anonKb) ∧
        (sampleOne cfg damonOn k tr ps).1.samples = tr.samples ∧
        (sampleOne cfg damonOn k tr ps).2.2 = []) := by
  unfold sampleOne
  by_cases hlarge : damonOn = false ∧ cfg.minAnonKb / 2 < ps.anonKb
  · refine Or.inl ⟨hlarge.1, hlarge.2, ?_⟩
    rw [if_pos hlarge]
    by_cases hfirst : tr.samples = 0
    · rw [if_pos hfirst, if_pos hfirst]
      exact ⟨rfl, rfl⟩
    · rw [if_neg hfirst, if_neg hfirst]
      dsimp only
      split <;> exact ⟨rfl, rfl⟩
  · refine Or.inr ⟨hlarge, ?_⟩
    rw [if_neg hlarge]
    split <;> exact ⟨rfl, rfl⟩

theorem scoreOne_samples (cfg : Config F) (damonOn : Bool) (k : Answers F) (tr : Track)
    (ps : ProcessStat F) :
    (scoreOne cfg damonOn k tr ps).1.samples = (sampleOne cfg damonOn k tr ps).1.samples := by
  rw [scoreOne_eq]
  dsimp only
  split <;> rfl

theorem scoreOne_events (cfg : Config F) (damonOn : Bool) (k : Answers F) (tr : Track)
    (ps : ProcessStat F) :
    (scoreOne cfg damonOn k tr ps).2.2 = (sampleOne cfg damonOn k tr ps).2.2 := by
  rw [scoreOne_eq]
  dsimp only
  split <;> rfl

def scoreFor (cfg : Config F) (damonOn : Bool) (k : Answers F) (tracked : Tracks)
    (ps : ProcessStat F) : ProcessStat F :=
  match tracked ps.pid with
  | none => ps
  | some tr => (scoreOne cfg damonOn k tr ps).2.1

theorem scoreFor_of_track {cfg : Config F} {damonOn : Bool} {k : Answers F} {tracked : Tracks}
    {ps : ProcessStat F} {tr : Track} (h : tracked ps.pid = some tr) :
    scoreFor cfg damonOn k tracked ps = (scoreOne cfg damonOn k tr ps).2.1 := by
  rw [scoreFor, h]

theorem scoreFor_pid (cfg : Config F) (damonOn : Bool) (k : Answers F) (tracked : Tracks)
    (ps : ProcessStat F) : (scoreFor cfg damonOn k tracked ps).pid = ps.pid := by
  unfold scoreFor
  split
  · rfl
  · exact (scoreOne_spec cfg damonOn k _ ps).2.1

theorem scoreList_spec (cfg : Config F) (damonOn : Bool) (k : Answers F) (tracked : Tracks)
    {l : List (ProcessStat F)} (hnodup : (l.map (·.pid)).Nodup) :
    (scoreList cfg damonOn k tracked l).2.1 = l.map (scoreFor cfg damonOn k tracked) ∧
      (∀ q, q ∉ l.map (·.pid) → (scoreList cfg damonOn k tracked l).1 q = tracked q) ∧
      ∀ ps ∈ l, (scoreList cfg damonOn k tracked l).1 ps.pid =
        (tracked ps.pid).map fun tr => (scoreOne cfg damonOn k tr ps).1 := by
  induction l generalizing tracked with
  | nil => simp [scoreList]
  | cons ps l ih =>
      obtain ⟨hnot, hrest⟩ := List.nodup_cons.mp hnodup
      have hapart : ∀ ps' ∈ l, ps'.pid ≠ ps.pid :=
        fun ps' h he => hnot (List.mem_map.mpr ⟨ps', h, he⟩)
      unfold scoreList
      cases htr : tracked ps.pid with
      | none =>
          obtain ⟨hmap, hout, hin⟩ := ih tracked hrest
          dsimp only
          refine ⟨by rw [hmap, List.map_cons, scoreFor, htr], fun q hq => ?_, fun ps' h => ?_⟩
          · exact hout q (not_or.mp (mt List.mem_cons.mpr hq)).2
          · rcases List.mem_cons.mp h with rfl | h
            · rw [hout _ hnot, htr]
              rfl
            · exact hin ps' h
      | some tr =>
          have hother : ∀ q, q ≠ ps.pid → Function.update tracked ps.pid
              (some (scoreOne cfg damonOn k tr ps).1) q = tracked q :=
            fun q hq => Function.update_of_ne hq _ _
          obtain ⟨hmap, hout, hin⟩ := ih
            (Function.update tracked ps.pid (some (scoreOne cfg damonOn k tr ps).1)) hrest
          dsimp only
          refine ⟨?_, fun q hq => ?_, fun ps' h => ?_⟩
          · rw [hmap, List.map_cons, scoreFor_of_track htr]
            refine congrArg _ (List.map_congr_left fun ps' h => ?_)
            rw [scoreFor, scoreFor, hother _ (hapart ps' h)]
          · obtain ⟨hne, hq⟩ := not_or.mp (mt List.mem_cons.mpr hq)
            rw [hout q hq, hother q hne]
          · rcases List.mem_cons.mp h with rfl | h
            · rw [hout _ hnot, Function.update_self, htr]
              rfl
            · rw [hin ps' h, hother _ (hapart ps' h)]

def clearsFor (cfg : Config F) (damonOn : Bool) (k : Answers F) (tracked : Tracks)
    (ps : ProcessStat F) : List (Event F) :=
  match tracked ps.pid with
  | none => []
  | some tr => (sampleOne cfg damonOn k tr ps).2.2

theorem scoreList_events_eq (cfg : Config F) (damonOn : Bool) (k : Answers F)
    {l : List (ProcessStat F)} {tracked : Tracks} (hnodup : (l.map (·.pid)).Nodup) :
    (scoreList cfg damonOn k tracked l).2.2 = l.flatMap (clearsFor cfg damonOn k tracked) := by
  induction l generalizing tracked with
  | nil => rfl
  | cons ps l ih =>
      obtain ⟨hnot, hrest⟩ := List.nodup_cons.mp hnodup
      unfold scoreList
      rw [List.flatMap_cons]
      cases htr : tracked ps.pid with
      | none =>
          dsimp only
          rw [ih hrest, clearsFor, htr]
          rfl
      | some tr =>
          dsimp only
          rw [ih hrest, scoreOne_events]
          refine congrArg₂ _ (by rw [clearsFor, htr]) (List.flatMap_congr fun ps' h => ?_)
          have hne : ps'.pid ≠ ps.pid := fun he => hnot (List.mem_map.mpr ⟨ps', h, he⟩)
          rw [clearsFor, clearsFor, Function.update_of_ne hne]

/-- There are no targets per process: DAMON's sampling only keeps its list of targets. -/
theorem damonSample_eq (cfg : Config F) (e : Engine F) :
    damonSample cfg e = { e with damonTargets := (damonSample cfg e).damonTargets } := rfl

theorem computeScores_eq (cfg : Config F) (e : Engine F) (k : Answers F) :
    (computeScores cfg e k).1.tracked = (scoreList cfg e.damonOn k e.tracked e.snapshot).1 ∧
      (computeScores cfg e k).1.snapshot =
        (scoreList cfg e.damonOn k e.tracked e.snapshot).2.1 ∧
      (computeScores cfg e k).2 = (scoreList cfg e.damonOn k e.tracked e.snapshot).2.2 := by
  unfold computeScores
  cases hon : e.damonOn with
  | false =>
      dsimp only
      rw [if_neg (by simp), hon]
      exact ⟨rfl, rfl, rfl⟩
  | true =>
      dsimp only
      rw [if_pos rfl, damonSample_eq]
      dsimp only
      rw [hon]
      exact ⟨rfl, rfl, rfl⟩

end

end Memflux.Core
