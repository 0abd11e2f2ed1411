import Memflux.Core.Cooldown
import Memflux.Core.Window

/-! # Reuse of a process id

The table of tracks is never pruned, so a process starts with the record that an
earlier one left under its id. Two engines that agree on what a later cycle reads of
that record, and on everything else, decide alike about all later processes.
-/

namespace Memflux.Core

open Double EarlyExit

section

variable {F : Type} [Double F] {pid : Nat} {damonOn : Bool}

/-! ## Two tables -/

/-- Two tables that agree on every other process; under `pid` they have one cooldown,
and unless DAMON took over, a sampling was counted in both or in neither. -/
structure Alike (pid : Nat) (damonOn : Bool) (a b : Tracks) : Prop where
  others : ∀ q, q ≠ pid → b q = a q
  cooldown : cool b pid = cool a pid
  sampled : damonOn = false → (samplings b pid = 0 ↔ samplings a pid = 0)
  counted : 0 ≤ samplings a pid ∧ 0 ≤ samplings b pid

theorem foldl_scanOne_others (k : Answers F) (l : List (Nat × ProcStat))
    {st st' : Tracks × List (ProcessStat F)} (h : ∀ q, q ≠ pid → st'.1 q = st.1 q) :
    ∀ q, q ≠ pid → (l.foldl (scanOne k) st').1 q = (l.foldl (scanOne k) st).1 q := by
  induction l generalizing st st' with
  | nil => exact h
  | cons entry l ih =>
      refine ih fun q hq => ?_
      rw [scanOne_eq, scanOne_eq]
      split
      · exact h q hq
      · dsimp only
        by_cases he : q = entry.1
        · subst he
          rw [Function.update_self, Function.update_self, h _ hq]
        · rw [Function.update_of_ne he, Function.update_of_ne he, h q hq]

/-- The scan leaves alone the records of processes that are not there. -/
theorem beginCycle_absent {e : Engine F} {k : Answers F} {q : Nat}
    (hq : q ∉ k.procs.map Prod.fst) : (beginCycle e k).tracked q = e.tracked q := by
  show (k.procs.foldl (scanOne k) (e.tracked, [])).1 q = e.tracked q
  generalize ([] : List (ProcessStat F)) = snapshot
  generalize e.tracked = tracked
  generalize k.procs = l at hq ⊢
  induction l generalizing tracked snapshot with
  | nil => rfl
  | cons entry l ih =>
      rw [List.map_cons, List.mem_cons, not_or] at hq
      rw [List.foldl_cons, scanOne_eq]
      split
      · exact ih _ _ hq.2
      · rw [ih _ _ hq.2]
        exact Function.update_of_ne hq.1 _ _

theorem Alike.scan {e₁ e₂ : Engine F} (h : Alike pid damonOn e₁.tracked e₂.tracked) (k : Answers F) :
    Alike pid damonOn (beginCycle e₁ k).tracked (beginCycle e₂ k).tracked where
  others := foldl_scanOne_others k k.procs h.others
  cooldown := by rw [beginCycle_cool, beginCycle_cool, h.cooldown]
  sampled hoff := by rw [beginCycle_samplings, beginCycle_samplings, h.sampled hoff]
  counted := by
    rw [beginCycle_samplings, beginCycle_samplings]
    exact h.counted

/-- What the thrash guard does to one record. -/
def guardTrack (n : Nat) (tr : Track) : Track :=
  if 20000 < n ∧ tr.cooldown > 0 then { tr with cooldown := max tr.cooldown 20 } else tr

theorem guardFaults_apply (tracked : Tracks) (entry : Nat × Nat) (q : Nat) :
    guardFaults tracked entry q =
      if q = entry.1 then (tracked q).map (guardTrack entry.2) else tracked q := by
  unfold guardFaults guardTrack
  by_cases hq : q = entry.1
  · subst hq
    rw [if_pos rfl]
    cases htr : tracked entry.1 with
    | none => exact htr
    | some tr =>
        rw [Option.map_some]
        dsimp only
        by_cases hraise : 20000 < entry.2 ∧ tr.cooldown > 0
        · rw [if_pos hraise, if_pos hraise, Function.update_self]
        · rw [if_neg hraise, if_neg hraise, htr]
  · rw [if_neg hq]
    cases tracked entry.1 with
    | none => rfl
    | some tr =>
        dsimp only
        split
        · rw [Function.update_of_ne hq]
        · rfl

theorem guardFaults_cool (tracked : Tracks) (entry : Nat × Nat) (q : Nat) :
    cool (guardFaults tracked entry) q =
      if q = entry.1 ∧ 20000 < entry.2 ∧ cool tracked q > 0 then max (cool tracked q) 20
      else cool tracked q := by
  unfold cool
  rw [guardFaults_apply]
  by_cases hq : q = entry.1
  · rw [if_pos hq]
    cases tracked q with
    | none => simp
    | some tr =>
        rw [Option.map_some, Option.getD_some, Option.getD_some, guardTrack]
        split
        · rename_i hboth
          rw [if_pos ⟨hq, hboth⟩]
        · rename_i hnot
          rw [if_neg fun h => hnot h.2]
  · rw [if_neg hq, if_neg fun h => hq h.1]

theorem Alike.guardFaults {a b : Tracks} (h : Alike pid damonOn a b) (l : List (Nat × Nat)) :
    Alike pid damonOn (l.foldl guardFaults a) (l.foldl guardFaults b) := by
  induction l generalizing a b with
  | nil => exact h
  | cons entry l ih =>
      refine ih ⟨fun q hq => ?_, ?_, fun hoff => ?_, ?_⟩
      · rw [guardFaults_apply, guardFaults_apply, h.others q hq]
      · rw [guardFaults_cool, guardFaults_cool, h.cooldown]
      · rw [(guardFaults_samplings a entry pid).1, (guardFaults_samplings b entry pid).1,
          h.sampled hoff]
      · rw [(guardFaults_samplings a entry pid).1, (guardFaults_samplings b entry pid).1]
        exact h.counted

theorem Alike.retrack {a b : Tracks} (h : Alike pid damonOn a b) (cfg : Config F) (k : Answers F)
    (ps : ProcessStat F) : Alike pid damonOn (retrack cfg k a ps) (retrack cfg k b ps) := by
  have hsame : ∀ t : Tracks, samplings (Memflux.Core.retrack cfg k t ps) pid = samplings t pid := by
    intro t
    unfold Memflux.Core.retrack samplings
    split
    · by_cases hq : pid = ps.pid
      · subst hq
        rw [Function.update_self]
        rfl
      · rw [Function.update_of_ne hq]
    · rfl
  refine ⟨fun q hq => ?_, ?_, fun hoff => ?_, ?_⟩
  · unfold Memflux.Core.retrack
    split
    · by_cases he : q = ps.pid
      · subst he
        rw [Function.update_self, Function.update_self, h.others _ hq]
      · rw [Function.update_of_ne he, Function.update_of_ne he, h.others q hq]
    · exact h.others q hq
  · rw [retrack_cool, retrack_cool, h.cooldown]
  · rw [hsame, hsame, h.sampled hoff]
  · rw [hsame, hsame]
    exact h.counted

/-! ## Scores -/

/-- The process without the one value of its record that is only displayed. -/
def forget (pid : Nat) (ps : ProcessStat F) : ProcessStat F :=
  if ps.pid = pid then { ps with wsPrevKb := 0 } else ps

theorem forget_keeps (cfg : Config F) (pid : Nat) (ps : ProcessStat F) :
    (forget pid ps).pid = ps.pid ∧ (forget pid ps).score = ps.score ∧
      rawScore cfg (forget pid ps) = rawScore cfg ps ∧ eligible cfg (forget pid ps) = eligible cfg ps := by
  unfold forget
  split <;> exact ⟨rfl, rfl, rfl, rfl⟩

theorem forget_setScore {ps ps' : ProcessStat F} (h : forget pid ps' = forget pid ps) (x : F) :
    forget pid { ps' with score := x } = forget pid { ps with score := x } := by
  have hset : ∀ p : ProcessStat F,
      forget pid { p with score := x } = { forget pid p with score := x } := by
    intro p
    unfold forget
    by_cases hp : p.pid = pid
    · rw [if_pos hp, if_pos hp]
    · rw [if_neg hp, if_neg hp]
  exact (hset ps').trans ((congrArg (fun p => { p with score := x }) h).trans (hset ps).symm)

theorem sampleOne_alike (cfg : Config F) (k : Answers F) {tr tr' : Track} {ps : ProcessStat F}
    (hpid : ps.pid = pid) (hsampled : damonOn = false → (tr'.samples = 0 ↔ tr.samples = 0)) :
    forget pid (sampleOne cfg damonOn k tr' ps).2.1 = forget pid (sampleOne cfg damonOn k tr ps).2.1 ∧
      (sampleOne cfg damonOn k tr' ps).2.2 = (sampleOne cfg damonOn k tr ps).2.2 := by
  unfold sampleOne
  by_cases hlarge : damonOn = false ∧ cfg.minAnonKb / 2 < ps.anonKb
  · rw [if_pos hlarge, if_pos hlarge]
    by_cases hfirst : tr.samples = 0
    · rw [if_pos hfirst, if_pos ((hsampled hlarge.1).mpr hfirst)]
      exact ⟨rfl, rfl⟩
    · rw [if_neg hfirst, if_neg fun h => hfirst ((hsampled hlarge.1).mp h)]
      dsimp only
      split
      · refine ⟨?_, rfl⟩
        unfold forget
        rw [if_pos hpid, if_pos hpid]
      · exact ⟨rfl, rfl⟩
  · rw [if_neg hlarge, if_neg hlarge]
    split <;> exact ⟨rfl, rfl⟩

theorem sampleOne_count (cfg : Config F) (k : Answers F) (tr : Track) (ps : ProcessStat F) :
    (sampleOne cfg damonOn k tr ps).1.samples =
      tr.samples + if damonOn = false ∧ cfg.minAnonKb / 2 < ps.anonKb then 1 else 0 := by
  rcases sampleOne_samples cfg damonOn k tr ps with ⟨hoff, hlarge, hcount, -⟩ | ⟨hnot, hcount, -⟩
  · rw [hcount, if_pos ⟨hoff, hlarge⟩]
  · rw [hcount, if_neg hnot, Int.add_zero]

theorem scoreOne_process (cfg : Config F) (k : Answers F) (tr : Track) (ps : ProcessStat F) :
    (scoreOne cfg damonOn k tr ps).2.1 =
      { (sampleOne cfg damonOn k tr ps).2.1 with
        score := if tr.cooldown > 0 then zero else rawScore cfg (sampleOne cfg damonOn k tr ps).2.1 } := by
  rw [scoreOne_eq]
  dsimp only
  rw [(sampleOne_keeps cfg damonOn k tr ps).1]
  split <;> rfl

theorem scoreOne_alike (cfg : Config F) (k : Answers F) {tr tr' : Track} {ps : ProcessStat F}
    (hpid : ps.pid = pid) (hcool : tr'.cooldown = tr.cooldown)
    (hsampled : damonOn = false → (tr'.samples = 0 ↔ tr.samples = 0)) :
    forget pid (scoreOne cfg damonOn k tr' ps).2.1 = forget pid (scoreOne cfg damonOn k tr ps).2.1 := by
  obtain ⟨hforget, -⟩ := sampleOne_alike cfg k hpid hsampled
  have hraw : rawScore cfg (sampleOne cfg damonOn k tr' ps).2.1 =
      rawScore cfg (sampleOne cfg damonOn k tr ps).2.1 := by
    rw [← (forget_keeps cfg pid _).2.2.1, hforget, (forget_keeps cfg pid _).2.2.1]
  rw [scoreOne_process, scoreOne_process, hcool, hraw]
  exact forget_setScore hforget _

theorem Alike.track {a b : Tracks} (h : Alike pid damonOn a b) {ps : ProcessStat F} {tr tr' : Track}
    (hpid : ps.pid = pid) (ha : a ps.pid = some tr) (hb : b ps.pid = some tr') :
    tr'.cooldown = tr.cooldown ∧ (damonOn = false → (tr'.samples = 0 ↔ tr.samples = 0)) := by
  obtain ⟨-, hcool, hsampled, -⟩ := h
  rw [hpid] at ha hb
  unfold cool at hcool
  unfold samplings at hsampled
  rw [ha, hb] at hcool hsampled
  exact ⟨hcool, hsampled⟩

theorem samplings_scoreList (cfg : Config F) (on : Bool) (k : Answers F) {tracked : Tracks}
    {snapshot : List (ProcessStat F)} (hnodup : (snapshot.map (·.pid)).Nodup) {ps : ProcessStat F}
    (hps : ps ∈ snapshot) {tr : Track} (htr : tracked ps.pid = some tr) :
    samplings (scoreList cfg on k tracked snapshot).1 ps.pid =
      tr.samples + if on = false ∧ cfg.minAnonKb / 2 < ps.anonKb then 1 else 0 := by
  obtain ⟨-, -, hin⟩ := scoreList_spec cfg on k tracked hnodup
  rw [samplings, hin ps hps, htr, Option.map_some, Option.getD_some, scoreOne_samples,
    sampleOne_count]

theorem scoreList_alike (cfg : Config F) (on : Bool) (k : Answers F) {t₁ t₂ : Tracks}
    {snapshot : List (ProcessStat F)} (hnodup : (snapshot.map (·.pid)).Nodup)
    (hpair : ∀ ps ∈ snapshot, ∃ tr tr', t₁ ps.pid = some tr ∧ t₂ ps.pid = some tr')
    (h : Alike pid on t₁ t₂) :
    Alike pid on (scoreList cfg on k t₁ snapshot).1 (scoreList cfg on k t₂ snapshot).1 := by
  obtain ⟨-, hout₁, hin₁⟩ := scoreList_spec cfg on k t₁ hnodup
  obtain ⟨-, hout₂, hin₂⟩ := scoreList_spec cfg on k t₂ hnodup
  have hothers : ∀ q, q ≠ pid → (scoreList cfg on k t₂ snapshot).1 q =
      (scoreList cfg on k t₁ snapshot).1 q := by
    intro q hq
    by_cases hscan : q ∈ snapshot.map (·.pid)
    · obtain ⟨ps, hps, rfl⟩ := List.mem_map.mp hscan
      rw [hin₁ ps hps, hin₂ ps hps, h.others _ hq]
    · rw [hout₁ q hscan, hout₂ q hscan, h.others q hq]
  by_cases hscan : pid ∈ snapshot.map (·.pid)
  · obtain ⟨ps, hps, rfl⟩ := List.mem_map.mp hscan
    obtain ⟨tr, tr', htr, htr'⟩ := hpair ps hps
    obtain ⟨hcool, hsampled⟩ := h.track rfl htr htr'
    have hcounted := h.counted
    unfold samplings at hcounted
    rw [htr, htr', Option.getD_some, Option.getD_some] at hcounted
    have hcount₁ := samplings_scoreList cfg on k hnodup hps htr
    have hcount₂ := samplings_scoreList cfg on k hnodup hps htr'
    refine ⟨hothers, ?_, fun hoff => ?_, ?_⟩
    · rw [cool, cool, hin₁ ps hps, hin₂ ps hps, htr, htr', Option.map_some, Option.map_some,
        Option.getD_some, Option.getD_some, (scoreOne_spec cfg on k tr ps).1,
        (scoreOne_spec cfg on k tr' ps).1, hcool]
    · have hiff := hsampled hoff
      rw [hcount₁, hcount₂]
      split <;> omega
    · rw [hcount₁, hcount₂]
      split <;> omega
  · obtain ⟨-, hcool, hsampled, hcounted⟩ := h
    unfold cool at hcool
    unfold samplings at hsampled hcounted
    refine ⟨hothers, ?_, ?_, ?_⟩
    · rw [cool, cool, hout₁ pid hscan, hout₂ pid hscan, hcool]
    · rw [samplings, samplings, hout₁ pid hscan, hout₂ pid hscan]
      exact hsampled
    · rw [samplings, samplings, hout₁ pid hscan, hout₂ pid hscan]
      exact hcounted

theorem scoreFor_alike (cfg : Config F) (on : Bool) (k : Answers F) {t₁ t₂ : Tracks}
    {ps : ProcessStat F} {tr tr' : Track} (htr : t₁ ps.pid = some tr) (htr' : t₂ ps.pid = some tr')
    (h : Alike pid on t₁ t₂) :
    forget pid (scoreFor cfg on k t₂ ps) = forget pid (scoreFor cfg on k t₁ ps) := by
  rw [scoreFor_of_track htr, scoreFor_of_track htr']
  by_cases hpid : ps.pid = pid
  · obtain ⟨hcool, hsampled⟩ := h.track hpid htr htr'
    exact scoreOne_alike cfg k hpid hcool hsampled
  · rw [h.others _ hpid, htr] at htr'
    cases htr'
    rfl

theorem clearsFor_alike (cfg : Config F) (on : Bool) (k : Answers F) {t₁ t₂ : Tracks}
    {ps : ProcessStat F} {tr tr' : Track} (htr : t₁ ps.pid = some tr) (htr' : t₂ ps.pid = some tr')
    (h : Alike pid on t₁ t₂) : clearsFor cfg on k t₂ ps = clearsFor cfg on k t₁ ps := by
  rw [clearsFor, clearsFor, htr, htr']
  dsimp only
  by_cases hpid : ps.pid = pid
  · exact (sampleOne_alike cfg k hpid (h.track hpid htr htr').2).2
  · rw [h.others _ hpid, htr] at htr'
    cases htr'
    rfl

theorem computeScores_alike (cfg : Config F) (k : Answers F) {e₁ e₂ : Engine F}
    (hon : e₂.damonOn = e₁.damonOn) (hsnap : e₂.snapshot = e₁.snapshot)
    (hnodup : (e₁.snapshot.map (·.pid)).Nodup)
    (htracked : ∀ ps ∈ e₁.snapshot, e₁.tracked ps.pid ≠ none ∧ e₂.tracked ps.pid ≠ none)
    (h : Alike pid e₁.damonOn e₁.tracked e₂.tracked) :
    Alike pid e₁.damonOn (computeScores cfg e₁ k).1.tracked (computeScores cfg e₂ k).1.tracked ∧
      (computeScores cfg e₂ k).1.snapshot.map (forget pid) =
        (computeScores cfg e₁ k).1.snapshot.map (forget pid) ∧
      (computeScores cfg e₂ k).2 = (computeScores cfg e₁ k).2 := by
  obtain ⟨htab₁, hlist₁, hev₁⟩ := computeScores_eq cfg e₁ k
  obtain ⟨htab₂, hlist₂, hev₂⟩ := computeScores_eq cfg e₂ k
  rw [hon, hsnap] at htab₂ hlist₂ hev₂
  generalize e₁.snapshot = snapshot at *
  generalize e₁.damonOn = on at *
  have hmap₁ := (scoreList_spec cfg on k e₁.tracked hnodup).1
  have hmap₂ := (scoreList_spec cfg on k e₂.tracked hnodup).1
  have hpair : ∀ ps ∈ snapshot, ∃ tr tr', e₁.tracked ps.pid = some tr ∧ e₂.tracked ps.pid = some tr' := by
    intro ps hps
    obtain ⟨tr, htr⟩ := Option.ne_none_iff_exists'.mp (htracked ps hps).1
    obtain ⟨tr', htr'⟩ := Option.ne_none_iff_exists'.mp (htracked ps hps).2
    exact ⟨tr, tr', htr, htr'⟩
  refine ⟨?_, ?_, ?_⟩
  · rw [htab₁, htab₂]
    exact scoreList_alike cfg on k hnodup hpair h
  · rw [hlist₁, hlist₂, hmap₁, hmap₂, List.map_map, List.map_map]
    refine List.map_congr_left fun ps hps => ?_
    obtain ⟨tr, tr', htr, htr'⟩ := hpair ps hps
    exact scoreFor_alike cfg on k htr htr' h
  · rw [hev₁, hev₂, scoreList_events_eq cfg on k hnodup, scoreList_events_eq cfg on k hnodup]
    refine List.flatMap_congr fun ps hps => ?_
    obtain ⟨tr, tr', htr, htr'⟩ := hpair ps hps
    exact clearsFor_alike cfg on k htr htr' h

/-! ## Actions -/

/-- `std::sort` moves the candidates by their scores only. -/
def Answers.SortsByScore (k : Answers F) : Prop :=
  ∀ f : ProcessStat F → ProcessStat F, (∀ ps, (f ps).score = ps.score) →
    ∀ l, k.sort (l.map f) = (k.sort l).map f

theorem candidates_forget (cfg : Config F) {k : Answers F} (hsort : k.SortsByScore)
    (l : List (ProcessStat F)) :
    candidates cfg k (l.map (forget pid)) = (candidates cfg k l).map (forget pid) := by
  have hfilter : (l.map (forget pid)).filter (eligible cfg) =
      (l.filter (eligible cfg)).map (forget pid) := by
    rw [List.filter_map]
    refine congrArg _ (List.filter_congr fun ps _ => ?_)
    exact (forget_keeps cfg pid ps).2.2.2
  rw [candidates, hfilter, hsort _ fun ps => (forget_keeps cfg pid ps).2.1]
  rfl

theorem tryTarget_forget (cfg : Config F) (k : Answers F) (s : Acting F) (ps : ProcessStat F) :
    tryTarget cfg k s (forget pid ps) = tryTarget cfg k s ps := by
  unfold forget
  split <;> rfl

/-- Two states of the loop over the candidates that it does not tell apart. -/
structure ActsAlike (pid : Nat) (damonOn : Bool) (s s' : Acting F) : Prop where
  tracked : Alike pid damonOn s.tracked s'.tracked
  total : s'.total = s.total
  acted : s'.acted = s.acted

theorem ActsAlike.tryTarget {s s' : Acting F} (h : ActsAlike pid damonOn s s') (cfg : Config F)
    (k : Answers F) (ps : ProcessStat F) :
    ActsAlike pid damonOn (tryTarget cfg k s ps) (tryTarget cfg k s' ps) := by
  rw [tryTarget_eq, tryTarget_eq, h.total, h.acted]
  exact ⟨h.tracked.retrack cfg k ps, rfl, rfl⟩

theorem runActions_alike (cfg : Config F) {k : Answers F} (hsort : k.SortsByScore) {e₁ e₂ : Engine F}
    (hsnap : e₂.snapshot.map (forget pid) = e₁.snapshot.map (forget pid))
    (h : Alike pid damonOn e₁.tracked e₂.tracked) :
    Alike pid damonOn (runActions cfg e₁ k).engine.tracked (runActions cfg e₂ k).engine.tracked := by
  have hloop : ∀ e : Engine F, (runActions cfg e k).engine.tracked =
      (loopUntil (Acting.done cfg) (tryTarget cfg k) (.start e)
        (candidates cfg k (e.snapshot.map (forget pid)))).tracked := by
    intro e
    rw [candidates_forget cfg hsort, loopUntil_map (tryTarget_forget cfg k)]
    rfl
  rw [hloop, hloop, hsnap]
  have hstart : ActsAlike pid damonOn (.start e₁) (.start e₂) := ⟨h, rfl, rfl⟩
  refine (loopUntil_related (fun s s' hs => ?_) (fun s s' ps hs => hs.tryTarget cfg k ps) hstart _).1
  rw [Acting.done, Acting.done, hs.total, hs.acted]

/-! ## Cycles -/

/-- Two engines between which only the record of one process differs, and in nothing
that a later cycle reads. -/
structure SameFor (pid : Nat) (e₁ e₂ : Engine F) : Prop where
  damonOn : e₂.damonOn = e₁.damonOn
  ebpfOn : e₂.ebpfOn = e₁.ebpfOn
  tracked : Alike pid e₁.damonOn e₁.tracked e₂.tracked

theorem Alike.mono {a b : Tracks} {on : Bool} (h : Alike pid damonOn a b)
    (hon : on = false → damonOn = false) : Alike pid on a b :=
  ⟨h.others, h.cooldown, fun hoff => h.sampled (hon hoff), h.counted⟩

theorem SameFor.begin {e₁ e₂ : Engine F} (h : SameFor pid e₁ e₂) (k : Answers F) :
    SameFor pid (beginCycle e₁ k) (beginCycle e₂ k) :=
  ⟨h.damonOn, h.ebpfOn, h.tracked.scan k⟩

theorem SameFor.damonInit {e₁ e₂ : Engine F} (h : SameFor pid e₁ e₂) (cfg : Config F)
    (dc : DamonConfig) (k : Answers F) :
    SameFor pid (damonInit cfg dc e₁ k).1 (damonInit cfg dc e₂ k).1 := by
  unfold Memflux.Core.damonInit
  rw [h.damonOn]
  split
  · rename_i hoff
    exact ⟨rfl, h.ebpfOn, h.tracked.mono fun _ => hoff.1⟩
  · exact h

theorem SameFor.ebpfInit {e₁ e₂ : Engine F} (h : SameFor pid e₁ e₂) (k : Answers F) :
    SameFor pid (ebpfInit e₁ k) (ebpfInit e₂ k) := by
  unfold Memflux.Core.ebpfInit
  rw [h.ebpfOn]
  split
  · exact ⟨h.damonOn, rfl, h.tracked⟩
  · exact h

theorem SameFor.thrashGuard {e₁ e₂ : Engine F} (h : SameFor pid e₁ e₂) (k : Answers F) :
    SameFor pid (thrashGuard e₁ k) (thrashGuard e₂ k) := by
  unfold Memflux.Core.thrashGuard
  rw [h.ebpfOn]
  split
  · exact ⟨h.damonOn, rfl, h.tracked.guardFaults k.faults⟩
  · exact h

theorem SameFor.open {e₁ e₂ : Engine F} (h : SameFor pid e₁ e₂) (cfg : Config F) (k : Answers F) :
    SameFor pid (openCycle cfg e₁ k).1 (openCycle cfg e₂ k).1 :=
  ((h.begin k).damonInit cfg (cycleDamonConfig cfg) k).ebpfInit k

theorem SameFor.scoring {e₁ e₂ : Engine F} (h : SameFor pid e₁ e₂) (cfg : Config F) (k : Answers F)
    (c : Call) : SameFor pid (scoringEngine cfg e₁ k c) (scoringEngine cfg e₂ k c) := by
  cases c with
  | run => exact (h.open cfg k).thrashGuard k
  | force => exact (h.begin k).damonInit cfg {} k

theorem computeScores_backends (cfg : Config F) (e : Engine F) (k : Answers F) :
    (computeScores cfg e k).1.damonOn = e.damonOn ∧ (computeScores cfg e k).1.ebpfOn = e.ebpfOn := by
  unfold computeScores
  dsimp only
  split <;> exact ⟨rfl, rfl⟩

theorem SameFor.scored {e₁ e₂ : Engine F} (h : SameFor pid e₁ e₂) (st : Step F) :
    SameFor pid (computeScores st.cfg (scoringEngine st.cfg e₁ st.answers st.call) st.answers).1
        (computeScores st.cfg (scoringEngine st.cfg e₂ st.answers st.call) st.answers).1 ∧
      (computeScores st.cfg (scoringEngine st.cfg e₂ st.answers st.call) st.answers).1.snapshot.map
          (forget pid) =
        (computeScores st.cfg (scoringEngine st.cfg e₁ st.answers st.call) st.answers).1.snapshot.map
          (forget pid) ∧
      (computeScores st.cfg (scoringEngine st.cfg e₂ st.answers st.call) st.answers).2 =
        (computeScores st.cfg (scoringEngine st.cfg e₁ st.answers st.call) st.answers).2 := by
  obtain ⟨cfg, k, c⟩ := st
  obtain ⟨hon, hebpf, htracked⟩ := h.scoring cfg k c
  have hsnap₁ := scoringEngine_snapshot cfg e₁ k c
  have hsnap₂ := scoringEngine_snapshot cfg e₂ k c
  have hsame : (beginCycle e₂ k).snapshot = (beginCycle e₁ k).snapshot := by
    rw [beginCycle_snapshot, beginCycle_snapshot]
  have hnodup := beginCycle_nodup e₁ k
  have hin₁ := (scoringEngine_samplings cfg e₁ k c).2
  have hin₂ := (scoringEngine_samplings cfg e₂ k c).2
  rw [hsame] at hsnap₂ hin₂
  rw [← hsnap₁] at hnodup hsnap₂ hin₁ hin₂
  obtain ⟨htab, hlist, hev⟩ := computeScores_alike cfg k hon hsnap₂ hnodup
    (fun ps hps => ⟨hin₁ ps hps, hin₂ ps hps⟩) htracked
  obtain ⟨hon₁, hebpf₁⟩ := computeScores_backends cfg (scoringEngine cfg e₁ k c) k
  obtain ⟨hon₂, hebpf₂⟩ := computeScores_backends cfg (scoringEngine cfg e₂ k c) k
  refine ⟨⟨?_, ?_, ?_⟩, hlist, hev⟩
  · rw [hon₁, hon₂, hon]
  · rw [hebpf₁, hebpf₂, hebpf]
  · rw [hon₁]
    exact htab

theorem SameFor.prepared {e₁ e₂ : Engine F} (h : SameFor pid e₁ e₂) (st : Step F) :
    SameFor pid (prepare st.cfg e₁ st.answers st.call).1 (prepare st.cfg e₂ st.answers st.call).1 ∧
      (prepare st.cfg e₂ st.answers st.call).1.snapshot.map (forget pid) =
        (prepare st.cfg e₁ st.answers st.call).1.snapshot.map (forget pid) := by
  cases hscores : scores st.answers st.call with
  | false =>
      rw [prepare_of_not_scores _ _ hscores, prepare_of_not_scores _ _ hscores]
      refine ⟨h.open st.cfg st.answers, ?_⟩
      rw [(openCycle_keeps st.cfg e₁ st.answers).2, (openCycle_keeps st.cfg e₂ st.answers).2,
        beginCycle_snapshot, beginCycle_snapshot]
  | true =>
      rw [prepare_of_scores _ _ hscores, prepare_of_scores _ _ hscores]
      obtain ⟨hsame, hlist, -⟩ := h.scored st
      exact ⟨hsame, hlist⟩

theorem SameFor.outcome {e₁ e₂ : Engine F} (h : SameFor pid e₁ e₂) {st : Step F}
    (hsort : st.answers.SortsByScore) :
    SameFor pid (st.outcome e₁).engine (st.outcome e₂).engine := by
  obtain ⟨hsame, hlist⟩ := h.prepared st
  cases hacts : acts st.cfg st.answers st.call with
  | false =>
      rw [Step.outcome, Step.outcome, cycle_of_not_acts hacts, cycle_of_not_acts hacts]
      exact hsame
  | true =>
      rw [Step.outcome, Step.outcome, cycle_of_acts hacts, cycle_of_acts hacts]
      exact ⟨hsame.damonOn, hsame.ebpfOn, runActions_alike st.cfg hsort hlist hsame.tracked⟩

theorem SameFor.play {e₁ e₂ : Engine F} (h : SameFor pid e₁ e₂) {l : List (Step F)}
    (hsort : ∀ st ∈ l, st.answers.SortsByScore) : SameFor pid (play e₁ l) (play e₂ l) := by
  induction l generalizing e₁ e₂ with
  | nil => exact h
  | cons st l ih =>
      exact ih (h.outcome (hsort st List.mem_cons_self)) fun st' hst =>
        hsort st' (List.mem_cons_of_mem _ hst)

/-! ## What a cycle decides about a process -/

/-- Whether the process is sampled, whether that clears its bits, and its score and
whether it is eligible. -/
structure Decisions (F : Type) [Double F] where
  samples : Bool
  clears : Bool
  entries : List (F × Bool)

def decisions (e : Engine F) (st : Step F) (pid : Nat) : Decisions F where
  samples := sampled e st pid
  clears := (st.outcome e).events.any (Event.clears pid)
  entries := ((st.outcome e).engine.snapshot.filter fun ps => decide (ps.pid = pid)).map fun ps =>
    (ps.score, eligible st.cfg ps)

theorem entries_forget (cfg : Config F) (l : List (ProcessStat F)) :
    ((l.map (forget pid)).filter fun ps => decide (ps.pid = pid)).map
        (fun ps => (ps.score, eligible cfg ps)) =
      (l.filter fun ps => decide (ps.pid = pid)).map fun ps => (ps.score, eligible cfg ps) := by
  rw [List.filter_map, List.map_map]
  have hfilter : l.filter ((fun ps => decide (ps.pid = pid)) ∘ forget pid) =
      l.filter fun ps => decide (ps.pid = pid) :=
    List.filter_congr fun ps _ => by
      show decide ((forget pid ps).pid = pid) = decide (ps.pid = pid)
      rw [(forget_keeps cfg pid ps).1]
  rw [hfilter]
  refine List.map_congr_left fun ps _ => ?_
  obtain ⟨-, hscore, -, helig⟩ := forget_keeps cfg pid ps
  exact Prod.ext hscore helig

theorem SameFor.decisions {e₁ e₂ : Engine F} (h : SameFor pid e₁ e₂) (st : Step F) :
    decisions e₂ st pid = decisions e₁ st pid := by
  have hsnap : (beginCycle e₂ st.answers).snapshot = (beginCycle e₁ st.answers).snapshot := by
    rw [beginCycle_snapshot, beginCycle_snapshot]
  have hsamples : sampled e₂ st pid = sampled e₁ st pid := by
    unfold sampled
    rw [hsnap, (h.damonInit st.cfg {} st.answers).damonOn]
  have hclears : (st.outcome e₂).events.any (Event.clears pid) =
      (st.outcome e₁).events.any (Event.clears pid) := by
    rw [outcome_clears, outcome_clears, (h.scored st).2.2]
  have hentries := (h.prepared st).2
  rw [← (outcome_keeps e₁ st).1, ← (outcome_keeps e₂ st).1] at hentries
  unfold Memflux.Core.decisions
  rw [hsamples, hclears, ← entries_forget, hentries, entries_forget]

/-! ## Reuse -/

theorem outcome_counted {e : Engine F} (st : Step F) {q : Nat} (h : 0 ≤ samplings e.tracked q) :
    0 ≤ samplings (st.outcome e).engine.tracked q := by
  cases hs : sampled e st q with
  | true =>
      rw [(outcome_of_sampled hs).1]
      omega
  | false =>
      rw [(outcome_of_not_sampled hs).1]
      exact h

theorem play_counted {e : Engine F} {q : Nat} (h : 0 ≤ samplings e.tracked q) (l : List (Step F)) :
    0 ≤ samplings (play e l).tracked q := by
  induction l generalizing e with
  | nil => exact h
  | cons st l ih => exact ih (outcome_counted st h)

/-- Two pasts that left no difference a later cycle could read under `pid`, and none
elsewhere. -/
structure NoTrace (pid : Nat) (e₁ e₂ : Engine F) : Prop where
  damonOn : e₂.damonOn = e₁.damonOn
  ebpfOn : e₂.ebpfOn = e₁.ebpfOn
  others : ∀ q, q ≠ pid → e₂.tracked q = e₁.tracked q
  cooldown : cool e₂.tracked pid = cool e₁.tracked pid
  sampled : e₁.damonOn = false → (samplings e₂.tracked pid = 0 ↔ samplings e₁.tracked pid = 0)

/-- After two such pasts every later run decides alike about the process, in every cycle. -/
theorem reuse_alike {pid : Nat} {past past' : List (Step F)}
    (h : NoTrace pid (play {} past) (play {} past')) {l : List (Step F)}
    (hsort : ∀ st ∈ l, st.answers.SortsByScore) {l₀ l₁ : List (Step F)} {st : Step F}
    (hl : l = l₀ ++ st :: l₁) :
    decisions (play (play {} past') l₀) st pid = decisions (play (play {} past) l₀) st pid := by
  have hcount : ∀ p : List (Step F), 0 ≤ samplings (play ({} : Engine F) p).tracked pid :=
    fun p => play_counted (le_refl _) p
  have hsame : SameFor pid (play {} past) (play {} past') :=
    ⟨h.damonOn, h.ebpfOn, h.others, h.cooldown, h.sampled, hcount _, hcount _⟩
  refine (hsame.play fun st' hst => hsort st' ?_).decisions st
  rw [hl]
  exact List.mem_append_left _ hst

end

/-! ## Runs -/

def Step.forced (k : Answers ℚ) : Step ℚ := { cfg := {}, answers := k, call := .force }

def Answers.small : Answers ℚ :=
  { Answers.still with
    procs := [(2, { rssKb := 1000, anonRssKb := 1000, comm := ascii "b", ok := true })]
    distinct := by decide }

/-- The process has 100000 KiB, none of them touched since its bits were cleared. -/
def Answers.untouched : Answers ℚ :=
  { Answers.alone with
    sample := fun _ => { anonTotalKb := 100000, touchedKb := 0, regions := 1, ok := true } }

theorem still_sorts : Answers.still.SortsByScore := by
  intro f hf l
  refine (List.map_insertionSort _ _ f l fun a _ b _ => ?_).symm
  rw [hf, hf]

/-- A cycle that the crisis guard ends after the scan. -/
def Step.crisis : Step ℚ :=
  { cfg := {}, answers := { Answers.small with psi := { fullAvg10 := 1, ok := true } }, call := .run }

/-- A process that was only ever seen in a crisis leaves no trace. -/
theorem reuse_alike_crisis :
    decisions (play (play {} []) []) (Step.forced .untouched) 2 =
      decisions (play (play {} [Step.crisis]) []) (Step.forced .untouched) 2 := by
  have hscores : scores Step.crisis.answers Step.crisis.call = false := by decide +kernel
  have hacts : acts Step.crisis.cfg Step.crisis.answers Step.crisis.call = false := by decide +kernel
  have htracked : (play {} [Step.crisis]).tracked = (beginCycle {} Step.crisis.answers).tracked := by
    show (Step.crisis.outcome {}).engine.tracked = _
    rw [Step.outcome, cycle_of_not_acts hacts]
    show (prepare Step.crisis.cfg {} Step.crisis.answers Step.crisis.call).1.tracked = _
    rw [prepare_of_not_scores _ _ hscores]
    exact (openCycle_keeps _ _ _).1
  have htrace : NoTrace 2 (play {} [Step.crisis]) (play {} []) := by
    refine ⟨by decide +kernel, by decide +kernel, fun q hq => ?_, ?_, fun _ => ?_⟩
    · rw [htracked]
      exact (beginCycle_absent fun h => hq (List.mem_singleton.mp h)).symm
    · rw [htracked, beginCycle_cool]
      rfl
    · rw [htracked, beginCycle_samplings]
      exact Iff.rfl
  have hsort : ∀ st ∈ [Step.forced .untouched], st.answers.SortsByScore := by
    intro st hst
    obtain rfl := List.mem_singleton.mp hst
    exact still_sorts
  have hsplit : [Step.forced .untouched] = [] ++ Step.forced .untouched :: [] := rfl
  exact reuse_alike htrace hsort hsplit

/-- An earlier process of 100000 KiB was sampled once and left; a later one under its id
is not cleared but sampled, at once with a score that makes it eligible. Had the earlier
process been small, the later one would be cleared first. -/
theorem reuse_leaks :
    (decisions (play {} [Step.forced .alone, Step.forced .still]) (Step.forced .untouched) 2).clears =
        false ∧
      (decisions (play {} [Step.forced .alone, Step.forced .still]) (Step.forced .untouched) 2).entries =
        [(3125 / 32, true)] ∧
      (decisions (play {} [Step.forced .small, Step.forced .still]) (Step.forced .untouched) 2).clears =
        true ∧
      (decisions (play {} [Step.forced .small, Step.forced .still]) (Step.forced .untouched) 2).entries =
        [(0, false)] := by
  refine ⟨?_, ?_, ?_, ?_⟩ <;> decide +kernel

end Memflux.Core
