import Memflux.Core.Actions

/-! # The choice of targets

What `run_actions` promises about the processes it opens: they are the first ones of
those whose score and size reach the minima, best score first, and only a process that
gave memory uses up one of the slots. The configured size is shifted in 64 bits, and a
minimum that is not a number excludes nobody.
-/

namespace Memflux.Core

open Double EarlyExit

section

variable {F : Type} [Double F]

/-- Score and anonymous memory reach the configured minima. -/
def reaches (cfg : Config F) (ps : ProcessStat F) : Bool :=
  le cfg.minScore ps.score && decide (cfg.minReclaimableMb * 1024 ≤ ps.anonKb)

def yields (cfg : Config F) (k : Answers F) (ps : ProcessStat F) : Bool :=
  decide (amount cfg k ps ≠ 0)

/-- A call of `pidfd_open` and whether it succeeded. -/
def Event.opening : Event F → Option (Nat × Bool)
  | .pidfdOpen pid ok => some (pid, ok)
  | _ => none

/-- The processes in `tried` are those that `run_actions` opens, `rest` the eligible ones
that it leaves alone. -/
structure Picks (cfg : Config F) (e : Engine F) (k : Answers F)
    (tried rest : List (ProcessStat F)) : Prop where
  opens : (runActions cfg e k).events.filterMap Event.opening =
    tried.map fun ps => (ps.pid, (k.attempt ps.pid).opened)
  segment : (tried ++ rest).Perm (e.snapshot.filter (reaches cfg))
  order : tried.Pairwise fun a b => le b.score a.score = true
  best : ∀ a ∈ tried, ∀ b ∈ rest, le b.score a.score = true
  once : (e.snapshot.map (·.pid)).Nodup → (tried.map (·.pid)).Nodup
  slots : tried.countP (yields cfg k) ≤ cfg.maxTargets
  /-- Slots are used up by processes that gave memory, and by nothing else. -/
  spent : rest = [] ∨ tried.countP (yields cfg k) = cfg.maxTargets ∨
    cfg.budget ≤ u64 (amounts cfg k tried)
  tracks : ∀ pid, (runActions cfg e k).engine.tracked pid =
    if ∃ ps ∈ tried, ps.pid = pid ∧ yields cfg k ps = true then
      some { (e.tracked pid).getD {} with cooldown := 5 }
    else e.tracked pid
  errors : (runActions cfg e k).engine.stats.errors =
    e.stats.errors + tried.countP fun ps => !(k.attempt ps.pid).opened

def Selection (cfg : Config F) (e : Engine F) (k : Answers F) : Prop :=
  ∃ tried rest, Picks cfg e k tried rest

/-- What `std::sort` leaves, with `a->score > b->score` as its order. -/
def Sorted (l : List (ProcessStat F)) : Prop :=
  l.Pairwise fun a b => lt a.score b.score = false

/-! ## The loop -/

theorem openings_target (cfg : Config F) (k : Answers F) (ps : ProcessStat F) :
    (targetEvents cfg k ps).filterMap Event.opening = [(ps.pid, (k.attempt ps.pid).opened)] := by
  unfold targetEvents
  cases hopen : (k.attempt ps.pid).opened with
  | false => rfl
  | true =>
      have hnone : (actOn cfg ps.pid (k.attempt ps.pid) (modeFor cfg ps)).2.filterMap
          Event.opening = [] := by
        apply List.filterMap_eq_nil_iff.mpr
        intro ev hev
        unfold actOn at hev
        split at hev
        · cases hev
        · obtain ⟨⟨start, len, rfl⟩, -⟩ := heapTrim_events hev
          rfl
      rw [if_pos rfl, List.filterMap_cons_some (f := Event.opening) rfl, hnone]

theorem openings_targets (cfg : Config F) (k : Answers F) (l : List (ProcessStat F)) :
    (l.flatMap (targetEvents cfg k)).filterMap Event.opening =
      l.map fun ps => (ps.pid, (k.attempt ps.pid).opened) := by
  induction l with
  | nil => rfl
  | cons ps l ih =>
      rw [List.flatMap_cons, List.filterMap_append, openings_target, ih]
      rfl

theorem runActions_openings (cfg : Config F) (e : Engine F) (k : Answers F) :
    (runActions cfg e k).events.filterMap Event.opening =
      (targets cfg e k).map fun ps => (ps.pid, (k.attempt ps.pid).opened) := by
  have hrequest : (cgroupReclaim cfg k (u64 (amounts cfg k (targets cfg e k)))).2.filterMap
      Event.opening = [] := by
    apply List.filterMap_eq_nil_iff.mpr
    intro ev hev
    obtain ⟨-, rfl⟩ := cgroupReclaim_mem hev
    rfl
  have hpsi : Event.opening (.psi k.psiLater) = none := rfl
  rw [runActions_events, List.filterMap_append, List.filterMap_cons_none hpsi, hrequest,
    List.append_nil, openings_targets]

theorem foldl_errors {cfg : Config F} {k : Answers F} (l : List (ProcessStat F)) (s : Acting F) :
    (l.foldl (tryTarget cfg k) s).errors =
      s.errors + l.countP fun ps => !(k.attempt ps.pid).opened := by
  induction l generalizing s with
  | nil => rfl
  | cons ps l ih =>
      rw [List.foldl_cons, ih, tryTarget_eq, List.countP_cons]
      dsimp only
      cases (k.attempt ps.pid).opened with
      | false =>
          simp only [Bool.false_eq_true, if_false, Bool.not_false, if_true]
          omega
      | true => simp

/-- The track of a process after its attempt. -/
def cooled (tr : Option Track) : Option Track := some { tr.getD {} with cooldown := 5 }

theorem cooled_cooled (tr : Option Track) : cooled (cooled tr) = cooled tr := rfl

theorem retrack_apply (cfg : Config F) (k : Answers F) (tracked : Tracks) (ps : ProcessStat F)
    (pid : Nat) :
    retrack cfg k tracked ps pid =
      if ps.pid = pid ∧ yields cfg k ps = true then cooled (tracked pid) else tracked pid := by
  unfold retrack yields
  by_cases hgot : amount cfg k ps = 0
  · simp [hgot]
  · by_cases hpid : ps.pid = pid
    · subst hpid
      simp [hgot, cooled]
    · simp [hgot, hpid, Ne.symm hpid]

/-- The loop writes the tracks of those that gave memory, each with the same value however
often, and no other track. -/
theorem foldl_tracked {cfg : Config F} {k : Answers F} (l : List (ProcessStat F)) (s : Acting F)
    (pid : Nat) :
    (l.foldl (tryTarget cfg k) s).tracked pid =
      if ∃ ps ∈ l, ps.pid = pid ∧ yields cfg k ps = true then cooled (s.tracked pid)
      else s.tracked pid := by
  induction l generalizing s with
  | nil => simp
  | cons ps l ih =>
      have hstep : (tryTarget cfg k s ps).tracked pid =
          if ps.pid = pid ∧ yields cfg k ps = true then cooled (s.tracked pid)
          else s.tracked pid := by
        rw [tryTarget_eq]
        exact retrack_apply cfg k s.tracked ps pid
      rw [List.foldl_cons, ih, hstep]
      by_cases hfirst : ps.pid = pid ∧ yields cfg k ps = true
      · have hsome : ∃ ps' ∈ ps :: l, ps'.pid = pid ∧ yields cfg k ps' = true :=
          ⟨ps, List.mem_cons_self, hfirst⟩
        rw [if_pos hfirst, if_pos hsome, cooled_cooled, ite_self]
      · have hrest : (∃ ps' ∈ ps :: l, ps'.pid = pid ∧ yields cfg k ps' = true) ↔
            ∃ ps' ∈ l, ps'.pid = pid ∧ yields cfg k ps' = true := by
          simp [hfirst]
        rw [if_neg hfirst]
        exact (if_congr hrest rfl rfl).symm

/-- Before each target a slot was free, so no more than `max_targets` are used. -/
theorem paying_le (cfg : Config F) (e : Engine F) (k : Answers F) {l : List (ProcessStat F)}
    (h : l <+: targets cfg e k) : paying cfg k l ≤ cfg.maxTargets := by
  induction l using List.reverseRecOn with
  | nil => exact Nat.zero_le _
  | append_singleton l ps _ =>
      obtain ⟨l₂, hl₂⟩ := h
      have hturn : targets cfg e k = l ++ ps :: l₂ := by rw [← hl₂]; simp
      obtain ⟨hfree, -⟩ := (done_iff l).mp (not_stop_before hturn)
      have hone : paying cfg k [ps] ≤ 1 := List.countP_le_length
      rw [paying] at hfree hone ⊢
      rw [List.countP_append]
      omega

/-! ## Nobody to try -/

theorem targets_of_nothing {cfg : Config F} (e : Engine F) (k : Answers F)
    (h : cfg.maxTargets = 0 ∨ cfg.budget = 0) : targets cfg e k = [] := by
  by_contra hsome
  obtain ⟨ps, l, hturn⟩ := List.exists_cons_of_ne_nil hsome
  have hfirst : targets cfg e k = [] ++ ps :: l := hturn
  obtain ⟨hslot, hbudget⟩ := (done_iff []).mp (not_stop_before hfirst)
  omega

theorem picks_nothing {cfg : Config F} {e : Engine F} {k : Answers F}
    (h : cfg.maxTargets = 0 ∨ cfg.budget = 0) :
    Picks cfg e k [] (e.snapshot.filter (reaches cfg)) := by
  have hnone := targets_of_nothing e k h
  have hend : actAll cfg e k = .start e := by
    rw [actAll_eq, hnone]
    rfl
  exact
    { opens := by rw [runActions_openings, hnone]
      segment := List.Perm.refl _
      order := List.Pairwise.nil
      best := fun _ ha => absurd ha List.not_mem_nil
      once := fun _ => List.nodup_nil
      slots := Nat.zero_le _
      spent := by
        rcases h with h | h
        · exact Or.inr (Or.inl h.symm)
        · exact Or.inr (Or.inr (h ▸ Nat.zero_le _))
      tracks := by
        intro pid
        show (actAll cfg e k).tracked pid = _
        rw [hend]
        simp [Acting.start]
      errors := by
        show (actAll cfg e k).errors = _
        rw [hend]
        rfl }

def Answers.closed (F : Type) [Double F] : Answers F where
  procs := []
  distinct := List.nodup_nil
  self := 1
  damonAvailable := false
  damonEnabled := false
  damonSwitched := false
  ebpfAvailable := false
  ebpfLoads := false
  ebpfLoaded := false
  psi := {}
  mem := {}
  faults := []
  sample _ := {}
  sort l := l
  sort_perm := List.Perm.refl
  attempt _ := ⟨false, 0, [], 0, Nat.two_pow_pos 64⟩
  psiLater := {}
  cgroupAvailable := false
  reclaimOpens := false
  reclaimFails := false

/-- A process that passes the code's tests alone is tried while there are slots. -/
theorem not_selection {cfg : Config F} (hslots : cfg.maxTargets ≠ 0) (hbudget : cfg.budget ≠ 0)
    {ps : ProcessStat F} (helig : eligible cfg ps = true) (hreach : reaches cfg ps = false) :
    ¬ Selection cfg { snapshot := [ps] } (.closed F) := by
  rintro ⟨tried, rest, h⟩
  have hcands : candidates cfg (.closed F) [ps] = [ps] := by
    unfold candidates
    rw [List.filter_cons_of_pos helig, List.filter_nil]
    rfl
  have hsplit : candidates cfg (.closed F) [ps] = [] ++ ps :: [] := hcands
  have hsum : amounts cfg (.closed F) [] < cfg.budget := Nat.pos_of_ne_zero hbudget
  have hturn := tried_of_below (e := { snapshot := [ps] }) hsplit (Nat.pos_of_ne_zero hslots) hsum
  have hnone : tried = [] := by
    have hperm := h.segment
    rw [List.filter_cons_of_neg (by simp [hreach]), List.filter_nil] at hperm
    exact (List.append_eq_nil_iff.mp hperm.eq_nil).1
  have hopens := h.opens
  rw [runActions_openings, hnone, List.map_nil, List.map_eq_nil_iff] at hopens
  rw [hopens] at hturn
  exact absurd hturn.length_le (by simp)

/-! ## The selection -/

variable [OrderedDouble F]

theorem le_of_not_lt {a b : F} (ha : Ordinary a) (hb : Ordinary b) (h : lt a b = false) :
    le b a = true := by
  rw [OrderedDouble.lt_eq a b ha hb] at h
  simpa using h

/-- The test of the code is the one of the configuration as long as the size does not
leave 64 bits and the score is a number. -/
theorem eligible_eq {cfg : Config F} (hsize : cfg.minReclaimableMb < 2 ^ 54)
    (hscore : Ordinary cfg.minScore) {ps : ProcessStat F} (hps : Ordinary ps.score) :
    eligible cfg ps = reaches cfg ps := by
  have hexact : cfg.minAnonKb = cfg.minReclaimableMb * 1024 := by
    unfold Config.minAnonKb
    exact Nat.mod_eq_of_lt (by omega)
  unfold eligible reaches
  rw [OrderedDouble.lt_eq _ _ hps hscore, Bool.not_not, hexact]

theorem picks_targets {cfg : Config F} {e : Engine F} {k : Answers F}
    (hscores : ∀ ps ∈ e.snapshot, Ordinary ps.score)
    (hsorted : Sorted (candidates cfg k e.snapshot)) {rest : List (ProcessStat F)}
    (hrest : candidates cfg k e.snapshot = targets cfg e k ++ rest)
    (heligible : e.snapshot.filter (eligible cfg) = e.snapshot.filter (reaches cfg)) :
    Picks cfg e k (targets cfg e k) rest := by
  have hperm : (targets cfg e k ++ rest).Perm (e.snapshot.filter (eligible cfg)) := by
    rw [← hrest]
    exact k.sort_perm _
  have hmem : ∀ ps ∈ targets cfg e k ++ rest, Ordinary ps.score := by
    intro ps hps
    exact hscores ps (List.mem_filter.mp (hperm.mem_iff.mp hps)).1
  have hle : (targets cfg e k ++ rest).Pairwise fun a b => le b.score a.score = true := by
    rw [Sorted, hrest] at hsorted
    apply hsorted.imp_of_mem
    intro a b ha hb hab
    exact le_of_not_lt (hmem a ha) (hmem b hb) hab
  obtain ⟨horder, -, hbest⟩ := List.pairwise_append.mp hle
  have hend : (runActions cfg e k).engine.tracked =
      ((targets cfg e k).foldl (tryTarget cfg k) (.start e)).tracked := by
    rw [← actAll_eq]
    rfl
  have herrors : (runActions cfg e k).engine.stats.errors =
      ((targets cfg e k).foldl (tryTarget cfg k) (.start e)).errors := by
    rw [← actAll_eq]
    rfl
  exact
    { opens := runActions_openings cfg e k
      segment := by rwa [← heligible]
      order := horder
      best := hbest
      once := by
        intro hnodup
        have hsub : (targets cfg e k).Sublist (targets cfg e k ++ rest) :=
          List.sublist_append_left _ _
        have hall : ((targets cfg e k ++ rest).map (·.pid)).Nodup := by
          apply (hperm.map _).nodup_iff.mpr
          exact hnodup.sublist (List.filter_sublist.map _)
        exact hall.sublist (hsub.map _)
      slots := paying_le cfg e k (List.prefix_refl _)
      spent := by
        cases rest with
        | nil => exact Or.inl rfl
        | cons ps rest =>
            right
            have hstop := stop_at_end hrest
            have hslots := paying_le cfg e k (List.prefix_refl (targets cfg e k))
            by_contra hgo
            rw [not_or, Nat.not_le] at hgo
            have hfree : paying cfg k (targets cfg e k) < cfg.maxTargets :=
              Nat.lt_of_le_of_ne hslots hgo.1
            have hnot := (done_iff (e := e) (targets cfg e k)).mpr ⟨hfree, hgo.2⟩
            exact Bool.false_ne_true (hnot.symm.trans hstop)
      tracks := by
        intro pid
        rw [hend]
        exact foldl_tracked _ _ pid
      errors := by
        rw [herrors]
        exact foldl_errors _ _ }

/-- For a configuration the selection is as promised, whatever the snapshot and the
outcomes, exactly when nothing can be tried or its two minima mean what they say. -/
theorem selection_iff (cfg : Config F) :
    (∀ (e : Engine F) (k : Answers F), (∀ ps ∈ e.snapshot, Ordinary ps.score) →
        Sorted (candidates cfg k e.snapshot) → Selection cfg e k) ↔
      cfg.maxTargets = 0 ∨ cfg.budget = 0 ∨
        (cfg.minReclaimableMb < 2 ^ 54 ∧ Ordinary cfg.minScore) := by
  constructor
  · intro h
    by_contra hbad
    obtain ⟨hslots, hrest⟩ := not_or.mp hbad
    obtain ⟨hbudget, hminima⟩ := not_or.mp hrest
    -- one process, just over what the code asks for
    have hone : ∀ ps : ProcessStat F, Ordinary ps.score → eligible cfg ps = true →
        reaches cfg ps = false → False := by
      intro ps hps helig hreach
      refine not_selection hslots hbudget helig hreach (h _ _ ?_ ?_)
      · intro ps' hps'
        rw [List.mem_singleton.mp hps']
        exact hps
      · unfold Sorted candidates
        rw [List.filter_cons_of_pos helig, List.filter_nil]
        exact List.pairwise_singleton _ _
    by_cases hscore : Ordinary cfg.minScore
    · have hsize : 2 ^ 54 ≤ cfg.minReclaimableMb := by
        by_contra hsize
        exact hminima ⟨Nat.lt_of_not_le hsize, hscore⟩
      have hwraps : cfg.minAnonKb < cfg.minReclaimableMb * 1024 := by
        have hlt : cfg.minAnonKb < 2 ^ 64 := Nat.mod_lt _ (by decide)
        omega
      refine hone { pid := 2, anonKb := cfg.minAnonKb, score := cfg.minScore } hscore ?_ ?_
      · unfold eligible
        have hself : le cfg.minScore cfg.minScore = true := hscore
        rw [OrderedDouble.lt_eq _ _ hscore hscore, hself]
        simp
      · unfold reaches
        rw [decide_eq_false (Nat.not_le.mpr hwraps), Bool.and_false]
    · have hzero := OrderedDouble.zero_ordinary (F := F)
      refine hone { pid := 2, anonKb := cfg.minAnonKb, score := zero } hzero ?_ ?_
      · unfold eligible
        rw [OrderedDouble.lt_nan _ _ hscore]
        simp
      · unfold reaches
        rw [OrderedDouble.le_nan _ _ hscore, Bool.false_and]
  · intro h e k hscores hsorted
    by_cases hnothing : cfg.maxTargets = 0 ∨ cfg.budget = 0
    · exact ⟨_, _, picks_nothing hnothing⟩
    · have hminima := (or_assoc.mpr h).resolve_left hnothing
      obtain ⟨rest, hrest⟩ := targets_initial cfg e k
      refine ⟨_, rest, picks_targets hscores hsorted hrest.symm ?_⟩
      apply List.filter_congr
      intro ps hps
      exact eligible_eq hminima.1 hminima.2 (hscores ps hps)

end

/-- A minimum of 2^54 MiB lets a process of no size pass. -/
theorem small_selected :
    ¬ ∀ (cfg : Config ℚ) (e : Engine ℚ) (k : Answers ℚ),
      (∀ ps ∈ e.snapshot, Ordinary ps.score) → Sorted (candidates cfg k e.snapshot) →
      Selection cfg e k := by
  intro h
  let cfg : Config ℚ := { minReclaimableMb := 2 ^ 54 }
  let ps : ProcessStat ℚ := { pid := 2, score := 4 }
  have helig : eligible cfg ps = true := by decide +kernel
  have hreach : reaches cfg ps = false := by decide +kernel
  have hslots : cfg.maxTargets ≠ 0 := by decide
  refine not_selection hslots (by decide +kernel) helig hreach
    (h cfg { snapshot := [ps] } (.closed ℚ) ?_ ?_)
  · intro ps' hps'
    rw [List.mem_singleton.mp hps']
    exact decide_eq_true (le_refl (4 : ℚ))
  · unfold Sorted candidates
    rw [List.filter_cons_of_pos helig, List.filter_nil]
    exact List.pairwise_singleton _ _

theorem insertionSort_perm (l : List (ProcessStat ℚ)) :
    (l.insertionSort fun a b => le b.score a.score = true).Perm l :=
  List.perm_insertionSort _ l

/-- One mapping of 4 MiB, all of it advised. -/
def fourMib : List (VmaRange × Int) := [(⟨0, 4194304, true, true, true⟩, 4194304)]

theorem fourMib_room : (fourMib.map fun v => v.2.toNat).sum < 2 ^ 64 := by decide

/-- Process 3 cannot be opened, process 4 has no anonymous memory, the others give 4 MiB. -/
def Answers.varied : Answers ℚ :=
  { Answers.closed ℚ with
    sort := List.insertionSort fun a b => le b.score a.score = true
    sort_perm := insertionSort_perm
    attempt := fun pid =>
      if pid = 3 then (Answers.closed ℚ).attempt 3
      else if pid = 4 then { (Answers.closed ℚ).attempt 4 with opened := true }
      else ⟨true, 100000, fourMib, 95904, fourMib_room⟩ }

/-- One slot and five processes, one of them too small: the two best are tried without
gain, the third takes the slot. -/
theorem selection_varied :
    let cfg : Config ℚ := { maxTargets := 1, minScore := 1 }
    let e : Engine ℚ := { snapshot :=
      [{ pid := 2, anonKb := 100000, score := 1 }, { pid := 3, anonKb := 200000, score := 4 },
        { pid := 4, anonKb := 100000, score := 3 }, { pid := 5, anonKb := 100, score := 9 },
        { pid := 6, anonKb := 150000, score := 2 }] }
    (candidates cfg Answers.varied e.snapshot).map ProcessStat.pid = [3, 4, 6, 2] ∧
      (targets cfg e Answers.varied).map ProcessStat.pid = [3, 4, 6] ∧
        Selection cfg e Answers.varied := by
  intro cfg e
  have hminima : Ordinary cfg.minScore := decide_eq_true (le_refl _)
  refine ⟨by decide +kernel, by decide +kernel, ?_⟩
  refine (selection_iff cfg).mpr (Or.inr (Or.inr ⟨by decide, hminima⟩)) e Answers.varied ?_ ?_
  · intro ps _
    exact decide_eq_true (le_refl ps.score)
  · unfold Sorted
    decide +kernel

end Memflux.Core
