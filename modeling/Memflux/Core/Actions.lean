import Memflux.Core.Cycle

/-! # The targets of a cycle

`run_actions` goes through an initial segment of the candidates. What it leaves is
the sum of what each target of that segment gives: an amount, the calls made, a
failed `pidfd_open` or a new cooldown.
-/

namespace Memflux.Core

open Double EarlyExit

section

variable {F : Type} [Double F]

/-! ## One target -/

/-- What an attempt on a candidate adds to `reclaimed_total`. -/
def amount (cfg : Config F) (k : Answers F) (ps : ProcessStat F) : Nat :=
  if (k.attempt ps.pid).opened then (actOn cfg ps.pid (k.attempt ps.pid) (modeFor cfg ps)).1 else 0

def targetEvents (cfg : Config F) (k : Answers F) (ps : ProcessStat F) : List (Event F) :=
  if (k.attempt ps.pid).opened then
    .pidfdOpen ps.pid true :: (actOn cfg ps.pid (k.attempt ps.pid) (modeFor cfg ps)).2
  else [.pidfdOpen ps.pid false]

/-- The calls of `heap_trim`: advice on the process's own mappings, never in a dry run. -/
theorem heapTrim_events {cfg : Config F} {pid : Nat} {a : Attempt} {mode : ReclaimMode}
    {ev : Event F} (h : ev ∈ (heapTrim cfg pid a mode).2) :
    (∃ start len, ev = .madvise pid start len mode) ∧ cfg.dryRun = false := by
  unfold heapTrim at h
  split at h
  · cases h
  · rename_i hon
    have hdry : cfg.dryRun = false := by simpa using fun h => hon (Or.inr h)
    refine ⟨?_, hdry⟩
    have hkeep : ∀ (l : List (VmaRange × Int)) (st : Nat × List (Event F)),
        (∀ ev ∈ st.2, ∃ start len, ev = .madvise pid start len mode) →
        ∀ ev ∈ (l.foldl (trimVma pid mode) st).2, ∃ start len, ev = .madvise pid start len mode := by
      intro l
      induction l with
      | nil => exact fun st hst => hst
      | cons v l ih =>
          refine fun st hst => ih _ fun ev hev => ?_
          unfold trimVma at hev
          split at hev
          · exact hst ev hev
          · split at hev
            · exact hst ev hev
            · rcases List.mem_append.mp hev with hev | hev
              · exact hst ev hev
              · exact ⟨_, _, List.mem_singleton.mp hev⟩
    exact hkeep a.vmas (0, []) (by simp) ev h

/-- An attempt opens the process and gives advice on its mappings, and nothing else. -/
theorem targetEvents_cases {cfg : Config F} {k : Answers F} {ps : ProcessStat F} {ev : Event F}
    (h : ev ∈ targetEvents cfg k ps) :
    (∃ ok, ev = .pidfdOpen ps.pid ok) ∨
      ∃ start len, ev = .madvise ps.pid start len (modeFor cfg ps) ∧ cfg.dryRun = false := by
  unfold targetEvents at h
  split at h
  · rcases List.mem_cons.mp h with h | h
    · exact Or.inl ⟨_, h⟩
    · unfold actOn at h
      split at h
      · cases h
      · obtain ⟨⟨start, len, hev⟩, hdry⟩ := heapTrim_events h
        exact Or.inr ⟨start, len, hev, hdry⟩
  · exact Or.inl ⟨_, List.mem_singleton.mp h⟩

def paying (cfg : Config F) (k : Answers F) (l : List (ProcessStat F)) : Nat :=
  l.countP fun ps => decide (amount cfg k ps ≠ 0)

def amounts (cfg : Config F) (k : Answers F) (l : List (ProcessStat F)) : Nat :=
  (l.map (amount cfg k)).sum

@[simp] theorem amounts_nil (cfg : Config F) (k : Answers F) : amounts cfg k [] = 0 := rfl

@[simp] theorem amounts_cons (cfg : Config F) (k : Answers F) (ps : ProcessStat F)
    (l : List (ProcessStat F)) : amounts cfg k (ps :: l) = amount cfg k ps + amounts cfg k l := by
  simp [amounts]

theorem amounts_append (cfg : Config F) (k : Answers F) (l l' : List (ProcessStat F)) :
    amounts cfg k (l ++ l') = amounts cfg k l + amounts cfg k l' := by
  simp [amounts]

theorem amounts_mono (cfg : Config F) (k : Answers F) {l l' : List (ProcessStat F)}
    (h : l <+: l') : amounts cfg k l ≤ amounts cfg k l' := by
  obtain ⟨l₂, rfl⟩ := h
  rw [amounts_append]
  exact Nat.le_add_right _ _

theorem paying_mono {cfg : Config F} {k : Answers F} {l l' : List (ProcessStat F)}
    (h : l <+: l') : paying cfg k l ≤ paying cfg k l' := by
  obtain ⟨l₂, rfl⟩ := h
  simp [paying]

/-- The cooldown is written for a target that gave something, and for no other. -/
def retrack (cfg : Config F) (k : Answers F) (tracked : Tracks) (ps : ProcessStat F) : Tracks :=
  if amount cfg k ps ≠ 0 then
    Function.update tracked ps.pid (some { (tracked ps.pid).getD {} with cooldown := 5 })
  else tracked

theorem tryTarget_eq (cfg : Config F) (k : Answers F) (s : Acting F) (ps : ProcessStat F) :
    tryTarget cfg k s ps =
      { tracked := retrack cfg k s.tracked ps
        errors := s.errors + if (k.attempt ps.pid).opened then 0 else 1
        total := if amount cfg k ps ≠ 0 then u64 (s.total + amount cfg k ps) else s.total
        acted := s.acted + if amount cfg k ps ≠ 0 then 1 else 0
        events := s.events ++ targetEvents cfg k ps } := by
  unfold tryTarget retrack amount targetEvents
  cases hopen : (k.attempt ps.pid).opened with
  | false => simp [hopen]
  | true =>
      by_cases hgot : (actOn cfg ps.pid (k.attempt ps.pid) (modeFor cfg ps)).1 = 0
      · simp [hopen, hgot]
      · simp [hopen, hgot]

/-! ## The loop -/

/-- The locals before the loop. -/
def Acting.start (e : Engine F) : Acting F :=
  { tracked := e.tracked, errors := e.stats.errors, total := 0, acted := 0, events := [] }

/-- The candidates that are tried. -/
def targets (cfg : Config F) (e : Engine F) (k : Answers F) : List (ProcessStat F) :=
  visited (Acting.done cfg) (tryTarget cfg k) (.start e) (candidates cfg k e.snapshot)

theorem actAll_eq (cfg : Config F) (e : Engine F) (k : Answers F) :
    actAll cfg e k = (targets cfg e k).foldl (tryTarget cfg k) (.start e) :=
  loopUntil_eq_foldl _ _

theorem targets_initial (cfg : Config F) (e : Engine F) (k : Answers F) :
    targets cfg e k <+: candidates cfg k e.snapshot :=
  visited_initial _ _

theorem foldl_total (cfg : Config F) (k : Answers F) (l : List (ProcessStat F)) {s : Acting F}
    (h : s.total < 2 ^ 64) :
    (l.foldl (tryTarget cfg k) s).total = u64 (s.total + amounts cfg k l) := by
  induction l generalizing s with
  | nil => exact (Nat.mod_eq_of_lt h).symm
  | cons ps l ih =>
      have hlt : (tryTarget cfg k s ps).total < 2 ^ 64 := by
        rw [tryTarget_eq]
        dsimp only
        split
        · exact Nat.mod_lt _ (by decide)
        · exact h
      rw [List.foldl_cons, ih hlt, tryTarget_eq, amounts_cons]
      dsimp only [u64]
      split
      · omega
      · have hzero : amount cfg k ps = 0 := by omega
        rw [hzero, Nat.zero_add]

theorem foldl_acted {cfg : Config F} {k : Answers F} (l : List (ProcessStat F)) (s : Acting F) :
    (l.foldl (tryTarget cfg k) s).acted = s.acted + paying cfg k l := by
  induction l generalizing s with
  | nil => rfl
  | cons ps l ih =>
      rw [List.foldl_cons, ih, tryTarget_eq]
      simp only [paying, List.countP_cons, decide_eq_true_eq]
      omega

theorem foldl_events {cfg : Config F} {k : Answers F} (l : List (ProcessStat F)) (s : Acting F) :
    (l.foldl (tryTarget cfg k) s).events = s.events ++ l.flatMap (targetEvents cfg k) := by
  induction l generalizing s with
  | nil => simp
  | cons ps l ih =>
      rw [List.foldl_cons, ih, tryTarget_eq]
      simp

/-- The loop's test before a target, in terms of the targets before it. -/
theorem done_iff {cfg : Config F} {e : Engine F} {k : Answers F} (l : List (ProcessStat F)) :
    Acting.done cfg (l.foldl (tryTarget cfg k) (.start e)) = false ↔
      paying cfg k l < cfg.maxTargets ∧ u64 (amounts cfg k l) < cfg.budget := by
  rw [Acting.done, foldl_acted, foldl_total cfg k l (by simp [Acting.start])]
  simp [Acting.start]

theorem runActions_events (cfg : Config F) (e : Engine F) (k : Answers F) :
    (runActions cfg e k).events =
      (targets cfg e k).flatMap (targetEvents cfg k) ++
        .psi k.psiLater :: (cgroupReclaim cfg k (u64 (amounts cfg k (targets cfg e k)))).2 := by
  have htotal := foldl_total cfg k (targets cfg e k) (s := .start e)
    (by simp [Acting.start])
  simp only [runActions, actAll_eq, foldl_events, htotal]
  simp [Acting.start]

theorem budget_lt (cfg : Config F) : cfg.budget < 2 ^ 64 := Nat.mod_lt _ (by decide)

theorem budget_le (cfg : Config F) : cfg.budget ≤ cfg.maxReclaimMbPerCycle * 1024 :=
  Nat.mod_le _ _

/-- Below the budget and the number of targets the loop goes on to the next candidate. -/
theorem tried_of_below {cfg : Config F} {e : Engine F} {k : Answers F}
    {l₁ l₂ : List (ProcessStat F)} {ps : ProcessStat F}
    (hl : candidates cfg k e.snapshot = l₁ ++ ps :: l₂) (hpay : paying cfg k l₁ < cfg.maxTargets)
    (hsum : amounts cfg k l₁ < cfg.budget) : l₁ ++ [ps] <+: targets cfg e k := by
  refine prefix_visited ⟨l₂, by rw [hl]; simp⟩ fun l₀ x l h => ?_
  have hl₀ : l₀ <+: l₁ := by
    have hle : l₀.length ≤ l₁.length := by
      have hlen := congrArg List.length h
      simp at hlen
      omega
    exact List.prefix_of_prefix_length_le ⟨x :: l, h.symm⟩ ⟨[ps], rfl⟩ hle
  rw [done_iff]
  have hsum₀ := amounts_mono cfg k hl₀
  have hlt := budget_lt cfg
  refine ⟨Nat.lt_of_le_of_lt (paying_mono hl₀) hpay, ?_⟩
  rw [u64, Nat.mod_eq_of_lt (by omega)]
  omega

/-! ## The request to the root group -/

/-- The mappings that `heap_trim` gives advice on. -/
def trimmed (v : VmaRange × Int) : Bool :=
  v.1.privAnon && v.1.readable && decide (minRegion ≤ v.1.len)

/-- The bytes that the kernel answers for them. -/
def advisedBytes (a : Attempt) : Nat := ((a.vmas.filter trimmed).map fun v => v.2.toNat).sum

/-- Bytes really obtained from a target: what `process_madvise` advised, or the drop
of anonymous RSS. -/
def obtained (cfg : Config F) (k : Answers F) (ps : ProcessStat F) : Nat :=
  let a := k.attempt ps.pid
  if a.opened = false ∨ a.before = 0 then 0
  else if cfg.enableHeapTrim = true ∧ cfg.dryRun = false ∧ advisedBytes a ≠ 0 then advisedBytes a
  else (a.before - a.after) * 1024

def reclaimedBytes (cfg : Config F) (e : Engine F) (k : Answers F) : Nat :=
  ((targets cfg e k).map (obtained cfg k)).sum

/-- The request to `memory.reclaim` is at most what is left of the budget, the subtraction
is exact, and nothing is asked for when nothing is left. -/
structure WithinBudget (cfg : Config F) (e : Engine F) (k : Answers F) : Prop where
  request : ∀ bytes, .memoryReclaim bytes ∈ (runActions cfg e k).events →
    bytes + reclaimedBytes cfg e k ≤ cfg.maxReclaimMbPerCycle * 2 ^ 20
  exact : cgroupGate cfg k = true → amounts cfg k (targets cfg e k) ≤ cfg.budget
  usedUp : cfg.maxReclaimMbPerCycle * 2 ^ 20 ≤ reclaimedBytes cfg e k →
    ∀ bytes, .memoryReclaim bytes ∉ (runActions cfg e k).events

/-- Every candidate whose turn comes below the budget gives at most what is left. -/
def TargetsFit (cfg : Config F) (k : Answers F) (cands : List (ProcessStat F)) : Prop :=
  ∀ l₁ ps l₂, cands = l₁ ++ ps :: l₂ → paying cfg k l₁ < cfg.maxTargets →
    amounts cfg k l₁ < cfg.budget → amounts cfg k l₁ + amount cfg k ps ≤ cfg.budget

/-- Below the budget no sum wraps, and every initial segment stays below it. -/
theorem amounts_le_budget {cfg : Config F} {e : Engine F} {k : Answers F}
    (hfit : TargetsFit cfg k (candidates cfg k e.snapshot)) {l : List (ProcessStat F)}
    (hl : l <+: targets cfg e k) : amounts cfg k l ≤ cfg.budget := by
  induction l using List.reverseRecOn with
  | nil => exact Nat.zero_le _
  | append_singleton l ps ih =>
      have hprev : l <+: targets cfg e k := (List.prefix_append l [ps]).trans hl
      obtain ⟨l₂, hl₂⟩ := hl
      have hturn : targets cfg e k = l ++ ps :: l₂ := by rw [← hl₂]; simp
      have hgo := not_stop_before hturn
      obtain ⟨hpay, hsum⟩ := (done_iff l).mp hgo
      have hle := ih hprev
      have hlt := budget_lt cfg
      rw [u64, Nat.mod_eq_of_lt (by omega)] at hsum
      obtain ⟨l₃, hl₃⟩ := targets_initial cfg e k
      have hcands : candidates cfg k e.snapshot = l ++ ps :: (l₂ ++ l₃) := by
        rw [← hl₃, hturn]
        simp
      rw [amounts_append, amounts_cons, amounts_nil, Nat.add_zero]
      exact hfit l ps _ hcands hpay hsum

/-- The root group is asked for memory. -/
def Requests (cfg : Config F) (e : Engine F) (k : Answers F) : Prop :=
  cgroupGate cfg k = true ∧
    cgroupWant cfg (u64 (amounts cfg k (targets cfg e k))) > 64 * 1024 ∧ k.reclaimOpens = true

theorem cgroupReclaim_of_requests {cfg : Config F} {e : Engine F} {k : Answers F}
    (h : Requests cfg e k) :
    (cgroupReclaim cfg k (u64 (amounts cfg k (targets cfg e k)))).2 =
      [.memoryReclaim (cgroupWant cfg (u64 (amounts cfg k (targets cfg e k))))] :=
  congrArg Prod.snd (if_pos h)

theorem cgroupReclaim_mem {cfg : Config F} {e : Engine F} {k : Answers F} {ev : Event F}
    (h : ev ∈ (cgroupReclaim cfg k (u64 (amounts cfg k (targets cfg e k)))).2) :
    Requests cfg e k ∧
      ev = .memoryReclaim (cgroupWant cfg (u64 (amounts cfg k (targets cfg e k)))) := by
  unfold cgroupReclaim at h
  split at h
  · rename_i hgo
    exact ⟨hgo, List.mem_singleton.mp h⟩
  · cases h

theorem memoryReclaim_iff (cfg : Config F) (e : Engine F) (k : Answers F) (bytes : Nat) :
    .memoryReclaim bytes ∈ (runActions cfg e k).events ↔
      Requests cfg e k ∧ bytes = cgroupWant cfg (u64 (amounts cfg k (targets cfg e k))) := by
  rw [runActions_events, List.mem_append, List.mem_cons]
  constructor
  · rintro (h | h | h)
    · obtain ⟨ps, -, h⟩ := List.mem_flatMap.mp h
      rcases targetEvents_cases h with ⟨ok, h⟩ | ⟨start, len, h, -⟩ <;> cases h
    · cases h
    · obtain ⟨hreq, hev⟩ := cgroupReclaim_mem h
      cases hev
      exact ⟨hreq, rfl⟩
  · rintro ⟨hreq, rfl⟩
    rw [cgroupReclaim_of_requests hreq]
    exact Or.inr (Or.inr (List.mem_singleton_self _))

theorem advisedBytes_lt (a : Attempt) : advisedBytes a < 2 ^ 64 := by
  have hsub : (a.vmas.filter trimmed).Sublist a.vmas := List.filter_sublist
  exact Nat.lt_of_le_of_lt ((hsub.map _).sum_le_sum fun _ _ => Nat.zero_le _) a.room

theorem trimVma_eq (pid : Nat) (mode : ReclaimMode) (st : Nat × List (Event F))
    (v : VmaRange × Int) :
    trimVma pid mode st v =
      if trimmed v then
        (if v.2 > 0 then u64 (st.1 + v.2.toNat) else st.1,
          st.2 ++ [.madvise pid v.1.start v.1.len mode])
      else st := by
  unfold trimVma trimmed
  by_cases hskip : v.1.privAnon = false ∨ v.1.readable = false
  · rcases hskip with hskip | hskip <;> simp [hskip]
  · obtain ⟨hanon, hread⟩ := not_or.mp hskip
    simp only [Bool.not_eq_false] at hanon hread
    by_cases hlen : v.1.len < minRegion
    · simp [hanon, hread, hlen]
    · simp [hanon, hread, hlen, Nat.le_of_not_lt hlen]

theorem foldl_trimVma (pid : Nat) (mode : ReclaimMode) (l : List (VmaRange × Int))
    (st : Nat × List (Event F)) (h : st.1 < 2 ^ 64) :
    (l.foldl (trimVma pid mode) st).1 =
      u64 (st.1 + ((l.filter trimmed).map fun v => v.2.toNat).sum) := by
  induction l generalizing st with
  | nil => exact (Nat.mod_eq_of_lt h).symm
  | cons v l ih =>
      have hstep : (trimVma pid mode st v).1 =
          if trimmed v then u64 (st.1 + v.2.toNat) else st.1 := by
        rw [trimVma_eq]
        split
        · dsimp only
          split
          · rfl
          · have hzero : v.2.toNat = 0 := by omega
            rw [hzero]
            exact (Nat.mod_eq_of_lt h).symm
        · rfl
      have hlt : (trimVma pid mode st v).1 < 2 ^ 64 := by
        rw [hstep]
        split
        · exact Nat.mod_lt _ (by decide)
        · exact h
      rw [List.foldl_cons, ih _ hlt, hstep, List.filter_cons]
      split
      · rw [List.map_cons, List.sum_cons]
        unfold u64
        omega
      · rfl

theorem heapTrim_fst (cfg : Config F) (pid : Nat) (a : Attempt) (mode : ReclaimMode) :
    (heapTrim (F := F) cfg pid a mode).1 =
      if cfg.enableHeapTrim = true ∧ cfg.dryRun = false then advisedBytes a else 0 := by
  unfold heapTrim
  by_cases hon : cfg.enableHeapTrim = true ∧ cfg.dryRun = false
  · rw [if_neg (by simp [hon.1, hon.2]), if_pos hon, foldl_trimVma _ _ _ _ (by simp),
      Nat.zero_add]
    exact Nat.mod_eq_of_lt (advisedBytes_lt a)
  · have hoff : cfg.enableHeapTrim = false ∨ cfg.dryRun = true := by
      cases h : cfg.enableHeapTrim <;> simp_all
    rw [if_pos hoff, if_neg hon]

/-- The amount of a target: the bytes advised, or the drop of anonymous RSS in KiB. -/
theorem amount_eq (cfg : Config F) (k : Answers F) (ps : ProcessStat F) :
    amount cfg k ps =
      if (k.attempt ps.pid).opened = false ∨ (k.attempt ps.pid).before = 0 then 0
      else if cfg.enableHeapTrim = true ∧ cfg.dryRun = false ∧
          advisedBytes (k.attempt ps.pid) ≠ 0 then advisedBytes (k.attempt ps.pid)
      else (k.attempt ps.pid).before - (k.attempt ps.pid).after := by
  unfold amount actOn
  cases hopen : (k.attempt ps.pid).opened with
  | false => simp
  | true =>
      by_cases hbefore : (k.attempt ps.pid).before = 0
      · simp [hbefore]
      · have hdelta : (if (k.attempt ps.pid).before > (k.attempt ps.pid).after then
            (k.attempt ps.pid).before - (k.attempt ps.pid).after else 0) =
            (k.attempt ps.pid).before - (k.attempt ps.pid).after := by
          split <;> omega
        simp only [if_true, hbefore, if_false, heapTrim_fst, hdelta]
        by_cases hon : cfg.enableHeapTrim = true ∧ cfg.dryRun = false
        · by_cases hbytes : advisedBytes (k.attempt ps.pid) = 0
          · simp [hon, hbytes]
          · simp [hon, hbytes]
        · have hoff : ¬ (cfg.enableHeapTrim = true ∧ cfg.dryRun = false ∧
              advisedBytes (k.attempt ps.pid) ≠ 0) := fun h => hon ⟨h.1, h.2.1⟩
          simp [hon, hoff]

/-- An amount of KiB stands for 1024 times as many bytes, one of bytes for itself. -/
theorem obtained_le (cfg : Config F) (k : Answers F) (ps : ProcessStat F) :
    obtained cfg k ps ≤ 1024 * amount cfg k ps := by
  rw [amount_eq]
  unfold obtained
  dsimp only
  split
  · exact Nat.zero_le _
  · split <;> omega

/-- The request stays within the budget exactly when, behind the gate, every target
whose turn comes gives at most what is left. -/
theorem within_budget_iff (cfg : Config F) (e : Engine F) (k : Answers F) :
    WithinBudget cfg e k ↔
      (cgroupGate cfg k = true → TargetsFit cfg k (candidates cfg k e.snapshot)) := by
  constructor
  · intro h hgate l₁ ps l₂ hl hpay hsum
    have hpre := amounts_mono cfg k (tried_of_below hl hpay hsum)
    have hle := h.exact hgate
    rw [amounts_append, amounts_cons, amounts_nil, Nat.add_zero] at hpre
    omega
  · intro h
    have hexact : cgroupGate cfg k = true → amounts cfg k (targets cfg e k) ≤ cfg.budget :=
      fun hgate => amounts_le_budget (h hgate) (List.prefix_refl _)
    have hrequest : ∀ bytes, .memoryReclaim bytes ∈ (runActions cfg e k).events →
        64 * 1024 < bytes ∧
          bytes + reclaimedBytes cfg e k ≤ cfg.maxReclaimMbPerCycle * 2 ^ 20 := by
      intro bytes hmem
      obtain ⟨⟨hgate, hmore, -⟩, rfl⟩ := (memoryReclaim_iff cfg e k bytes).mp hmem
      have hle := hexact hgate
      have hlt := budget_lt cfg
      have hmax := budget_le cfg
      have htotal : u64 (amounts cfg k (targets cfg e k)) = amounts cfg k (targets cfg e k) :=
        Nat.mod_eq_of_lt (by omega)
      have hwant : cgroupWant cfg (amounts cfg k (targets cfg e k)) =
          cfg.budget - amounts cfg k (targets cfg e k) := by
        unfold cgroupWant u64
        omega
      rw [htotal, hwant] at hmore ⊢
      have hreal : reclaimedBytes cfg e k ≤ 1024 * amounts cfg k (targets cfg e k) := by
        unfold reclaimedBytes amounts
        rw [← List.sum_map_mul_left]
        exact List.sum_le_sum fun ps _ => obtained_le cfg k ps
      refine ⟨hmore, ?_⟩
      omega
    refine ⟨fun bytes hmem => (hrequest bytes hmem).2, hexact, fun hused bytes hmem => ?_⟩
    obtain ⟨hmore, hle⟩ := hrequest bytes hmem
    omega

end

/-- The amount of a write to `memory.reclaim`. -/
def Event.request {F : Type} [Double F] : Event F → Option Nat
  | .memoryReclaim bytes => some bytes
  | _ => none

theorem mem_of_request {F : Type} [Double F] {evs : List (Event F)} {bytes : Nat}
    (h : bytes ∈ evs.filterMap Event.request) : .memoryReclaim bytes ∈ evs := by
  obtain ⟨ev, hmem, hev⟩ := List.mem_filterMap.mp h
  cases ev with
  | memoryReclaim b =>
      obtain rfl : b = bytes := Option.some.inj hev
      exact hmem
  | _ => cases hev

/-- A kernel that maps, reads and answers nothing. -/
def Answers.still : Answers ℚ where
  procs := []
  distinct := List.nodup_nil
  self := 1
  damonAvailable := false
  damonEnabled := false
  damonSwitched := false
  ebpfAvailable := false
  ebpfLoads := false
  ebpfLoaded := false
  psi := {}
  mem := {}
  faults := []
  sample _ := {}
  sort l := l.insertionSort fun a b => b.score ≤ a.score
  sort_perm l := List.perm_insertionSort _ l
  attempt _ := ⟨false, 0, [], 0, by decide⟩
  psiLater := {}
  cgroupAvailable := false
  reclaimOpens := false
  reclaimFails := false

/-- The same kernel with one process of 100000 KiB. -/
def Answers.alone : Answers ℚ :=
  { Answers.still with
    procs := [(2, { rssKb := 100000, anonRssKb := 100000, comm := ascii "a", ok := true })]
    distinct := by decide }

/-- One process gives 8 MiB, counted in bytes against a budget of 512 MiB in KiB: the
difference wraps and the root group is asked for almost 16 EiB. -/
theorem request_wraps :
    ¬ ∀ (cfg : Config ℚ) (e : Engine ℚ) (k : Answers ℚ), WithinBudget cfg e k := by
  intro hall
  let k : Answers ℚ := { Answers.still with
    attempt := fun _ => ⟨true, 100000, [(⟨0, 8388608, true, true, true⟩, 8388608)], 90000, by decide⟩
    psiLater := { someAvg10 := 1 / 2, ok := true }
    cgroupAvailable := true
    reclaimOpens := true }
  let e : Engine ℚ := { snapshot := [{ pid := 2, anonKb := 100000, score := 10 }] }
  have hrequest : (runActions {} e k).events.filterMap Event.request = [2 ^ 64 - 7864320] := by
    decide +kernel
  have hmem : 2 ^ 64 - 7864320 ∈ (runActions {} e k).events.filterMap Event.request := by
    rw [hrequest]
    exact List.mem_singleton_self _
  have hle := (hall {} e k).request _ (mem_of_request hmem)
  have hmax : 2 ^ 64 - 7864320 ≤ 512 * 2 ^ 20 := Nat.le_trans (Nat.le_add_right _ _) hle
  exact absurd hmax (by decide)

end Memflux.Core
