import Memflux.Core.Effects

/-! # Dry runs

With `dry_run` set, `heap_trim` gives no advice. The rest of a cycle does not look at
the flag: the start of DAMON, the amount a target seems to give, and the request to
the root group.
-/

namespace Memflux.Core

open Double EarlyExit

section

variable {F : Type} [Double F]

/-! ## The counters -/

theorem damonInit_stats (cfg : Config F) (dc : DamonConfig) (e : Engine F) (k : Answers F) :
    (damonInit cfg dc e k).1.stats = e.stats := by
  unfold damonInit
  split <;> rfl

theorem ebpfInit_stats (e : Engine F) (k : Answers F) : (ebpfInit e k).stats = e.stats := by
  unfold ebpfInit
  split <;> rfl

theorem thrashGuard_stats (e : Engine F) (k : Answers F) : (thrashGuard e k).stats = e.stats := by
  unfold thrashGuard
  split <;> rfl

theorem computeScores_stats (cfg : Config F) (e : Engine F) (k : Answers F) :
    (computeScores cfg e k).1.stats = e.stats := by
  unfold computeScores
  cases e.damonOn <;> rfl

/-- The preparation counts the cycle and leaves the other counters alone. -/
theorem prepare_stats (cfg : Config F) (e : Engine F) (k : Answers F) (c : Call) :
    (prepare cfg e k c).1.stats = { e.stats with cycles := e.stats.cycles + 1 } := by
  have hbegin : (beginCycle e k).stats = { e.stats with cycles := e.stats.cycles + 1 } := rfl
  cases c with
  | run =>
      unfold prepare openCycle
      dsimp only
      split
      · rw [ebpfInit_stats, damonInit_stats, hbegin]
      · rw [computeScores_stats, thrashGuard_stats, ebpfInit_stats, damonInit_stats, hbegin]
  | force =>
      unfold prepare
      dsimp only
      rw [computeScores_stats, damonInit_stats, hbegin]

theorem runActions_stats (cfg : Config F) (e : Engine F) (k : Answers F) :
    (runActions cfg e k).engine.stats =
      { cycles := e.stats.cycles
        pageoutsKb := e.stats.pageoutsKb + u64 (amounts cfg k (targets cfg e k)) / 1024
        cgroupReclaimedKb := e.stats.cgroupReclaimedKb +
          (cgroupReclaim cfg k (u64 (amounts cfg k (targets cfg e k)))).1 / 1024
        errors := (actAll cfg e k).errors } := by
  have htotal : (actAll cfg e k).total = u64 (amounts cfg k (targets cfg e k)) := by
    rw [actAll_eq, foldl_total _ _ _ (by simp [Acting.start])]
    simp [Acting.start]
  simp only [runActions, htotal]

/-! ## One cycle -/

/-- The fall of anonymous RSS between the two readings around an attempt. -/
def drift (k : Answers F) (ps : ProcessStat F) : Nat :=
  if (k.attempt ps.pid).opened = false ∨ (k.attempt ps.pid).before = 0 then 0
  else (k.attempt ps.pid).before - (k.attempt ps.pid).after

/-- In a dry run a target seems to give what its RSS happened to lose. -/
theorem amounts_dry {cfg : Config F} (hdry : cfg.dryRun = true) (k : Answers F)
    (l : List (ProcessStat F)) : amounts cfg k l = (l.map (drift k)).sum := by
  have hone : ∀ ps, amount cfg k ps = drift k ps := by
    intro ps
    rw [amount_eq, drift]
    simp [hdry]
  exact congrArg List.sum (List.map_congr_left fun ps _ => hone ps)

/-- No advice, no request, DAMON not switched on, and the two counters unchanged. -/
structure DryQuiet (e : Engine F) (out : Outcome F) : Prop where
  noAdvice : ∀ pid start len mode, .madvise pid start len mode ∉ out.events
  noRequest : ∀ bytes, .memoryReclaim bytes ∉ out.events
  damonOff : .damonSwitch true ∉ out.events
  pageouts : out.engine.stats.pageoutsKb = e.stats.pageoutsKb
  cgroup : out.engine.stats.cgroupReclaimedKb = e.stats.cgroupReclaimedKb

/-- DAMON does not start here, the RSS of the targets falls by less than 1 MiB in all,
and behind the gate to the root group the budget is at most 64 MiB. -/
structure DryHarmless (cfg : Config F) (e : Engine F) (k : Answers F) (c : Call) : Prop where
  damon : DamonStarts cfg e k → k.damonSwitched = false
  drift : acts cfg k c = true →
    u64 ((targets cfg (prepare cfg e k c).1 k).map (drift k)).sum < 1024
  request : acts cfg k c = true → cgroupGate cfg k = true → k.reclaimOpens = true →
    cfg.budget ≤ 64 * 1024

theorem damonSwitch_mem_prepare (cfg : Config F) (e : Engine F) (k : Answers F) (c : Call) :
    .damonSwitch true ∈ (prepare cfg e k c).2 ↔ DamonStarts cfg e k ∧ k.damonSwitched = true := by
  obtain ⟨rest, hev, hrest⟩ := prepare_events cfg e k c
  have hnot : .damonSwitch true ∉ rest := fun h => hrest _ h
  have hsame : DamonStarts cfg (beginCycle e k) k ↔ DamonStarts cfg e k := Iff.rfl
  rw [hev, List.mem_append, or_iff_left hnot]
  rcases damonInit_events cfg (damonConfigOf cfg c) (beginCycle e k) k with ⟨hs, h⟩ | ⟨hs, h⟩
  · rw [h]
    constructor
    · intro hmem
      obtain hmem | hmem := List.mem_cons.mp hmem
      · cases hmem
      · exact ⟨hsame.mp hs, (Event.damonSwitch.inj (List.mem_singleton.mp hmem)).symm⟩
    · rintro ⟨-, hon⟩
      rw [hon]
      exact List.mem_cons_of_mem _ (List.mem_singleton_self _)
  · rw [h]
    exact ⟨fun hmem => absurd hmem List.not_mem_nil, fun ⟨h, _⟩ => absurd (hsame.mpr h) hs⟩

theorem damonSwitch_not_mem_runActions (cfg : Config F) (e : Engine F) (k : Answers F) (ok : Bool) :
    .damonSwitch ok ∉ (runActions cfg e k).events := by
  intro h
  rw [runActions_events, List.mem_append, List.mem_cons] at h
  rcases h with h | h | h
  · obtain ⟨ps, -, h⟩ := List.mem_flatMap.mp h
    rcases targetEvents_cases h with ⟨ok, h⟩ | ⟨start, len, h, -⟩ <;> cases h
  · cases h
  · cases (cgroupReclaim_mem h).2

theorem targets_of_no_budget {cfg : Config F} {e : Engine F} {k : Answers F}
    (h : cfg.budget = 0) : targets cfg e k = [] := by
  unfold targets
  cases candidates cfg k e.snapshot with
  | nil => rfl
  | cons ps l => simp [visited, Acting.done, h]

theorem budget_mul (cfg : Config F) : ∃ n, cfg.budget = 1024 * n := by
  refine ⟨cfg.maxReclaimMbPerCycle % 2 ^ 54, ?_⟩
  unfold Config.budget u64
  omega

/-- What a small total leaves of the budget is above 64 KiB exactly when the budget is. -/
theorem requests_dry {cfg : Config F} {e : Engine F} {k : Answers F}
    (htotal : u64 (amounts cfg k (targets cfg e k)) < 1024) :
    ¬ Requests cfg e k ↔
      (cgroupGate cfg k = true → k.reclaimOpens = true → cfg.budget ≤ 64 * 1024) := by
  have hwant : cgroupWant cfg (u64 (amounts cfg k (targets cfg e k))) > 64 * 1024 ↔
      64 * 1024 < cfg.budget := by
    obtain ⟨n, hn⟩ := budget_mul cfg
    have hlt := budget_lt cfg
    unfold cgroupWant
    by_cases hzero : cfg.budget = 0
    · rw [targets_of_no_budget hzero, hzero, amounts_nil]
      decide
    · generalize u64 (amounts cfg k (targets cfg e k)) = t at *
      unfold u64
      omega
  unfold Requests
  rw [hwant]
  constructor
  · intro h hgate hopen
    by_contra hlt
    exact h ⟨hgate, by omega, hopen⟩
  · rintro h ⟨hgate, hlt, hopen⟩
    have hle := h hgate hopen
    omega

theorem dry_idle_iff {cfg : Config F} {e : Engine F} {k : Answers F} {c : Call}
    (hacts : acts cfg k c = false) : DryQuiet e (cycle cfg e k c) ↔ DryHarmless cfg e k c := by
  have hidle := prepare_idle cfg e k c
  have hdamon := damonSwitch_mem_prepare cfg e k c
  have hstats := prepare_stats cfg e k c
  rw [cycle_of_not_acts hacts]
  constructor
  · intro h
    refine ⟨fun hs => ?_, fun ha => ?_, fun ha => ?_⟩
    · by_contra hon
      exact h.damonOff (hdamon.mpr ⟨hs, by simpa using hon⟩)
    · rw [hacts] at ha
      cases ha
    · rw [hacts] at ha
      cases ha
  · intro h
    refine ⟨fun _ _ _ _ hm => hidle _ hm trivial, fun _ hm => hidle _ hm trivial, fun hm => ?_,
      by simp [hstats], by simp [hstats]⟩
    obtain ⟨hs, hon⟩ := hdamon.mp hm
    rw [h.damon hs] at hon
    cases hon

/-- A dry cycle with actions adds what the RSS of the targets lost, and asks the root group
when its request is large enough. -/
theorem dry_acting_iff {cfg : Config F} (hdry : cfg.dryRun = true) {e : Engine F} {k : Answers F}
    {c : Call} (hacts : acts cfg k c = true) :
    DryQuiet e (cycle cfg e k c) ↔ DryHarmless cfg e k c := by
  have hidle := prepare_idle cfg e k c
  have hdamon := damonSwitch_mem_prepare cfg e k c
  have hstats := prepare_stats cfg e k c
  have hamounts := amounts_dry hdry k (targets cfg (prepare cfg e k c).1 k)
  rw [cycle_of_acts hacts]
  generalize hprep : (prepare cfg e k c).1 = e' at *
  have hpage : (runActions cfg e' k).engine.stats.pageoutsKb =
      e.stats.pageoutsKb + u64 (amounts cfg k (targets cfg e' k)) / 1024 := by
    rw [runActions_stats, hstats]
  have hcgroup : (runActions cfg e' k).engine.stats.cgroupReclaimedKb =
      e.stats.cgroupReclaimedKb +
        (cgroupReclaim cfg k (u64 (amounts cfg k (targets cfg e' k)))).1 / 1024 := by
    rw [runActions_stats, hstats]
  constructor
  · intro h
    have hsmall : u64 (amounts cfg k (targets cfg e' k)) < 1024 := by
      have hsame := h.pageouts
      rw [hpage] at hsame
      omega
    refine ⟨fun hs => ?_, fun _ => ?_, fun _ => (requests_dry hsmall).mp ?_⟩
    · by_contra hon
      exact h.damonOff (List.mem_append_left _ (hdamon.mpr ⟨hs, by simpa using hon⟩))
    · rw [hprep, ← hamounts]
      exact hsmall
    · intro hreq
      exact h.noRequest _
        (List.mem_append_right _ ((memoryReclaim_iff cfg e' k _).mpr ⟨hreq, rfl⟩))
  · intro h
    have hsmall : u64 (amounts cfg k (targets cfg e' k)) < 1024 := by
      have hdrift := h.drift hacts
      rw [hprep, ← hamounts] at hdrift
      exact hdrift
    have hreq : ¬ Requests cfg e' k := (requests_dry hsmall).mpr (h.request hacts)
    have hadv : ¬ ∃ ps ∈ targets cfg e' k, Advised cfg k ps := by
      rintro ⟨ps, -, -, -, -, hoff, -⟩
      rw [hdry] at hoff
      cases hoff
    refine ⟨fun _ _ _ _ hm => ?_, fun _ hm => ?_, fun hm => ?_, ?_, ?_⟩
    · rcases List.mem_append.mp hm with hm | hm
      · exact hidle _ hm trivial
      · exact (runActions_acts hm trivial).elim hadv hreq
    · rcases List.mem_append.mp hm with hm | hm
      · exact hidle _ hm trivial
      · exact (runActions_acts hm trivial).elim hadv hreq
    · rcases List.mem_append.mp hm with hm | hm
      · obtain ⟨hs, hon⟩ := hdamon.mp hm
        rw [h.damon hs] at hon
        cases hon
      · exact damonSwitch_not_mem_runActions cfg e' k true hm
    · rw [hpage]
      omega
    · have hnone : (cgroupReclaim cfg k (u64 (amounts cfg k (targets cfg e' k)))).1 = 0 :=
        congrArg Prod.fst (if_neg hreq)
      rw [hcgroup, hnone, Nat.zero_div, Nat.add_zero]

theorem dry_cycle_iff {cfg : Config F} (hdry : cfg.dryRun = true) (e : Engine F) (k : Answers F)
    (c : Call) : DryQuiet e (cycle cfg e k c) ↔ DryHarmless cfg e k c := by
  cases hacts : acts cfg k c with
  | false => exact dry_idle_iff hacts
  | true => exact dry_acting_iff hdry hacts

/-- A history of dry runs does nothing in any of its cycles exactly when every cycle is
harmless in the state it starts from. -/
theorem dry_run_iff (e : Engine F) {l : List (Step F)} (hdry : ∀ st ∈ l, st.cfg.dryRun = true) :
    (∀ x ∈ history e l, DryQuiet x.1 (x.2.outcome x.1)) ↔
      ∀ x ∈ history e l, DryHarmless x.2.cfg x.1 x.2.answers x.2.call := by
  have hall : ∀ x ∈ history e l, x.2.cfg.dryRun = true := fun x hx => hdry _ (mem_history hx)
  exact forall₂_congr fun x hx => dry_cycle_iff (hall x hx) x.1 x.2.answers x.2.call

end

/-- Two idle processes lose 500 KiB between them around every attempt, and the gate to
the root group is open. -/
def Answers.drifting : Answers ℚ :=
  { Answers.still with
    procs :=
      [(2, { rssKb := 100000, anonRssKb := 100000, comm := ascii "a", ok := true }),
       (3, { rssKb := 200000, anonRssKb := 200000, comm := ascii "b", ok := true })]
    distinct := by decide
    sample := fun _ => ⟨100000, 0, 1, true⟩
    attempt := fun pid =>
      { Answers.still.attempt pid with
        opened := true, before := 100000, after := if pid = 2 then 99800 else 99700 }
    psiLater := { someAvg10 := 1 / 2, ok := true }
    cgroupAvailable := true
    reclaimOpens := true }

/-- The second of these cycles tries both processes, and nothing is done. -/
theorem dry_run_drifting :
    let st : Step ℚ :=
      ⟨{ dryRun := true, maxReclaimMbPerCycle := 64 }, Answers.drifting, .force⟩
    let second : Engine ℚ := (st.outcome {}).engine
    (targets st.cfg (prepare st.cfg second st.answers st.call).1 st.answers).map
      ProcessStat.pid = [3, 2] ∧
      cgroupGate st.cfg st.answers = true ∧
      ∀ x ∈ history {} [st, st, { st with call := .run }], DryQuiet x.1 (x.2.outcome x.1) := by
  intro st second
  have hdrift : ∀ x ∈ history {} [st, st, { st with call := .run }],
      u64 ((targets x.2.cfg (prepare x.2.cfg x.1 x.2.answers x.2.call).1 x.2.answers).map
        (drift x.2.answers)).sum < 1024 := by
    decide +kernel
  have hstep : ∀ x ∈ [st, st, { st with call := .run }],
      x.cfg = st.cfg ∧ x.answers = Answers.drifting := by
    intro x hx
    simp only [List.mem_cons, List.not_mem_nil, or_false] at hx
    rcases hx with rfl | rfl | rfl <;> exact ⟨rfl, rfl⟩
  refine ⟨by decide +kernel, by decide +kernel, (dry_run_iff {} ?_).mpr fun x hx => ?_⟩
  · intro x hx
    rw [(hstep x hx).1]
  · obtain ⟨hcfg, hans⟩ := hstep x.2 (mem_history hx)
    refine ⟨fun _ => by rw [hans]; rfl, fun _ => hdrift x hx, fun _ _ _ => ?_⟩
    rw [hcfg]
    decide

/-- A dry run asks the root group for 512 KiB. -/
theorem dry_run_requests :
    ¬ ∀ (cfg : Config ℚ) (e : Engine ℚ) (l : List (Answers ℚ × Call)), cfg.dryRun = true →
      ∀ x ∈ history e (l.map fun a => ⟨cfg, a.1, a.2⟩), DryQuiet x.1 (x.2.outcome x.1) := by
  intro hall
  let k : Answers ℚ := { Answers.still with
    psiLater := { someAvg10 := 1 / 2, ok := true }
    cgroupAvailable := true
    reclaimOpens := true }
  have hreq : Requests { dryRun := true } (prepare { dryRun := true } {} k .force).1 k := by
    show _ ∧ _ ∧ _
    decide +kernel
  have hquiet := hall { dryRun := true } {} [(k, .force)] rfl _ (List.mem_singleton_self _)
  have hev : ((⟨{ dryRun := true }, k, .force⟩ : Step ℚ).outcome {}).events =
      (prepare { dryRun := true } {} k .force).2 ++
        (runActions { dryRun := true } (prepare { dryRun := true } {} k .force).1 k).events :=
    congrArg Outcome.events (cycle_of_acts (c := .force) rfl)
  have hmem := (memoryReclaim_iff _ _ _ _).mpr ⟨hreq, rfl⟩
  exact hquiet.noRequest _ (hev ▸ List.mem_append_right _ hmem)

end Memflux.Core
