import Memflux.Core.Latch
import Memflux.Daemon.Server

/-! # Runs of the daemon

The engine after a run of turns is the engine after the cycles of these turns, one after
the other. When they run is decided by the clock and by the requests to pause and to go
on; with what configuration, by the requests to adjust the threshold.
-/

namespace Memflux.Daemon

open Memflux.Core Double Simulation

section

variable {F : Type} [Double F]

/-! ## The counters of the engine -/

theorem outcome_stats (e : Engine F) (st : Step F) :
    (st.outcome e).engine.stats.cycles = e.stats.cycles + 1 ∧
      (st.outcome e).engine.stats.pageoutsKb = e.stats.pageoutsKb + (st.outcome e).ret := by
  have hprepare := prepare_stats st.cfg e st.answers st.call
  unfold Step.outcome
  cases hacts : acts st.cfg st.answers st.call with
  | true =>
      have hran : ∀ e' : Engine F,
          (runActions st.cfg e' st.answers).engine.stats.cycles = e'.stats.cycles ∧
            (runActions st.cfg e' st.answers).engine.stats.pageoutsKb =
              e'.stats.pageoutsKb + (runActions st.cfg e' st.answers).ret := fun _ => ⟨rfl, rfl⟩
      rw [cycle_of_acts hacts]
      dsimp only
      rw [(hran _).1, (hran _).2, hprepare]
      exact ⟨rfl, rfl⟩
  | false =>
      rw [cycle_of_not_acts hacts]
      dsimp only
      rw [hprepare]
      exact ⟨rfl, rfl⟩

/-- The values that the cycles of a history returned. -/
def returned (e : Engine F) (l : List (Step F)) : List Nat :=
  (history e l).map fun x => (x.2.outcome x.1).ret

theorem play_stats (e : Engine F) (l : List (Step F)) :
    (play e l).stats.cycles = e.stats.cycles + l.length ∧
      (play e l).stats.pageoutsKb = e.stats.pageoutsKb + (returned e l).sum := by
  induction l generalizing e with
  | nil => exact ⟨rfl, rfl⟩
  | cons st l ih =>
      obtain ⟨hcycles, hpageouts⟩ := ih (st.outcome e).engine
      obtain ⟨hone, hret⟩ := outcome_stats e st
      have hsum : (returned e (st :: l)).sum =
          (st.outcome e).ret + (returned (st.outcome e).engine l).sum := rfl
      refine ⟨?_, ?_⟩
      · rw [List.length_cons]
        refine hcycles.trans ?_
        omega
      · refine hpageouts.trans ?_
        omega

/-! ## A run is a history of cycles -/

def runSteps (libc : Libc F) (d : Server F) : List (Turn F) → List (Step F)
  | [] => []
  | t :: ts => turnSteps libc d t ++ runSteps libc (turn libc d t).1 ts

/-- What the requests of a run make of the threshold. -/
def thresholdBy (threshold : F) (ts : List (Turn F)) : F :=
  ts.foldl (fun th t => thresholdAfter th t.request) threshold

def pausedBy (paused : Bool) (ts : List (Turn F)) : Bool :=
  ts.foldl (fun p t => pausedAfter p t.cmd) paused

abbrev turns (ls : List (Turn F × Option Bytes)) : List (Turn F) := ls.map Prod.fst

theorem turn_of_step {libc : Libc F} {d d' : Server F} {l : Turn F × Option Bytes}
    (h : TurnStep libc d l d') : (turn libc d l.1).1 = d' ∧ (turn libc d l.1).2 = l.2 :=
  ⟨congrArg Prod.fst h, congrArg Prod.snd h⟩

def answered (libc : Libc F) (d : Server F) : List (Turn F) → List (Turn F × Option Bytes) × Server F
  | [] => ([], d)
  | t :: ts =>
      let (ls, d') := answered libc (turn libc d t).1 ts
      ((t, (turn libc d t).2) :: ls, d')

theorem run_answered (libc : Libc F) (d : Server F) (ts : List (Turn F)) :
    Run (TurnStep libc) d (answered libc d ts).1 (answered libc d ts).2 := by
  induction ts generalizing d with
  | nil => exact .nil d
  | cons t ts ih => exact .cons rfl (ih (turn libc d t).1)

theorem run_spec {libc : Libc F} {d d' : Server F} {ls : List (Turn F × Option Bytes)}
    (h : Run (TurnStep libc) d ls d') :
    d'.engine = play d.engine (runSteps libc d (turns ls)) ∧
      d'.cfg = { d.cfg with psiThreshold := thresholdBy d.cfg.psiThreshold (turns ls) } ∧
        d'.paused = pausedBy d.paused (turns ls) := by
  induction h with
  | nil d => exact ⟨rfl, rfl, rfl⟩
  | @cons d d₁ d' l ls hstep hrest ih =>
      obtain ⟨hengine, hcfg, hpaused⟩ := ih
      obtain ⟨hengine₁, hcfg₁, hpaused₁⟩ := turn_spec libc d l.1
      rw [(turn_of_step hstep).1] at hengine₁ hcfg₁ hpaused₁
      have hsteps : runSteps libc d (turns (l :: ls)) =
          turnSteps libc d l.1 ++ runSteps libc d₁ (turns ls) := by
        rw [← (turn_of_step hstep).1]
        rfl
      refine ⟨?_, ?_, ?_⟩
      · rw [hengine, hengine₁, hsteps, play, play, play, List.foldl_append]
      · rw [hcfg, hcfg₁]
        rfl
      · rw [hpaused, hpaused₁]
        rfl

/-- A value that the threshold can have: the configured one, or an accepted one. -/
def IsThreshold (cfg : Config F) (th : F) : Prop :=
  th = cfg.psiThreshold ∨
    ∃ arg, accepts (askedThreshold arg : F) = true ∧ th = askedThreshold arg

theorem isThreshold_after {cfg : Config F} {th : F} (h : IsThreshold cfg th)
    (r : Option Request) : IsThreshold cfg (thresholdAfter th r) := by
  unfold thresholdAfter
  cases r with
  | none => exact h
  | some r =>
      dsimp only
      split
      · rename_i hadjust
        exact .inr ⟨r.arg, hadjust.2, rfl⟩
      · exact h

/-- The configuration of a cycle is the one that was loaded, but for the threshold. -/
def Configured (cfg : Config F) (st : Step F) : Prop :=
  IsThreshold cfg st.cfg.psiThreshold ∧
    st.cfg = { cfg with psiThreshold := st.cfg.psiThreshold }

/-- The cycles of one turn, with the configuration before it or after its request. -/
theorem mem_turnSteps {libc : Libc F} {d : Server F} {t : Turn F} {st : Step F}
    (h : st ∈ turnSteps libc d t) :
    st.cfg = d.cfg ∨
      st.cfg = { d.cfg with psiThreshold := thresholdAfter d.cfg.psiThreshold t.request } := by
  rcases List.mem_append.mp h with h | h
  · unfold forcedSteps at h
    cases hclient : t.client with
    | none => simp [hclient] at h
    | some c =>
        rw [hclient] at h
        dsimp only at h
        split at h
        · rw [List.mem_singleton.mp h]
          exact .inl rfl
        · cases h
  · unfold timedSteps at h
    split at h
    · rw [List.mem_singleton.mp h]
      exact .inr (by rw [serve_spec])
    · cases h

theorem runSteps_configured {libc : Libc F} {cfg : Config F} {d : Server F} (ts : List (Turn F))
    (hth : IsThreshold cfg d.cfg.psiThreshold)
    (hcfg : d.cfg = { cfg with psiThreshold := d.cfg.psiThreshold }) :
    ∀ st ∈ runSteps libc d ts, Configured cfg st := by
  induction ts generalizing d with
  | nil => exact fun _ h => nomatch h
  | cons t ts ih =>
      intro st hst
      have hafter : (turn libc d t).1.cfg =
          { cfg with psiThreshold := thresholdAfter d.cfg.psiThreshold t.request } := by
        rw [(turn_spec libc d t).2.1, hcfg]
      rcases List.mem_append.mp hst with hst | hst
      · rcases mem_turnSteps hst with heq | heq
        · exact ⟨by rwa [heq], by rw [heq, hcfg]⟩
        · refine ⟨?_, by rw [heq, hcfg]⟩
          rw [heq]
          exact isThreshold_after hth _
      · refine ih ?_ ?_ st hst
        · rw [hafter]
          exact isThreshold_after hth _
        · rw [hafter]

theorem forced_turnSteps (libc : Libc F) (d : Server F) (t : Turn F) :
    ((turnSteps libc d t).filter fun st => st.call = .force).length =
      if t.cmd = some .force then 1 else 0 := by
  have htimed : ∀ d : Server F, (timedSteps d t).filter (fun st => st.call = .force) = [] := by
    intro d
    unfold timedSteps
    split <;> rfl
  rw [turnSteps, List.filter_append, htimed, List.append_nil]
  unfold forcedSteps
  rcases hclient : t.client with _ | c
  · simp [Turn.cmd, Turn.request, hclient]
  · dsimp only
    split <;> rfl

theorem forced_runSteps (libc : Libc F) (d : Server F) (ts : List (Turn F)) :
    ((runSteps libc d ts).filter fun st => st.call = .force).length =
      (ts.filter fun t => t.cmd = some .force).length := by
  induction ts generalizing d with
  | nil => rfl
  | cons t ts ih =>
      rw [runSteps, List.filter_append, List.length_append, forced_turnSteps, ih, List.filter_cons]
      by_cases hforce : t.cmd = some .force
      · simp [hforce, Nat.add_comm]
      · simp [hforce]

/-- From the start of the daemon, whatever clients ask and whatever the clock and the
kernel answer: the engine is the one after the cycles of the turns, forced ones included,
in order; it counts them and what they returned; as many are forced as requests ask; and
each of them ran with the loaded configuration, of which only the threshold can differ,
and only by an accepted value. -/
theorem daemon_refines_engine (libc : Libc F) (cfg : Config F) (now : Nat)
    {ls : List (Turn F × Option Bytes)} {d : Server F}
    (hrun : Run (TurnStep libc) (start cfg now) ls d) :
    let steps : List (Step F) := runSteps libc (start cfg now) (turns ls)
    d.engine = play {} steps ∧
      d.engine.stats.cycles = steps.length ∧
        d.engine.stats.pageoutsKb = (returned {} steps).sum ∧
          (steps.filter fun st => st.call = .force).length =
            ((turns ls).filter fun t => t.cmd = some .force).length ∧
          ∀ st ∈ steps, Configured cfg st := by
  intro steps
  obtain ⟨hengine, -, -⟩ := run_spec hrun
  obtain ⟨hcycles, hpageouts⟩ := play_stats ({} : Engine F) steps
  have hzero : ({} : Engine F).stats = {} := rfl
  rw [hzero, Nat.zero_add] at hcycles hpageouts
  have hengine : d.engine = play {} steps := hengine
  refine ⟨hengine, ?_, ?_, forced_runSteps libc _ _, runSteps_configured _ (.inl rfl) rfl⟩
  · rw [hengine]
    exact hcycles
  · rw [hengine]
    exact hpageouts

theorem perm_id (l : List (ProcessStat F)) : (id l).Perm l := .rfl

theorem room_nil : (([] : List (VmaRange × Int)).map fun v => v.2.toNat).sum < 2 ^ 64 := by decide

/-- A printer for which every double is zero. -/
def Libc.zeros : Libc ℚ := ⟨fun _ => [48], fun _ => 0⟩

/-- A turn with one request, of a daemon whose kernel answers nothing. -/
def asks (c : Cmd) (arg now : Nat) : Turn ℚ :=
  ⟨some ⟨Request.bytes ⟨c.code, arg⟩, {}, id, perm_id, Answers.still⟩, now, Answers.still⟩

/-- A threshold is set and a cycle forced, with the timed cycle of the first turn between
them. -/
theorem daemon_refines_engine_two :
    let ts : List (Turn ℚ) := [asks .adjust 300 0, asks .force 0 5]
    let d : Server ℚ := (answered Libc.zeros (start {} 0) ts).2
    let steps : List (Step ℚ) := runSteps Libc.zeros (start {} 0) ts
    (answered Libc.zeros (start {} 0) ts).1.map Prod.snd =
        [some (ascii "psi_threshold updated"), some (ascii "forced cycle: 0 MB reclaimed")] ∧
      steps.map (fun st => (st.call, st.cfg.psiThreshold)) = [(.run, 3 / 10), (.force, 3 / 10)] ∧
        d.engine = play {} steps ∧ d.engine.stats.cycles = 2 ∧ ∀ st ∈ steps, Configured {} st := by
  intro ts d steps
  have hsteps : steps.map (fun st => (st.call, st.cfg.psiThreshold)) = [(.run, 3 / 10), (.force, 3 / 10)] := by
    decide +kernel
  obtain ⟨hengine, hcycles, -, -, hconfigured⟩ := daemon_refines_engine Libc.zeros {} 0
    (run_answered Libc.zeros (start {} 0) ts)
  have hturns : turns (answered Libc.zeros (start {} 0) ts).1 = ts := rfl
  rw [hturns] at hengine hcycles hconfigured
  have hlength := congrArg List.length hsteps
  rw [List.length_map] at hlength
  exact ⟨by decide +kernel, hsteps, hengine, hcycles.trans hlength, hconfigured⟩

/-! ## When the cycles run -/

def cycleTimes (libc : Libc F) (d : Server F) : List (Turn F) → List Nat
  | [] => []
  | t :: ts =>
      (if Due (serve libc d t.client).1 t.now then [t.now] else []) ++
        cycleTimes libc (turn libc d t).1 ts

/-- The earliest time of the next cycle, after cycles at the given times. -/
def nextAfter (first pause : Nat) (times : List Nat) : Nat :=
  (times.getLast?.map (· + pause)).getD first

theorem nextAfter_append (first pause now : Nat) (c : Prop) [Decidable c] (times : List Nat) :
    nextAfter first pause ((if c then [now] else []) ++ times) =
      nextAfter (if c then now + pause else first) pause times := by
  unfold nextAfter
  cases hlast : times.getLast? with
  | some u => simp [List.getLast?_append, hlast]
  | none =>
      rw [List.getLast?_eq_none_iff.mp hlast, List.append_nil]
      split <;> simp

theorem turn_next (libc : Libc F) (d : Server F) (t : Turn F) :
    (turn libc d t).1.next =
      if Due (serve libc d t.client).1 t.now then t.now + interval d.cfg else d.next := by
  show (tick (serve libc d t.client).1 t.now t.answers).next = _
  by_cases h : Due (serve libc d t.client).1 t.now
  · rw [tick_of_due h, if_pos h, serve_spec]
    rfl
  · rw [tick_of_not_due h, if_neg h, serve_spec]

theorem turn_interval (libc : Libc F) (d : Server F) (t : Turn F) :
    interval (turn libc d t).1.cfg = interval d.cfg := by
  rw [(turn_spec libc d t).2.1]
  rfl

theorem next_of_turns {libc : Libc F} {d d' : Server F} {ls : List (Turn F × Option Bytes)}
    (h : Run (TurnStep libc) d ls d') :
    d'.next = nextAfter d.next (interval d.cfg) (cycleTimes libc d (turns ls)) := by
  induction h with
  | nil d => rfl
  | @cons d d₁ d' l ls hstep hrest ih =>
      have hnext := turn_next libc d l.1
      have hinterval := turn_interval libc d l.1
      have htimes : cycleTimes libc d (turns (l :: ls)) =
          (if Due (serve libc d l.1.client).1 l.1.now then [l.1.now] else []) ++
            cycleTimes libc d₁ (turns ls) := by
        rw [← (turn_of_step hstep).1]
        rfl
      rw [(turn_of_step hstep).1] at hnext hinterval
      rw [ih, htimes, hnext, hinterval, nextAfter_append]

/-- No cycle comes before its time, and each puts the next one off by the interval. -/
theorem cycleTimes_spaced (libc : Libc F) (d : Server F) (ts : List (Turn F)) :
    (∀ v ∈ cycleTimes libc d ts, d.next ≤ v) ∧
      (cycleTimes libc d ts).Pairwise fun u v => u + interval d.cfg ≤ v := by
  induction ts generalizing d with
  | nil => exact ⟨fun _ hv => (nomatch hv), .nil⟩
  | cons t ts ih =>
      obtain ⟨hlate, hspaced⟩ := ih (turn libc d t).1
      have hnext := turn_next libc d t
      rw [turn_interval] at hspaced
      unfold cycleTimes
      by_cases hdue : Due (serve libc d t.client).1 t.now
      · rw [if_pos hdue] at hnext ⊢
        rw [hnext] at hlate
        have hnow : d.next ≤ t.now := by
          have hle := hdue.2
          rwa [serve_spec] at hle
        refine ⟨fun v hv => ?_, List.pairwise_cons.mpr ⟨hlate, hspaced⟩⟩
        rcases List.mem_cons.mp hv with rfl | hv
        · exact hnow
        · have := hlate v hv
          omega
      · rw [if_neg hdue] at hnext ⊢
        rw [hnext] at hlate
        exact ⟨hlate, hspaced⟩

/-- A cycle that nobody forced runs in a turn exactly when neither this request nor the
ones before it leave the daemon paused, and the interval has passed since the last such
cycle, or the daemon's start has come; so two of them are at least an interval apart,
whatever is requested in between: `KICK` only ends a pause. -/
theorem daemon_schedule (libc : Libc F) (cfg : Config F) (now : Nat)
    {ls : List (Turn F × Option Bytes)} {d : Server F}
    (hrun : Run (TurnStep libc) (start cfg now) ls d) :
    (∀ t : Turn F, timedSteps (serve libc d t.client).1 t ≠ [] ↔
      pausedBy false (turns ls ++ [t]) = false ∧
        nextAfter now (interval cfg) (cycleTimes libc (start cfg now) (turns ls)) ≤ t.now) ∧
      (cycleTimes libc (start cfg now) (turns ls)).Pairwise fun u v => u + interval cfg ≤ v := by
  obtain ⟨-, -, hpaused⟩ := run_spec hrun
  refine ⟨fun t => ?_, (cycleTimes_spaced libc (start cfg now) (turns ls)).2⟩
  have hdue : timedSteps (serve libc d t.client).1 t ≠ [] ↔ Due (serve libc d t.client).1 t.now := by
    unfold timedSteps
    split
    · exact ⟨fun _ => by assumption, fun _ => List.cons_ne_nil _ _⟩
    · rename_i h
      exact ⟨fun hne => absurd rfl hne, fun hd => absurd hd h⟩
  have hlast : pausedBy false (turns ls ++ [t]) = pausedAfter d.paused t.cmd := by
    rw [hpaused, pausedBy, pausedBy, List.foldl_append, List.foldl_cons, List.foldl_nil]
    rfl
  have hnext := next_of_turns hrun
  have hstart : (start cfg now).next = now ∧ (start cfg now).cfg = cfg := ⟨rfl, rfl⟩
  rw [hstart.1, hstart.2] at hnext
  rw [hdue, hlast, ← hnext]
  unfold Due
  rw [serve_spec]

/-- The daemon after a cycle at time 0, a pause and a kick. -/
def kicked : List (Turn ℚ) := [asks .status 0 0, asks .pause 0 1, asks .kick 0 2]

/-- The kick does not bring the next cycle forward: it waits for the end of the interval. -/
theorem daemon_schedule_kick :
    timedSteps (answered Libc.zeros (start {} 0) kicked).2 ⟨none, 999999999, Answers.still⟩ = [] ∧
      timedSteps (answered Libc.zeros (start {} 0) kicked).2 ⟨none, 1000000000, Answers.still⟩ ≠ [] := by
  obtain ⟨hiff, -⟩ := daemon_schedule Libc.zeros {} 0 (run_answered Libc.zeros (start {} 0) kicked)
  refine ⟨?_, (hiff ⟨none, 1000000000, Answers.still⟩).mpr (by decide +kernel)⟩
  by_contra hne
  exact absurd ((hiff ⟨none, 999999999, Answers.still⟩).mp hne) (by decide +kernel)

/-! ## What a client is told -/

/-- The response to a status request, after any run: its numbers are the cycles and the
memory they returned, what `meminfo` found, the threshold that the requests so far left,
and whether they left the daemon paused. -/
theorem status_exact (libc : Libc F) (cfg : Config F) (now : Nat)
    {ls : List (Turn F × Option Bytes)} {d : Server F}
    (hrun : Run (TurnStep libc) (start cfg now) ls d) {t : Turn F} {c : Client F}
    (hclient : t.client = some c) (hcmd : t.cmd = some .status) :
    ∃ reply, (turn libc d t).2 = some reply ∧
      numbers reply =
        [u64 (runSteps libc (start cfg now) (turns ls)).length,
          u64 (returned {} (runSteps libc (start cfg now) (turns ls))).sum / 1024,
          u64 d.engine.stats.cgroupReclaimedKb / 1024, u64 d.engine.stats.errors,
          u64 c.mem.totalKb / 1024, u64 c.mem.freeKb / 1024, u64 c.mem.anonKb / 1024,
          u64 c.mem.swapFreeKb / 1024,
          u32 (libc.toUnsigned (mul (thresholdBy cfg.psiThreshold (turns ls)) (ofNat 1000))),
          if pausedBy false (turns ls) then 1 else 0] := by
  obtain ⟨hengine, hcfg, hpaused⟩ := run_spec hrun
  obtain ⟨hcycles, hpageouts⟩ := play_stats ({} : Engine F) (runSteps libc (start cfg now) (turns ls))
  have hzero : ({} : Engine F).stats = {} := rfl
  have hstart : (start cfg now).engine = {} ∧ (start cfg now).cfg = cfg ∧
      (start cfg now).paused = false := ⟨rfl, rfl, rfl⟩
  rw [hzero, Nat.zero_add] at hcycles hpageouts
  rw [hstart.1] at hengine
  rw [hstart.2.1] at hcfg
  rw [hstart.2.2] at hpaused
  have hrequest : t.request = Request.ofBytes c.bytes := by
    rw [Turn.request, hclient, Option.bind_some]
  obtain ⟨r, hr, hcode⟩ := Option.bind_eq_some_iff.mp hcmd
  have hreply : (turn libc d t).2 =
      some (statusReply libc d.engine.stats c.mem d.cfg.psiThreshold d.paused) := by
    show (serve libc d t.client).2 = _
    rw [hclient, serve, handleClient_of_some libc d (hrequest.symm.trans hr), handle, hcode]
  refine ⟨_, hreply, ?_⟩
  rw [numbers_statusReply, ← hcycles, ← hpageouts, ← hengine, hpaused, hcfg]

/-- A daemon that was told to pause after its first cycle says so. -/
theorem status_exact_paused :
    ∃ reply, (turn Libc.zeros (answered Libc.zeros (start {} 0) [asks .pause 0 0, asks .resume 0 1,
        asks .pause 0 2]).2 (asks .status 0 3)).2 = some reply ∧
      numbers reply = [1, 0, 0, 0, 0, 0, 0, 0, 0, 1] := by
  obtain ⟨reply, hreply, hnumbers⟩ := status_exact Libc.zeros {} 0
    (run_answered Libc.zeros (start {} 0) [asks .pause 0 0, asks .resume 0 1, asks .pause 0 2])
    (t := asks .status 0 3) rfl (by decide +kernel)
  refine ⟨reply, hreply, ?_⟩
  rw [hnumbers]
  decide +kernel

/-! ## With DAMON on -/

theorem zeroBelow_configured {cfg : Config F} (h : ZeroBelow cfg) {st : Step F}
    (hst : Configured cfg st) : ZeroBelow st.cfg := by
  rw [hst.2]
  exact ⟨h.cooling, fun ps swap hswap => h.weighted ps swap hswap⟩

/-- DAMON is on, or the first cycle of the list switches it on. -/
def DamonFirst (e : Engine F) (l : List (Step F)) : Prop :=
  (l.head?.all fun st => damonAfter st.cfg e st.answers) = true

theorem damonFirst_append {e : Engine F} {l l' : List (Step F)} (h : DamonFirst e (l ++ l')) :
    DamonFirst e l ∧ DamonFirst (play e l) l' := by
  cases l with
  | nil => exact ⟨rfl, h⟩
  | cons st l =>
      have hfirst : damonAfter st.cfg e st.answers = true := h
      have hstays : ∀ (l : List (Step F)) (e : Engine F), e.damonOn = true → (play e l).damonOn = true := by
        intro l
        induction l with
        | nil => exact fun _ hon => hon
        | cons st l ih =>
            intro e hon
            refine ih _ ?_
            rw [outcome_damonOn, damonAfter, hon]
            rfl
      have hon : (play e (st :: l)).damonOn = true :=
        hstays l _ (by rw [outcome_damonOn, hfirst])
      refine ⟨h, ?_⟩
      cases l' with
      | nil => rfl
      | cons st' l' =>
          show damonAfter st'.cfg _ st'.answers = true
          rw [damonAfter, hon]
          rfl

theorem forced_nothing [LawfulDouble F] (libc : Libc F) {d : Server F} {t : Turn F}
    (hzero : ZeroBelow d.cfg) (hcmd : t.cmd = some .force)
    (hdamon : DamonFirst d.engine (turnSteps libc d t)) :
    (turn libc d t).2 = some (ascii "forced cycle: 0 MB reclaimed") := by
  obtain ⟨r, hr, hcode⟩ := Option.bind_eq_some_iff.mp hcmd
  obtain ⟨c, hclient, hbytes⟩ := Option.bind_eq_some_iff.mp hr
  have hforced : forcedSteps d t = [⟨d.cfg, c.forced, .force⟩] := by
    unfold forcedSteps
    rw [hclient]
    exact if_pos hcmd
  have hon : damonAfter d.cfg d.engine c.forced = true := by
    rw [turnSteps, hforced] at hdamon
    exact hdamon
  obtain ⟨-, hret⟩ := outcome_nobody d.engine ⟨d.cfg, c.forced, .force⟩ hzero hon
  have hret : (forceCycle d.cfg d.engine c.forced).ret = 0 := hret
  show (serve libc d t.client).2 = _
  rw [hclient, serve, handleClient_of_some libc d hbytes, handle, hcode]
  show some (forceReply (forceCycle d.cfg d.engine c.forced).ret) = _
  rw [hret]
  decide +kernel

theorem run_forced_nothing [LawfulDouble F] {libc : Libc F} {d d' : Server F}
    {ls : List (Turn F × Option Bytes)} (h : Run (TurnStep libc) d ls d')
    (hzero : ∀ th, ZeroBelow { d.cfg with psiThreshold := th })
    (hdamon : DamonFirst d.engine (runSteps libc d (turns ls))) :
    ∀ l ∈ ls, l.1.cmd = some .force → l.2 = some (ascii "forced cycle: 0 MB reclaimed") := by
  induction h with
  | nil d => exact fun _ hl => nomatch hl
  | @cons d d₁ d' l ls hstep hrest ih =>
      obtain ⟨hstate, hreply⟩ := turn_of_step hstep
      obtain ⟨hengine, hcfg, -⟩ := turn_spec libc d l.1
      rw [hstate] at hengine hcfg
      have hsteps : runSteps libc d (turns (l :: ls)) =
          turnSteps libc d l.1 ++ runSteps libc d₁ (turns ls) := by
        rw [← hstate]
        rfl
      rw [hsteps] at hdamon
      obtain ⟨hfirst, hlater⟩ := damonFirst_append hdamon
      rw [← hengine] at hlater
      intro l' hl' hcmd
      rcases List.mem_cons.mp hl' with rfl | hl'
      · rw [← hreply]
        exact forced_nothing libc (hzero d.cfg.psiThreshold) hcmd hfirst
      · refine ih (fun th => ?_) hlater l' hl' hcmd
        rw [hcfg]
        exact hzero th

/-- When the first cycle of the daemon switches DAMON on, as it does by default wherever
the module is there and takes it, no cycle of any later run touches a process, forced or
not: every forced cycle is answered with zero, and the counter of reclaimed memory stays
zero. The minimum score is taken to be positive and the weights to be finite. -/
theorem damon_idles_daemon [LawfulDouble F] (libc : Libc F) (cfg : Config F) (now : Nat)
    (hzero : ZeroBelow cfg) {ls : List (Turn F × Option Bytes)} {d : Server F}
    (hrun : Run (TurnStep libc) (start cfg now) ls d)
    (hdamon : DamonFirst {} (runSteps libc (start cfg now) (turns ls))) :
    (∀ x ∈ history {} (runSteps libc (start cfg now) (turns ls)),
      ∀ ev ∈ (x.2.outcome x.1).events, ¬ ev.Touches) ∧
      d.engine.stats.pageoutsKb = 0 ∧
        ∀ l ∈ ls, l.1.cmd = some .force → l.2 = some (ascii "forced cycle: 0 MB reclaimed") := by
  have hconfigured : ∀ st ∈ runSteps libc (start cfg now) (turns ls), Configured cfg st :=
    runSteps_configured (turns ls) (.inl rfl) rfl
  have hnobody := history_nobody (l := runSteps libc (start cfg now) (turns ls)) (e := {})
    (fun st hst => zeroBelow_configured hzero (hconfigured st hst)) fun st hst =>
      (Option.all_eq_true _ _).mp hdamon st hst
  refine ⟨fun x hx => (hnobody x hx).1, ?_, ?_⟩
  · obtain ⟨hengine, -, -⟩ := run_spec hrun
    obtain ⟨-, hpageouts⟩ := play_stats ({} : Engine F) (runSteps libc (start cfg now) (turns ls))
    have hsum : (returned {} (runSteps libc (start cfg now) (turns ls))).sum = 0 := by
      refine List.sum_eq_zero fun n hn => ?_
      obtain ⟨x, hx, rfl⟩ := List.mem_map.mp hn
      exact (hnobody x hx).2
    have hengine : d.engine = play {} (runSteps libc (start cfg now) (turns ls)) := hengine
    rw [hengine, hpageouts, hsum]
  · exact run_forced_nothing hrun
      (fun th => ⟨hzero.cooling, fun ps swap hswap => hzero.weighted ps swap hswap⟩) hdamon

/-- A kernel with the module and with one large process. -/
def Answers.damon : Answers ℚ :=
  { Answers.alone with
    damonAvailable := true
    damonSwitched := true
    attempt := fun _ => ⟨true, 100000, [], 0, room_nil⟩ }

/-- The process could be trimmed, and the daemon is told to, twice. -/
def forcedTwice : List (Turn ℚ) :=
  [⟨some ⟨Request.bytes ⟨7, 0⟩, {}, id, perm_id, Answers.damon⟩, 0, Answers.damon⟩,
    ⟨some ⟨Request.bytes ⟨7, 0⟩, {}, id, perm_id, Answers.damon⟩, 5, Answers.damon⟩]

theorem damon_idles_daemon_twice :
    (answered Libc.zeros (start {} 0) forcedTwice).2.engine.stats.pageoutsKb = 0 ∧
      ∀ l ∈ (answered Libc.zeros (start {} 0) forcedTwice).1, l.1.cmd = some .force →
        l.2 = some (ascii "forced cycle: 0 MB reclaimed") :=
  (damon_idles_daemon Libc.zeros {} 0 zeroBelow_default
    (run_answered Libc.zeros (start {} 0) forcedTwice) (by unfold DamonFirst; decide +kernel)).2

end

end Memflux.Daemon
