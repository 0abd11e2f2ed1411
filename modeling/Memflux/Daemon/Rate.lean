import Memflux.Core.Selection
import Memflux.Daemon.Runs

/-! # How often the daemon takes memory

Cycles that nobody forces keep an interval between each other, and no cycle takes memory
from more than `max_targets` processes. So the length of a window of time and the requests
in it bound how many processes give memory in the window.
-/

namespace Memflux.Daemon

open Memflux.Core Double Simulation

/-- Times at least `k` apart in a window that is `n` times as long: there are at most `n`. -/
theorem length_spaced {k : Nat} {l : List Nat} (hspaced : l.Pairwise fun u v => u + k ≤ v)
    {a n : Nat} (hwindow : ∀ v ∈ l, a ≤ v ∧ v < a + n * k) : l.length ≤ n := by
  induction l generalizing a n with
  | nil => exact Nat.zero_le n
  | cons u l ih =>
      obtain ⟨hfirst, hrest⟩ := List.pairwise_cons.mp hspaced
      obtain ⟨hlow, hhigh⟩ := hwindow u List.mem_cons_self
      cases n with
      | zero => omega
      | succ n =>
          have hmul : (n + 1) * k = n * k + k := Nat.succ_mul n k
          refine Nat.succ_le_succ (ih hrest (a := a + k) fun v hv => ?_)
          have hlater := hfirst v hv
          have hbefore := (hwindow v (List.mem_cons_of_mem u hv)).2
          omega

section

variable {F : Type} [Double F]

/-- The processes that a cycle gets memory from, as `run_actions` counts them. -/
def acted (e : Engine F) (st : Step F) : Nat :=
  if acts st.cfg st.answers st.call then
    (actAll st.cfg (prepare st.cfg e st.answers st.call).1 st.answers).acted
  else 0

theorem acted_le (e : Engine F) (st : Step F) : acted e st ≤ st.cfg.maxTargets := by
  unfold acted
  split
  · rw [actAll_eq, foldl_acted]
    have hpaying := paying_le st.cfg (prepare st.cfg e st.answers st.call).1 st.answers
      (List.prefix_refl _)
    simpa [Acting.start] using hpaying
  · exact Nat.zero_le _

/-- The processes that the cycles of a history get memory from, each as often as it gives
any. -/
def actedIn (e : Engine F) (l : List (Step F)) : Nat :=
  ((history e l).map fun x => acted x.1 x.2).sum

theorem actedIn_le {m : Nat} (e : Engine F) {l : List (Step F)}
    (hm : ∀ st ∈ l, st.cfg.maxTargets ≤ m) : actedIn e l ≤ l.length * m := by
  induction l generalizing e with
  | nil => exact Nat.zero_le _
  | cons st l ih =>
      have hone := (acted_le e st).trans (hm st List.mem_cons_self)
      have hrest := ih (st.outcome e).engine fun st' hst' => hm st' (List.mem_cons_of_mem st hst')
      have hsum : actedIn e (st :: l) = acted e st + actedIn (st.outcome e).engine l := rfl
      rw [hsum, List.length_cons, Nat.succ_mul]
      omega

/-! ## The cycles in a window -/

theorem length_timedSteps (d : Server F) (t : Turn F) :
    (timedSteps d t).length = (if Due d t.now then [t.now] else []).length := by
  unfold timedSteps
  split <;> simp

/-- Each cycle of a run was forced by a request or has a time of its own. -/
theorem length_runSteps (libc : Libc F) (d : Server F) (ts : List (Turn F)) :
    (runSteps libc d ts).length =
      (ts.filter fun t => t.cmd = some .force).length + (cycleTimes libc d ts).length := by
  induction ts generalizing d with
  | nil => rfl
  | cons t ts ih =>
      have hforced : (forcedSteps d t).length = if t.cmd = some .force then 1 else 0 := by
        unfold forcedSteps
        cases hclient : t.client with
        | none => simp [Turn.cmd, Turn.request, hclient]
        | some c =>
            dsimp only
            split <;> rfl
      rw [runSteps, cycleTimes, turnSteps, List.length_append, List.length_append, List.length_append,
        ih, hforced, length_timedSteps, List.filter_cons]
      by_cases hforce : t.cmd = some .force
      · simp only [hforce, decide_true, if_true, List.length_cons]
        omega
      · simp only [hforce, decide_false, Bool.false_eq_true, if_false]
        omega

theorem mem_cycleTimes {libc : Libc F} {d : Server F} {ts : List (Turn F)} {v : Nat}
    (h : v ∈ cycleTimes libc d ts) : ∃ t ∈ ts, t.now = v := by
  induction ts generalizing d with
  | nil => cases h
  | cons t ts ih =>
      rcases List.mem_append.mp h with h | h
      · split at h
        · exact ⟨t, List.mem_cons_self, (List.mem_singleton.mp h).symm⟩
        · cases h
      · obtain ⟨t', hmem, hnow⟩ := ih h
        exact ⟨t', List.mem_cons_of_mem t hmem, hnow⟩

theorem isThreshold_by {cfg : Config F} {th : F} (h : IsThreshold cfg th) (ts : List (Turn F)) :
    IsThreshold cfg (thresholdBy th ts) := by
  induction ts generalizing th with
  | nil => exact h
  | cons t ts ih => exact ih (isThreshold_after h t.request)

/-- In every window of a run, as long as `n` intervals: at most `n` cycles and one for each
request to force one, and so many times `max_targets` processes that give memory, whatever
else is requested. -/
theorem daemon_rate (libc : Libc F) (cfg : Config F) (now : Nat)
    {ls ls' : List (Turn F × Option Bytes)} {d d' : Server F}
    (hrun : Run (TurnStep libc) (start cfg now) ls d) (hrest : Run (TurnStep libc) d ls' d')
    {a n : Nat} (hwindow : ∀ t ∈ turns ls', a ≤ t.now ∧ t.now < a + n * interval cfg) :
    d'.engine.stats.cycles ≤
        d.engine.stats.cycles + n + ((turns ls').filter fun t => t.cmd = some .force).length ∧
      actedIn d.engine (runSteps libc d (turns ls')) ≤
        (n + ((turns ls').filter fun t => t.cmd = some .force).length) * cfg.maxTargets := by
  obtain ⟨-, hcfg, -⟩ := run_spec hrun
  obtain ⟨hengine, -, -⟩ := run_spec hrest
  obtain ⟨hcycles, -⟩ := play_stats d.engine (runSteps libc d (turns ls'))
  have hth : IsThreshold cfg d.cfg.psiThreshold := by
    rw [hcfg]
    exact isThreshold_by (.inl rfl) (turns ls)
  have hsame : d.cfg = { cfg with psiThreshold := d.cfg.psiThreshold } := by
    rw [hcfg]
    rfl
  have hinterval : interval d.cfg = interval cfg := by
    rw [hsame]
    rfl
  have htimes : (cycleTimes libc d (turns ls')).length ≤ n := by
    have hspaced := (cycleTimes_spaced libc d (turns ls')).2
    rw [hinterval] at hspaced
    refine length_spaced hspaced (a := a) fun v hv => ?_
    obtain ⟨t, hmem, rfl⟩ := mem_cycleTimes hv
    exact hwindow t hmem
  have hlength := length_runSteps libc d (turns ls')
  refine ⟨?_, ?_⟩
  · rw [hengine, hcycles, hlength]
    omega
  · have hmax : ∀ st ∈ runSteps libc d (turns ls'), st.cfg.maxTargets ≤ cfg.maxTargets :=
      fun st hst => by rw [(runSteps_configured (turns ls') hth hsame st hst).2]
    refine (actedIn_le d.engine hmax).trans (Nat.mul_le_mul_right _ ?_)
    rw [hlength]
    omega

/-- Half a second of a daemon that is told to go on and to run a cycle: one of its own and
the forced one, for six processes at most. -/
theorem daemon_rate_kick :
    (answered Libc.zeros (start {} 0) [asks .kick 0 0, asks .force 0 500000000]).2.engine.stats.cycles ≤
        2 ∧
      actedIn {} (runSteps Libc.zeros (start {} 0) [asks .kick 0 0, asks .force 0 500000000]) ≤ 6 := by
  have hrest := run_answered Libc.zeros (start {} 0) [asks .kick 0 0, asks .force 0 500000000]
  have hwindow : ∀ t ∈ turns (answered Libc.zeros (start {} 0)
      [asks .kick 0 0, asks .force 0 500000000]).1, 0 ≤ t.now ∧ t.now < 0 + 1 * interval ({} : Config ℚ) := by
    intro t ht
    have ht : t ∈ [asks .kick 0 0, asks .force 0 500000000] := ht
    rcases List.mem_cons.mp ht with rfl | ht
    · decide +kernel
    · rw [List.mem_singleton.mp ht]
      decide +kernel
  have hrate := daemon_rate Libc.zeros {} 0 (.nil _) hrest hwindow
  have hforced : ((turns (answered Libc.zeros (start {} 0)
      [asks .kick 0 0, asks .force 0 500000000]).1).filter fun t => t.cmd = some .force).length = 1 := by
    decide +kernel
  rw [hforced] at hrate
  exact hrate

end

end Memflux.Daemon
