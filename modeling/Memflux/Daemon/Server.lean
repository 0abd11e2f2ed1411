import Memflux.Core.DryRun
import Memflux.Daemon.Reply
import Memflux.Lib.Simulation

/-! # The loop of the daemon

One turn of the loop of `run_daemon` takes at most one client, then runs a cycle if the
daemon is not paused and the time has come. A run of the daemon is a run of turns, each
with what the kernel answered during it and with the response that was written.
-/

namespace Memflux.Daemon

open Memflux.Core Double Simulation

section

variable (F : Type) [Double F]

/-- An accepted connection: what `read` returned, and the answers of the kernel and of
`std::sort` while the request is handled. -/
structure Client where
  bytes : Bytes
  mem : MemReport
  order : List (ProcessStat F) → List (ProcessStat F)
  order_perm : ∀ l, (order l).Perm l
  forced : Answers F

/-- The inputs of one turn: what `accept` gave, the clock in nanoseconds, and the answers
during a cycle. -/
structure Turn where
  client : Option (Client F)
  now : Nat
  answers : Answers F

/-- The globals and the locals of `run_daemon`. -/
structure Server where
  cfg : Config F
  engine : Engine F
  paused : Bool
  next : Nat

end

section

variable {F : Type} [Double F]

def start (cfg : Config F) (now : Nat) : Server F := ⟨cfg, {}, false, now⟩

def askedThreshold (arg : Nat) : F := div (ofNat arg) (ofNat 1000)

/-- `v > 0.001 && v < 1.0`. -/
def accepts (v : F) : Bool := lt (dec 1 3) v && lt v one

def adjust (d : Server F) (arg : Nat) : Server F × Bytes :=
  if accepts (askedThreshold arg : F) then
    ({ d with cfg := { d.cfg with psiThreshold := askedThreshold arg } }, ascii "psi_threshold updated")
  else (d, ascii "invalid value")

/-- The `switch` of `handle_client`. -/
def handle (libc : Libc F) (d : Server F) (c : Client F) (r : Request) : Server F × Bytes :=
  match Cmd.ofCode r.cmd with
  | some .status => (d, statusReply libc d.engine.stats c.mem d.cfg.psiThreshold d.paused)
  | some .top => (d, topReply libc r.arg (c.order d.engine.snapshot))
  | some .pause => ({ d with paused := true }, ascii "paused")
  | some .resume => ({ d with paused := false }, ascii "resumed")
  | some .kick => ({ d with paused := false }, ascii "cycle kicked")
  | some .force =>
      let out := forceCycle d.cfg d.engine c.forced
      ({ d with engine := out.engine }, forceReply out.ret)
  | some .adjust => adjust d r.arg
  | none => (d, ascii "unknown cmd")

/-- `handle_client`: without a whole request the connection is closed, and nothing written. -/
def handleClient (libc : Libc F) (d : Server F) (c : Client F) : Server F × Option Bytes :=
  match Request.ofBytes c.bytes with
  | none => (d, none)
  | some r =>
      let (d, resp) := handle libc d c r
      (d, some resp)

/-- `std::chrono::milliseconds(g_cfg.interval_ms)`, in nanoseconds. -/
def interval (cfg : Config F) : Nat := cfg.intervalMs * 1000000

/-- The second half of a turn. -/
def tick (d : Server F) (now : Nat) (k : Answers F) : Server F :=
  if d.paused then d
  else if d.next ≤ now then
    { d with engine := (runCycle d.cfg d.engine k).engine, next := now + interval d.cfg }
  else d

/-- The first half of a turn. -/
def serve (libc : Libc F) (d : Server F) : Option (Client F) → Server F × Option Bytes
  | none => (d, none)
  | some c => handleClient libc d c

/-- `while(g_run)`, once. -/
def turn (libc : Libc F) (d : Server F) (t : Turn F) : Server F × Option Bytes :=
  let (d, reply) := serve libc d t.client
  (tick d t.now t.answers, reply)

/-- A turn as a step, with what was written. -/
def TurnStep (libc : Libc F) (d : Server F) (l : Turn F × Option Bytes) (d' : Server F) : Prop :=
  turn libc d l.1 = (d', l.2)

/-! ## The cycles of a turn -/

def Turn.request (t : Turn F) : Option Request := t.client.bind fun c => Request.ofBytes c.bytes

def Turn.cmd (t : Turn F) : Option Cmd := t.request.bind fun r => Cmd.ofCode r.cmd

def forcedSteps (d : Server F) (t : Turn F) : List (Step F) :=
  match t.client with
  | none => []
  | some c => if t.cmd = some .force then [⟨d.cfg, c.forced, .force⟩] else []

/-- The second half of a turn runs a cycle. -/
def Due (d : Server F) (now : Nat) : Prop := d.paused = false ∧ d.next ≤ now

instance (d : Server F) (now : Nat) : Decidable (Due d now) :=
  inferInstanceAs (Decidable (d.paused = false ∧ d.next ≤ now))

def timedSteps (d : Server F) (t : Turn F) : List (Step F) :=
  if Due d t.now then [⟨d.cfg, t.answers, .run⟩] else []

def turnSteps (libc : Libc F) (d : Server F) (t : Turn F) : List (Step F) :=
  forcedSteps d t ++ timedSteps (serve libc d t.client).1 t

theorem tick_of_due {d : Server F} {now : Nat} (h : Due d now) (k : Answers F) :
    tick d now k =
      { d with engine := (runCycle d.cfg d.engine k).engine, next := now + interval d.cfg } := by
  rw [tick, if_neg (by simp [h.1]), if_pos h.2]

theorem tick_of_not_due {d : Server F} {now : Nat} (h : ¬ Due d now) (k : Answers F) :
    tick d now k = d := by
  unfold tick
  split
  · rfl
  · rename_i hpaused
    rw [if_neg fun hnow => h ⟨by simpa using hpaused, hnow⟩]

theorem tick_engine (d : Server F) (t : Turn F) :
    (tick d t.now t.answers).engine = play d.engine (timedSteps d t) := by
  unfold timedSteps
  by_cases h : Due d t.now
  · rw [tick_of_due h, if_pos h]
    rfl
  · rw [tick_of_not_due h, if_neg h]
    rfl

theorem tick_keeps (d : Server F) (now : Nat) (k : Answers F) :
    (tick d now k).cfg = d.cfg ∧ (tick d now k).paused = d.paused := by
  by_cases h : Due d now
  · rw [tick_of_due h]
    exact ⟨rfl, rfl⟩
  · rw [tick_of_not_due h]
    exact ⟨rfl, rfl⟩

/-! ## What a request changes -/

def pausedAfter (paused : Bool) : Option Cmd → Bool
  | some .pause => true
  | some .resume => false
  | some .kick => false
  | _ => paused

def thresholdAfter (threshold : F) : Option Request → F
  | none => threshold
  | some r =>
      if Cmd.ofCode r.cmd = some .adjust ∧ accepts (askedThreshold r.arg : F) = true then
        askedThreshold r.arg
      else threshold

theorem handle_spec (libc : Libc F) (d : Server F) (c : Client F) (r : Request) :
    (handle libc d c r).1 =
      { d with
        cfg := { d.cfg with psiThreshold := thresholdAfter d.cfg.psiThreshold (some r) }
        engine := if Cmd.ofCode r.cmd = some .force then (forceCycle d.cfg d.engine c.forced).engine
          else d.engine
        paused := pausedAfter d.paused (Cmd.ofCode r.cmd) } := by
  unfold handle thresholdAfter
  dsimp only
  rcases hcmd : Cmd.ofCode r.cmd with _ | cmd
  · simp [pausedAfter]
  · cases cmd with
    | adjust =>
        unfold adjust
        by_cases haccepts : accepts (askedThreshold r.arg : F) = true
        · simp [pausedAfter, haccepts]
        · simp [pausedAfter, haccepts]
    | force => simp [pausedAfter]
    | status => simp [pausedAfter]
    | pause => simp [pausedAfter]
    | resume => simp [pausedAfter]
    | kick => simp [pausedAfter]
    | top => simp [pausedAfter]

theorem handleClient_of_none (libc : Libc F) (d : Server F) {c : Client F}
    (h : Request.ofBytes c.bytes = none) : handleClient libc d c = (d, none) := by
  rw [handleClient, h]

theorem handleClient_of_some (libc : Libc F) (d : Server F) {c : Client F} {r : Request}
    (h : Request.ofBytes c.bytes = some r) :
    handleClient libc d c = ((handle libc d c r).1, some (handle libc d c r).2) := by
  rw [handleClient, h]

/-- Everything that a request can change: the pause, the threshold, and by a forced cycle
the engine. -/
theorem serve_spec (libc : Libc F) (d : Server F) (t : Turn F) :
    (serve libc d t.client).1 =
      { d with
        cfg := { d.cfg with psiThreshold := thresholdAfter d.cfg.psiThreshold t.request }
        engine := play d.engine (forcedSteps d t)
        paused := pausedAfter d.paused t.cmd } := by
  rcases hclient : t.client with _ | c
  · simp [forcedSteps, Turn.cmd, Turn.request, serve, thresholdAfter, pausedAfter, play, hclient]
  · have hrequest : t.request = Request.ofBytes c.bytes := by rw [Turn.request, hclient]; rfl
    rcases Option.eq_none_or_eq_some (Request.ofBytes c.bytes) with hnone | ⟨r, hsome⟩
    · rw [serve, handleClient_of_none libc d hnone]
      simp [forcedSteps, Turn.cmd, thresholdAfter, pausedAfter, play, hclient, hrequest, hnone]
    · rw [serve, handleClient_of_some libc d hsome, handle_spec]
      by_cases hforce : Cmd.ofCode r.cmd = some .force
      · simp [forcedSteps, Turn.cmd, play, Step.outcome, cycle, hclient, hrequest, hsome, hforce]
      · simp [forcedSteps, Turn.cmd, play, hclient, hrequest, hsome, hforce]

theorem turn_spec (libc : Libc F) (d : Server F) (t : Turn F) :
    (turn libc d t).1.engine = play d.engine (turnSteps libc d t) ∧
      (turn libc d t).1.cfg =
        { d.cfg with psiThreshold := thresholdAfter d.cfg.psiThreshold t.request } ∧
        (turn libc d t).1.paused = pausedAfter d.paused t.cmd := by
  obtain ⟨hcfg, hpaused⟩ := tick_keeps (serve libc d t.client).1 t.now t.answers
  have hserve := serve_spec libc d t
  refine ⟨?_, ?_, ?_⟩
  · show (tick (serve libc d t.client).1 t.now t.answers).engine = _
    rw [tick_engine, turnSteps, play, play, List.foldl_append]
    congr 1
    rw [hserve]
    rfl
  · exact hcfg.trans (by rw [hserve])
  · exact hpaused.trans (by rw [hserve])

end

end Memflux.Daemon
