import Memflux.Core.Config
import Memflux.Lib.EarlyExit

/-! # The cycles of the daemon

`run_cycle` and `force_cycle` as functions of the configuration, the state of the
engine and the answers that the kernel gives during the cycle. Beside the new state
they return the list of what was read and done, in order.
-/

namespace Memflux.Core

open Double EarlyExit

/-- `damon::DamonConfig`. -/
structure DamonConfig where
  sampleUs : Nat := 5000
  aggrUs : Nat := 100000
  updateUs : Nat := 1000000
  minRegions : Nat := 10
  maxRegions : Nat := 1000
  refreshMs : Nat := 1000
  minAgeMs : Nat := 10000
  quotaMs : Nat := 10
  quotaResetMs : Nat := 1000
  deriving DecidableEq

/-- What an attempt on one process meets: `pidfd_open`, the anonymous RSS read
before and after, and the mappings, each with the answer of `process_madvise`. The
byte counts are of disjoint ranges of one address space. -/
structure Attempt where
  opened : Bool
  before : Nat
  vmas : List (VmaRange × Int)
  after : Nat
  room : (vmas.map fun v => v.2.toNat).sum < 2 ^ 64

section

variable (F : Type) [Double F]

/-- A reading, or something done to a process or to the kernel. -/
inductive Event where
  | psi (s : PsiSnapshot F)
  | meminfo (m : MemInfo)
  | clearRefs (pid : Nat)
  | damonConfigure (dc : DamonConfig)
  /-- A write of `Y` to the module's switch, and whether it took. -/
  | damonSwitch (ok : Bool)
  | pidfdOpen (pid : Nat) (ok : Bool)
  | madvise (pid start len : Nat) (mode : ReclaimMode)
  /-- A write to `memory.reclaim` of the root group. -/
  | memoryReclaim (bytes : Nat)

/-- What the kernel answers during one cycle. Directory entries of `/proc` are
distinct; `std::sort` leaves the order of equal scores open. -/
structure Answers where
  procs : List (Nat × ProcStat)
  distinct : (procs.map Prod.fst).Nodup
  self : Nat
  damonAvailable : Bool
  damonEnabled : Bool
  damonSwitched : Bool
  ebpfAvailable : Bool
  ebpfLoads : Bool
  ebpfLoaded : Bool
  psi : PsiSnapshot F
  mem : MemInfo
  faults : List (Nat × Nat)
  sample : Nat → WsSample
  sort : List (ProcessStat F) → List (ProcessStat F)
  sort_perm : ∀ l, (sort l).Perm l
  attempt : Nat → Attempt
  psiLater : PsiSnapshot F
  cgroupAvailable : Bool
  reclaimOpens : Bool
  reclaimFails : Bool

/-- `Engine::Track`. -/
structure Track where
  prevMajflt : Nat := 0
  wsTouchedKb : Nat := 0
  cooldown : Int := 0
  samples : Int := 0
  damonAgeMax : Nat := 0
  damonColdKb : Nat := 0
  deriving DecidableEq

abbrev Tracks := Nat → Option Track

/-- The engine's own state and the global counters. -/
structure Engine where
  tracked : Tracks := fun _ => none
  snapshot : List (ProcessStat F) := []
  damonOn : Bool := false
  damonTargets : List Nat := []
  ebpfOn : Bool := false
  stats : GlobalStats := {}

/-- What a cycle leaves, what it read and did, and the amount it returns. -/
structure Outcome where
  engine : Engine F
  events : List (Event F)
  ret : Nat

end

section

variable {F : Type} [Double F]

/-! ## Scanning -/

/-- The loop body of `scan_processes`. -/
def scanOne (k : Answers F) (st : Tracks × List (ProcessStat F)) (entry : Nat × ProcStat) :
    Tracks × List (ProcessStat F) :=
  let (pid, s) := entry
  if pid ≤ 1 then st
  else if s.ok = false ∨ s.rssKb = 0 then st
  else if s.comm.head? = some 91 then st
  else if pid = k.self then st
  else
    let ps : ProcessStat F :=
      { pid := pid, comm := s.comm, cgroup := s.cgroup, rssKb := s.rssKb, anonKb := s.anonRssKb,
        fileKb := s.fileRssKb, swapKb := s.swapKb }
    let tr := (st.1 pid).getD {}
    let ps := if tr.prevMajflt ≤ s.majflt then { ps with reclaimedRecent := false } else ps
    (Function.update st.1 pid (some { tr with prevMajflt := s.majflt }), st.2 ++ [ps])

def scanProcesses (e : Engine F) (k : Answers F) : Engine F :=
  let (tracked, snapshot) := k.procs.foldl (scanOne k) (e.tracked, [])
  { e with tracked := tracked, snapshot := snapshot }

/-! ## DAMON -/

structure Region where
  start : Nat
  stop : Nat
  nrAccesses : Nat
  age : Nat

/-- `damon::set_targets`: there are no targets per process. -/
def setTargets (_ : List Nat) : Bool := false

/-- `damon::snapshot`. -/
def damonSnapshot : List (Nat × List Region) := []

def coldKb (regs : List Region) : Nat :=
  regs.foldl (fun cold r =>
    if r.nrAccesses = 0 then u32 (cold + Nat.min ((r.stop - r.start) / 1024) (2 ^ 32 - 1))
    else cold) 0

def ageMax (regs : List Region) : Nat := regs.foldl (fun age r => Nat.max age r.age) 0

/-- The share of dormant memory, applied to one process. -/
def damonRatio (tracked : Tracks) (ps : ProcessStat F) : ProcessStat F :=
  match tracked ps.pid with
  | none => ps
  | some tr =>
      if ps.anonKb > 0 then
        let d : F := div (ofNat (Nat.min tr.damonColdKb ps.anonKb)) (ofNat ps.anonKb)
        if lt zero d && le d one then { ps with wsRatio := Double.min ps.wsRatio (sub one d) } else ps
      else ps

def damonSample (cfg : Config F) (e : Engine F) : Engine F :=
  let large := (e.snapshot.filter fun ps => decide (cfg.minAnonKb / 2 ≤ ps.anonKb)).map (·.pid)
  let targets := (((e.damonTargets ++ large).insertionSort (· ≤ ·)).destutter (· ≠ ·)).take 64
  let e := { e with damonTargets := targets }
  if setTargets targets then
    let tracked := damonSnapshot.foldl (fun tracked (entry : Nat × List Region) =>
      match tracked entry.1 with
      | none => tracked
      | some tr => Function.update tracked entry.1
          (some { tr with damonColdKb := coldKb entry.2, damonAgeMax := ageMax entry.2 })) e.tracked
    { e with tracked := tracked, snapshot := e.snapshot.map (damonRatio tracked) }
  else e

/-! ## Scores -/

/-- The sampling of one process: clear first, read later. -/
def sampleOne (cfg : Config F) (damonOn : Bool) (k : Answers F) (tr : Track) (ps : ProcessStat F) :
    Track × ProcessStat F × List (Event F) :=
  if damonOn = false ∧ cfg.minAnonKb / 2 < ps.anonKb then
    if tr.samples = 0 then
      ({ tr with samples := tr.samples + 1 }, ps, [.clearRefs ps.pid])
    else
      let ws := k.sample ps.pid
      if ws.ok = true ∧ ws.anonTotalKb ≠ 0 then
        ({ tr with wsTouchedKb := ws.touchedKb, samples := tr.samples + 1 },
          { ps with
            wsPrevKb := tr.wsTouchedKb
            wsRatio := div (ofNat ws.touchedKb) (ofNat (Nat.max ws.anonTotalKb 1))
            anonKb := Nat.max ps.anonKb ws.anonTotalKb }, [])
      else ({ tr with samples := tr.samples + 1 }, ps, [])
  else if damonOn = false then (tr, { ps with wsRatio := one }, [])
  else (tr, ps, [])

/-- `mb * cold * swap_press * w`. -/
def rawScore (cfg : Config F) (ps : ProcessStat F) : F :=
  let mb := div (ofNat ps.anonKb) (ofNat 1024)
  let cold := sub one (Double.min one (mul ps.wsRatio (ofNat 4)))
  let swapPress := if ps.swapKb ≠ 0 then dec 13 1 else one
  mul (mul (mul mb cold) swapPress) (weightFor cfg ps)

/-- The loop body of `compute_scores`; a process in cooldown scores zero. -/
def scoreOne (cfg : Config F) (damonOn : Bool) (k : Answers F) (tr : Track) (ps : ProcessStat F) :
    Track × ProcessStat F × List (Event F) :=
  let (tr, ps, ev) := sampleOne cfg damonOn k tr ps
  if tr.cooldown > 0 then
    ({ tr with cooldown := tr.cooldown - 1 }, { ps with score := zero }, ev)
  else (tr, { ps with score := rawScore cfg ps }, ev)

def scoreList (cfg : Config F) (damonOn : Bool) (k : Answers F) (tracked : Tracks) :
    List (ProcessStat F) → Tracks × List (ProcessStat F) × List (Event F)
  | [] => (tracked, [], [])
  | ps :: l =>
      match tracked ps.pid with
      | none =>
          let (tracked, l, ev) := scoreList cfg damonOn k tracked l
          (tracked, ps :: l, ev)
      | some tr =>
          let (tr, ps', ev) := scoreOne cfg damonOn k tr ps
          let (tracked, l, ev') :=
            scoreList cfg damonOn k (Function.update tracked ps.pid (some tr)) l
          (tracked, ps' :: l, ev ++ ev')

def computeScores (cfg : Config F) (e : Engine F) (k : Answers F) : Engine F × List (Event F) :=
  let e := if e.damonOn then damonSample cfg e else e
  let (tracked, snapshot, ev) := scoreList cfg e.damonOn k e.tracked e.snapshot
  ({ e with tracked := tracked, snapshot := snapshot }, ev)

/-! ## Actions -/

/-- `const uint64_t min_region`. -/
def minRegion : Nat := 8 * 2 ^ 20

/-- The loop body of `heap_trim`: bytes freed so far, and the calls made. -/
def trimVma (pid : Nat) (mode : ReclaimMode) (st : Nat × List (Event F)) (v : VmaRange × Int) :
    Nat × List (Event F) :=
  if v.1.privAnon = false ∨ v.1.readable = false then st
  else if v.1.len < minRegion then st
  else
    (if v.2 > 0 then u64 (st.1 + v.2.toNat) else st.1,
      st.2 ++ [.madvise pid v.1.start v.1.len mode])

def heapTrim (cfg : Config F) (pid : Nat) (a : Attempt) (mode : ReclaimMode) :
    Nat × List (Event F) :=
  if cfg.enableHeapTrim = false ∨ cfg.dryRun = true then (0, [])
  else a.vmas.foldl (trimVma pid mode) (0, [])

/-- Bytes from `process_madvise`, or KiB of anonymous RSS when there are none. -/
def actOn (cfg : Config F) (pid : Nat) (a : Attempt) (mode : ReclaimMode) : Nat × List (Event F) :=
  if a.before = 0 then (0, [])
  else
    let (bytes, ev) := heapTrim cfg pid a mode
    let delta := if a.before > a.after then a.before - a.after else 0
    (if bytes ≠ 0 then bytes else delta, ev)

/-- The locals of `run_actions`, with the state it changes. -/
structure Acting (F : Type) [Double F] where
  tracked : Tracks
  errors : Nat
  total : Nat
  acted : Nat
  events : List (Event F)

def Acting.done (cfg : Config F) (s : Acting F) : Bool :=
  decide (s.acted ≥ cfg.maxTargets) || decide (s.total ≥ cfg.budget)

def tryTarget (cfg : Config F) (k : Answers F) (s : Acting F) (ps : ProcessStat F) : Acting F :=
  let a := k.attempt ps.pid
  if a.opened = false then
    { s with errors := s.errors + 1, events := s.events ++ [.pidfdOpen ps.pid false] }
  else
    let (got, ev) := actOn cfg ps.pid a (modeFor cfg ps)
    let s := { s with events := s.events ++ .pidfdOpen ps.pid true :: ev }
    if got ≠ 0 then
      { s with
        total := u64 (s.total + got)
        acted := s.acted + 1
        tracked := Function.update s.tracked ps.pid
          (some { (s.tracked ps.pid).getD {} with cooldown := 5 }) }
    else s

/-- Score and size reach the configured minima. -/
def eligible (cfg : Config F) (ps : ProcessStat F) : Bool :=
  !lt ps.score cfg.minScore && decide (cfg.minAnonKb ≤ ps.anonKb)

def candidates (cfg : Config F) (k : Answers F) (snapshot : List (ProcessStat F)) :
    List (ProcessStat F) :=
  k.sort (snapshot.filter (eligible cfg))

/-- Every test before the request to the root group is computed. -/
def cgroupGate (cfg : Config F) (k : Answers F) : Bool :=
  cfg.enableCgroupReclaim && k.psiLater.ok &&
    le (mul cfg.psiThreshold (dec 15 1)) k.psiLater.someAvg10 && k.cgroupAvailable

/-- `(max_reclaim_mb_per_cycle << 10) - reclaimed_total`. -/
def cgroupWant (cfg : Config F) (total : Nat) : Nat := u64 (cfg.budget + 2 ^ 64 - total)

/-- `cgroup::reclaim("/", want)`, under its tests. -/
def cgroupReclaim (cfg : Config F) (k : Answers F) (total : Nat) : Nat × List (Event F) :=
  if cgroupGate cfg k = true ∧ cgroupWant cfg total > 64 * 1024 ∧ k.reclaimOpens = true then
    (if k.reclaimFails then 0 else cgroupWant cfg total, [.memoryReclaim (cgroupWant cfg total)])
  else (0, [])

def actAll (cfg : Config F) (e : Engine F) (k : Answers F) : Acting F :=
  loopUntil (Acting.done cfg) (tryTarget cfg k)
    { tracked := e.tracked, errors := e.stats.errors, total := 0, acted := 0, events := [] }
    (candidates cfg k e.snapshot)

def runActions (cfg : Config F) (e : Engine F) (k : Answers F) : Outcome F :=
  let s := actAll cfg e k
  let (got, ev) := cgroupReclaim cfg k s.total
  { engine :=
      { e with
        tracked := s.tracked
        stats :=
          { e.stats with
            errors := s.errors
            cgroupReclaimedKb := e.stats.cgroupReclaimedKb + got / 1024
            pageoutsKb := e.stats.pageoutsKb + s.total / 1024 } }
    events := s.events ++ .psi k.psiLater :: ev
    ret := s.total / 1024 }

/-! ## Cycles -/

/-- `++g_stats.cycles` and the scan. -/
def beginCycle (e : Engine F) (k : Answers F) : Engine F :=
  scanProcesses { e with stats := { e.stats with cycles := e.stats.cycles + 1 } } k

/-- The first use of DAMON, when it is asked for, there, and not on yet. -/
def damonInit (cfg : Config F) (dc : DamonConfig) (e : Engine F) (k : Answers F) :
    Engine F × List (Event F) :=
  if e.damonOn = false ∧ cfg.enableDamon = true ∧ k.damonAvailable = true ∧
      k.damonEnabled = false then
    ({ e with damonOn := k.damonSwitched }, [.damonConfigure dc, .damonSwitch k.damonSwitched])
  else (e, [])

def ebpfInit (e : Engine F) (k : Answers F) : Engine F :=
  if e.ebpfOn = false ∧ k.ebpfAvailable = true then { e with ebpfOn := k.ebpfLoads } else e

/-- Both values of `meminfo` were read. -/
def MemInfo.read (m : MemInfo) : Bool := decide (m.totalKb ≠ 0 ∧ m.availableKb ≠ 0)

def MemInfo.availRatio (m : MemInfo) : F := div (ofNat m.availableKb) (ofNat m.totalKb)

def crisis (psi : PsiSnapshot F) (m : MemInfo) : Bool :=
  (psi.ok && le (dec 25 2) psi.fullAvg10) || (m.read && lt (m.availRatio : F) (dec 5 2))

def pressure (cfg : Config F) (psi : PsiSnapshot F) (m : MemInfo) : Bool :=
  (psi.ok && le cfg.psiThreshold psi.someAvg10) ||
    (m.read && (lt (m.availRatio : F) (dec 10 2) ||
      (lt (m.availRatio : F) (dec 15 2) && le cfg.psiLow psi.someAvg10)))

/-- The thrash guard, for one entry of the drained counters. -/
def guardFaults (tracked : Tracks) (entry : Nat × Nat) : Tracks :=
  match tracked entry.1 with
  | none => tracked
  | some tr =>
      if 20000 < entry.2 ∧ tr.cooldown > 0 then
        Function.update tracked entry.1 (some { tr with cooldown := max tr.cooldown 20 })
      else tracked

def thrashGuard (e : Engine F) (k : Answers F) : Engine F :=
  if e.ebpfOn = true ∧ k.ebpfLoaded = true then
    { e with tracked := k.faults.foldl guardFaults e.tracked }
  else e

/-- The intervals that `run_cycle` gives to DAMON. -/
def cycleDamonConfig (cfg : Config F) : DamonConfig :=
  { aggrUs := u32 (cfg.intervalMs * 1000)
    updateUs := u32 (cfg.intervalMs * 1000)
    refreshMs := cfg.intervalMs }

/-- The engine when `run_cycle` has read PSI and meminfo, and what was done by then. -/
def openCycle (cfg : Config F) (e : Engine F) (k : Answers F) : Engine F × List (Event F) :=
  let (e, ev) := damonInit cfg (cycleDamonConfig cfg) (beginCycle e k) k
  (ebpfInit e k, ev ++ [.psi k.psi, .meminfo k.mem])

def runCycle (cfg : Config F) (e : Engine F) (k : Answers F) : Outcome F :=
  let (e, ev) := openCycle cfg e k
  if crisis k.psi k.mem then { engine := e, events := ev, ret := 0 }
  else
    let (e, ev') := computeScores cfg (thrashGuard e k) k
    if pressure cfg k.psi k.mem = false ∧ cfg.dryRun = false then
      { engine := e, events := ev ++ ev', ret := 0 }
    else
      let out := runActions cfg e k
      { out with events := ev ++ ev' ++ out.events }

def forceCycle (cfg : Config F) (e : Engine F) (k : Answers F) : Outcome F :=
  let (e, ev) := damonInit cfg {} (beginCycle e k) k
  let (e, ev') := computeScores cfg e k
  let out := runActions cfg e k
  { out with events := ev ++ ev' ++ .meminfo k.mem :: out.events }

inductive Call where
  | run
  | force
  deriving DecidableEq

def cycle (cfg : Config F) (e : Engine F) (k : Answers F) : Call → Outcome F
  | .run => runCycle cfg e k
  | .force => forceCycle cfg e k

/-! ## Histories -/

/-- One cycle of a history; the configuration may be changed between two cycles. -/
structure Step (F : Type) [Double F] where
  cfg : Config F
  answers : Answers F
  call : Call

def Step.outcome (st : Step F) (e : Engine F) : Outcome F := cycle st.cfg e st.answers st.call

def history (e : Engine F) : List (Step F) → List (Engine F × Step F)
  | [] => []
  | st :: l => (e, st) :: history (st.outcome e).engine l

theorem mem_history {e : Engine F} {l : List (Step F)} {x : Engine F × Step F}
    (h : x ∈ history e l) : x.2 ∈ l := by
  induction l generalizing e with
  | nil => cases h
  | cons st l ih =>
      rcases List.mem_cons.mp h with rfl | h
      · exact List.mem_cons_self
      · exact List.mem_cons_of_mem _ (ih h)

def play (e : Engine F) (l : List (Step F)) : Engine F :=
  l.foldl (fun e st => (st.outcome e).engine) e

end

end Memflux.Core
