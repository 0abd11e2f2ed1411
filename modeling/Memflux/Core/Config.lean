import Memflux.Lib.Double

/-! # Configuration, kernel readings and policies

The records that the daemon's engine reads, with the defaults of the source, and
the choice of a policy: the group with the longest prefix of the process's cgroup.
Strings are lists of bytes; unsigned integers are naturals, wrapped where the source
computes on them.
-/

namespace Memflux.Core

open Double

abbrev Bytes := List UInt8

/-- The bytes of an ASCII literal. -/
def ascii (s : String) : Bytes := s.toList.map fun c => c.toNat.toUInt8

/-- Reduction of a `uint64_t` result. -/
def u64 (n : Nat) : Nat := n % 2 ^ 64

/-- Reduction of a `uint32_t` result. -/
def u32 (n : Nat) : Nat := n % 2 ^ 32

section

variable (F : Type) [Double F]

structure GroupPolicy where
  cgroupPrefix : Bytes := []
  weight : F := one
  mode : Int := 0

inductive LogLevel where
  | debug
  | info
  | warn
  | error
  deriving DecidableEq

structure PreloadCfg where
  trimAfterMb : Nat := 512
  freeBytes : Nat := 256 * 2 ^ 20

structure Config where
  intervalMs : Nat := 1000
  psiThreshold : F := dec 20 2
  psiLow : F := dec 5 2
  minScore : F := dec 30 1
  minReclaimableMb : Nat := 64
  maxTargets : Nat := 3
  maxReclaimMbPerCycle : Nat := 512
  anonRatioCap : F := dec 60 2
  enableHeapTrim : Bool := true
  enableCgroupReclaim : Bool := true
  enableKsm : Bool := true
  enableDamon : Bool := true
  defaultMode : Bytes := ascii "pageout"
  groups : List (GroupPolicy F) := []
  dryRun : Bool := false
  preload : PreloadCfg := {}
  logLevel : LogLevel := .info

structure ProcessStat where
  pid : Nat
  comm : Bytes := []
  cgroup : Bytes := []
  rssKb : Nat := 0
  anonKb : Nat := 0
  fileKb : Nat := 0
  swapKb : Nat := 0
  wsPrevKb : Nat := 0
  wsRatio : F := one
  score : F := zero
  reclaimedRecent : Bool := false

structure PsiSnapshot where
  someAvg10 : F := zero
  fullAvg10 : F := zero
  ok : Bool := false

end

/-- The result of `read_proc_stat`. -/
structure ProcStat where
  rssKb : Nat := 0
  anonRssKb : Nat := 0
  fileRssKb : Nat := 0
  swapKb : Nat := 0
  vssKb : Nat := 0
  minflt : Nat := 0
  majflt : Nat := 0
  comm : Bytes := []
  cgroup : Bytes := []
  ok : Bool := false

structure MemInfo where
  totalKb : Nat := 0
  availableKb : Nat := 0

structure VmaRange where
  start : Nat
  stop : Nat
  readable : Bool
  writable : Bool
  privAnon : Bool
  deriving DecidableEq

/-- `end - start`. -/
def VmaRange.len (v : VmaRange) : Nat := u64 (v.stop + 2 ^ 64 - v.start)

structure WsSample where
  anonTotalKb : Nat := 0
  touchedKb : Nat := 0
  regions : Nat := 0
  ok : Bool := false
  deriving DecidableEq

structure GlobalStats where
  cycles : Nat := 0
  pageoutsKb : Nat := 0
  cgroupReclaimedKb : Nat := 0
  errors : Nat := 0
  deriving DecidableEq

inductive ReclaimMode where
  | pageout
  | coldOnly
  deriving DecidableEq

section

variable {F : Type} [Double F]

namespace Config

/-- `cfg_.max_reclaim_mb_per_cycle << 10`. -/
def budget (cfg : Config F) : Nat := u64 (cfg.maxReclaimMbPerCycle * 1024)

/-- `cfg_.min_reclaimable_mb << 10`. -/
def minAnonKb (cfg : Config F) : Nat := u64 (cfg.minReclaimableMb * 1024)

end Config

/-! ## Policies -/

/-- One step of the search for the longest matching prefix. -/
def betterGroup (cgroup : Bytes) (best : Option (GroupPolicy F)) (g : GroupPolicy F) :
    Option (GroupPolicy F) :=
  if g.cgroupPrefix.isPrefixOf cgroup then
    match best with
    | none => some g
    | some b => if g.cgroupPrefix.length > b.cgroupPrefix.length then some g else some b
  else best

def bestGroup (groups : List (GroupPolicy F)) (cgroup : Bytes) : Option (GroupPolicy F) :=
  groups.foldl (betterGroup cgroup) none

def modeFor (cfg : Config F) (ps : ProcessStat F) : ReclaimMode :=
  match bestGroup cfg.groups ps.cgroup with
  | some g => if g.mode = 1 then .coldOnly else .pageout
  | none => if cfg.defaultMode = ascii "cold" then .coldOnly else .pageout

def weightFor (cfg : Config F) (ps : ProcessStat F) : F :=
  match bestGroup cfg.groups ps.cgroup with
  | some g => g.weight
  | none => one

end

end Memflux.Core
