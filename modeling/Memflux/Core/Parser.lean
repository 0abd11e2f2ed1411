import Memflux.Core.Config

/-! # Reading the configuration file

`Config::reload` on the bytes of a file: lines, sections, `key = value` settings and
the group table that grows with the indices it is given. `std::stod` is a parameter;
`room` is the number of groups beyond which `resize` throws. The result is `none`
where the call throws or writes outside the table.
-/

namespace Memflux.Core

open Double

/-! ## Words and numbers -/

/-- The characters of `" \t\r\n"`. -/
def isBlank (b : UInt8) : Bool := b = 32 ∨ b = 9 ∨ b = 13 ∨ b = 10

def trim (s : Bytes) : Bytes := (s.dropWhile isBlank).rdropWhile isBlank

/-- `tolower` on every byte, in the C locale. -/
def lower (s : Bytes) : Bytes := s.map fun c => if 65 ≤ c ∧ c ≤ 90 then c + 32 else c

/-- The text before and after the first `b`, where there is one. -/
def cut (b : UInt8) (s : Bytes) : Option (Bytes × Bytes) :=
  if b ∈ s then some (s.takeWhile (· != b), (s.dropWhile (· != b)).tail) else none

def parseBool (v : Bytes) (dflt : Bool) : Bool :=
  let t := lower (trim v)
  if t = ascii "1" ∨ t = ascii "true" ∨ t = ascii "yes" ∨ t = ascii "on" then true
  else if t = ascii "0" ∨ t = ascii "false" ∨ t = ascii "no" ∨ t = ascii "off" then false
  else dflt

/-- `isspace` in the C locale. -/
def isSpace (b : UInt8) : Bool := b = 32 ∨ (9 ≤ b ∧ b ≤ 13)

def isDigit (b : UInt8) : Bool := 48 ≤ b ∧ b ≤ 57

def decimal (ds : Bytes) : Nat := ds.foldl (fun n d => n * 10 + (d.toNat - 48)) 0

/-- The number at the start of a text, after blanks and a sign, and what follows it. -/
def numeral (s : Bytes) : Option (Int × Bytes) :=
  let t := s.dropWhile isSpace
  let ds := if t.head? = some 43 ∨ t.head? = some 45 then t.tail else t
  let n : Int := decimal (ds.takeWhile isDigit)
  if ds.takeWhile isDigit = [] then none
  else some (if t.head? = some 45 then -n else n, ds.dropWhile isDigit)

/-- `std::stoull`: blanks, a sign, digits, and whatever follows them; `none` where
it throws. A negated number is reduced as the type has it. -/
def stoull (s : Bytes) : Option Nat :=
  let t := s.dropWhile isSpace
  let negative := t.head? = some 45
  let digits := (if t.head? = some 43 ∨ t.head? = some 45 then t.tail else t).takeWhile isDigit
  let n := decimal digits
  if digits = [] ∨ 2 ^ 64 ≤ n then none
  else some (if negative then u64 (2 ^ 64 - n) else n)

def parseU64 (v : Bytes) (dflt : Nat) : Nat := (stoull (trim v)).getD dflt

theorem stoull_lt {s : Bytes} {n : Nat} (h : stoull s = some n) : n < 2 ^ 64 := by
  unfold stoull at h
  have hcond := (Option.ite_none_left_eq_some.mp h).1
  have hvalue := (Option.ite_none_left_eq_some.mp h).2
  rw [not_or, Nat.not_le] at hcond
  rw [← Option.some.inj hvalue]
  split
  · exact Nat.mod_lt _ (by omega)
  · exact hcond.2

theorem parseU64_lt (v : Bytes) {dflt : Nat} (h : dflt < 2 ^ 64) :
    parseU64 v dflt < 2 ^ 64 := by
  unfold parseU64
  cases hv : stoull (trim v) with
  | none => exact h
  | some n => exact stoull_lt hv

section

variable {F : Type} [Double F]

def parseDbl (stod : Bytes → Option F) (v : Bytes) (dflt : F) : F := (stod (trim v)).getD dflt

/-! ## Groups -/

/-- The word of `group.<n>.mode`. -/
def groupMode (v : Bytes) : Int := if lower v = ascii "cold" then 1 else 0

/-- The word of `default_mode`. -/
def defaultModeWord (v : Bytes) : Bytes :=
  if lower v = ascii "cold" ∨ lower v = ascii "coldonly" then ascii "cold" else ascii "pageout"

/-- The index and the field of `group.<n>.<field>`. -/
def groupKey (k : Bytes) : Option (Nat × Bytes) :=
  if (ascii "group").isPrefixOf k then
    (cut 46 k).bind fun (_, rest) =>
    (cut 46 rest).map fun (idxs, field) => (parseU64 idxs 0, field)
  else none

def isPrefixField (field : Bytes) : Bool := field = ascii "cgroup" ∨ field = ascii "prefix"

def isWeightField (field : Bytes) : Bool := field = ascii "weight"

def isModeField (field : Bytes) : Bool := field = ascii "mode"

/-- The fields for which `groups[idx]` is written. -/
def isGroupField (field : Bytes) : Bool :=
  isPrefixField field || isWeightField field || isModeField field

def GroupPolicy.setField (stod : Bytes → Option F) (field v : Bytes) (g : GroupPolicy F) :
    GroupPolicy F :=
  if isPrefixField field then { g with cgroupPrefix := trim v }
  else if isWeightField field then { g with weight := parseDbl stod v one }
  else if isModeField field then { g with mode := groupMode v }
  else g

/-- `groups.resize(n)`. -/
def resize (room : Nat) (groups : List (GroupPolicy F)) (n : Nat) :
    Option (List (GroupPolicy F)) :=
  if room < n then none
  else some (groups.take n ++ List.replicate (n - groups.length) ({} : GroupPolicy F))

/-- One line of `[groups]`. The new size is computed in `size_t`. -/
def setGroup (stod : Bytes → Option F) (room : Nat) (groups : List (GroupPolicy F))
    (idx : Nat) (field v : Bytes) : Option (List (GroupPolicy F)) :=
  (if groups.length ≤ idx then resize room groups (u64 (idx + 1)) else some groups).bind
    fun groups =>
      if isGroupField field then
        if idx < groups.length then some (groups.modify idx (GroupPolicy.setField stod field v))
        else none
      else some groups

/-! ## Sections -/

namespace Config

def setEngine (stod : Bytes → Option F) (cfg : Config F) (k v : Bytes) : Config F :=
  if k = ascii "interval_ms" then { cfg with intervalMs := u32 (parseU64 v cfg.intervalMs) }
  else if k = ascii "psi_threshold" then
    { cfg with psiThreshold := parseDbl stod v cfg.psiThreshold }
  else if k = ascii "psi_low" then { cfg with psiLow := parseDbl stod v cfg.psiLow }
  else if k = ascii "min_score" then { cfg with minScore := parseDbl stod v cfg.minScore }
  else if k = ascii "min_reclaimable_mb" then
    { cfg with minReclaimableMb := parseU64 v cfg.minReclaimableMb }
  else if k = ascii "max_targets" then { cfg with maxTargets := u32 (parseU64 v cfg.maxTargets) }
  else if k = ascii "max_reclaim_mb_per_cycle" then
    { cfg with maxReclaimMbPerCycle := parseU64 v cfg.maxReclaimMbPerCycle }
  else if k = ascii "anon_ratio_cap" then
    { cfg with anonRatioCap := parseDbl stod v cfg.anonRatioCap }
  else if k = ascii "enable_heap_trim" then
    { cfg with enableHeapTrim := parseBool v cfg.enableHeapTrim }
  else if k = ascii "enable_cgroup_reclaim" then
    { cfg with enableCgroupReclaim := parseBool v cfg.enableCgroupReclaim }
  else if k = ascii "enable_ksm" then { cfg with enableKsm := parseBool v cfg.enableKsm }
  else if k = ascii "enable_damon" then { cfg with enableDamon := parseBool v cfg.enableDamon }
  else if k = ascii "default_mode" then { cfg with defaultMode := defaultModeWord v }
  else if k = ascii "dry_run" then { cfg with dryRun := parseBool v cfg.dryRun }
  else cfg

def setPreload (cfg : Config F) (k v : Bytes) : Config F :=
  if k = ascii "trim_after_mb" then
    { cfg with preload.trimAfterMb := parseU64 v cfg.preload.trimAfterMb }
  else if k = ascii "free_bytes" then
    { cfg with preload.freeBytes := parseU64 v cfg.preload.freeBytes }
  else cfg

def setLog (cfg : Config F) (k v : Bytes) : Config F :=
  let t := lower v
  if k = ascii "level" then
    if t = ascii "debug" then { cfg with logLevel := .debug }
    else if t = ascii "info" then { cfg with logLevel := .info }
    else if t = ascii "warn" ∨ t = ascii "warning" then { cfg with logLevel := .warn }
    else if t = ascii "error" then { cfg with logLevel := .error }
    else cfg
  else cfg

/-- One setting, by its section; `[ksm]` is left to the daemon. -/
def set (stod : Bytes → Option F) (room : Nat) (cfg : Config F) (sect k v : Bytes) :
    Option (Config F) :=
  if sect = ascii "engine" then some (cfg.setEngine stod k v)
  else if sect = ascii "groups" then
    match groupKey k with
    | none => some cfg
    | some (idx, field) =>
        (setGroup stod room cfg.groups idx field v).map fun groups => { cfg with groups }
  else if sect = ascii "ksm" then some cfg
  else if sect = ascii "preload" then some (cfg.setPreload k v)
  else if sect = ascii "log" then some (cfg.setLog k v)
  else some cfg

end Config

/-! ## Lines -/

/-- What a line says. -/
inductive Line where
  | skipped
  | header (name : Bytes)
  | setting (key value : Bytes)

/-- A line without its end: a comment, a section or a setting. -/
def readLine (line : Bytes) : Line :=
  let h := trim line
  if h = [] ∨ h.head? = some 35 ∨ h.head? = some 59 then .skipped
  else if h.head? = some 91 ∧ h.getLast? = some 93 then .header (trim h.tail.dropLast)
  else
    match cut 61 h with
    | none => .skipped
    | some (k, v) => .setting (trim k) (trim v)

/-- The loop of `reload`: the current section and the configuration read so far. -/
def reloadLines (stod : Bytes → Option F) (room : Nat) :
    List Bytes → Bytes → Config F → Option (Config F)
  | [], _, cfg => some cfg
  | line :: lines, sect, cfg =>
      match readLine line with
      | .skipped => reloadLines stod room lines sect cfg
      | .header name => reloadLines stod room lines name cfg
      | .setting k v => (cfg.set stod room sect k v).bind (reloadLines stod room lines sect)

/-- `Config::reload` on the bytes of the file, if it opens. What follows the last
line end is a line of its own, or nothing. -/
def Config.reload (stod : Bytes → Option F) (room : Nat) (cfg : Config F)
    (file : Option Bytes) : Option (Config F) :=
  match file with
  | none => some cfg
  | some text => reloadLines stod room (text.splitOn 10) [] cfg

def Config.load (stod : Bytes → Option F) (room : Nat) (file : Option Bytes) :
    Option (Config F) :=
  Config.reload stod room {} file

end

end Memflux.Core
