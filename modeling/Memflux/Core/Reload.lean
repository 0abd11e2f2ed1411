import Memflux.Core.Policies
import Memflux.Lib.LastWins

/-! # Reloading as a fold of assignments

The fields of the configuration, each with the section and the key that assign it and
the texts it accepts. A reload gives every field the value of its last accepted line;
from this it follows that a second reload changes nothing and that neighbouring lines
for different fields can be exchanged.
-/

namespace Memflux.Core

open Double LastWins

/-! ## The fields -/

inductive Scalar where
  | intervalMs
  | psiThreshold
  | psiLow
  | minScore
  | minReclaimableMb
  | maxTargets
  | maxReclaimMbPerCycle
  | anonRatioCap
  | enableHeapTrim
  | enableCgroupReclaim
  | enableKsm
  | enableDamon
  | defaultMode
  | dryRun
  | trimAfterMb
  | freeBytes
  | logLevel
  deriving DecidableEq

def Scalar.sect : Scalar → Bytes
  | .trimAfterMb | .freeBytes => ascii "preload"
  | .logLevel => ascii "log"
  | _ => ascii "engine"

def Scalar.key : Scalar → Bytes
  | .intervalMs => ascii "interval_ms"
  | .psiThreshold => ascii "psi_threshold"
  | .psiLow => ascii "psi_low"
  | .minScore => ascii "min_score"
  | .minReclaimableMb => ascii "min_reclaimable_mb"
  | .maxTargets => ascii "max_targets"
  | .maxReclaimMbPerCycle => ascii "max_reclaim_mb_per_cycle"
  | .anonRatioCap => ascii "anon_ratio_cap"
  | .enableHeapTrim => ascii "enable_heap_trim"
  | .enableCgroupReclaim => ascii "enable_cgroup_reclaim"
  | .enableKsm => ascii "enable_ksm"
  | .enableDamon => ascii "enable_damon"
  | .defaultMode => ascii "default_mode"
  | .dryRun => ascii "dry_run"
  | .trimAfterMb => ascii "trim_after_mb"
  | .freeBytes => ascii "free_bytes"
  | .logLevel => ascii "level"

def Scalar.Val (F : Type) : Scalar → Type
  | .psiThreshold | .psiLow | .minScore | .anonRatioCap => F
  | .enableHeapTrim | .enableCgroupReclaim | .enableKsm | .enableDamon | .dryRun => Bool
  | .defaultMode => Bytes
  | .logLevel => LogLevel
  | .intervalMs | .minReclaimableMb | .maxTargets | .maxReclaimMbPerCycle | .trimAfterMb
  | .freeBytes => Nat

def boolWord (v : Bytes) : Option Bool :=
  let t := lower (trim v)
  if t = ascii "1" ∨ t = ascii "true" ∨ t = ascii "yes" ∨ t = ascii "on" then some true
  else if t = ascii "0" ∨ t = ascii "false" ∨ t = ascii "no" ∨ t = ascii "off" then some false
  else none

def levelWord (v : Bytes) : Option LogLevel :=
  let t := lower v
  if t = ascii "debug" then some .debug
  else if t = ascii "info" then some .info
  else if t = ascii "warn" ∨ t = ascii "warning" then some .warn
  else if t = ascii "error" then some .error
  else none

inductive GroupPart where
  | cgroupPrefix
  | weight
  | mode
  deriving DecidableEq

def GroupPart.Val (F : Type) : GroupPart → Type
  | .cgroupPrefix => Bytes
  | .weight => F
  | .mode => Int

def GroupPart.named : GroupPart → Bytes → Bool
  | .cgroupPrefix => isPrefixField
  | .weight => isWeightField
  | .mode => isModeField

inductive ConfigField where
  | scalar (x : Scalar)
  | group (n : Nat) (part : GroupPart)
  deriving DecidableEq

def ConfigField.Val (F : Type) : ConfigField → Type
  | .scalar x => x.Val F
  | .group _ part => part.Val F

def Scalar.assignedBy (x : Scalar) (s : Setting) : Bool :=
  decide (x.sect = s.sect ∧ s.key = x.key)

def GroupPart.assignedBy (n : Nat) (part : GroupPart) (s : Setting) : Bool :=
  s.assignment.any fun a => decide (a.index = n) && part.named a.field

/-- The line assigns the field, whatever its value says. -/
def ConfigField.assignedBy : ConfigField → Setting → Bool
  | .scalar x, s => x.assignedBy s
  | .group n part, s => part.assignedBy n s

section

variable {F : Type} [Double F]

/-- The value of a text, where it is accepted. -/
def Scalar.read (stod : Bytes → Option F) : (x : Scalar) → Bytes → Option (x.Val F)
  | .intervalMs, v | .maxTargets, v => (stoull (trim v)).map u32
  | .minReclaimableMb, v | .maxReclaimMbPerCycle, v | .trimAfterMb, v | .freeBytes, v =>
      stoull (trim v)
  | .psiThreshold, v | .psiLow, v | .minScore, v | .anonRatioCap, v => stod (trim v)
  | .enableHeapTrim, v | .enableCgroupReclaim, v | .enableKsm, v | .enableDamon, v
  | .dryRun, v => boolWord v
  | .defaultMode, v => some (defaultModeWord v)
  | .logLevel, v => levelWord v

def Scalar.get : (x : Scalar) → Config F → x.Val F
  | .intervalMs, cfg => cfg.intervalMs
  | .psiThreshold, cfg => cfg.psiThreshold
  | .psiLow, cfg => cfg.psiLow
  | .minScore, cfg => cfg.minScore
  | .minReclaimableMb, cfg => cfg.minReclaimableMb
  | .maxTargets, cfg => cfg.maxTargets
  | .maxReclaimMbPerCycle, cfg => cfg.maxReclaimMbPerCycle
  | .anonRatioCap, cfg => cfg.anonRatioCap
  | .enableHeapTrim, cfg => cfg.enableHeapTrim
  | .enableCgroupReclaim, cfg => cfg.enableCgroupReclaim
  | .enableKsm, cfg => cfg.enableKsm
  | .enableDamon, cfg => cfg.enableDamon
  | .defaultMode, cfg => cfg.defaultMode
  | .dryRun, cfg => cfg.dryRun
  | .trimAfterMb, cfg => cfg.preload.trimAfterMb
  | .freeBytes, cfg => cfg.preload.freeBytes
  | .logLevel, cfg => cfg.logLevel

def GroupPart.read (stod : Bytes → Option F) : (part : GroupPart) → Bytes → part.Val F
  | .cgroupPrefix, v => trim v
  | .weight, v => parseDbl stod v (one : F)
  | .mode, v => groupMode v

def GroupPart.get : (part : GroupPart) → GroupPolicy F → part.Val F
  | .cgroupPrefix, g => g.cgroupPrefix
  | .weight, g => g.weight
  | .mode, g => g.mode

def Scalar.writes (stod : Bytes → Option F) (x : Scalar) (s : Setting) : Option (x.Val F) :=
  if x.assignedBy s then x.read stod s.value else none

def GroupPart.writes (stod : Bytes → Option F) (n : Nat) (part : GroupPart) (s : Setting) :
    Option (part.Val F) :=
  if part.assignedBy n s then some (part.read stod s.value) else none

/-- The value that a line gives a field, where it is one of the field's lines and its
value is accepted. -/
def ConfigField.writes (stod : Bytes → Option F) : (x : ConfigField) → Setting → Option (x.Val F)
  | .scalar x, s => x.writes stod s
  | .group n part, s => part.writes stod n s

/-- A group that is not there yet has the values it will be created with. -/
def ConfigField.get : (x : ConfigField) → Config F → x.Val F
  | .scalar x, cfg => x.get cfg
  | .group n part, cfg => part.get (cfg.groups.getD n {})

/-- The two fields of type `uint32_t`. -/
structure Config.Typed (cfg : Config F) : Prop where
  intervalMs : cfg.intervalMs < 2 ^ 32
  maxTargets : cfg.maxTargets < 2 ^ 32

/-- The table can be resized to every group index of the text. -/
def Resizable (room : Nat) (ss : List Setting) : Prop :=
  ∀ a ∈ assignments ss, a.index < room ∧ a.wraps = false

/-! ## Scalars -/

def scalars : List Scalar :=
  [.intervalMs, .psiThreshold, .psiLow, .minScore, .minReclaimableMb, .maxTargets,
    .maxReclaimMbPerCycle, .anonRatioCap, .enableHeapTrim, .enableCgroupReclaim, .enableKsm,
    .enableDamon, .defaultMode, .dryRun, .trimAfterMb, .freeBytes, .logLevel]

theorem mem_scalars (x : Scalar) : x ∈ scalars := by
  cases x <;> decide

theorem scalar_key_injective {x y : Scalar} (h : x.key = y.key) : x = y := by
  have hnodup : (scalars.map Scalar.key).Nodup := by decide +kernel
  exact List.inj_on_of_nodup_map hnodup (mem_scalars x) (mem_scalars y) h

theorem scalar_sect (x : Scalar) :
    x.sect = ascii "engine" ∨ x.sect = ascii "preload" ∨ x.sect = ascii "log" := by
  cases x
  case trimAfterMb | freeBytes => exact Or.inr (Or.inl rfl)
  case logLevel => exact Or.inr (Or.inr rfl)
  all_goals exact Or.inl rfl

theorem parseBool_eq (v : Bytes) (dflt : Bool) : parseBool v dflt = (boolWord v).getD dflt := by
  unfold parseBool boolWord
  dsimp only
  split
  · rfl
  · split <;> rfl

theorem u32_parse (v : Bytes) {dflt : Nat} (h : dflt < 2 ^ 32) :
    u32 (parseU64 v dflt) = ((stoull (trim v)).map u32).getD dflt := by
  unfold parseU64
  cases stoull (trim v) with
  | none => exact Nat.mod_eq_of_lt h
  | some n => rfl

theorem setEngine_get (stod : Bytes → Option F) {cfg : Config F} (hcfg : cfg.Typed) (x : Scalar)
    (k v : Bytes) :
    x.get (cfg.setEngine stod k v) =
      if x.sect = ascii "engine" ∧ k = x.key then (x.read stod v).getD (x.get cfg)
      else x.get cfg := by
  by_cases hx : x.sect = ascii "engine" ∧ k = x.key
  · rw [if_pos hx]
    obtain ⟨hsect, rfl⟩ := hx
    cases x
    case intervalMs => exact u32_parse v hcfg.intervalMs
    case maxTargets => exact u32_parse v hcfg.maxTargets
    case trimAfterMb => exact absurd hsect (by decide)
    case freeBytes => exact absurd hsect (by decide)
    case logLevel => exact absurd hsect (by decide)
    case defaultMode => rfl
    case minReclaimableMb | maxReclaimMbPerCycle => rfl
    case psiThreshold | psiLow | minScore | anonRatioCap => rfl
    all_goals exact parseBool_eq v _
  · rw [if_neg hx]
    have hother : x.sect = ascii "engine" → k ≠ x.key := fun hsect hk => hx ⟨hsect, hk⟩
    unfold Config.setEngine
    cases x
    case trimAfterMb | freeBytes => 
        simp only [Scalar.get, apply_ite Config.preload, ite_self]
        rfl
    case logLevel => 
        simp only [Scalar.get, apply_ite Config.logLevel, ite_self]
        rfl
    all_goals
      have hk := hother rfl
      simp only [Scalar.key] at hk
      simp only [Scalar.get, apply_ite Config.intervalMs, apply_ite Config.psiThreshold,
        apply_ite Config.psiLow, apply_ite Config.minScore, apply_ite Config.minReclaimableMb,
        apply_ite Config.maxTargets, apply_ite Config.maxReclaimMbPerCycle,
        apply_ite Config.anonRatioCap, apply_ite Config.enableHeapTrim,
        apply_ite Config.enableCgroupReclaim, apply_ite Config.enableKsm,
        apply_ite Config.enableDamon, apply_ite Config.defaultMode, apply_ite Config.dryRun,
        if_neg hk, ite_self]
      rfl

theorem setPreload_get (stod : Bytes → Option F) (cfg : Config F) (x : Scalar) (k v : Bytes) :
    x.get (cfg.setPreload k v) =
      if x.sect = ascii "preload" ∧ k = x.key then (x.read stod v).getD (x.get cfg)
      else x.get cfg := by
  by_cases hx : x.sect = ascii "preload" ∧ k = x.key
  · rw [if_pos hx]
    obtain ⟨hsect, rfl⟩ := hx
    cases x
    case trimAfterMb | freeBytes => rfl
    all_goals exact absurd hsect (by decide)
  · rw [if_neg hx]
    have hother : x.sect = ascii "preload" → k ≠ x.key := fun hsect hk => hx ⟨hsect, hk⟩
    unfold Config.setPreload
    cases x
    case trimAfterMb =>
      have hk : k ≠ ascii "trim_after_mb" := hother rfl
      rw [if_neg hk]
      split <;> rfl
    case freeBytes =>
      have hk : k ≠ ascii "free_bytes" := hother rfl
      rw [if_neg hk]
      split <;> rfl
    all_goals
      split
      · rfl
      · split <;> rfl

theorem setLog_get (stod : Bytes → Option F) (cfg : Config F) (x : Scalar) (k v : Bytes) :
    x.get (cfg.setLog k v) =
      if x.sect = ascii "log" ∧ k = x.key then (x.read stod v).getD (x.get cfg)
      else x.get cfg := by
  have hlevel : cfg.setLog k v =
      if k = ascii "level" then { cfg with logLevel := (levelWord v).getD cfg.logLevel }
      else cfg := by
    unfold Config.setLog levelWord
    dsimp only
    split_ifs <;> rfl
  rw [hlevel]
  by_cases hx : x.sect = ascii "log" ∧ k = x.key
  · rw [if_pos hx]
    obtain ⟨hsect, rfl⟩ := hx
    cases x
    case logLevel => rfl
    all_goals exact absurd hsect (by decide)
  · rw [if_neg hx]
    have hother : x.sect = ascii "log" → k ≠ x.key := fun hsect hk => hx ⟨hsect, hk⟩
    cases x
    case logLevel =>
      have hk : k ≠ ascii "level" := hother rfl
      rw [if_neg hk]
    all_goals split <;> rfl

theorem apply_scalar {stod : Bytes → Option F} {room : Nat} {cfg cfg' : Config F} {s : Setting}
    (hcfg : cfg.Typed) (h : apply stod room cfg s = some cfg') (x : Scalar) :
    x.get cfg' = (x.writes stod s).getD (x.get cfg) := by
  have hwrites : (x.writes stod s).getD (x.get cfg) =
      if x.sect = s.sect ∧ s.key = x.key then (x.read stod s.value).getD (x.get cfg)
      else x.get cfg := by
    unfold Scalar.writes Scalar.assignedBy
    by_cases hx : x.sect = s.sect ∧ s.key = x.key
    · rw [if_pos hx, if_pos (decide_eq_true hx)]
    · rw [if_neg hx, if_neg (by simpa using hx), Option.getD_none]
  rw [hwrites]
  unfold apply Config.set at h
  by_cases hengine : s.sect = ascii "engine"
  · rw [if_pos hengine] at h
    cases h
    rw [hengine]
    exact setEngine_get stod hcfg x s.key s.value
  · rw [if_neg hengine] at h
    by_cases hpreload : s.sect = ascii "preload"
    · have hgroups : s.sect ≠ ascii "groups" := by rw [hpreload]; decide
      have hksm : s.sect ≠ ascii "ksm" := by rw [hpreload]; decide
      rw [if_neg hgroups, if_neg hksm, if_pos hpreload] at h
      cases h
      rw [hpreload]
      exact setPreload_get stod cfg x s.key s.value
    · by_cases hlog : s.sect = ascii "log"
      · have hgroups : s.sect ≠ ascii "groups" := by rw [hlog]; decide
        have hksm : s.sect ≠ ascii "ksm" := by rw [hlog]; decide
        rw [if_neg hgroups, if_neg hksm, if_neg hpreload, if_pos hlog] at h
        cases h
        rw [hlog]
        exact setLog_get stod cfg x s.key s.value
      · -- no field belongs to any other section
        have hnone : ¬ (x.sect = s.sect ∧ s.key = x.key) := by
          rintro ⟨hx, -⟩
          rw [← hx] at hengine hpreload hlog
          rcases scalar_sect x with hsect | hsect | hsect
          · exact hengine hsect
          · exact hpreload hsect
          · exact hlog hsect
        rw [if_neg hnone]
        rw [if_neg hpreload, if_neg hlog] at h
        by_cases hgroups : s.sect = ascii "groups"
        · rw [if_pos hgroups] at h
          cases hkey : groupKey s.key with
          | none =>
              rw [hkey] at h
              cases h
              rfl
          | some key =>
              rw [hkey] at h
              obtain ⟨groups, -, rfl⟩ := Option.map_eq_some_iff.mp h
              cases x <;> rfl
        · rw [if_neg hgroups, ite_self] at h
          cases h
          rfl

theorem Config.typed_default : Config.Typed ({} : Config F) where
  intervalMs := show 1000 < 2 ^ 32 by decide
  maxTargets := show 3 < 2 ^ 32 by decide

theorem apply_typed {stod : Bytes → Option F} {room : Nat} {cfg cfg' : Config F} {s : Setting}
    (hcfg : cfg.Typed) (h : apply stod room cfg s = some cfg') : cfg'.Typed := by
  have hword : ∀ (x : Scalar) (v : Bytes) (old n : Nat), old < 2 ^ 32 →
      n = (if x.assignedBy s then (stoull (trim v)).map u32 else none).getD old →
      n < 2 ^ 32 := by
    intro x v old n hold hn
    rw [hn]
    split
    · cases stoull (trim v) with
      | none => exact hold
      | some m => exact Nat.mod_lt m (by decide)
    · exact hold
  constructor
  · exact hword _ _ _ _ hcfg.intervalMs (apply_scalar hcfg h .intervalMs)
  · exact hword _ _ _ _ hcfg.maxTargets (apply_scalar hcfg h .maxTargets)

theorem scalars_assigned (stod : Bytes → Option F) (room : Nat) :
    Assigns (apply stod room) Scalar.get (Scalar.writes stod) Config.Typed
      (fun _ => True) where
  inv_step := apply_typed
  get_step hcfg _ h x := apply_scalar hcfg h x

/-! ## Groups -/

theorem GroupPolicy.setField_get (stod : Bytes → Option F) (g : GroupPolicy F) (part : GroupPart)
    (field v : Bytes) :
    part.get (g.setField stod field v) =
      if part.named field then part.read stod v else part.get g := by
  have hapart := @fields_apart field
  unfold GroupPolicy.setField
  by_cases hp : isPrefixField field = true
  · rw [if_pos hp]
    cases part
    case cgroupPrefix => exact (if_pos hp).symm
    case weight => exact (if_neg (by simp [GroupPart.named, hapart.1 hp])).symm
    case mode => exact (if_neg (by simp [GroupPart.named, hapart.1 hp])).symm
  · rw [if_neg hp]
    by_cases hw : isWeightField field = true
    · rw [if_pos hw]
      cases part
      case cgroupPrefix => exact (if_neg hp).symm
      case weight => exact (if_pos hw).symm
      case mode => exact (if_neg (by simp [GroupPart.named, hapart.2 hw])).symm
    · rw [if_neg hw]
      by_cases hm : isModeField field = true
      · rw [if_pos hm]
        cases part
        case cgroupPrefix => exact (if_neg hp).symm
        case weight => exact (if_neg hw).symm
        case mode => exact (if_pos hm).symm
      · rw [if_neg hm]
        cases part
        case cgroupPrefix => exact (if_neg hp).symm
        case weight => exact (if_neg hw).symm
        case mode => exact (if_neg hm).symm

/-- The groups with room for the index of a line. -/
def grown (groups : List (GroupPolicy F)) (idx : Nat) : List (GroupPolicy F) :=
  groups ++ List.replicate (idx + 1 - groups.length) ({} : GroupPolicy F)

theorem grown_length (groups : List (GroupPolicy F)) (idx : Nat) :
    (grown groups idx).length = max groups.length (idx + 1) := by
  unfold grown
  rw [List.length_append, List.length_replicate]
  omega

theorem grown_getD (groups : List (GroupPolicy F)) (idx n : Nat) :
    (grown groups idx).getD n {} = groups.getD n {} := by
  unfold grown
  by_cases hn : n < groups.length
  · rw [List.getD_append _ _ _ _ hn]
  · rw [List.getD_append_right _ _ _ _ (by omega), List.getD_eq_default groups {} (by omega)]
    rw [List.getD_eq_getElem?_getD, List.getElem?_replicate]
    split <;> rfl

/-- Where the new size does not wrap, the table grows or `resize` throws. -/
theorem grow_eq {room : Nat} (groups : List (GroupPolicy F)) {idx : Nat}
    (hnext : u64 (idx + 1) = idx + 1) :
    (if groups.length ≤ idx then resize room groups (u64 (idx + 1)) else some groups) =
      if groups.length ≤ idx ∧ room < idx + 1 then none else some (grown groups idx) := by
  by_cases hgrow : groups.length ≤ idx
  · rw [if_pos hgrow, hnext]
    unfold resize
    by_cases hroom : room < idx + 1
    · rw [if_pos hroom, if_pos ⟨hgrow, hroom⟩]
    · rw [if_neg hroom, if_neg fun h => hroom h.2, List.take_of_length_le (by omega)]
      rfl
  · rw [if_neg hgrow, if_neg fun h => hgrow h.1]
    unfold grown
    rw [Nat.sub_eq_zero_of_le (by omega), List.replicate_zero, List.append_nil]

theorem setGroup_eq (stod : Bytes → Option F) {room : Nat} (groups : List (GroupPolicy F))
    {idx : Nat} (field v : Bytes) (hnext : u64 (idx + 1) = idx + 1) :
    setGroup stod room groups idx field v =
      if groups.length ≤ idx ∧ room < idx + 1 then none
      else some ((grown groups idx).modify idx (GroupPolicy.setField stod field v)) := by
  unfold setGroup
  rw [grow_eq groups hnext]
  split
  · rfl
  · rw [Option.bind_some]
    have hwithin : idx < (grown groups idx).length := by
      rw [grown_length]
      omega
    by_cases hfield : isGroupField field = true
    · rw [if_pos hfield, if_pos hwithin]
    · rw [if_neg hfield]
      have hid : GroupPolicy.setField stod field v = id := by
        funext g
        simp only [isGroupField, Bool.or_eq_true, not_or, Bool.not_eq_true] at hfield
        simp [GroupPolicy.setField, hfield]
      rw [hid, List.modify_id]

theorem modified_getD (f : GroupPolicy F → GroupPolicy F) {groups : List (GroupPolicy F)}
    {idx : Nat} (h : idx < groups.length) (n : Nat) :
    (groups.modify idx f).getD n {} =
      if idx = n then f (groups.getD n {}) else groups.getD n {} := by
  rw [List.getD_eq_getElem?_getD, List.getElem?_modify, List.getD_eq_getElem?_getD]
  by_cases hn : idx = n
  · subst hn
    rw [if_pos rfl, List.getElem?_eq_getElem h]
    simp
  · rw [if_neg hn]
    simp [hn]

theorem setGroup_spec {stod : Bytes → Option F} {room : Nat} {groups groups' : List (GroupPolicy F)}
    {idx : Nat} {field v : Bytes} (hnext : u64 (idx + 1) = idx + 1)
    (h : setGroup stod room groups idx field v = some groups') :
    groups'.length = max groups.length (idx + 1) ∧
      ∀ n, groups'.getD n {} =
        if idx = n then (groups.getD n {}).setField stod field v else groups.getD n {} := by
  rw [setGroup_eq stod groups field v hnext] at h
  obtain ⟨-, hsome⟩ := Option.ite_none_left_eq_some.mp h
  cases hsome
  have hwithin : idx < (grown groups idx).length := by
    rw [grown_length]
    omega
  refine ⟨?_, fun n => ?_⟩
  · rw [List.length_modify, grown_length]
  · rw [modified_getD _ hwithin, grown_getD]

/-! ## One line -/

/-- A line of `[groups]` with a usable index. -/
def Setting.NoWrap (s : Setting) : Prop := ∀ a, s.assignment = some a → a.wraps = false

theorem Setting.NoWrap.next {s : Setting} (h : s.NoWrap) {a : Assignment}
    (ha : s.assignment = some a) : u64 (a.index + 1) = a.index + 1 :=
  (Assignment.wraps_index (assignment_index_lt ha)).2 (h a ha)

/-- What a line does to the groups: it makes room for its index and writes its part. -/
theorem apply_groups {stod : Bytes → Option F} {room : Nat} {cfg cfg' : Config F} {s : Setting}
    (hs : s.NoWrap) (h : apply stod room cfg s = some cfg') :
    cfg'.groups.length = max cfg.groups.length (entryCount s.assignment.toList) ∧
      ∀ (n : Nat) (part : GroupPart), part.get (cfg'.groups.getD n {}) =
        (part.writes stod n s).getD (part.get (cfg.groups.getD n {})) := by
  cases ha : s.assignment with
  | none =>
      obtain ⟨cfg₁, happly, hgroups, -⟩ := apply_other stod room cfg ha
      have hsame : cfg' = cfg₁ := Option.some.inj (h.symm.trans happly)
      rw [hsame, hgroups]
      refine ⟨(Nat.max_zero _).symm, fun n part => ?_⟩
      have hnot : part.assignedBy n s = false := by
        unfold GroupPart.assignedBy
        rw [ha]
        rfl
      unfold GroupPart.writes
      rw [if_neg (by simp [hnot])]
      rfl
  | some a =>
      obtain ⟨happly, -⟩ := apply_assignment stod room cfg ha
      obtain ⟨groups, hset, rfl⟩ := Option.map_eq_some_iff.mp (happly.symm.trans h)
      obtain ⟨hlen, hentries⟩ := setGroup_spec (hs.next ha) hset
      have hcount : entryCount [a] = a.index + 1 := by simp [entryCount]
      have hvalue : a.value = s.value := by
        unfold Setting.assignment at ha
        obtain ⟨-, hkey⟩ := Option.ite_none_right_eq_some.mp ha
        obtain ⟨_, -, rfl⟩ := Option.map_eq_some_iff.mp hkey
        rfl
      rw [Option.toList_some, hcount]
      refine ⟨hlen, fun n part => ?_⟩
      have hassigned : part.assignedBy n s = (decide (a.index = n) && part.named a.field) := by
        unfold GroupPart.assignedBy
        rw [ha]
        rfl
      unfold GroupPart.writes
      rw [hassigned, hentries n]
      by_cases hn : a.index = n
      · rw [if_pos hn, GroupPolicy.setField_get, hvalue, decide_eq_true hn, Bool.true_and]
        split <;> rfl
      · rw [if_neg hn, decide_eq_false hn, Bool.false_and]
        rfl

theorem apply_returns {stod : Bytes → Option F} {room : Nat} {s : Setting}
    (hs : ∀ a, s.assignment = some a → a.index < room ∧ a.wraps = false) (cfg : Config F) :
    ∃ cfg', apply stod room cfg s = some cfg' := by
  cases ha : s.assignment with
  | none =>
      obtain ⟨cfg', happly, -⟩ := apply_other stod room cfg ha
      exact ⟨cfg', happly⟩
  | some a =>
      have hnowrap : s.NoWrap := fun b hb => (hs b hb).2
      have hroom := (hs a ha).1
      obtain ⟨happly, -⟩ := apply_assignment stod room cfg ha
      rw [happly, setGroup_eq stod cfg.groups a.field a.value (hnowrap.next ha),
        if_neg (by omega)]
      exact ⟨_, rfl⟩

theorem fields_assigned (stod : Bytes → Option F) (room : Nat) :
    Assigns (apply stod room) ConfigField.get (ConfigField.writes stod) Config.Typed Setting.NoWrap where
  inv_step := apply_typed
  get_step hcfg hs h x := by
    cases x with
    | scalar x => exact apply_scalar hcfg h x
    | group n part => exact (apply_groups hs h).2 n part

theorem Config.ext_fields {cfg cfg' : Config F}
    (hfields : ∀ x : ConfigField, x.get cfg = x.get cfg')
    (hlen : cfg.groups.length = cfg'.groups.length) : cfg = cfg' := by
  have hgroups : cfg.groups = cfg'.groups := by
    apply List.ext_getElem hlen
    intro n hn hn'
    have hprefix := hfields (.group n .cgroupPrefix)
    have hweight := hfields (.group n .weight)
    have hmode := hfields (.group n .mode)
    simp only [ConfigField.get, GroupPart.get, List.getD_eq_getElem _ _ hn,
      List.getD_eq_getElem _ _ hn'] at hprefix hweight hmode
    cases hg : cfg.groups[n] with
    | mk p w m =>
        cases hg' : cfg'.groups[n] with
        | mk p' w' m' =>
            rw [hg, hg'] at hprefix hweight hmode
            cases hprefix
            cases hweight
            cases hmode
            rfl
  have hscalars := fun x => hfields (.scalar x)
  have hpreload : cfg.preload = cfg'.preload := by
    have htrim := hscalars .trimAfterMb
    have hfree := hscalars .freeBytes
    cases hp : cfg.preload with
    | mk t f =>
        cases hp' : cfg'.preload with
        | mk t' f' =>
            simp only [ConfigField.get, Scalar.get, hp, hp'] at htrim hfree
            cases htrim
            cases hfree
            rfl
  cases cfg
  cases cfg'
  cases hgroups
  cases hpreload
  cases hscalars .intervalMs
  cases hscalars .psiThreshold
  cases hscalars .psiLow
  cases hscalars .minScore
  cases hscalars .minReclaimableMb
  cases hscalars .maxTargets
  cases hscalars .maxReclaimMbPerCycle
  cases hscalars .anonRatioCap
  cases hscalars .enableHeapTrim
  cases hscalars .enableCgroupReclaim
  cases hscalars .enableKsm
  cases hscalars .enableDamon
  cases hscalars .defaultMode
  cases hscalars .dryRun
  cases hscalars .logLevel
  rfl

/-! ## The whole text -/

theorem entryCount_append (l l' : List Assignment) :
    entryCount (l ++ l') = max (entryCount l) (entryCount l') := by
  induction l' using List.reverseRecOn with
  | nil => simp [entryCount]
  | append_singleton l' a ih =>
      rw [← List.append_assoc, entryCount_snoc, entryCount_snoc, ih, Nat.max_assoc]

theorem Resizable.noWrap {room : Nat} {ss : List Setting} (h : Resizable room ss) {s : Setting}
    (hs : s ∈ ss) {a : Assignment} (ha : s.assignment = some a) :
    a.index < room ∧ a.wraps = false :=
  h a (List.mem_filterMap.mpr ⟨s, hs, ha⟩)

/-- A text whose groups can be resized to loads, and the table has grown to the largest of
its indices. -/
theorem run_returns (stod : Bytes → Option F) {room : Nat} {ss : List Setting}
    (h : Resizable room ss) (cfg : Config F) :
    ∃ cfg', ss.foldlM (apply stod room) cfg = some cfg' ∧
      cfg'.groups.length = max cfg.groups.length (entryCount (assignments ss)) := by
  induction ss using List.reverseRecOn with
  | nil => exact ⟨cfg, rfl, (Nat.max_zero _).symm⟩
  | append_singleton ss s ih =>
      have hbefore : Resizable room ss := by
        intro a ha
        apply h
        rw [assignments_snoc]
        exact List.mem_append_left _ ha
      obtain ⟨cfg₁, hrun, hlen⟩ := ih hbefore
      have hs := fun a => h.noWrap (a := a) (show s ∈ ss ++ [s] by simp)
      obtain ⟨cfg', hstep⟩ := @apply_returns _ _ stod _ _ hs cfg₁
      refine ⟨cfg', ?_, ?_⟩
      · rw [List.foldlM_append, hrun]
        simpa using hstep
      · have hgrown := (apply_groups (fun a ha => (hs a ha).2) hstep).1
        rw [hgrown, hlen, assignments_snoc, entryCount_append, Nat.max_assoc]

theorem reload_eq (stod : Bytes → Option F) (room : Nat) (cfg : Config F) (text : Bytes) :
    cfg.reload stod room (some text) = (settings text).foldlM (apply stod room) cfg :=
  reloadLines_eq stod room (text.splitOn 10) [] cfg

end

/-! ## Lines -/

def unlines : List Bytes → Bytes
  | [] => []
  | [line] => line
  | line :: lines => line ++ 10 :: unlines lines

theorem splitOn_unlines {lines : List Bytes} (hlines : ∀ line ∈ lines, (10 : UInt8) ∉ line)
    (hsome : lines ≠ []) : (unlines lines).splitOn 10 = lines := by
  induction lines with
  | nil => exact absurd rfl hsome
  | cons line lines ih =>
      have hone := List.splitOn_eq_singleton (hlines line List.mem_cons_self)
      cases lines with
      | nil => exact hone
      | cons next lines =>
          have hrest := ih (fun l hl => hlines l (List.mem_cons_of_mem line hl)) (by simp)
          show (line ++ 10 :: unlines (next :: lines)).splitOn 10 = _
          rw [List.splitOn_append_cons_self, hone, hrest]
          rfl

theorem newline_not_mem {text line : Bytes} (h : line ∈ text.splitOn 10) : (10 : UInt8) ∉ line := by
  induction text generalizing line with
  | nil =>
      rw [List.splitOn_nil, List.mem_singleton] at h
      rw [h]
      exact List.not_mem_nil
  | cons b text ih =>
      rw [List.splitOn_cons_eq_if_modifyHead] at h
      split at h
      · rcases List.mem_cons.mp h with rfl | h
        · exact List.not_mem_nil
        · exact ih h
      · rename_i hb
        obtain ⟨first, lines, hsplit⟩ := List.exists_cons_of_ne_nil (List.splitOn_ne_nil 10 text)
        rw [hsplit, List.modifyHead_cons] at h
        have hfirst : (10 : UInt8) ∉ first := ih (hsplit ▸ List.mem_cons_self)
        rcases List.mem_cons.mp h with rfl | h
        · rintro (_ | ⟨_, hmem⟩)
          · exact hb rfl
          · exact hfirst hmem
        · exact ih (hsplit ▸ List.mem_cons_of_mem first h)

def sectionAfter : List Bytes → Bytes → Bytes
  | [], sect => sect
  | line :: lines, sect =>
      match readLine line with
      | .header name => sectionAfter lines name
      | _ => sectionAfter lines sect

theorem settingsFrom_append (l₁ l₂ : List Bytes) (sect : Bytes) :
    settingsFrom (l₁ ++ l₂) sect =
      settingsFrom l₁ sect ++ settingsFrom l₂ (sectionAfter l₁ sect) := by
  induction l₁ generalizing sect with
  | nil => rfl
  | cons line l₁ ih =>
      simp only [List.cons_append, settingsFrom, sectionAfter]
      cases readLine line with
      | skipped => exact ih sect
      | header name => exact ih name
      | setting k v =>
          dsimp only
          rw [ih sect, List.cons_append]

/-! ## The result -/

theorem GroupPart.assignedBy_iff {part : GroupPart} {n : Nat} {s : Setting} :
    part.assignedBy n s = true ↔
      ∃ a, s.assignment = some a ∧ a.index = n ∧ part.named a.field = true := by
  unfold GroupPart.assignedBy
  cases s.assignment <;> simp

theorem assignedBy_unique {x y : ConfigField} {s : Setting} (hx : x.assignedBy s = true)
    (hy : y.assignedBy s = true) : x = y := by
  have hgroups : ∀ {n : Nat} {part : GroupPart}, part.assignedBy n s = true →
      s.sect = ascii "groups" := by
    intro n part h
    obtain ⟨a, ha, -⟩ := GroupPart.assignedBy_iff.mp h
    unfold Setting.assignment at ha
    exact (Option.ite_none_right_eq_some.mp ha).1
  have happart : ∀ x : Scalar, x.sect ≠ ascii "groups" := by
    intro x
    rcases scalar_sect x with h | h | h <;> (rw [h]; decide)
  cases x with
  | scalar x =>
      have hx := of_decide_eq_true hx
      cases y with
      | scalar y =>
          have hy := of_decide_eq_true hy
          rw [scalar_key_injective (hx.2.symm.trans hy.2)]
      | group n part => exact absurd (hx.1.trans (hgroups hy)) (happart x)
  | group n part =>
      cases y with
      | scalar y =>
          have hy := of_decide_eq_true hy
          exact absurd (hy.1.trans (hgroups hx)) (happart y)
      | group m other =>
          obtain ⟨a, ha, hxa⟩ := GroupPart.assignedBy_iff.mp hx
          obtain ⟨b, hb, hyb⟩ := GroupPart.assignedBy_iff.mp hy
          cases Option.some.inj (ha.symm.trans hb)
          have hpart : part = other := by
            have hapart := @fields_apart a.field
            cases part <;> cases other <;> first | rfl | skip
            all_goals
              have hone := hxa.2
              have htwo := hyb.2
              simp only [GroupPart.named] at hone htwo
              first
                | simp [hapart.1 hone] at htwo
                | simp [hapart.1 htwo] at hone
                | simp [hapart.2 hone] at htwo
                | simp [hapart.2 htwo] at hone
          rw [← hxa.1, ← hyb.1, hpart]

section

variable {F : Type} [Double F]

theorem writes_of_not_assigned (stod : Bytes → Option F) {x : ConfigField} {s : Setting}
    (h : x.assignedBy s = false) : x.writes stod s = none := by
  cases x with
  | scalar x => exact if_neg (by simpa [ConfigField.assignedBy] using h)
  | group n part => exact if_neg (by simpa [ConfigField.assignedBy] using h)

/-- Neighbouring lines of one section that assign different fields. -/
def Independent (sect line line' : Bytes) : Prop :=
  ∃ k v k' v' x y, readLine line = .setting k v ∧ readLine line' = .setting k' v' ∧
    ConfigField.assignedBy x ⟨sect, k, v⟩ = true ∧ ConfigField.assignedBy y ⟨sect, k', v'⟩ = true ∧
    x ≠ y

theorem settingsFrom_pair {line line' k v k' v' : Bytes} (hline : readLine line = .setting k v)
    (hline' : readLine line' = .setting k' v') (l₁ l₂ : List Bytes) :
    settingsFrom (l₁ ++ line :: line' :: l₂) [] =
      settingsFrom l₁ [] ++ ⟨sectionAfter l₁ [], k, v⟩ :: ⟨sectionAfter l₁ [], k', v'⟩ ::
        settingsFrom l₂ (sectionAfter l₁ []) := by
  rw [settingsFrom_append]
  simp only [settingsFrom, hline, hline']

/-- Exchanging two lines leaves lines, so the text they make has the settings of the list. -/
theorem settings_exchanged {text line line' : Bytes} {l₁ l₂ : List Bytes}
    (hlines : text.splitOn 10 = l₁ ++ line :: line' :: l₂) :
    settings (unlines (l₁ ++ line' :: line :: l₂)) =
      settingsFrom (l₁ ++ line' :: line :: l₂) [] := by
  have hclean : ∀ l ∈ l₁ ++ line' :: line :: l₂, (10 : UInt8) ∉ l := by
    intro l hl
    have hmem : l ∈ text.splitOn 10 := by
      rw [hlines]
      simp only [List.mem_append, List.mem_cons] at hl ⊢
      tauto
    exact newline_not_mem hmem
  unfold settings
  rw [splitOn_unlines hclean (by simp)]

theorem writes_apart (stod : Bytes → Option F) {s s' : Setting} {x y : ConfigField}
    (hx : x.assignedBy s = true) (hy : y.assignedBy s' = true) (hxy : x ≠ y) (z : ConfigField) :
    z.writes stod s = none ∨ z.writes stod s' = none := by
  by_cases hz : z.assignedBy s = true
  · right
    apply writes_of_not_assigned
    by_contra hz'
    have hzx := assignedBy_unique hz hx
    have hzy := assignedBy_unique (by simpa using hz') hy
    exact hxy (hzx.symm.trans hzy)
  · exact Or.inl (writes_of_not_assigned stod (by simpa using hz))

theorem entryCount_perm {l l' : List Assignment} (h : l'.Perm l) : entryCount l' = entryCount l := by
  apply Nat.le_antisymm
  · exact entryCount_le fun a ha => index_lt_entryCount (h.mem_iff.mp ha)
  · exact entryCount_le fun a ha => index_lt_entryCount (h.mem_iff.mpr ha)

/-- The reload of a text whose group indices can be resized to: it returns; each field has
the value of its last accepted line, or its old one; the text changes nothing the second
time; and neighbours for different fields can be exchanged. -/
theorem reload_last_wins (stod : Bytes → Option F) (room : Nat) {cfg : Config F} (text : Bytes)
    (hcfg : cfg.Typed) (h : Resizable room (settings text)) :
    ∃ cfg', cfg.reload stod room (some text) = some cfg' ∧
      (∀ x : ConfigField, x.get cfg' =
        (lastWrite (ConfigField.writes stod) x (settings text)).getD (x.get cfg)) ∧
      cfg'.groups.length = max cfg.groups.length (entryCount (assignments (settings text))) ∧
      cfg'.reload stod room (some text) = some cfg' ∧
      ∀ l₁ line line' l₂, text.splitOn 10 = l₁ ++ line :: line' :: l₂ →
        Independent (sectionAfter l₁ []) line line' →
        cfg.reload stod room (some (unlines (l₁ ++ line' :: line :: l₂))) = some cfg' := by
  have hnowrap : ∀ s ∈ settings text, s.NoWrap := fun s hs a ha => (h.noWrap hs ha).2
  have hassigns := fields_assigned stod room
  obtain ⟨cfg', hrun, hlen⟩ := run_returns stod h cfg
  obtain ⟨hcfg', hfields⟩ := hassigns.run hnowrap hcfg hrun
  refine ⟨cfg', by rw [reload_eq, hrun], hfields, hlen, ?_, ?_⟩
  · obtain ⟨cfg'', hagain, hlen'⟩ := run_returns stod h cfg'
    have hsame : cfg'' = cfg' := by
      apply Config.ext_fields (hassigns.again hnowrap hcfg hrun hagain)
      rw [hlen', hlen]
      omega
    rw [reload_eq, hagain, hsame]
  · rintro l₁ line line' l₂ hlines ⟨k, v, k', v', x, y, hline, hline', hx, hy, hxy⟩
    let s : Setting := ⟨sectionAfter l₁ [], k, v⟩
    let s' : Setting := ⟨sectionAfter l₁ [], k', v'⟩
    let ss₁ := settingsFrom l₁ []
    let ss₂ := settingsFrom l₂ (sectionAfter l₁ [])
    have hbefore : settings text = ss₁ ++ s :: s' :: ss₂ := by
      unfold settings
      rw [hlines, settingsFrom_pair hline hline']
    have hafter : settings (unlines (l₁ ++ line' :: line :: l₂)) = ss₁ ++ s' :: s :: ss₂ := by
      rw [settings_exchanged hlines, settingsFrom_pair hline' hline]
    have hapart : ∀ z : ConfigField, z.writes stod s = none ∨ z.writes stod s' = none :=
      writes_apart stod hx hy hxy
    have hperm : (assignments (ss₁ ++ s' :: s :: ss₂)).Perm (assignments (ss₁ ++ s :: s' :: ss₂)) :=
      ((List.Perm.swap s s' ss₂).append_left ss₁).filterMap _
    have hswapped : Resizable room (ss₁ ++ s' :: s :: ss₂) := by
      intro a ha
      apply h
      rw [hbefore]
      exact hperm.mem_iff.mp ha
    obtain ⟨cfg'', hswap, hlen'⟩ := run_returns stod hswapped cfg
    rw [hbefore] at hrun hnowrap hlen
    have hsame : cfg'' = cfg' := by
      apply Config.ext_fields (hassigns.exchange hnowrap hapart hcfg hrun hswap)
      rw [hlen', hlen, entryCount_perm hperm]
    rw [reload_eq, hafter, hswap, hsame]

end

/-- A number and a prefix, each set twice. -/
def twiceText : Bytes :=
  ascii "[engine]\ninterval_ms = 500\nmax_targets = 3\ninterval_ms = 700\n" ++
    ascii "[groups]\ngroup.1.prefix = /b\ngroup.1.prefix = /c\n"

/-- The last values stay, and the score that no line sets. -/
theorem reload_twice :
    ∃ cfg' : Config ℚ, Config.reload (fun _ => none) 16 {} (some twiceText) = some cfg' ∧
      cfg'.intervalMs = 700 ∧ cfg'.maxTargets = 3 ∧ cfg'.minScore = ({} : Config ℚ).minScore ∧
      (cfg'.groups.getD 1 {}).cgroupPrefix = ascii "/c" ∧ cfg'.groups.length = 2 ∧
      cfg'.reload (fun _ => none) 16 (some twiceText) = some cfg' := by
  have hassigned : assignments (settings twiceText) =
      [⟨1, ascii "prefix", ascii "/b"⟩, ⟨1, ascii "prefix", ascii "/c"⟩] := by
    decide +kernel
  have hfits : Resizable 16 (settings twiceText) := by
    unfold Resizable
    rw [hassigned]
    decide +kernel
  have htyped : Config.Typed ({} : Config ℚ) := Config.typed_default
  obtain ⟨cfg', hrun, hfields, hlength, hagain, -⟩ :=
    reload_last_wins (fun _ => none) 16 twiceText htyped hfits
  refine ⟨cfg', hrun, (hfields (.scalar .intervalMs)).trans ?_,
    (hfields (.scalar .maxTargets)).trans ?_, (hfields (.scalar .minScore)).trans ?_,
    (hfields (.group 1 .cgroupPrefix)).trans ?_, hlength.trans (by rw [hassigned]; rfl), hagain⟩
  all_goals rfl

end Memflux.Core
