import Memflux.Lib.LongestMatch
import Memflux.Core.Parser

/-! # Declared policies

What a configuration text declares, read off its settings line by line: for each
group index the last prefix, weight and mode word it is given, and for the daemon the
last default mode. Then the table that `reload` builds from the same settings, and
when the policy in use for a cgroup is the declared one.
-/

namespace Memflux.Core

open Double LongestMatch

/-! ## The settings of a text -/

structure Setting where
  sect : Bytes
  key : Bytes
  value : Bytes

def settingsFrom : List Bytes → Bytes → List Setting
  | [], _ => []
  | line :: lines, sect =>
      match readLine line with
      | .skipped => settingsFrom lines sect
      | .header name => settingsFrom lines name
      | .setting key value => { sect, key, value } :: settingsFrom lines sect

def settings (text : Bytes) : List Setting := settingsFrom (text.splitOn 10) []

/-- `group.<index>.<field> = <value>` in `[groups]`. -/
structure Assignment where
  index : Nat
  field : Bytes
  value : Bytes
  deriving DecidableEq

def Setting.assignment (s : Setting) : Option Assignment :=
  if s.sect = ascii "groups" then
    (groupKey s.key).map fun (index, field) => { index, field, value := s.value }
  else none

def assignments (ss : List Setting) : List Assignment := ss.filterMap Setting.assignment

def Setting.defaultWord (s : Setting) : Option Bytes :=
  if s.sect = ascii "engine" ∧ s.key = ascii "default_mode" then some s.value else none

def defaultWords (ss : List Setting) : List Bytes := ss.filterMap Setting.defaultWord

/-! ## What it declares -/

/-- The value of the last line that gives group `n` one of the fields. -/
def lastValue (fields : Bytes → Bool) (l : List Assignment) (n : Nat) : Option Bytes :=
  (l.filter fun a => a.index = n ∧ fields a.field).getLast?.map (·.value)

def declaredPrefix (l : List Assignment) (n : Nat) : Bytes :=
  ((lastValue isPrefixField l n).map trim).getD []

/-- The group is given a prefix that is not empty. -/
def Declared (l : List Assignment) (n : Nat) : Prop := declaredPrefix l n ≠ []

def wordMode (w : Bytes) : ReclaimMode :=
  if defaultModeWord w = ascii "cold" then .coldOnly else .pageout

def groupWordMode (w : Bytes) : ReclaimMode := if groupMode w = 1 then .coldOnly else .pageout

def declaredMode (l : List Assignment) (n : Nat) : ReclaimMode :=
  (lastValue isModeField l n).elim .pageout wordMode

def declaredDefault (words : List Bytes) : ReclaimMode := words.getLast?.elim .pageout wordMode

section

variable {F : Type} [Double F]

def declaredWeight (stod : Bytes → Option F) (l : List Assignment) (n : Nat) : F :=
  (lastValue isWeightField l n).elim one fun v => parseDbl stod v one

/-- The mode and the weight of one process. -/
structure Policy (F : Type) where
  mode : ReclaimMode
  weight : F

/-- Of the groups at hand those of the longest prefix of `P` count, the first of them
where several declare one prefix; without any, the default does. -/
def Selects (stod : Bytes → Option F) (l : List Assignment) (groups : Nat → Prop)
    (dflt : Policy F) (P : Bytes) (policy : Policy F) : Prop :=
  (∀ n, FirstLongest (fun n => groups n ∧ declaredPrefix l n <+: P)
      (fun n => (declaredPrefix l n).length) n →
    policy = ⟨declaredMode l n, declaredWeight stod l n⟩) ∧
  ((∀ n, groups n → ¬ declaredPrefix l n <+: P) → policy = dflt)

/-- The text loads, a process gets the policy of the longest declared prefix or the
default, and mode words mean the same for groups and by default. -/
structure DeclaredApplied (stod : Bytes → Option F) (room : Nat) (text : Bytes)
    (ps : ProcessStat F) : Prop where
  policy : ∃ cfg, Config.load stod room (some text) = some cfg ∧
    Selects stod (assignments (settings text)) (Declared (assignments (settings text)))
      ⟨declaredDefault (defaultWords (settings text)), one⟩ ps.cgroup
      ⟨modeFor cfg ps, weightFor cfg ps⟩
  words : ∀ a ∈ assignments (settings text), isModeField a.field →
    groupWordMode a.value = wordMode a.value

/-! ## The table -/

/-- An index whose successor is zero in `size_t`. -/
def Assignment.wraps (a : Assignment) : Bool := u64 (a.index + 1) = 0

/-- The lines that the table still shows: those after the last one that empties it. -/
def kept (l : List Assignment) : List Assignment := l.rtakeWhile fun a => !a.wraps

/-- The number of entries after these lines. -/
def entryCount (l : List Assignment) : Nat := l.foldl (fun n a => max n (a.index + 1)) 0

def entry (stod : Bytes → Option F) (l : List Assignment) (n : Nat) : GroupPolicy F where
  cgroupPrefix := declaredPrefix l n
  weight := declaredWeight stod l n
  mode := (lastValue isModeField l n).elim 0 groupMode

def table (stod : Bytes → Option F) (l : List Assignment) : List (GroupPolicy F) :=
  (List.range (entryCount l)).map (entry stod l)

/-- The table can grow to the entry, or the line empties it and writes nothing. -/
def Assignment.Fits (room : Nat) (a : Assignment) : Prop :=
  if a.wraps then isGroupField a.field = false else a.index < room

/-! ## One more line -/

theorem lastValue_snoc (fields : Bytes → Bool) (l : List Assignment) (a : Assignment) (n : Nat) :
    lastValue fields (l ++ [a]) n =
      if a.index = n ∧ fields a.field then some a.value else lastValue fields l n := by
  unfold lastValue
  rw [List.filter_append]
  by_cases h : a.index = n ∧ fields a.field
  · rw [if_pos h, List.filter_cons_of_pos (by simpa using h)]
    simp
  · rw [if_neg h, List.filter_cons_of_neg (by simpa using h)]
    simp

theorem lastValue_none {fields : Bytes → Bool} {l : List Assignment} {n : Nat}
    (h : ∀ a ∈ l, a.index ≠ n) : lastValue fields l n = none := by
  unfold lastValue
  rw [List.filter_eq_nil_iff.mpr]
  · rfl
  · intro a ha
    simp [h a ha]

theorem fields_apart {field : Bytes} :
    (isPrefixField field → isWeightField field = false ∧ isModeField field = false) ∧
      (isWeightField field → isModeField field = false) := by
  constructor
  · intro h
    simp only [isPrefixField, Bool.decide_or, Bool.or_eq_true, decide_eq_true_eq] at h
    cases h with
    | inl h =>
        rw [h]
        decide
    | inr h =>
        rw [h]
        decide
  · intro h
    simp only [isWeightField, decide_eq_true_eq] at h
    rw [h]
    decide

theorem entry_snoc (stod : Bytes → Option F) (l : List Assignment) (a : Assignment) (n : Nat) :
    entry stod (l ++ [a]) n =
      if a.index = n then (entry stod l n).setField stod a.field a.value
      else entry stod l n := by
  unfold entry declaredPrefix declaredWeight
  simp only [lastValue_snoc]
  by_cases hn : a.index = n
  · have hapart := @fields_apart a.field
    unfold GroupPolicy.setField
    by_cases hp : isPrefixField a.field = true
    · simp [hn, hp, hapart.1 hp]
    · by_cases hw : isWeightField a.field = true
      · simp [hn, hp, hw, hapart.2 hw]
      · by_cases hm : isModeField a.field = true
        · simp [hn, hp, hw, hm]
        · simp [hp, hw, hm]
  · simp [hn]

theorem entry_untouched (stod : Bytes → Option F) {l : List Assignment} {n : Nat}
    (h : ∀ a ∈ l, a.index ≠ n) : entry stod l n = {} := by
  unfold entry declaredPrefix declaredWeight
  simp [lastValue_none h]

@[simp] theorem entryCount_snoc (l : List Assignment) (a : Assignment) :
    entryCount (l ++ [a]) = max (entryCount l) (a.index + 1) := by
  simp [entryCount]

theorem index_lt_entryCount {l : List Assignment} {a : Assignment} (ha : a ∈ l) :
    a.index < entryCount l := by
  induction l using List.reverseRecOn with
  | nil => cases ha
  | append_singleton l b ih =>
      rw [entryCount_snoc]
      cases List.mem_append.mp ha with
      | inl hl =>
          have := ih hl
          omega
      | inr hb =>
          rw [List.mem_singleton.mp hb]
          omega

theorem entryCount_le {l : List Assignment} {bound : Nat}
    (h : ∀ a ∈ l, a.index < bound) : entryCount l ≤ bound := by
  induction l using List.reverseRecOn with
  | nil => exact Nat.zero_le bound
  | append_singleton l b ih =>
      rw [entryCount_snoc]
      have hl := ih fun a ha => h a (List.mem_append_left [b] ha)
      have hb := h b (by simp)
      omega

theorem kept_snoc (l : List Assignment) (a : Assignment) :
    kept (l ++ [a]) = if a.wraps then [] else kept l ++ [a] := by
  unfold kept
  rw [List.rtakeWhile_concat]
  cases a.wraps <;> rfl

theorem kept_self {l : List Assignment} (h : ∀ a ∈ l, a.wraps = false) : kept l = l := by
  apply List.rtakeWhile_eq_self_iff.mpr
  intro a ha
  simp [h a ha]

theorem mem_kept {l : List Assignment} {a : Assignment} (ha : a ∈ kept l) :
    a ∈ l ∧ a.wraps = false := by
  constructor
  · apply List.IsSuffix.mem ha
    exact List.rtakeWhile_suffix _ l
  · simpa using List.mem_rtakeWhile_imp ha

/-! ## The table and the lines -/

@[simp] theorem table_length (stod : Bytes → Option F) (l : List Assignment) :
    (table stod l).length = entryCount l := by
  simp [table]

theorem resize_table (stod : Bytes → Option F) {l : List Assignment} {room n : Nat}
    (hn : entryCount l ≤ n) (hroom : n ≤ room) :
    resize room (table stod l) n = some ((List.range n).map (entry stod l)) := by
  unfold resize
  rw [if_neg (by omega), table_length, List.take_of_length_le (by simpa using hn)]
  congr 1
  apply List.ext_getElem
  · simp
    omega
  · intro i hi hi'
    by_cases hlt : i < entryCount l
    · rw [List.getElem_append_left (by simpa using hlt)]
      simp [table]
    · rw [List.getElem_append_right (by simpa using hlt)]
      have hfresh : entry stod l i = {} := by
        apply entry_untouched
        intro a ha heq
        exact hlt (heq ▸ index_lt_entryCount ha)
      simp [hfresh]

theorem modify_entries (stod : Bytes → Option F) (l : List Assignment) (a : Assignment)
    (n : Nat) :
    ((List.range n).map (entry stod l)).modify a.index
        (GroupPolicy.setField stod a.field a.value) =
      (List.range n).map (entry stod (l ++ [a])) := by
  apply List.ext_getElem
  · simp
  · intro i hi hi'
    rw [List.getElem_modify]
    simp [entry_snoc]

theorem entries_other (stod : Bytes → Option F) (l : List Assignment) {a : Assignment}
    (n : Nat) (h : isGroupField a.field = false) :
    (List.range n).map (entry stod l) = (List.range n).map (entry stod (l ++ [a])) := by
  apply List.map_congr_left
  intro i _
  rw [entry_snoc]
  simp only [isGroupField, Bool.or_eq_false_iff] at h
  simp [GroupPolicy.setField, h]

theorem Assignment.wraps_index {a : Assignment} (ha : a.index < 2 ^ 64) :
    (a.wraps = true → a.index = 2 ^ 64 - 1) ∧ (a.wraps = false → u64 (a.index + 1) = a.index + 1) := by
  unfold wraps u64
  rw [decide_eq_true_eq, decide_eq_false_iff_not]
  omega

section

variable (stod : Bytes → Option F) {room : Nat} {l : List Assignment} {a : Assignment}
  (hl : ∀ b ∈ l, b.Fits room ∧ b.index < 2 ^ 64) (ha : a.index < 2 ^ 64)

section

include hl

theorem entryCount_kept_le : entryCount (kept l) ≤ room := by
  apply entryCount_le
  intro b hb
  have hmem := mem_kept hb
  have hfits := (hl b hmem.1).1
  simpa [Assignment.Fits, hmem.2] using hfits

theorem entryCount_kept_lt : entryCount (kept l) ≤ 2 ^ 64 - 1 := by
  apply entryCount_le
  intro b hb
  have hmem := mem_kept hb
  have hindex := (hl b hmem.1).2
  have hnext := (Assignment.wraps_index hindex).2 hmem.2
  have hbelow : u64 (b.index + 1) < 2 ^ 64 := Nat.mod_lt _ (by omega)
  omega

end

include ha

theorem grown_table (hwraps : a.wraps = false) (hroom : a.index < room) :
    (if (table stod (kept l)).length ≤ a.index then
      resize room (table stod (kept l)) (u64 (a.index + 1)) else some (table stod (kept l))) =
    some ((List.range (entryCount (kept l ++ [a]))).map (entry stod (kept l))) := by
  rw [table_length, entryCount_snoc, (Assignment.wraps_index ha).2 hwraps]
  by_cases hgrow : entryCount (kept l) ≤ a.index
  · rw [if_pos hgrow, Nat.max_eq_right (by omega)]
    exact resize_table stod (by omega) (by omega)
  · rw [if_neg hgrow, Nat.max_eq_left (by omega)]
    rfl

include hl

theorem emptied_table (hwraps : a.wraps = true) :
    (if (table stod (kept l)).length ≤ a.index then
      resize room (table stod (kept l)) (u64 (a.index + 1)) else some (table stod (kept l))) =
    some [] := by
  have hindex := (Assignment.wraps_index ha).1 hwraps
  have hcount := entryCount_kept_lt hl
  rw [table_length, if_pos (by omega), hindex]
  simp [resize, u64]

theorem setGroup_table (hfits : a.Fits room) :
    setGroup stod room (table stod (kept l)) a.index a.field a.value =
      some (table stod (kept (l ++ [a]))) := by
  unfold Assignment.Fits at hfits
  unfold setGroup
  rw [kept_snoc]
  by_cases hwraps : a.wraps = true
  · rw [if_pos hwraps] at hfits
    rw [emptied_table stod hl ha hwraps]
    simp [hfits, hwraps, table, entryCount]
  · rw [if_neg hwraps] at hfits
    rw [grown_table stod ha (by simpa using hwraps) hfits, if_neg hwraps, Option.bind_some]
    have hwithin : a.index < entryCount (kept l ++ [a]) := by
      rw [entryCount_snoc]
      omega
    by_cases hfield : isGroupField a.field = true
    · rw [if_pos hfield, if_pos (by simp), modify_entries]
      rfl
    · rw [if_neg hfield, entries_other stod (kept l) _ (by simpa using hfield)]
      rfl

theorem setGroup_unfit (hfits : ¬ a.Fits room) :
    setGroup stod room (table stod (kept l)) a.index a.field a.value = none := by
  unfold Assignment.Fits at hfits
  unfold setGroup
  by_cases hwraps : a.wraps = true
  · rw [if_pos hwraps] at hfits
    rw [emptied_table stod hl ha hwraps]
    simp [hfits]
  · rw [if_neg hwraps] at hfits
    have hcount := entryCount_kept_le hl
    rw [table_length, if_pos (by omega), (Assignment.wraps_index ha).2 (by simpa using hwraps)]
    unfold resize
    rw [if_pos (by omega)]
    rfl

end

/-! ## The whole text -/

theorem assignment_index_lt {s : Setting} {a : Assignment} (h : s.assignment = some a) :
    a.index < 2 ^ 64 := by
  unfold Setting.assignment at h
  split at h
  · unfold groupKey at h
    split at h
    · cases hfirst : cut 46 s.key with
      | none => simp [hfirst] at h
      | some first =>
          cases hsecond : cut 46 first.2 with
          | none => simp [hfirst, hsecond] at h
          | some second =>
              simp only [hfirst, hsecond, Option.bind_some, Option.map_some] at h
              cases h
              exact parseU64_lt second.1 (by omega)
    · cases h
  · cases h

theorem setEngine_groups (stod : Bytes → Option F) (cfg : Config F) (k v : Bytes) :
    (cfg.setEngine stod k v).groups = cfg.groups := by
  unfold Config.setEngine
  simp only [apply_ite Config.groups, ite_self]

theorem setEngine_defaultMode (stod : Bytes → Option F) (cfg : Config F) (k v : Bytes) :
    (cfg.setEngine stod k v).defaultMode =
      if k = ascii "default_mode" then defaultModeWord v else cfg.defaultMode := by
  by_cases hk : k = ascii "default_mode"
  · rw [if_pos hk, hk]
    rfl
  · unfold Config.setEngine
    simp only [apply_ite Config.defaultMode, if_neg hk, ite_self]

theorem setPreload_other (cfg : Config F) (k v : Bytes) :
    (cfg.setPreload k v).groups = cfg.groups ∧
      (cfg.setPreload k v).defaultMode = cfg.defaultMode := by
  unfold Config.setPreload
  simp only [apply_ite Config.groups, apply_ite Config.defaultMode, ite_self, and_self]

theorem setLog_other (cfg : Config F) (k v : Bytes) :
    (cfg.setLog k v).groups = cfg.groups ∧ (cfg.setLog k v).defaultMode = cfg.defaultMode := by
  unfold Config.setLog
  simp only [apply_ite Config.groups, apply_ite Config.defaultMode, ite_self, and_self]

/-- The settings one by one, as `reload` applies them. -/
def apply (stod : Bytes → Option F) (room : Nat) (cfg : Config F) (s : Setting) :
    Option (Config F) :=
  cfg.set stod room s.sect s.key s.value

theorem reloadLines_eq (stod : Bytes → Option F) (room : Nat) (lines : List Bytes)
    (sect : Bytes) (cfg : Config F) :
    reloadLines stod room lines sect cfg =
      (settingsFrom lines sect).foldlM (apply stod room) cfg := by
  induction lines generalizing sect cfg with
  | nil => rfl
  | cons line lines ih =>
      unfold reloadLines settingsFrom
      cases readLine line with
      | skipped => exact ih sect cfg
      | header name => exact ih name cfg
      | setting k v =>
          simp only [List.foldlM_cons, apply]
          apply congrArg
          funext cfg'
          exact ih sect cfg'

theorem apply_assignment (stod : Bytes → Option F) (room : Nat) (cfg : Config F) {s : Setting}
    {a : Assignment} (h : s.assignment = some a) :
    apply stod room cfg s =
        (setGroup stod room cfg.groups a.index a.field a.value).map
          (fun groups => { cfg with groups }) ∧
      s.defaultWord = none := by
  unfold Setting.assignment at h
  by_cases hsect : s.sect = ascii "groups"
  · rw [if_pos hsect] at h
    obtain ⟨key, hkey, rfl⟩ := Option.map_eq_some_iff.mp h
    constructor
    · unfold apply Config.set
      rw [hsect, if_neg (by decide), if_pos rfl, hkey]
    · unfold Setting.defaultWord
      rw [if_neg]
      intro hboth
      rw [hsect] at hboth
      exact absurd hboth.1 (by decide)
  · rw [if_neg hsect] at h
    cases h

/-- Any other setting leaves the table, and of the policies changes the default. -/
theorem apply_other (stod : Bytes → Option F) (room : Nat) (cfg : Config F) {s : Setting}
    (h : s.assignment = none) :
    ∃ cfg', apply stod room cfg s = some cfg' ∧ cfg'.groups = cfg.groups ∧
      cfg'.defaultMode = s.defaultWord.elim cfg.defaultMode defaultModeWord := by
  unfold apply Config.set
  by_cases hengine : s.sect = ascii "engine"
  · rw [if_pos hengine]
    refine ⟨_, rfl, setEngine_groups stod cfg s.key s.value, ?_⟩
    rw [setEngine_defaultMode]
    unfold Setting.defaultWord
    by_cases hkey : s.key = ascii "default_mode"
    · simp [hengine, hkey]
    · simp [hkey]
  · have hword : s.defaultWord = none := by
      simp [Setting.defaultWord, hengine]
    rw [if_neg hengine, hword, Option.elim_none]
    unfold Setting.assignment at h
    split
    · rename_i hsect
      rw [if_pos hsect, Option.map_eq_none_iff] at h
      rw [h]
      exact ⟨cfg, rfl, rfl, rfl⟩
    · split_ifs
      · exact ⟨cfg, rfl, rfl, rfl⟩
      · exact ⟨_, rfl, setPreload_other cfg s.key s.value⟩
      · exact ⟨_, rfl, setLog_other cfg s.key s.value⟩
      · exact ⟨cfg, rfl, rfl, rfl⟩

/-- The configuration after some settings, by what they declare. -/
def Shows (stod : Bytes → Option F) (ss : List Setting) (cfg : Config F) : Prop :=
  cfg.groups = table stod (kept (assignments ss)) ∧
    cfg.defaultMode = (defaultWords ss).getLast?.elim (ascii "pageout") defaultModeWord

theorem assignments_snoc (ss : List Setting) (s : Setting) :
    assignments (ss ++ [s]) = assignments ss ++ s.assignment.toList := by
  unfold assignments
  rw [List.filterMap_append]
  cases h : s.assignment <;> simp [h]

theorem defaultWords_snoc (ss : List Setting) (s : Setting) :
    defaultWords (ss ++ [s]) = defaultWords ss ++ s.defaultWord.toList := by
  unfold defaultWords
  rw [List.filterMap_append]
  cases h : s.defaultWord <;> simp [h]

theorem assignments_index_lt {ss : List Setting} {a : Assignment} (ha : a ∈ assignments ss) :
    a.index < 2 ^ 64 := by
  obtain ⟨s, _, hs⟩ := List.mem_filterMap.mp ha
  exact assignment_index_lt hs

/-- Some settings load when each of their group lines fits, and then the table and the
default mode are what they declare. -/
def Loads (stod : Bytes → Option F) (room : Nat) (ss : List Setting) : Prop :=
  match ss.foldlM (apply stod room) {} with
  | none => ¬ ∀ a ∈ assignments ss, a.Fits room
  | some cfg => (∀ a ∈ assignments ss, a.Fits room) ∧ Shows stod ss cfg

theorem Loads.snoc {stod : Bytes → Option F} {room : Nat} {ss : List Setting}
    (h : Loads stod room ss) (s : Setting) : Loads stod room (ss ++ [s]) := by
  unfold Loads at h ⊢
  rw [List.foldlM_append, assignments_snoc]
  cases hbefore : ss.foldlM (apply stod room) {} with
  | none =>
      rw [hbefore] at h
      intro hfits
      apply h
      intro a ha
      exact hfits a (List.mem_append_left _ ha)
  | some cfg =>
      rw [hbefore] at h
      have hl : ∀ b ∈ assignments ss, b.Fits room ∧ b.index < 2 ^ 64 := by
        intro b hb
        exact ⟨h.1 b hb, assignments_index_lt hb⟩
      simp only [Option.bind_eq_bind, Option.bind_some, List.foldlM_cons, List.foldlM_nil,
        Option.pure_def, Option.bind_fun_some]
      cases hs : s.assignment with
      | none =>
          obtain ⟨cfg', happly, hgroups, hmode⟩ := apply_other stod room cfg hs
          rw [happly, Option.toList_none, List.append_nil]
          refine ⟨h.1, ?_, ?_⟩
          · rw [hgroups, h.2.1, assignments_snoc, hs, Option.toList_none, List.append_nil]
          · rw [hmode, defaultWords_snoc, h.2.2]
            cases s.defaultWord <;> simp
      | some a =>
          obtain ⟨happly, hword⟩ := apply_assignment stod room cfg hs
          have hindex := assignment_index_lt hs
          rw [happly, h.2.1, Option.toList_some]
          by_cases hfits : a.Fits room
          · rw [setGroup_table stod hl hindex hfits, Option.map_some]
            refine ⟨?_, ?_, ?_⟩
            · intro b hb
              cases List.mem_append.mp hb with
              | inl hb => exact h.1 b hb
              | inr hb => exact List.mem_singleton.mp hb ▸ hfits
            · rw [assignments_snoc, hs, Option.toList_some]
            · rw [defaultWords_snoc, hword, Option.toList_none, List.append_nil]
              exact h.2.2
          · rw [setGroup_unfit stod hl hindex hfits, Option.map_none]
            intro hall
            exact hfits (hall a (by simp))

theorem loads (stod : Bytes → Option F) (room : Nat) (ss : List Setting) :
    Loads stod room ss := by
  induction ss using List.reverseRecOn with
  | nil => exact ⟨by simp [assignments], rfl, rfl⟩
  | append_singleton ss s ih => exact ih.snoc s

theorem load_spec (stod : Bytes → Option F) (room : Nat) (text : Bytes) :
    Config.load stod room (some text) = (settings text).foldlM (apply stod room) {} :=
  reloadLines_eq stod room (text.splitOn 10) [] {}

/-! ## The choice -/

/-- The search for the best group is a search over the indices of the table. -/
theorem bestGroup_map (f : Nat → GroupPolicy F) (bound : Nat) (P : Bytes) :
    bestGroup ((List.range bound).map f) P =
      (search (fun n => (f n).cgroupPrefix.isPrefixOf P) (fun n => (f n).cgroupPrefix.length)
        bound).map f := by
  induction bound with
  | zero => rfl
  | succ bound ih =>
      rw [search_succ, List.range_succ, List.map_append]
      unfold bestGroup at ih ⊢
      rw [List.foldl_append, ih]
      simp only [List.map_cons, List.map_nil, List.foldl_cons, List.foldl_nil, betterGroup, better]
      split
      · cases search _ _ bound with
        | none => rfl
        | some b =>
            simp only [Option.map_some]
            split <;> rfl
      · rfl

theorem lastValue_mem {fields : Bytes → Bool} {l : List Assignment} {n : Nat} {v : Bytes}
    (h : lastValue fields l n = some v) : ∃ a ∈ l, fields a.field ∧ a.value = v := by
  unfold lastValue at h
  obtain ⟨a, hlast, rfl⟩ := Option.map_eq_some_iff.mp h
  have hmem := List.mem_filter.mp (List.mem_of_getLast? hlast)
  simp only [decide_eq_true_eq] at hmem
  exact ⟨a, hmem.1, hmem.2.2, rfl⟩

theorem groupWordMode_eq (w : Bytes) :
    groupWordMode w = wordMode w ↔ lower w ≠ ascii "coldonly" := by
  unfold groupWordMode wordMode groupMode defaultModeWord
  by_cases hcold : lower w = ascii "cold"
  · rw [hcold]
    decide
  · by_cases honly : lower w = ascii "coldonly"
    · rw [honly]
      decide
    · have hdiff : ascii "pageout" ≠ ascii "cold" := by decide
      simp [hcold, honly, hdiff]

theorem selects_of_table {stod : Bytes → Option F} {l : List Assignment} {words : List Bytes}
    {cfg : Config F} (hgroups : cfg.groups = table stod l)
    (hmode : cfg.defaultMode = words.getLast?.elim (ascii "pageout") defaultModeWord)
    (hwords : ∀ a ∈ l, isModeField a.field → lower a.value ≠ ascii "coldonly")
    (ps : ProcessStat F) :
    Selects stod l (· < entryCount l) ⟨declaredDefault words, one⟩ ps.cgroup
      ⟨modeFor cfg ps, weightFor cfg ps⟩ := by
  have hbest := bestGroup_map (entry stod l) (entryCount l) ps.cgroup
  change bestGroup (table stod l) ps.cgroup =
    (search (fun n => (declaredPrefix l n).isPrefixOf ps.cgroup)
      (fun n => (declaredPrefix l n).length) (entryCount l)).map (entry stod l) at hbest
  unfold modeFor weightFor
  rw [hgroups, hbest]
  cases hfound : search (fun n => (declaredPrefix l n).isPrefixOf ps.cgroup)
      (fun n => (declaredPrefix l n).length) (entryCount l) with
  | none =>
      have hmiss := search_none hfound
      constructor
      · intro n hn
        have hhit := List.isPrefixOf_iff_prefix.mpr hn.hit.2
        rw [hmiss n hn.hit.1] at hhit
        cases hhit
      · intro _
        rw [Option.map_none, hmode]
        unfold declaredDefault
        cases words.getLast? with
        | none =>
            have hdiff : ascii "pageout" ≠ ascii "cold" := by decide
            simp [hdiff]
        | some w => rfl
  | some n =>
      have hn := search_some hfound
      have hmatch : declaredPrefix l n <+: ps.cgroup := List.isPrefixOf_iff_prefix.mp hn.hit.2
      constructor
      · intro m hm
        have hmn : m = n := by
          apply hm.unique
          apply hn.congr
          · exact ⟨hn.hit.1, hmatch⟩
          · intro k hk
            exact ⟨hk.1, List.isPrefixOf_iff_prefix.mpr hk.2⟩
        rw [hmn, Option.map_some]
        congr 1
        unfold entry declaredMode
        cases hword : lastValue isModeField l n with
        | none => rfl
        | some w =>
            obtain ⟨a, ha, hfield, rfl⟩ := lastValue_mem hword
            exact (groupWordMode_eq a.value).mpr (hwords a ha hfield)
      · intro hnone
        exact absurd hmatch (hnone n hn.hit.1)

theorem Selects.unique {stod : Bytes → Option F} {l : List Assignment} {groups : Nat → Prop}
    {dflt : Policy F} {P : Bytes} {p q : Policy F} {bound : Nat}
    (hbound : ∀ n, groups n → n < bound)
    (hp : Selects stod l groups dflt P p) (hq : Selects stod l groups dflt P q) : p = q := by
  by_cases hmatch : ∃ n, groups n ∧ declaredPrefix l n <+: P
  · obtain ⟨m, hm⟩ := hmatch
    obtain ⟨n, hn⟩ := exists_firstLongest (fun n => groups n ∧ declaredPrefix l n <+: P)
      (fun n => (declaredPrefix l n).length) (fun k hk => hbound k hk.1) hm
    rw [hp.1 n hn, hq.1 n hn]
  · have hnone : ∀ n, groups n → ¬ declaredPrefix l n <+: P := by
      intro n hn hprefix
      exact hmatch ⟨n, hn, hprefix⟩
    rw [hp.2 hnone, hq.2 hnone]

/-! ## When the declared policy is the one in use -/

theorem declared_lt {l : List Assignment} {n : Nat} (h : Declared l n) : n < entryCount l := by
  unfold Declared declaredPrefix at h
  cases hvalue : lastValue isPrefixField l n with
  | none => simp [hvalue] at h
  | some v =>
      unfold lastValue at hvalue
      obtain ⟨a, hlast, _⟩ := Option.map_eq_some_iff.mp hvalue
      have hmem := List.mem_filter.mp (List.mem_of_getLast? hlast)
      simp only [decide_eq_true_eq] at hmem
      rw [← hmem.2.1]
      exact index_lt_entryCount hmem.1

/-- The first entry that the text creates and gives no prefix. -/
structure FirstImplicit (l : List Assignment) (n : Nat) : Prop where
  entry : n < entryCount l
  implicit : ¬ Declared l n
  first : ∀ m < n, Declared l m

/-- The lines `rest` give `P` the mode and the weight that the lines `all` declare for it:
those of the group whose prefix counts, or the default ones. -/
structure SameChoice (stod : Bytes → Option F) (all rest : List Assignment) (dflt : Policy F)
    (P : Bytes) : Prop where
  group : ∀ n, FirstLongest (fun n => Declared all n ∧ declaredPrefix all n <+: P)
      (fun n => (declaredPrefix all n).length) n →
    (∀ m, FirstLongest (fun m => m < entryCount rest ∧ declaredPrefix rest m <+: P)
        (fun m => (declaredPrefix rest m).length) m →
      declaredMode rest m = declaredMode all n ∧
        declaredWeight stod rest m = declaredWeight stod all n) ∧
    ((∀ m < entryCount rest, ¬ declaredPrefix rest m <+: P) →
      dflt.mode = declaredMode all n ∧ dflt.weight = declaredWeight stod all n)
  none : (∀ n, Declared all n → ¬ declaredPrefix all n <+: P) →
    ∀ m, FirstLongest (fun m => m < entryCount rest ∧ declaredPrefix rest m <+: P)
        (fun m => (declaredPrefix rest m).length) m →
      declaredMode rest m = dflt.mode ∧ declaredWeight stod rest m = dflt.weight

/-- Two lists of lines select one policy exactly when they choose the same. -/
theorem sameChoice_iff {stod : Bytes → Option F} {all rest : List Assignment} {dflt : Policy F}
    {P : Bytes} :
    SameChoice stod all rest dflt P ↔
      ∃ policy, Selects stod rest (· < entryCount rest) dflt P policy ∧
        Selects stod all (Declared all) dflt P policy := by
  constructor
  · intro h
    by_cases hmatch : ∃ n, Declared all n ∧ declaredPrefix all n <+: P
    · obtain ⟨m, hm⟩ := hmatch
      obtain ⟨n, hn⟩ := exists_firstLongest (fun n => Declared all n ∧ declaredPrefix all n <+: P)
        (fun n => (declaredPrefix all n).length) (fun k hk => declared_lt hk.1) hm
      obtain ⟨hsame, hdefault⟩ := h.group n hn
      refine ⟨⟨declaredMode all n, declaredWeight stod all n⟩, ⟨fun m hm => ?_, fun hnone => ?_⟩,
        ⟨fun n' hn' => by rw [hn.unique hn'], fun hnone => ?_⟩⟩
      · rw [(hsame m hm).1, (hsame m hm).2]
      · rw [← (hdefault hnone).1, ← (hdefault hnone).2]
      · exact absurd hn.hit.2 (hnone n hn.hit.1)
    · have hnone : ∀ n, Declared all n → ¬ declaredPrefix all n <+: P :=
        fun n hn hprefix => hmatch ⟨n, hn, hprefix⟩
      refine ⟨dflt, ⟨fun m hm => ?_, fun _ => rfl⟩,
        ⟨fun n hn => absurd hn.hit.2 (hnone n hn.hit.1), fun _ => rfl⟩⟩
      rw [(h.none hnone m hm).1, (h.none hnone m hm).2]
  · rintro ⟨policy, hrest, hall⟩
    constructor
    · intro n hn
      have hpolicy := hall.1 n hn
      refine ⟨fun m hm => ?_, fun hnone => ?_⟩
      · have hsame := (hrest.1 m hm).symm.trans hpolicy
        exact ⟨congrArg Policy.mode hsame, congrArg Policy.weight hsame⟩
      · have hsame := (hrest.2 hnone).symm.trans hpolicy
        exact ⟨congrArg Policy.mode hsame, congrArg Policy.weight hsame⟩
    · intro hnone m hm
      have hsame := (hrest.1 m hm).symm.trans (hall.2 hnone)
      exact ⟨congrArg Policy.mode hsame, congrArg Policy.weight hsame⟩

/-- What a text has to be for a cgroup path `P`. -/
structure Plain (stod : Bytes → Option F) (room : Nat) (text : Bytes) (P : Bytes) : Prop where
  fits : ∀ a ∈ assignments (settings text), a.Fits room
  words : ∀ a ∈ assignments (settings text), isModeField a.field →
    lower a.value ≠ ascii "coldonly"
  implicit : (∀ a ∈ assignments (settings text), a.wraps = false) →
    (∀ n, Declared (assignments (settings text)) n →
      ¬ declaredPrefix (assignments (settings text)) n <+: P) →
    ∀ n, FirstImplicit (assignments (settings text)) n →
      declaredMode (assignments (settings text)) n =
          declaredDefault (defaultWords (settings text)) ∧
        declaredWeight stod (assignments (settings text)) n = one
  emptied : (∃ a ∈ assignments (settings text), a.wraps = true) →
    SameChoice stod (assignments (settings text)) (kept (assignments (settings text)))
      ⟨declaredDefault (defaultWords (settings text)), one⟩ P

section

variable {stod : Bytes → Option F} {l : List Assignment} {dflt : Policy F} {P : Bytes}
  {policy : Policy F}

theorem not_declared {n : Nat} (h : ¬ Declared l n) : declaredPrefix l n = [] :=
  Decidable.not_not.mp h

/-- Where no declared prefix matches, the first entry without one does. -/
theorem FirstImplicit.firstLongest {n : Nat} (h : FirstImplicit l n)
    (hnone : ∀ n, Declared l n → ¬ declaredPrefix l n <+: P) :
    FirstLongest (fun m => m < entryCount l ∧ declaredPrefix l m <+: P)
      (fun m => (declaredPrefix l m).length) n := by
  have hempty : ∀ m, m < entryCount l ∧ declaredPrefix l m <+: P → ¬ Declared l m := by
    intro m hm hdeclared
    exact hnone m hdeclared hm.2
  constructor
  · rw [not_declared h.implicit]
    exact ⟨h.entry, List.nil_prefix⟩
  · intro m hm
    rw [not_declared (hempty m hm)]
    exact Nat.zero_le _
  · intro m hm _
    by_contra hlt
    exact hempty m hm (h.first m (by omega))

theorem firstLongest_entry {n : Nat}
    (h : FirstLongest (fun m => Declared l m ∧ declaredPrefix l m <+: P)
      (fun m => (declaredPrefix l m).length) n) :
    FirstLongest (fun m => m < entryCount l ∧ declaredPrefix l m <+: P)
      (fun m => (declaredPrefix l m).length) n := by
  have hpos : 0 < (declaredPrefix l n).length := List.length_pos_iff.mpr h.hit.1
  constructor
  · exact ⟨declared_lt h.hit.1, h.hit.2⟩
  · intro m hm
    by_cases hdeclared : Declared l m
    · exact h.longest m ⟨hdeclared, hm.2⟩
    · rw [not_declared hdeclared]
      exact Nat.zero_le _
  · intro m hm hsize
    apply h.first m ⟨?_, hm.2⟩ hsize
    apply List.length_pos_iff.mp
    omega

/-- All entries select what the declared groups select when the first implicit one says
what the default says. -/
theorem selects_declared (hall : Selects stod l (· < entryCount l) dflt P policy)
    (himplicit : (∀ n, Declared l n → ¬ declaredPrefix l n <+: P) →
      ∀ n, FirstImplicit l n → (⟨declaredMode l n, declaredWeight stod l n⟩ : Policy F) = dflt) :
    Selects stod l (Declared l) dflt P policy := by
  constructor
  · intro n hn
    exact hall.1 n (firstLongest_entry hn)
  · intro hnone
    by_cases hmissing : ∃ n, n < entryCount l ∧ ¬ Declared l n
    · classical
      have hfirst : FirstImplicit l (Nat.find hmissing) := by
        have hspec := Nat.find_spec hmissing
        refine ⟨hspec.1, hspec.2, ?_⟩
        intro m hm
        have hmin := Nat.find_min hmissing hm
        by_contra hdeclared
        exact hmin ⟨by omega, hdeclared⟩
      rw [hall.1 _ (hfirst.firstLongest hnone)]
      exact himplicit hnone _ hfirst
    · apply hall.2
      intro n hn
      apply hnone n
      by_contra hdeclared
      exact hmissing ⟨n, hn, hdeclared⟩

theorem implicit_of_selects (hall : Selects stod l (· < entryCount l) dflt P policy)
    (hdeclared : Selects stod l (Declared l) dflt P policy)
    (hnone : ∀ n, Declared l n → ¬ declaredPrefix l n <+: P) {n : Nat}
    (hn : FirstImplicit l n) :
    (⟨declaredMode l n, declaredWeight stod l n⟩ : Policy F) = dflt := by
  rw [← hall.1 n (hn.firstLongest hnone)]
  exact hdeclared.2 hnone

end

/-- Of every text and every process: the policies in use are the declared ones exactly
when the text is plain for its cgroup. -/
theorem declared_applied_iff (stod : Bytes → Option F) (room : Nat) (text : Bytes)
    (ps : ProcessStat F) :
    DeclaredApplied stod room text ps ↔ Plain stod room text ps.cgroup := by
  have hload := load_spec stod room text
  have hloads := loads stod room (settings text)
  unfold Loads at hloads
  rw [← hload] at hloads
  constructor
  · intro happlied
    obtain ⟨cfg, hcfg, hdeclared⟩ := happlied.policy
    rw [hcfg] at hloads
    have hwords : ∀ a ∈ assignments (settings text), isModeField a.field →
        lower a.value ≠ ascii "coldonly" := by
      intro a ha hfield
      exact (groupWordMode_eq a.value).mp (happlied.words a ha hfield)
    have hall := selects_of_table hloads.2.1 hloads.2.2
      (fun a ha => hwords a (mem_kept ha).1) ps
    constructor
    · exact hloads.1
    · exact hwords
    · intro hkeep hnone n hn
      rw [kept_self hkeep] at hall
      have heq := implicit_of_selects hall hdeclared hnone hn
      exact ⟨congrArg Policy.mode heq, congrArg Policy.weight heq⟩
    · intro _
      exact sameChoice_iff.mpr ⟨_, hall, hdeclared⟩
  · intro hplain
    cases hcfg : Config.load stod room (some text) with
    | none =>
        rw [hcfg] at hloads
        exact absurd hplain.fits hloads
    | some cfg =>
        rw [hcfg] at hloads
        have hall := selects_of_table hloads.2.1 hloads.2.2
          (fun a ha => hplain.words a (mem_kept ha).1) ps
        constructor
        · refine ⟨cfg, hcfg, ?_⟩
          by_cases hempty : ∃ a ∈ assignments (settings text), a.wraps = true
          · obtain ⟨policy, hkept, hdeclared⟩ := sameChoice_iff.mp (hplain.emptied hempty)
            rw [hall.unique (fun n hn => hn) hkept]
            exact hdeclared
          · have hkeep : ∀ a ∈ assignments (settings text), a.wraps = false := by
              intro a ha
              by_contra hwraps
              exact hempty ⟨a, ha, by simpa using hwraps⟩
            rw [kept_self hkeep] at hall
            apply selects_declared hall
            intro hnone n hn
            have hsame := hplain.implicit hkeep hnone n hn
            rw [hsame.1, hsame.2]
        · intro a ha hfield
          exact (groupWordMode_eq a.value).mpr (hplain.words a ha hfield)

end

/-- A group table that starts at index 1, and a cold default. -/
def gapText : Bytes :=
  ascii "[engine]\ndefault_mode = cold\n[groups]\ngroup.1.prefix = /b\ngroup.1.mode = cold\n"

def gapProcess : ProcessStat ℚ := { pid := 1, cgroup := ascii "/a" }

/-- The entry at index 0, which no line declares, takes every process from the default. -/
theorem gap_overrides_default :
    ¬ DeclaredApplied (fun _ => none) 16 gapText gapProcess := by
  intro happlied
  obtain ⟨cfg, hcfg, hdeclared⟩ := happlied.policy
  have hmode : (Config.load (fun _ => none) 16 (some gapText)).map
      (fun cfg => modeFor cfg gapProcess) = some .pageout := by
    decide +kernel
  rw [hcfg, Option.map_some] at hmode
  have hlines : assignments (settings gapText) =
      [⟨1, ascii "prefix", ascii "/b"⟩, ⟨1, ascii "mode", ascii "cold"⟩] := by
    decide +kernel
  have hdefault : declaredDefault (defaultWords (settings gapText)) = .coldOnly := by
    decide +kernel
  have hnone : ∀ n, Declared (assignments (settings gapText)) n →
      ¬ declaredPrefix (assignments (settings gapText)) n <+: gapProcess.cgroup := by
    intro n hn
    have hone : n = 1 := by
      have hlt := declared_lt hn
      have hcount : entryCount (assignments (settings gapText)) = 2 := by
        rw [hlines]
        rfl
      by_contra hne
      have hzero : n = 0 := by omega
      rw [hzero, hlines] at hn
      exact absurd hn (by unfold Declared; decide)
    rw [hone, hlines]
    decide
  have hpolicy := congrArg Policy.mode (hdeclared.2 hnone)
  rw [hdefault] at hpolicy
  simp only [Option.some.inj hmode] at hpolicy
  cases hpolicy

end Memflux.Core
