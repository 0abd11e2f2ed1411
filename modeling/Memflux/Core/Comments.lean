import Memflux.Core.Uncomment

/-! # What comments change

A comment after a value reaches the conversions: numbers end before it, words and
prefixes do not. For every text this says when the configuration loads the same without
its comments.
-/

namespace Memflux.Core

open Double LastWins

/-! ## Conversions -/

/-- `std::stod` reads a number and does not look at what follows: text from a blank and a
`#` on makes no difference to it. -/
def StopsAtBlank {F : Type} (stod : Bytes → Option F) : Prop :=
  ∀ p bs rest : Bytes, bs ≠ [] → (∀ b ∈ bs, isBlank b = true) →
    stod (p ++ bs ++ 35 :: rest) = stod p

theorem stoull_stops : StopsAtBlank stoull := by
  intro p bs rest hsome hbs
  obtain ⟨b, bs', rfl⟩ := List.exists_cons_of_ne_nil hsome
  have hspace : ∀ c, isBlank c = true → isSpace c = true := by
    intro c hc
    unfold isBlank at hc
    unfold isSpace
    simp only [Bool.decide_or, Bool.or_eq_true, decide_eq_true_eq] at hc ⊢
    rcases hc with rfl | rfl | rfl | rfl <;> decide
  have hdigit : isDigit b = false := by
    have hb := hbs b List.mem_cons_self
    unfold isBlank at hb
    simp only [Bool.decide_or, Bool.or_eq_true, decide_eq_true_eq] at hb
    rcases hb with rfl | rfl | rfl | rfl <;> decide
  have hstop : ∀ x : Bytes, (x ++ (b :: bs' ++ 35 :: rest)).takeWhile isDigit =
      x.takeWhile isDigit := by
    intro x
    rw [List.takeWhile_append]
    split
    · rename_i hall
      rw [List.cons_append, List.takeWhile_cons_of_neg (by simp [hdigit]), List.append_nil]
      exact (List.takeWhile_prefix _).eq_of_length hall |>.symm
    · rfl
  unfold stoull
  dsimp only
  rw [List.append_assoc, List.dropWhile_append]
  cases ht : p.dropWhile isSpace with
  | nil =>
      have hskip : (b :: bs' ++ 35 :: rest).dropWhile isSpace = 35 :: rest := by
        rw [List.dropWhile_append_of_pos fun c hc => hspace c (hbs c hc),
          List.dropWhile_cons_of_neg (by decide)]
      rw [List.isEmpty_nil, if_pos rfl, hskip]
      rfl
  | cons c t =>
      rw [List.isEmpty_cons, if_neg Bool.false_ne_true, List.cons_append]
      simp only [List.head?_cons, List.tail_cons, Option.some.injEq]
      have hcons := hstop (c :: t)
      rw [List.cons_append] at hcons
      by_cases hsign : c = 43 ∨ c = 45
      · simp only [if_pos hsign, hstop]
      · simp only [if_neg hsign, hcons]

theorem commented_ne {v w : Bytes} (h : commented v = true) (hw : (35 : UInt8) ∉ w) :
    lower v ≠ w := by
  rintro rfl
  obtain ⟨b, rest, hsplit, -⟩ := commented_split h
  apply hw
  apply List.mem_map.mpr
  refine ⟨35, ?_, by decide⟩
  rw [hsplit]
  simp

/-! ## What comments change -/

def Assignment.uncomment (a : Assignment) : Assignment := { a with value := uncommented a.value }

/-- The scalars that are written as words other than `default_mode`. -/
def Scalar.isWord : Scalar → Bool
  | .enableHeapTrim | .enableCgroupReclaim | .enableKsm | .enableDamon | .dryRun | .logLevel => true
  | _ => false

section

variable {F : Type}

/-- The last value of the scalar that is accepted without its comment. -/
def Scalar.lastWord (stod : Bytes → Option F) (x : Scalar) (ss : List Setting) : Option Bytes :=
  (ss.filter fun s => x.assignedBy s && (x.read stod (uncommented s.value)).isSome).getLast?.map
    (·.value)

/-- The value of the last line that has no comment, or the default. -/
def Scalar.plain [Double F] (stod : Bytes → Option F) (x : Scalar) (ss : List Setting) : x.Val F :=
  (lastWrite (Scalar.writes stod) x (ss.filter fun s => !commented s.value)).getD (x.get {})

/-- The comments of a text that make no difference: none after the prefix of a group, none
after a mode that would be a cold one, and after no other word unless it says what the
lines without comments say. -/
structure CommentsHarmless [Double F] (stod : Bytes → Option F) (ss : List Setting) : Prop where
  prefixes : ∀ n v, lastValue isPrefixField (kept (assignments ss)) n = some v →
    commented v = false
  modes : ∀ n v, lastValue isModeField (kept (assignments ss)) n = some v →
    commented v = true → lower (uncommented v) ≠ ascii "cold"
  defaultMode : ∀ v, (defaultWords ss).getLast? = some v → commented v = true →
    lower (uncommented v) ≠ ascii "cold" ∧ lower (uncommented v) ≠ ascii "coldonly"
  words : ∀ x : Scalar, x.isWord = true → ∀ v, x.lastWord stod ss = some v →
    commented v = true → x.read stod (uncommented v) = some (x.plain stod ss)

/-! ### Scalars -/

theorem uncomment_assignedBy (x : Scalar) (s : Setting) :
    x.assignedBy s.uncomment = x.assignedBy s := rfl

theorem uncomment_value {x : Scalar} {s : Setting} (h : x.assignedBy s = true) :
    s.uncomment.value = uncommented s.value := by
  obtain ⟨-, hkey⟩ := of_decide_eq_true h
  have hbracket : s.key.head? ≠ some 91 := by
    rw [hkey]
    cases x <;> decide
  exact if_neg hbracket

theorem read_number {stod : Bytes → Option F} (hstod : StopsAtBlank stod) {x : Scalar}
    (hword : x.isWord = false) (hmode : x ≠ .defaultMode) {v : Bytes} (hv : trim v = v) :
    x.read stod (uncommented v) = x.read stod v := by
  have hunc : trim (uncommented v) = uncommented v := trim_trim _
  have hnumber : ∀ {β : Type} {f : Bytes → Option β}, StopsAtBlank f →
      f (trim (uncommented v)) = f (trim v) := by
    intro β f hf
    rw [hunc, hv]
    rcases uncommented_split hv with ⟨-, hsame⟩ | ⟨-, bs, rest, hsplit, hsome, hbs⟩
    · rw [hsame]
    · conv_rhs => rw [hsplit]
      exact (hf _ bs rest hsome hbs).symm
  cases x
  case intervalMs | maxTargets => exact congrArg (Option.map u32) (hnumber stoull_stops)
  case minReclaimableMb | maxReclaimMbPerCycle | trimAfterMb | freeBytes =>
    exact hnumber stoull_stops
  case psiThreshold | psiLow | minScore | anonRatioCap => exact hnumber hstod
  case defaultMode => exact absurd rfl hmode
  all_goals cases hword

theorem read_word (stod : Bytes → Option F) {x : Scalar} (hword : x.isWord = true) {v : Bytes}
    (hv : trim v = v) (hcomment : commented v = true) : x.read stod v = none := by
  have hne : ∀ w : String, (35 : UInt8) ∉ ascii w → lower v ≠ ascii w := fun w hw =>
    commented_ne hcomment hw
  have hbool : boolWord v = none := by
    unfold boolWord
    rw [hv]
    simp only [hne "1" (by decide), hne "true" (by decide), hne "yes" (by decide),
      hne "on" (by decide), hne "0" (by decide), hne "false" (by decide), hne "no" (by decide),
      hne "off" (by decide), or_self, if_false]
  have hlevel : levelWord v = none := by
    unfold levelWord
    simp only [hne "debug" (by decide), hne "info" (by decide), hne "warn" (by decide),
      hne "warning" (by decide), hne "error" (by decide), or_self, if_false]
  cases x
  case enableHeapTrim | enableCgroupReclaim | enableKsm | enableDamon | dryRun => exact hbool
  case logLevel => exact hlevel
  all_goals cases hword

theorem writes_uncomment (stod : Bytes → Option F) (x : Scalar) (s : Setting) :
    x.writes stod s.uncomment =
      if x.assignedBy s then x.read stod (uncommented s.value) else none := by
  unfold Scalar.writes
  rw [uncomment_assignedBy]
  by_cases hassigned : x.assignedBy s = true
  · rw [if_pos hassigned, if_pos hassigned, uncomment_value hassigned]
  · rw [if_neg hassigned, if_neg hassigned]

theorem lastWrite_number {stod : Bytes → Option F} (hstod : StopsAtBlank stod) {x : Scalar}
    (hword : x.isWord = false) (hmode : x ≠ .defaultMode) {ss : List Setting}
    (hss : ∀ s ∈ ss, trim s.value = s.value) :
    lastWrite (Scalar.writes stod) x (ss.map Setting.uncomment) =
      lastWrite (Scalar.writes stod) x ss := by
  unfold lastWrite
  rw [List.filterMap_map]
  congr 1
  apply List.filterMap_congr
  intro s hs
  rw [Function.comp_apply, writes_uncomment, read_number hstod hword hmode (hss s hs)]
  rfl

theorem lastWrite_plain (stod : Bytes → Option F) {x : Scalar} (hword : x.isWord = true)
    {ss : List Setting} (hss : ∀ s ∈ ss, trim s.value = s.value) :
    lastWrite (Scalar.writes stod) x (ss.filter fun s => !commented s.value) =
      lastWrite (Scalar.writes stod) x ss := by
  unfold lastWrite
  rw [List.filterMap_filter]
  congr 1
  apply List.filterMap_congr
  intro s hs
  cases hcomment : commented s.value with
  | false => rfl
  | true =>
      have hnone := read_word stod hword (hss s hs) hcomment
      unfold Scalar.writes
      rw [hnone, ite_self]
      rfl

/-- A word keeps its value when the last line accepted without its comment has none, or
says what the field gets anyway. -/
theorem lastWrite_word (stod : Bytes → Option F) {x : Scalar} (hword : x.isWord = true)
    {ss : List Setting} (hss : ∀ s ∈ ss, trim s.value = s.value) (dflt : x.Val F) :
    (lastWrite (Scalar.writes stod) x (ss.map Setting.uncomment)).getD dflt =
        (lastWrite (Scalar.writes stod) x ss).getD dflt ↔
      ∀ v, x.lastWord stod ss = some v → commented v = true →
        x.read stod (uncommented v) = some ((lastWrite (Scalar.writes stod) x ss).getD dflt) := by
  induction ss using List.reverseRecOn with
  | nil => exact iff_of_true rfl fun v hv => by cases hv
  | append_singleton ss s ih =>
      have hiff := ih fun s' hs' => hss s' (List.mem_append_left _ hs')
      have hv : trim s.value = s.value := hss s (by simp)
      have hwrite : x.writes stod s = if x.assignedBy s then x.read stod s.value else none := rfl
      rw [List.map_append, List.map_singleton, lastWrite_snoc, lastWrite_snoc, writes_uncomment,
        hwrite]
      unfold Scalar.lastWord at hiff ⊢
      rw [List.filter_append]
      cases hassigned : x.assignedBy s with
      | false => simpa [hassigned] using hiff
      | true =>
          rw [if_pos rfl, if_pos rfl]
          rcases uncommented_split hv with ⟨hplain, hsame⟩ | ⟨hcomment, -⟩
          · rw [hsame]
            cases hread : x.read stod s.value with
            | none => simpa [hassigned, hread, hsame] using hiff
            | some w => simp [hassigned, hread, hsame, hplain]
          · rw [read_word stod hword hv hcomment]
            cases hread : x.read stod (uncommented s.value) with
            | none => simpa [hassigned, hread] using hiff
            | some w => simp [hassigned, hread, hcomment]

/-! ### Groups -/

theorem assignment_uncomment (s : Setting) :
    s.uncomment.assignment = s.assignment.map Assignment.uncomment := by
  unfold Setting.assignment
  by_cases hsect : s.sect = ascii "groups"
  · have hsect' : s.uncomment.sect = ascii "groups" := hsect
    rw [if_pos hsect, if_pos hsect', Option.map_map]
    show (groupKey s.key).map _ = _
    cases hkey : groupKey s.key with
    | none => rfl
    | some key =>
        have hbracket : s.key.head? ≠ some 91 := by
          intro h
          unfold groupKey at hkey
          obtain ⟨hgroup, -⟩ := Option.ite_none_right_eq_some.mp hkey
          obtain ⟨rest, hrest⟩ := List.isPrefixOf_iff_prefix.mp hgroup
          rw [← hrest] at h
          cases h
        have hvalue : s.uncomment.value = uncommented s.value := if_neg hbracket
        rw [Option.map_some, Option.map_some, hvalue]
        rfl
  · have hsect' : s.uncomment.sect ≠ ascii "groups" := hsect
    rw [if_neg hsect, if_neg hsect']
    rfl

theorem assignments_uncomment (ss : List Setting) :
    assignments (ss.map Setting.uncomment) = (assignments ss).map Assignment.uncomment := by
  unfold assignments
  rw [List.filterMap_map, List.map_filterMap]
  apply List.filterMap_congr
  intro s _
  exact assignment_uncomment s

theorem kept_uncomment (l : List Assignment) :
    kept (l.map Assignment.uncomment) = (kept l).map Assignment.uncomment := by
  induction l using List.reverseRecOn with
  | nil => rfl
  | append_singleton l a ih =>
      have hwraps : a.uncomment.wraps = a.wraps := rfl
      rw [List.map_append, List.map_singleton, kept_snoc, kept_snoc, hwraps, ih]
      split
      · rfl
      · rw [List.map_append, List.map_singleton]

theorem entryCount_uncomment (l : List Assignment) :
    entryCount (l.map Assignment.uncomment) = entryCount l := by
  unfold entryCount
  rw [List.foldl_map]
  rfl

theorem lastValue_uncomment (fields : Bytes → Bool) (l : List Assignment) (n : Nat) :
    lastValue fields (l.map Assignment.uncomment) n = (lastValue fields l n).map uncommented := by
  unfold lastValue
  rw [List.filter_map, List.getLast?_map, Option.map_map, Option.map_map]
  rfl

/-! ### Entries -/

theorem declaredPrefix_uncomment {l : List Assignment} (hl : ∀ a ∈ l, trim a.value = a.value)
    (n : Nat) :
    declaredPrefix (l.map Assignment.uncomment) n = declaredPrefix l n ↔
      ∀ v, lastValue isPrefixField l n = some v → commented v = false := by
  unfold declaredPrefix
  rw [lastValue_uncomment]
  cases hlast : lastValue isPrefixField l n with
  | none => simp
  | some v =>
      obtain ⟨a, ha, -, rfl⟩ := lastValue_mem hlast
      have hv := hl a ha
      simp only [Option.map_some, Option.getD_some, Option.some.injEq, forall_eq']
      rw [uncommented, trim_trim, hv]
      rcases uncommented_split hv with ⟨hplain, hsame⟩ | ⟨hcomment, bs, rest, hsplit, -⟩
      · exact iff_of_true hsame hplain
      · refine iff_of_false (fun h => ?_) (by simp [hcomment])
        have hlen := congrArg List.length hsplit
        rw [List.length_append, List.length_append, List.length_cons] at hlen
        have hlen' := congrArg List.length h
        rw [uncommented] at hlen
        omega

theorem groupMode_uncomment {v : Bytes} (hv : trim v = v) :
    groupMode (uncommented v) = groupMode v ↔
      (commented v = true → lower (uncommented v) ≠ ascii "cold") := by
  rcases uncommented_split hv with ⟨hplain, hsame⟩ | ⟨hcomment, -⟩
  · rw [hsame, hplain]
    exact iff_of_true rfl fun h => by cases h
  · have hne : lower v ≠ ascii "cold" := commented_ne hcomment (by decide)
    unfold groupMode
    rw [if_neg hne]
    by_cases hcold : lower (uncommented v) = ascii "cold"
    · simp [hcold, hcomment]
    · simp [hcold]

theorem defaultModeWord_uncomment {v : Bytes} (hv : trim v = v) :
    defaultModeWord (uncommented v) = defaultModeWord v ↔
      (commented v = true →
        lower (uncommented v) ≠ ascii "cold" ∧ lower (uncommented v) ≠ ascii "coldonly") := by
  have hdiff : ascii "cold" ≠ ascii "pageout" := by decide
  rcases uncommented_split hv with ⟨hplain, hsame⟩ | ⟨hcomment, -⟩
  · rw [hsame, hplain]
    exact iff_of_true rfl fun h => by cases h
  · have hcold : lower v ≠ ascii "cold" := commented_ne hcomment (by decide)
    have honly : lower v ≠ ascii "coldonly" := commented_ne hcomment (by decide)
    unfold defaultModeWord
    rw [if_neg (not_or.mpr ⟨hcold, honly⟩)]
    by_cases hword : lower (uncommented v) = ascii "cold" ∨ lower (uncommented v) = ascii "coldonly"
    · rw [if_pos hword]
      refine iff_of_false hdiff fun h => ?_
      rcases hword with hword | hword
      · exact (h hcomment).1 hword
      · exact (h hcomment).2 hword
    · rw [if_neg hword]
      exact iff_of_true rfl fun _ => not_or.mp hword

variable [Double F]

theorem declaredWeight_uncomment {stod : Bytes → Option F} (hstod : StopsAtBlank stod)
    {l : List Assignment} (hl : ∀ a ∈ l, trim a.value = a.value) (n : Nat) :
    declaredWeight stod (l.map Assignment.uncomment) n = declaredWeight stod l n := by
  unfold declaredWeight
  rw [lastValue_uncomment]
  cases hlast : lastValue isWeightField l n with
  | none => rfl
  | some v =>
      obtain ⟨a, ha, -, rfl⟩ := lastValue_mem hlast
      have hread := read_number (x := .psiLow) hstod rfl (by decide) (hl a ha)
      exact congrArg (fun w : Option F => w.getD one) hread

theorem entry_uncomment {stod : Bytes → Option F} (hstod : StopsAtBlank stod)
    {l : List Assignment} (hl : ∀ a ∈ l, trim a.value = a.value) (n : Nat) :
    entry stod (l.map Assignment.uncomment) n = entry stod l n ↔
      (∀ v, lastValue isPrefixField l n = some v → commented v = false) ∧
        ∀ v, lastValue isModeField l n = some v → commented v = true →
          lower (uncommented v) ≠ ascii "cold" := by
  have hmode : (lastValue isModeField (l.map Assignment.uncomment) n).elim 0 groupMode =
        (lastValue isModeField l n).elim 0 groupMode ↔
      ∀ v, lastValue isModeField l n = some v → commented v = true →
        lower (uncommented v) ≠ ascii "cold" := by
    rw [lastValue_uncomment]
    cases hlast : lastValue isModeField l n with
    | none => simp
    | some v =>
        obtain ⟨a, ha, -, rfl⟩ := lastValue_mem hlast
        simp only [Option.map_some, Option.elim_some, Option.some.injEq, forall_eq']
        exact groupMode_uncomment (hl a ha)
  unfold entry
  rw [GroupPolicy.mk.injEq, declaredPrefix_uncomment hl, declaredWeight_uncomment hstod hl, hmode]
  simp

theorem lastValue_beyond {fields : Bytes → Bool} {l : List Assignment} {n : Nat}
    (hn : entryCount l ≤ n) : lastValue fields l n = none := by
  apply lastValue_none
  rintro a ha rfl
  exact Nat.not_lt.mpr hn (index_lt_entryCount ha)

theorem table_uncomment {stod : Bytes → Option F} (hstod : StopsAtBlank stod)
    {l : List Assignment} (hl : ∀ a ∈ l, trim a.value = a.value) :
    table stod (l.map Assignment.uncomment) = table stod l ↔
      (∀ n v, lastValue isPrefixField l n = some v → commented v = false) ∧
        ∀ n v, lastValue isModeField l n = some v → commented v = true →
          lower (uncommented v) ≠ ascii "cold" := by
  have hentries : table stod (l.map Assignment.uncomment) = table stod l ↔
      ∀ n < entryCount l, entry stod (l.map Assignment.uncomment) n = entry stod l n := by
    unfold table
    rw [entryCount_uncomment]
    constructor
    · intro h n hn
      exact List.map_inj_left.mp h n (List.mem_range.mpr hn)
    · intro h
      exact List.map_inj_left.mpr fun n hn => h n (List.mem_range.mp hn)
  rw [hentries]
  constructor
  · intro h
    constructor
    · intro n v hv
      by_cases hn : n < entryCount l
      · exact ((entry_uncomment hstod hl n).mp (h n hn)).1 v hv
      · rw [lastValue_beyond (Nat.le_of_not_lt hn)] at hv
        cases hv
    · intro n v hv
      by_cases hn : n < entryCount l
      · exact ((entry_uncomment hstod hl n).mp (h n hn)).2 v hv
      · rw [lastValue_beyond (Nat.le_of_not_lt hn)] at hv
        cases hv
  · intro h n _
    exact (entry_uncomment hstod hl n).mpr ⟨h.1 n, h.2 n⟩

/-! ### The configuration -/

theorem defaultWords_uncomment (ss : List Setting) :
    defaultWords (ss.map Setting.uncomment) = (defaultWords ss).map uncommented := by
  unfold defaultWords
  rw [List.filterMap_map, List.map_filterMap]
  apply List.filterMap_congr
  intro s _
  rw [Function.comp_apply]
  unfold Setting.defaultWord
  by_cases hs : s.sect = ascii "engine" ∧ s.key = ascii "default_mode"
  · have hs' : s.uncomment.sect = ascii "engine" ∧ s.uncomment.key = ascii "default_mode" := hs
    have hbracket : s.key.head? ≠ some 91 := by
      rw [hs.2]
      decide
    have hvalue : s.uncomment.value = uncommented s.value := if_neg hbracket
    rw [if_pos hs, if_pos hs', hvalue]
    rfl
  · have hs' : ¬ (s.uncomment.sect = ascii "engine" ∧ s.uncomment.key = ascii "default_mode") := hs
    rw [if_neg hs, if_neg hs']
    rfl

/-- Two configurations are the same when their groups, their default mode, their words and
their numbers are. -/
theorem config_eq_iff {cfg cfg' : Config F} :
    cfg' = cfg ↔ cfg'.groups = cfg.groups ∧ cfg'.defaultMode = cfg.defaultMode ∧
      (∀ x : Scalar, x.isWord = true → x.get cfg' = x.get cfg) ∧
      ∀ x : Scalar, x.isWord = false → x ≠ .defaultMode → x.get cfg' = x.get cfg := by
  constructor
  · rintro rfl
    exact ⟨rfl, rfl, fun _ _ => rfl, fun _ _ _ => rfl⟩
  · rintro ⟨hgroups, hmode, hwords, hnumbers⟩
    apply Config.ext_fields
    · intro x
      cases x with
      | scalar x =>
          by_cases hx : x = .defaultMode
          · rw [hx]
            exact hmode
          · cases hword : x.isWord with
            | true => exact hwords x hword
            | false => exact hnumbers x hword hx
      | group n part =>
          show part.get (cfg'.groups.getD n {}) = part.get (cfg.groups.getD n {})
          rw [hgroups]
    · rw [hgroups]

theorem kept_trimmed {ss : List Setting} (hss : ∀ s ∈ ss, trim s.value = s.value) :
    ∀ a ∈ kept (assignments ss), trim a.value = a.value := by
  intro a ha
  obtain ⟨s, hs, hsa⟩ := List.mem_filterMap.mp (mem_kept ha).1
  unfold Setting.assignment at hsa
  obtain ⟨-, hkey⟩ := Option.ite_none_right_eq_some.mp hsa
  obtain ⟨_, -, rfl⟩ := Option.map_eq_some_iff.mp hkey
  exact hss s hs

theorem shown_uncomment {stod : Bytes → Option F} {ss : List Setting} {cfg cfg' : Config F}
    (hss : ∀ s ∈ ss, trim s.value = s.value) (h : Shows stod ss cfg)
    (h' : Shows stod (ss.map Setting.uncomment) cfg') :
    cfg'.defaultMode = cfg.defaultMode ↔
      ∀ v, (defaultWords ss).getLast? = some v → commented v = true →
        lower (uncommented v) ≠ ascii "cold" ∧ lower (uncommented v) ≠ ascii "coldonly" := by
  rw [h'.2, h.2, defaultWords_uncomment, List.getLast?_map]
  cases hlast : (defaultWords ss).getLast? with
  | none => simp
  | some v =>
      obtain ⟨s, hs, hsv⟩ := List.mem_filterMap.mp (List.mem_of_getLast? hlast)
      unfold Setting.defaultWord at hsv
      obtain ⟨-, hvalue⟩ := Option.ite_none_right_eq_some.mp hsv
      cases hvalue
      simp only [Option.map_some, Option.elim_some, Option.some.injEq, forall_eq']
      exact defaultModeWord_uncomment (hss s hs)

/-- Two configurations, one read without the comments, are the same exactly when the
comments are harmless. -/
theorem config_uncomment_iff {stod : Bytes → Option F} (hstod : StopsAtBlank stod) {room : Nat}
    {ss : List Setting} (hss : ∀ s ∈ ss, trim s.value = s.value) {cfg cfg' : Config F}
    (hrun : ss.foldlM (apply stod room) {} = some cfg) (hshows : Shows stod ss cfg)
    (hrun' : (ss.map Setting.uncomment).foldlM (apply stod room) {} = some cfg')
    (hshows' : Shows stod (ss.map Setting.uncomment) cfg') :
    cfg' = cfg ↔ CommentsHarmless stod ss := by
  have htyped : Config.Typed ({} : Config F) := Config.typed_default
  have hassigned := scalars_assigned stod room
  have hget := (hassigned.run (fun _ _ => trivial) htyped hrun).2
  have hget' := (hassigned.run (fun _ _ => trivial) htyped hrun').2
  have hgroups := table_uncomment hstod (kept_trimmed hss)
  rw [← kept_uncomment, ← assignments_uncomment, ← hshows'.1, ← hshows.1] at hgroups
  have hwords : ∀ x : Scalar, x.isWord = true → (x.get cfg' = x.get cfg ↔
      ∀ v, x.lastWord stod ss = some v → commented v = true →
        x.read stod (uncommented v) = some (x.plain stod ss)) := by
    intro x hx
    have hiff := lastWrite_word stod hx hss (x.get ({} : Config F))
    rw [hget' x, hget x, Scalar.plain, lastWrite_plain stod hx hss]
    exact hiff
  have hnumbers : ∀ x : Scalar, x.isWord = false → x ≠ .defaultMode →
      x.get cfg' = x.get cfg := by
    intro x hx hne
    rw [hget' x, hget x, lastWrite_number hstod hx hne hss]
  rw [config_eq_iff, hgroups, shown_uncomment hss hshows hshows']
  constructor
  · rintro ⟨⟨hpattern, hmodes⟩, hdefault, hword, -⟩
    exact ⟨hpattern, hmodes, hdefault, fun x hx => (hwords x hx).mp (hword x hx)⟩
  · intro hharmless
    exact ⟨⟨hharmless.prefixes, hharmless.modes⟩, hharmless.defaultMode,
      fun x hx => (hwords x hx).mpr (hharmless.words x hx), hnumbers⟩

/-- Of a text: without its comments it loads as the same configuration exactly when it does
not load or its comments are harmless. -/
theorem load_uncomment_iff {stod : Bytes → Option F} (hstod : StopsAtBlank stod) (room : Nat)
    (text : Bytes) :
    Config.load stod room (some (uncomment text)) = Config.load stod room (some text) ↔
      ((∀ a ∈ assignments (settings text), a.Fits room) →
        CommentsHarmless stod (settings text)) := by
  have hss : ∀ s ∈ settings text, trim s.value = s.value := fun s hs => settingsFrom_trimmed hs
  rw [load_spec, load_spec, settings_uncomment]
  generalize settings text = ss at hss
  have hloads := loads stod room ss
  have hloads' := loads stod room (ss.map Setting.uncomment)
  unfold Loads at hloads hloads'
  have hfits : (∀ a ∈ assignments (ss.map Setting.uncomment), a.Fits room) ↔
      ∀ a ∈ assignments ss, a.Fits room := by
    rw [assignments_uncomment, List.forall_mem_map]
    rfl
  cases hrun : ss.foldlM (apply stod room) {} with
  | none =>
      rw [hrun] at hloads
      cases hrun' : (ss.map Setting.uncomment).foldlM (apply stod room) {} with
      | none => exact iff_of_true rfl fun h => absurd h hloads
      | some cfg' =>
          rw [hrun'] at hloads'
          exact absurd (hfits.mp hloads'.1) hloads
  | some cfg =>
      rw [hrun] at hloads
      cases hrun' : (ss.map Setting.uncomment).foldlM (apply stod room) {} with
      | none =>
          rw [hrun'] at hloads'
          exact absurd (hfits.mpr hloads.1) hloads'
      | some cfg' =>
          rw [hrun'] at hloads'
          rw [Option.some.injEq, config_uncomment_iff hstod hss hrun hloads.2 hrun' hloads'.2]
          constructor
          · intro hharmless _
            exact hharmless
          · intro h
            exact h hloads.1

end

/-- A prefix with a comment, as the shipped configuration has them. -/
def prefixText : Bytes := ascii "[groups]\ngroup.0.prefix = /a # root\n"

/-- The comment becomes a part of the prefix. -/
theorem prefix_keeps_comment :
    ¬ ∀ (stod : Bytes → Option ℚ) (room : Nat) (text : Bytes), StopsAtBlank stod →
      Config.load stod room (some (uncomment text)) = Config.load stod room (some text) := by
  intro h
  have hstod : StopsAtBlank fun _ => (none : Option ℚ) := fun _ _ _ _ _ => rfl
  have hprefixes := congrArg
    (Option.map fun cfg : Config ℚ => cfg.groups.map GroupPolicy.cgroupPrefix)
    (h _ 16 prefixText hstod)
  exact absurd hprefixes (by decide +kernel)

/-- A comment line, and a comment after a number. -/
def numberText : Bytes :=
  ascii "[engine]\n; targets\nmax_targets = 5 # five\n[groups]\ngroup.0.prefix = /a\n"

theorem number_ignores_comment :
    Config.load (fun _ => (none : Option ℚ)) 16 (some (uncomment numberText)) =
      Config.load (fun _ => none) 16 (some numberText) := by
  have hlines : assignments (settings numberText) = [⟨0, ascii "prefix", ascii "/a"⟩] := by
    decide +kernel
  have hwords : defaultWords (settings numberText) = [] := by decide +kernel
  apply (load_uncomment_iff (fun _ _ _ _ _ => rfl) 16 numberText).mpr
  intro _
  constructor
  · intro n v hv
    obtain ⟨a, ha, -, rfl⟩ := lastValue_mem hv
    have hmem := (mem_kept ha).1
    rw [hlines] at hmem
    rw [List.mem_singleton.mp hmem]
    decide
  · intro n v hv
    obtain ⟨a, ha, hfield, rfl⟩ := lastValue_mem hv
    have hmem := (mem_kept ha).1
    rw [hlines] at hmem
    rw [List.mem_singleton.mp hmem] at hfield
    exact absurd hfield (by decide)
  · intro v hv
    rw [hwords] at hv
    cases hv
  · intro x hx v hv
    have hnone : x.lastWord (fun _ => (none : Option ℚ)) (settings numberText) = none := by
      cases x
      case enableHeapTrim | enableCgroupReclaim | enableKsm | enableDamon | dryRun | logLevel =>
        decide +kernel
      all_goals cases hx
    rw [hnone] at hv
    cases hv

end Memflux.Core
