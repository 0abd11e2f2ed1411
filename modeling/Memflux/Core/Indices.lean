import Memflux.Core.Reload

/-! # Group indices

Which lines of `[groups]` a reload gets to, with the table each of them finds, and when
the accesses `groups[idx]` stay inside it and no earlier policy is lost. The one index
that fails is the last of `size_t`, whose successor is zero.
-/

namespace Memflux.Core

open Double

section

variable {F : Type} [Double F]

/-- The table as `groups[idx]` finds it, after the resize; `none` where that throws. -/
def sized (room : Nat) (groups : List (GroupPolicy F)) (idx : Nat) :
    Option (List (GroupPolicy F)) :=
  if groups.length ≤ idx then resize room groups (u64 (idx + 1)) else some groups

/-- The lines of `[groups]` that a reload reaches, each with the table before it. -/
def groupLines (stod : Bytes → Option F) (room : Nat) :
    List Setting → Config F → List (List (GroupPolicy F) × Assignment)
  | [], _ => []
  | s :: ss, cfg =>
      s.assignment.toList.map (fun a => (cfg.groups, a)) ++
        match apply stod room cfg s with
        | none => []
        | some cfg' => groupLines stod room ss cfg'

/-- The line writes inside the table, and leaves it every entry, of which it changes at
most its own field of its own group. -/
structure SafeLine (stod : Bytes → Option F) (room : Nat) (groups : List (GroupPolicy F))
    (a : Assignment) : Prop where
  within : ∀ groups₁, sized room groups a.index = some groups₁ → isGroupField a.field = true →
    a.index < groups₁.length
  keeps : ∀ groups', setGroup stod room groups a.index a.field a.value = some groups' →
    groups.length ≤ groups'.length ∧
      ∀ i g, groups[i]? = some g →
        groups'[i]? = some (if a.index = i then g.setField stod a.field a.value else g)

/-- A line wraps only where there is nothing to lose and nothing to write: no groups to
start with, none made by the lines before it, and no field that it knows. -/
def Unwrapped (room : Nat) (groups : List (GroupPolicy F)) (l : List Assignment) : Prop :=
  ∀ l₁ a l₂, l = l₁ ++ a :: l₂ → (∀ b ∈ l₁, b.Fits room) → a.wraps = true →
    isGroupField a.field = false ∧ groups = [] ∧ ∀ b ∈ l₁, b.wraps = true

/-! ## One line -/

variable {stod : Bytes → Option F} {room : Nat} {groups : List (GroupPolicy F)} {a : Assignment}

theorem sized_wraps (hgroups : groups.length < 2 ^ 64) (ha : a.index < 2 ^ 64)
    (hwraps : a.wraps = true) : sized room groups a.index = some [] := by
  have hindex := (Assignment.wraps_index ha).1 hwraps
  unfold sized
  rw [if_pos (by omega), hindex]
  simp [resize, u64]

theorem setGroup_wraps (hgroups : groups.length < 2 ^ 64) (ha : a.index < 2 ^ 64)
    (hwraps : a.wraps = true) :
    setGroup stod room groups a.index a.field a.value =
      if isGroupField a.field then none else some [] := by
  have hsized : sized room groups a.index = some [] := sized_wraps hgroups ha hwraps
  show (sized room groups a.index).bind _ = _
  rw [hsized, Option.bind_some]
  rfl

theorem safeLine_of_next (hnext : u64 (a.index + 1) = a.index + 1) :
    SafeLine stod room groups a where
  within := by
    intro groups₁ hsized _
    unfold sized at hsized
    rw [grow_eq groups hnext] at hsized
    cases (Option.ite_none_left_eq_some.mp hsized).2
    rw [grown_length]
    omega
  keeps := by
    intro groups' hset
    obtain ⟨hlen, hentries⟩ := setGroup_spec hnext hset
    refine ⟨by omega, fun i g hg => ?_⟩
    obtain ⟨hi, hget⟩ := List.getElem?_eq_some_iff.mp hg
    have hi' : i < groups'.length := by omega
    have hentry := hentries i
    rw [List.getD_eq_getElem _ _ hi, List.getD_eq_getElem _ _ hi', hget] at hentry
    rw [List.getElem?_eq_getElem hi', hentry]

theorem safeLine_iff (hgroups : groups.length < 2 ^ 64) (ha : a.index < 2 ^ 64) :
    SafeLine stod room groups a ↔
      (a.wraps = true → isGroupField a.field = false ∧ groups = []) := by
  cases hwraps : a.wraps with
  | false =>
      have hnext := (Assignment.wraps_index ha).2 hwraps
      exact iff_of_true (safeLine_of_next hnext) fun h => absurd h Bool.false_ne_true
  | true =>
      have hset : setGroup stod room groups a.index a.field a.value =
          if isGroupField a.field then none else some [] := setGroup_wraps hgroups ha hwraps
      constructor
      · intro h _
        have hfield : isGroupField a.field = false := by
          by_contra hfield
          have hin := h.within [] (sized_wraps hgroups ha hwraps) (by simpa using hfield)
          exact Nat.not_lt_zero _ hin
        rw [hfield] at hset
        have hshrunk := (h.keeps [] hset).1
        exact ⟨hfield, List.length_eq_zero_iff.mp (Nat.le_zero.mp hshrunk)⟩
      · intro h
        obtain ⟨hfield, rfl⟩ := h rfl
        rw [hfield] at hset
        constructor
        · intro _ _ hwrites
          rw [hfield] at hwrites
          cases hwrites
        · intro groups' hset'
          rw [hset] at hset'
          cases hset'
          exact ⟨Nat.le_refl _, fun i g hg => by simp at hg⟩

/-! ## All lines -/

theorem Unwrapped.cons_iff {l : List Assignment} :
    Unwrapped room groups (a :: l) ↔
      (a.wraps = true → isGroupField a.field = false ∧ groups = []) ∧
        (a.Fits room → ∀ l₁ b l₂, l = l₁ ++ b :: l₂ → (∀ c ∈ l₁, c.Fits room) →
          b.wraps = true → isGroupField b.field = false ∧ groups = [] ∧ a.wraps = true ∧
            ∀ c ∈ l₁, c.wraps = true) := by
  constructor
  · intro h
    constructor
    · intro hwraps
      obtain ⟨hfield, hnone, -⟩ := h [] a l rfl (fun _ hb => absurd hb List.not_mem_nil) hwraps
      exact ⟨hfield, hnone⟩
    · intro hfits l₁ b l₂ hl hbefore hwraps
      have hfits₁ : ∀ c ∈ a :: l₁, c.Fits room := List.forall_mem_cons.mpr ⟨hfits, hbefore⟩
      obtain ⟨hfield, hnone, hall⟩ := h (a :: l₁) b l₂ (by rw [hl]; rfl) hfits₁ hwraps
      exact ⟨hfield, hnone, List.forall_mem_cons.mp hall⟩
  · rintro ⟨hfirst, hrest⟩ l₁ b l₂ hl hbefore hwraps
    cases l₁ with
    | nil =>
        obtain ⟨rfl, -⟩ := List.cons.inj hl
        obtain ⟨hfield, hnone⟩ := hfirst hwraps
        exact ⟨hfield, hnone, fun _ hc => absurd hc List.not_mem_nil⟩
    | cons c l₁ =>
        obtain ⟨rfl, htail⟩ := List.cons.inj hl
        obtain ⟨hfits, hbefore⟩ := List.forall_mem_cons.mp hbefore
        obtain ⟨hfield, hnone, hc, hall⟩ := hrest hfits l₁ b l₂ htail hbefore hwraps
        exact ⟨hfield, hnone, List.forall_mem_cons.mpr ⟨hc, hall⟩⟩

theorem unwrapped_of_groups {l : List Assignment} (hgroups : groups ≠ []) :
    Unwrapped room groups l ↔
      ∀ l₁ b l₂, l = l₁ ++ b :: l₂ → (∀ c ∈ l₁, c.Fits room) → b.wraps = false := by
  constructor
  · intro h l₁ b l₂ hl hbefore
    by_contra hwraps
    exact hgroups (h l₁ b l₂ hl hbefore (by simpa using hwraps)).2.1
  · intro h l₁ b l₂ hl hbefore hwraps
    rw [h l₁ b l₂ hl hbefore] at hwraps
    cases hwraps

theorem safeLines_iff (stod : Bytes → Option F) {room : Nat} (hroom : room < 2 ^ 64)
    {cfg : Config F} (hcfg : cfg.groups.length ≤ room) (ss : List Setting) :
    (∀ x ∈ groupLines stod room ss cfg, SafeLine stod room x.1 x.2) ↔
      Unwrapped room cfg.groups (assignments ss) := by
  induction ss generalizing cfg with
  | nil => exact iff_of_true (by simp [groupLines]) (by simp [Unwrapped, assignments])
  | cons s ss ih =>
      cases hs : s.assignment with
      | none =>
          obtain ⟨cfg', happly, hgroups, -⟩ := apply_other stod room cfg hs
          have hlines : assignments (s :: ss) = assignments ss := List.filterMap_cons_none hs
          rw [hlines, ← hgroups, ← ih (by rw [hgroups]; exact hcfg), groupLines, hs, happly]
          rfl
      | some a =>
          have ha := assignment_index_lt hs
          have hlines : assignments (s :: ss) = a :: assignments ss :=
            List.filterMap_cons_some hs
          have hsmall : cfg.groups.length < 2 ^ 64 := Nat.lt_of_le_of_lt hcfg hroom
          have hsafe : SafeLine stod room cfg.groups a ↔
              (a.wraps = true → isGroupField a.field = false ∧ cfg.groups = []) :=
            safeLine_iff hsmall ha
          obtain ⟨happly, -⟩ := apply_assignment stod room cfg hs
          rw [hlines, Unwrapped.cons_iff, ← hsafe, groupLines, hs, Option.toList_some,
            List.map_singleton, List.singleton_append, List.forall_mem_cons]
          apply and_congr_right
          intro hfirst
          by_cases hwraps : a.wraps = true
          · obtain ⟨hfield, hnone⟩ := hsafe.mp hfirst hwraps
            have hfits : a.Fits room := by rwa [Assignment.Fits, if_pos hwraps]
            have hset : setGroup stod room cfg.groups a.index a.field a.value =
                if isGroupField a.field then none else some [] := setGroup_wraps hsmall ha hwraps
            rw [hfield] at hset
            have hempty : apply stod room cfg s = some { cfg with groups := [] } := by
              rw [happly, hset]
              rfl
            rw [hempty]
            have hrest := @ih { cfg with groups := [] } (Nat.zero_le room)
            rw [hrest]
            unfold Unwrapped
            rw [hnone]
            simp only [hfits, hwraps, true_implies, true_and]
          · have hnext := (Assignment.wraps_index ha).2 (by simpa using hwraps)
            by_cases hin : a.index < room
            · have hfits : a.Fits room := by rwa [Assignment.Fits, if_neg hwraps]
              have hset := @setGroup_eq _ _ stod room cfg.groups _ a.field a.value hnext
              rw [if_neg (by omega)] at hset
              obtain ⟨hlen, -⟩ := setGroup_spec hnext hset
              rw [happly, hset, Option.map_some]
              refine (ih (by dsimp only; omega)).trans ?_
              have hsome : (grown cfg.groups a.index).modify a.index
                  (GroupPolicy.setField stod a.field a.value) ≠ [] := by
                apply List.ne_nil_of_length_pos
                omega
              rw [unwrapped_of_groups hsome]
              simp [hfits, hwraps]
            · have hfits : ¬ a.Fits room := by rwa [Assignment.Fits, if_neg hwraps]
              have hset := @setGroup_eq _ _ stod room cfg.groups _ a.field a.value hnext
              rw [if_pos (by omega)] at hset
              rw [happly, hset]
              exact iff_of_true (by simp) fun h => absurd h hfits

/-- Of a text and a configuration: every line that the reload reaches is safe exactly when
none wraps that has something to lose or to write. -/
theorem group_indices_safe_iff (stod : Bytes → Option F) {room : Nat} (hroom : room < 2 ^ 64)
    {cfg : Config F} (hcfg : cfg.groups.length ≤ room) (text : Bytes) :
    (∀ x ∈ groupLines stod room (settings text) cfg, SafeLine stod room x.1 x.2) ↔
      Unwrapped room cfg.groups (assignments (settings text)) :=
  safeLines_iff stod hroom hcfg (settings text)

end

/-- An index of -1 becomes the last one of `size_t`: the table is emptied and then written
at that index. -/
theorem wrapped_index_written :
    ¬ ∀ (text : Bytes) (cfg : Config ℚ), cfg.groups.length ≤ 16 →
      ∀ x ∈ groupLines (fun _ => none) 16 (settings text) cfg,
        SafeLine (fun _ => none) 16 x.1 x.2 := by
  intro h
  have hlines : assignments (settings (ascii "[groups]\ngroup.-1.prefix = /a\n")) =
      [⟨2 ^ 64 - 1, ascii "prefix", ascii "/a"⟩] := by
    decide +kernel
  have hsafe := (safeLines_iff (fun _ => none) (by decide) (Nat.zero_le 16) _).mp
    (h (ascii "[groups]\ngroup.-1.prefix = /a\n") {} (Nat.zero_le 16))
  rw [hlines] at hsafe
  have hfield := (hsafe [] _ [] rfl (fun _ hb => absurd hb List.not_mem_nil) (by decide)).1
  exact absurd hfield (by decide)

/-- Lines of one group, none of which wraps. -/
theorem gap_indices_safe :
    ({} : Config ℚ).groups.length ≤ 16 ∧
      ∀ x ∈ groupLines (fun _ => none) 16 (settings gapText) ({} : Config ℚ),
        SafeLine (fun _ => none) 16 x.1 x.2 := by
  refine ⟨Nat.zero_le 16,
    (group_indices_safe_iff (fun _ => none) (by decide) (Nat.zero_le 16) _).mpr ?_⟩
  intro l₁ a l₂ hl _ hwraps
  have hlines : assignments (settings gapText) =
      [⟨1, ascii "prefix", ascii "/b"⟩, ⟨1, ascii "mode", ascii "cold"⟩] := by
    decide +kernel
  have hnone : ∀ a ∈ assignments (settings gapText), a.wraps = false := by
    rw [hlines]
    decide +kernel
  rw [hnone a (by rw [hl]; simp)] at hwraps
  cases hwraps

end Memflux.Core
