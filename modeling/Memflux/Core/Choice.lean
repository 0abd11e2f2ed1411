import Memflux.Lib.LongestMatch
import Memflux.Core.Config

/-! # The choice of a group

The loops of `mode_for` and `weight_for`, each written out as in the source, with the
pointer `best` as the group it points to and its place in the configuration. Both find
the first of the groups with the longest prefix of the cgroup, and neither the order of
groups with different prefixes nor a group that cannot win changes what they find.
-/

namespace Memflux.Core

open Double LongestMatch

/-- `s.rfind(t, pos)`: the last place not after `pos` at which `t` occurs in `s`. -/
def rfind (s t : Bytes) (pos : Nat) : Option Nat :=
  (List.range (pos + 1)).reverse.find? fun i => decide (i ≤ s.length) && t.isPrefixOf (s.drop i)

theorem rfind_start (s t : Bytes) : rfind s t 0 = some 0 ↔ t.isPrefixOf s = true := by
  simp [rfind, List.range_succ]

section

variable {F : Type} [Double F]

/-- A `const GroupPolicy*` into the groups: the group and its place. -/
abbrev GroupRef (F : Type) [Double F] := GroupPolicy F × Nat

/-! ## The two loops -/

/-- The body of the loop in `mode_for`. -/
def modeForStep (cgroup : Bytes) (best : Option (GroupRef F)) (g : GroupRef F) :
    Option (GroupRef F) :=
  if rfind cgroup g.1.cgroupPrefix 0 = some 0 then
    if best.all fun b => g.1.cgroupPrefix.length > b.1.cgroupPrefix.length then some g else best
  else best

def modeForBest (groups : List (GroupPolicy F)) (cgroup : Bytes) : Option (GroupRef F) :=
  groups.zipIdx.foldl (modeForStep cgroup) none

/-- What `mode_for` returns once the loop is done. -/
def modeForReturn (cfg : Config F) (best : Option (GroupRef F)) : ReclaimMode :=
  match best with
  | some b => if b.1.mode = 1 then .coldOnly else .pageout
  | none => if cfg.defaultMode = ascii "cold" then .coldOnly else .pageout

/-- The body of the loop in `weight_for`. -/
def weightForStep (cgroup : Bytes) (best : Option (GroupRef F)) (g : GroupRef F) :
    Option (GroupRef F) :=
  if rfind cgroup g.1.cgroupPrefix 0 = some 0 then
    if best.all fun b => g.1.cgroupPrefix.length > b.1.cgroupPrefix.length then some g else best
  else best

def weightForBest (groups : List (GroupPolicy F)) (cgroup : Bytes) : Option (GroupRef F) :=
  groups.zipIdx.foldl (weightForStep cgroup) none

/-- What `weight_for` returns: `w` is 1 unless the loop found a group. -/
def weightForReturn (best : Option (GroupRef F)) : F :=
  match best with
  | some b => b.1.weight
  | none => one

/-! ## What they promise -/

/-- A group of the list at place `n` that matches, of those with the longest prefix the
first. -/
def LongestMatchAt (groups : List (GroupPolicy F)) (cgroup : Bytes) (n : Nat) : Prop :=
  FirstLongest (HitAt (fun g => g.cgroupPrefix <+: cgroup) groups)
    (sizeAt (fun g => g.cgroupPrefix.length) groups) n

/-- The choice for a cgroup, over all lists of groups. -/
structure PolicyChoice (F : Type) [Double F] (cgroup : Bytes) : Prop where
  same : ∀ groups : List (GroupPolicy F), weightForBest groups cgroup = modeForBest groups cgroup
  mode : ∀ (cfg : Config F) (ps : ProcessStat F), ps.cgroup = cgroup →
    modeFor cfg ps = modeForReturn cfg (modeForBest cfg.groups cgroup)
  weight : ∀ (cfg : Config F) (ps : ProcessStat F), ps.cgroup = cgroup →
    weightFor cfg ps = weightForReturn (weightForBest cfg.groups cgroup)
  chosen : ∀ (groups : List (GroupPolicy F)) (g : GroupPolicy F) (n : Nat),
    modeForBest groups cgroup = some (g, n) ↔
      groups[n]? = some g ∧ LongestMatchAt groups cgroup n
  nothing : ∀ groups : List (GroupPolicy F),
    modeForBest groups cgroup = none ↔ ∀ g ∈ groups, ¬ g.cgroupPrefix <+: cgroup
  permuted : ∀ groups groups' : List (GroupPolicy F), (groups.map (·.cgroupPrefix)).Nodup →
    groups'.Perm groups →
      (modeForBest groups' cgroup).map Prod.fst = (modeForBest groups cgroup).map Prod.fst
  /-- The group chosen is the same one: it only moves by a place if it stands behind `g`. -/
  inserted : ∀ (l r : List (GroupPolicy F)) (g : GroupPolicy F), ¬ g.cgroupPrefix <+: cgroup →
    modeForBest (l ++ g :: r) cgroup =
      (modeForBest (l ++ r) cgroup).map fun b => (b.1, shifted l.length b.2)
  added : ∀ (l r : List (GroupPolicy F)) (g b : GroupPolicy F), g.cgroupPrefix <+: cgroup →
    b ∈ l ++ r → b.cgroupPrefix <+: cgroup →
      g.cgroupPrefix.length < b.cgroupPrefix.length →
        modeForBest (l ++ g :: r) cgroup =
          (modeForBest (l ++ r) cgroup).map fun b => (b.1, shifted l.length b.2)

/-! ## The loops as a search -/

def matchesPath (cgroup : Bytes) (g : GroupPolicy F) : Bool := g.cgroupPrefix.isPrefixOf cgroup

def prefixSize (g : GroupPolicy F) : Nat := g.cgroupPrefix.length

theorem guarded_improve (cgroup : Bytes) (best : Option (GroupRef F)) (g : GroupRef F) :
    (if rfind cgroup g.1.cgroupPrefix 0 = some 0 then
      if best.all fun b => g.1.cgroupPrefix.length > b.1.cgroupPrefix.length then some g else best
    else best) = improve (matchesPath cgroup) prefixSize best g := by
  unfold improve
  simp only [rfind_start, matchesPath, prefixSize]
  cases best with
  | none => simp
  | some b => simp

theorem modeForBest_eq (groups : List (GroupPolicy F)) (cgroup : Bytes) :
    modeForBest groups cgroup = choose (matchesPath cgroup) prefixSize groups := by
  unfold modeForBest choose
  congr 1
  funext best g
  exact guarded_improve cgroup best g

theorem weightForBest_eq (groups : List (GroupPolicy F)) (cgroup : Bytes) :
    weightForBest groups cgroup = choose (matchesPath cgroup) prefixSize groups := by
  unfold weightForBest choose
  congr 1
  funext best g
  exact guarded_improve cgroup best g

theorem bestGroup_eq (groups : List (GroupPolicy F)) (cgroup : Bytes) :
    bestGroup groups cgroup = (choose (matchesPath cgroup) prefixSize groups).map Prod.fst := by
  induction groups using List.reverseRecOn with
  | nil => rfl
  | append_singleton groups g ih =>
      rw [choose_snoc]
      unfold bestGroup at ih ⊢
      rw [List.foldl_append, ih, List.foldl_cons, List.foldl_nil]
      unfold betterGroup improve matchesPath prefixSize
      by_cases hmatch : g.cgroupPrefix.isPrefixOf cgroup = true
      · rw [if_pos hmatch, if_pos hmatch]
        cases choose _ _ groups with
        | none => rfl
        | some b =>
            simp only [Option.map_some]
            split <;> rfl
      · rw [if_neg hmatch, if_neg hmatch]

theorem longestMatchAt_iff {groups : List (GroupPolicy F)} {cgroup : Bytes} {n : Nat} :
    FirstLongest (HitAt (fun g => matchesPath cgroup g = true) groups)
      (sizeAt prefixSize groups) n ↔ LongestMatchAt groups cgroup n := by
  unfold LongestMatchAt matchesPath prefixSize
  simp only [List.isPrefixOf_iff_prefix]

/-- Matching groups with prefixes of one length have the same prefix. -/
theorem eq_of_matches {cgroup : Bytes} {a b : GroupPolicy F} (ha : matchesPath cgroup a = true)
    (hb : matchesPath cgroup b = true) (hsize : prefixSize a = prefixSize b) :
    a.cgroupPrefix = b.cgroupPrefix := by
  have hpa : a.cgroupPrefix <+: cgroup := List.isPrefixOf_iff_prefix.mp ha
  have hpb : b.cgroupPrefix <+: cgroup := List.isPrefixOf_iff_prefix.mp hb
  have hle : a.cgroupPrefix <+: b.cgroupPrefix := List.prefix_of_prefix_length_le hpa hpb hsize.le
  exact hle.eq_of_length hsize

theorem modeForBest_perm {groups groups' : List (GroupPolicy F)} {cgroup : Bytes}
    (hnodup : (groups.map (·.cgroupPrefix)).Nodup) (hperm : groups'.Perm groups) :
    (modeForBest groups' cgroup).map Prod.fst = (modeForBest groups cgroup).map Prod.fst := by
  rw [modeForBest_eq, modeForBest_eq]
  apply choose_fst_perm hperm
  intro a ha b hb hahit hbhit hsize
  exact List.inj_on_of_nodup_map hnodup ha hb (eq_of_matches hahit hbhit hsize)

theorem modeForBest_insert {l r : List (GroupPolicy F)} {g : GroupPolicy F} {cgroup : Bytes}
    (h : g.cgroupPrefix <+: cgroup → ∃ b ∈ l ++ r, b.cgroupPrefix <+: cgroup ∧
      g.cgroupPrefix.length < b.cgroupPrefix.length) :
    modeForBest (l ++ g :: r) cgroup =
      (modeForBest (l ++ r) cgroup).map fun b => (b.1, shifted l.length b.2) := by
  rw [modeForBest_eq, modeForBest_eq]
  apply choose_insert
  intro hhit
  obtain ⟨b, hb, hmatch, hlt⟩ := h (List.isPrefixOf_iff_prefix.mp hhit)
  exact ⟨b, hb, List.isPrefixOf_iff_prefix.mpr hmatch, hlt⟩

/-- Both loops choose the first of the groups with the longest matching prefix, whatever
the order of different prefixes and whatever cannot win. -/
theorem policy_choice (F : Type) [Double F] (cgroup : Bytes) : PolicyChoice F cgroup where
  same groups := by
    rw [weightForBest_eq, modeForBest_eq]
  mode cfg ps hps := by
    unfold modeFor modeForReturn
    rw [hps, bestGroup_eq, modeForBest_eq]
    cases choose _ _ cfg.groups with
    | none => rfl
    | some b => rfl
  weight cfg ps hps := by
    unfold weightFor weightForReturn
    rw [hps, bestGroup_eq, weightForBest_eq]
    cases choose _ _ cfg.groups with
    | none => rfl
    | some b => rfl
  chosen groups g n := by
    rw [modeForBest_eq, choose_eq_some_iff, longestMatchAt_iff]
  nothing groups := by
    rw [modeForBest_eq, choose_eq_none_iff]
    unfold matchesPath
    simp only [← Bool.not_eq_true, List.isPrefixOf_iff_prefix]
  permuted groups groups' hnodup hperm := modeForBest_perm hnodup hperm
  inserted l r g hmiss := by
    apply modeForBest_insert
    intro hmatch
    exact absurd hmatch hmiss
  added l r g b _ hb hmatch hlt := by
    apply modeForBest_insert
    intro _
    exact ⟨b, hb, hmatch, hlt⟩

/-- Of two groups with the same prefix the first is chosen, and both beat the shorter one. -/
example :
    (modeForBest (F := ℚ) [{ cgroupPrefix := ascii "/a" }, { cgroupPrefix := ascii "/a/b" },
      { cgroupPrefix := ascii "/a/b", mode := 1 }] (ascii "/a/b/c")).map Prod.snd = some 1 := by
  decide

end

end Memflux.Core
