import Memflux.Core.Cycle
import Memflux.Core.Reload

/-! # Integer settings

The integers of `[engine]`: what their texts denote, what a reload takes for it, and what
the engine computes from them. Signs and sizes are lost in `stoull`, in the cast to 32
bits, in the shifts by 10 and in the product with 1000; the settings are exact when their
numbers stay below each of these bounds.
-/

namespace Memflux.Core

open Double LastWins

/-! ## Numbers in texts -/

/-- The integer that a value denotes. A text that goes on after the number denotes none
where the whole of it is to be a number, and that number where it is not. -/
def denotes (whole : Bool) (v : Bytes) : Option Int :=
  (numeral (trim v)).bind fun (z, rest) => if whole = true ∧ rest ≠ [] then none else some z

theorem stoull_numeral {s : Bytes} {n : Nat} (h : stoull s = some n) :
    ∃ z rest, numeral s = some (z, rest) ∧ -2 ^ 64 < z ∧ z < 2 ^ 64 ∧ (n : Int) = z % 2 ^ 64 := by
  unfold stoull at h
  unfold numeral
  simp only at h ⊢
  generalize s.dropWhile isSpace = t at h ⊢
  generalize (if t.head? = some 43 ∨ t.head? = some 45 then t.tail else t) = ds at h ⊢
  obtain ⟨hcond, hvalue⟩ := Option.ite_none_left_eq_some.mp h
  obtain ⟨hdigits, hlt⟩ := not_or.mp hcond
  rw [if_neg hdigits]
  generalize decimal (ds.takeWhile isDigit) = m at hvalue hlt ⊢
  refine ⟨_, _, rfl, ?_⟩
  have hn := Option.some.inj hvalue
  by_cases hneg : t.head? = some 45
  · rw [if_pos hneg]
    rw [if_pos hneg] at hn
    unfold u64 at hn
    omega
  · rw [if_neg hneg]
    rw [if_neg hneg] at hn
    omega

/-! ## The settings -/

inductive IntKey where
  | intervalMs
  | minReclaimableMb
  | maxTargets
  | maxReclaimMbPerCycle
  deriving DecidableEq

def IntKey.scalar : IntKey → Scalar
  | .intervalMs => .intervalMs
  | .minReclaimableMb => .minReclaimableMb
  | .maxTargets => .maxTargets
  | .maxReclaimMbPerCycle => .maxReclaimMbPerCycle

def IntKey.bound : IntKey → Nat
  | .intervalMs | .maxTargets => 2 ^ 32
  | .minReclaimableMb | .maxReclaimMbPerCycle => 2 ^ 64

/-- What a reload takes a text for. -/
def IntKey.accepted (x : IntKey) (v : Bytes) : Option Nat :=
  (stoull (trim v)).map (· % x.bound)

def IntKey.lastText (x : IntKey) (ss : List Setting) : Option Bytes :=
  (ss.filter fun s => x.scalar.assignedBy s && (x.accepted s.value).isSome).getLast?.map (·.value)

section

variable {F : Type} [Double F]

def IntKey.get : IntKey → Config F → Nat
  | .intervalMs, cfg => cfg.intervalMs
  | .minReclaimableMb, cfg => cfg.minReclaimableMb
  | .maxTargets, cfg => cfg.maxTargets
  | .maxReclaimMbPerCycle, cfg => cfg.maxReclaimMbPerCycle

/-- The number that the last accepted text is taken for, or the one of before. -/
def IntKey.taken (x : IntKey) (cfg : Config F) (ss : List Setting) : Nat :=
  ((x.lastText ss).bind x.accepted).getD (x.get cfg)

/-- The settings before and after a text: each is what its text denotes or what it was, and
the limits computed from them are the products. -/
structure Exact (whole : Bool) (cfg cfg' : Config F) (ss : List Setting) : Prop where
  fields : ∀ x : IntKey, x.get cfg' = x.get cfg ∨
    ∃ v, x.lastText ss = some v ∧ denotes whole v = some (x.get cfg' : Int)
  size : cfg'.minAnonKb = cfg'.minReclaimableMb * 1024
  budget : cfg'.budget = cfg'.maxReclaimMbPerCycle * 1024
  aggr : (cycleDamonConfig cfg').aggrUs = cfg'.intervalMs * 1000
  update : (cycleDamonConfig cfg').updateUs = cfg'.intervalMs * 1000

/-- The numbers of a text are in the range of their fields, where they do not happen to
give the old value, and those with a limit are small enough for it. -/
structure InRange (whole : Bool) (cfg : Config F) (ss : List Setting) : Prop where
  fields : ∀ (x : IntKey) v, x.lastText ss = some v →
    x.accepted v = some (x.get cfg) ∨ ∃ z, denotes whole v = some z ∧ 0 ≤ z ∧ z < x.bound
  size : IntKey.minReclaimableMb.taken cfg ss < 2 ^ 54
  budget : IntKey.maxReclaimMbPerCycle.taken cfg ss < 2 ^ 54
  interval : IntKey.intervalMs.taken cfg ss ≤ 4294967

theorem lastText_bind (x : IntKey) (ss : List Setting) :
    (x.lastText ss).bind x.accepted =
      (ss.filterMap fun s =>
        if x.scalar.assignedBy s then x.accepted s.value else none).getLast? := by
  induction ss using List.reverseRecOn with
  | nil => rfl
  | append_singleton ss s ih =>
      unfold IntKey.lastText at ih ⊢
      rw [List.filter_append, List.filterMap_append]
      by_cases hs : x.scalar.assignedBy s = true
      · cases hv : x.accepted s.value with
        | none => simpa [hs, hv] using ih
        | some n => simp [hs, hv]
      · simpa [hs] using ih

theorem taken_spec {stod : Bytes → Option F} {room : Nat} {cfg cfg' : Config F}
    {ss : List Setting} (hcfg : cfg.Typed)
    (h : ss.foldlM (apply stod room) cfg = some cfg') (x : IntKey) :
    x.get cfg' = x.taken cfg ss := by
  have hrun := ((scalars_assigned stod room).run (fun _ _ => trivial) hcfg h).2
  have hwide : ∀ s : Bytes, (stoull s).map (· % 2 ^ 64) = stoull s := by
    intro s
    cases hs : stoull s with
    | none => rfl
    | some n => exact congrArg some (Nat.mod_eq_of_lt (stoull_lt hs))
  unfold IntKey.taken
  rw [lastText_bind]
  cases x with
  | intervalMs => exact hrun .intervalMs
  | maxTargets => exact hrun .maxTargets
  | minReclaimableMb =>
      simp only [IntKey.accepted, IntKey.bound, hwide]
      exact hrun .minReclaimableMb
  | maxReclaimMbPerCycle =>
      simp only [IntKey.accepted, IntKey.bound, hwide]
      exact hrun .maxReclaimMbPerCycle

/-- An accepted text denotes the number it is taken for when that number is in range. -/
theorem denotes_iff {whole : Bool} {x : IntKey} {v : Bytes} {n : Nat}
    (h : x.accepted v = some n) :
    denotes whole v = some (n : Int) ↔ ∃ z, denotes whole v = some z ∧ 0 ≤ z ∧ z < x.bound := by
  obtain ⟨m, hm, rfl⟩ := Option.map_eq_some_iff.mp h
  obtain ⟨z, rest, hnumeral, hlow, hhigh, hmod⟩ := stoull_numeral hm
  have hbound : x.bound = 2 ^ 32 ∨ x.bound = 2 ^ 64 := by
    cases x <;> simp [IntKey.bound]
  unfold denotes
  rw [hnumeral, Option.bind_some]
  dsimp only
  split
  · simp
  · simp only [Option.some.injEq, exists_eq_left']
    rcases hbound with hbound | hbound <;> (rw [hbound]; omega)

theorem lastText_accepted {x : IntKey} {ss : List Setting} {v : Bytes}
    (h : x.lastText ss = some v) : ∃ n, x.accepted v = some n := by
  obtain ⟨s, hlast, rfl⟩ := Option.map_eq_some_iff.mp h
  have hs := (List.mem_filter.mp (List.mem_of_getLast? hlast)).2
  rw [Bool.and_eq_true] at hs
  exact Option.isSome_iff_exists.mp hs.2

/-- A field is exact when the last text that is accepted for it gives what it was, or
denotes a number in range. -/
theorem field_exact_iff (whole : Bool) {cfg cfg' : Config F} {ss : List Setting} {x : IntKey}
    (htaken : x.get cfg' = x.taken cfg ss) :
    (x.get cfg' = x.get cfg ∨
        ∃ v, x.lastText ss = some v ∧ denotes whole v = some (x.get cfg' : Int)) ↔
      ∀ v, x.lastText ss = some v →
        x.accepted v = some (x.get cfg) ∨
          ∃ z, denotes whole v = some z ∧ 0 ≤ z ∧ z < x.bound := by
  rw [htaken, IntKey.taken]
  cases hlast : x.lastText ss with
  | none => simp
  | some v =>
      obtain ⟨n, hn⟩ := lastText_accepted hlast
      have hdenotes := @denotes_iff whole _ _ _ hn
      rw [Option.bind_some, hn, Option.getD_some]
      simp only [Option.some.injEq, exists_eq_left', forall_eq']
      rw [hdenotes, hn, Option.some.injEq]

/-- Integer settings are taken exactly, and so are the limits, exactly when the numbers of
the text are in range. -/
theorem integers_exact_iff (whole : Bool) {stod : Bytes → Option F} {room : Nat}
    {cfg cfg' : Config F} {text : Bytes} (hcfg : cfg.Typed)
    (h : cfg.reload stod room (some text) = some cfg') :
    Exact whole cfg cfg' (settings text) ↔ InRange whole cfg (settings text) := by
  rw [reload_eq] at h
  have htaken := taken_spec hcfg h
  have hsize : cfg'.minAnonKb = cfg'.minReclaimableMb * 1024 ↔
      IntKey.minReclaimableMb.taken cfg (settings text) < 2 ^ 54 := by
    rw [← htaken .minReclaimableMb]
    show u64 (cfg'.minReclaimableMb * 1024) = _ ↔ cfg'.minReclaimableMb < 2 ^ 54
    unfold u64
    omega
  have hbudget : cfg'.budget = cfg'.maxReclaimMbPerCycle * 1024 ↔
      IntKey.maxReclaimMbPerCycle.taken cfg (settings text) < 2 ^ 54 := by
    rw [← htaken .maxReclaimMbPerCycle]
    show u64 (cfg'.maxReclaimMbPerCycle * 1024) = _ ↔ cfg'.maxReclaimMbPerCycle < 2 ^ 54
    unfold u64
    omega
  have hinterval : u32 (cfg'.intervalMs * 1000) = cfg'.intervalMs * 1000 ↔
      IntKey.intervalMs.taken cfg (settings text) ≤ 4294967 := by
    rw [← htaken .intervalMs]
    show _ ↔ cfg'.intervalMs ≤ 4294967
    unfold u32
    omega
  constructor
  · intro hexact
    exact
      { fields := fun x => (field_exact_iff whole (htaken x)).mp (hexact.fields x)
        size := hsize.mp hexact.size
        budget := hbudget.mp hexact.budget
        interval := hinterval.mp hexact.aggr }
  · intro hrange
    exact
      { fields := fun x => (field_exact_iff whole (htaken x)).mpr (hrange.fields x)
        size := hsize.mpr hrange.size
        budget := hbudget.mpr hrange.budget
        aggr := hinterval.mpr hrange.interval
        update := hinterval.mpr hrange.interval }

theorem reload_returns (stod : Bytes → Option F) (room : Nat) {text : Bytes}
    (h : assignments (settings text) = []) (cfg : Config F) :
    ∃ cfg', cfg.reload stod room (some text) = some cfg' := by
  have hfits : Resizable room (settings text) := by
    unfold Resizable
    rw [h]
    exact fun a ha => absurd ha List.not_mem_nil
  obtain ⟨cfg', hrun, -⟩ := run_returns stod hfits cfg
  exact ⟨cfg', by rw [reload_eq, hrun]⟩

end

/-- Whichever way a text is read, 2^32 + 1 targets are one target. -/
theorem targets_narrowed :
    ¬ ∃ whole, ∀ (text : Bytes) (cfg cfg' : Config ℚ), cfg.Typed →
      cfg.reload (fun _ => none) 16 (some text) = some cfg' →
      Exact whole cfg cfg' (settings text) := by
  rintro ⟨whole, h⟩
  let text := ascii "[engine]\nmax_targets = 4294967297\n"
  have htyped : Config.Typed ({} : Config ℚ) := Config.typed_default
  have hlines : assignments (settings text) = [] := by decide +kernel
  obtain ⟨cfg', hrun⟩ := reload_returns (fun _ => none) 16 hlines ({} : Config ℚ)
  have hget : IntKey.maxTargets.get cfg' = 1 := by
    rw [reload_eq] at hrun
    rw [taken_spec htyped hrun]
    decide +kernel
  have hlast : IntKey.maxTargets.lastText (settings text) = some (ascii "4294967297") := by
    decide +kernel
  rcases (h text {} cfg' htyped hrun).fields .maxTargets with hsame | ⟨v, hv, hdenotes⟩
  · rw [hget] at hsame
    exact absurd hsame (by decide)
  · obtain rfl := Option.some.inj (hlast.symm.trans hv)
    have hall : denotes whole (ascii "4294967297") = some 4294967297 := by
      cases whole <;> decide +kernel
    rw [hall, hget] at hdenotes
    exact absurd (Option.some.inj hdenotes) (by decide)

/-- Five targets are five, and the other integers stay. -/
theorem targets_exact :
    ∃ cfg' : Config ℚ, Exact true {} cfg' (settings (ascii "[engine]\nmax_targets = 5\n")) := by
  let text := ascii "[engine]\nmax_targets = 5\n"
  have htyped : Config.Typed ({} : Config ℚ) := Config.typed_default
  have hlines : assignments (settings text) = [] := by decide +kernel
  obtain ⟨cfg', hrun⟩ := reload_returns (fun _ => none) 16 hlines ({} : Config ℚ)
  refine ⟨cfg', (integers_exact_iff true htyped hrun).mpr ?_⟩
  constructor
  · intro x v hv
    by_cases hx : x = .maxTargets
    · subst hx
      have hlast : IntKey.maxTargets.lastText (settings text) = some (ascii "5") := by
        decide +kernel
      obtain rfl := Option.some.inj (hlast.symm.trans hv)
      exact Or.inr ⟨5, by decide +kernel, by decide, by decide⟩
    · have hnone : x.lastText (settings text) = none := by
        cases x <;> first | exact absurd rfl hx | decide +kernel
      rw [hnone] at hv
      cases hv
  · decide +kernel
  · decide +kernel
  · decide +kernel

end Memflux.Core
