import Memflux.Alloc.Api

/-! # The bookkeeping invariant

`Core` is what every critical section keeps: each mapped run has a well-formed
header, is once in the list of its own class, and owns exactly one mapping; the
class counters are the sums of the run counters; the mappings are disjoint. The
lists `L` are the abstract contents of the linked lists. One lemma per kind of
change follows: rewriting a header in place, adding a run, adding a large block,
removing a run.
-/

namespace Memflux.Alloc

open Spans BitWords DList

/-! ## Well-formed headers -/

/-- A header as `run_new`, `run_take` and `run_give` keep it. -/
structure RunOk (r : Run) : Prop where
  magic : r.magic = kMagicRun
  cls_pos : 1 ≤ r.cls
  cls_le : r.cls ≤ kNumClasses
  elems : r.elems = elemsOf (r.cls - 1)
  elem : r.elem = kSize (r.cls - 1)
  words : r.bits.length = bitsWords r.elems
  high : ∀ k, r.elems ≤ k → bitAt r.bits k = false
  used : r.used = clears r.bits r.elems

theorem RunOk.geometry {r : Run} (h : RunOk r) : Geometry (r.cls - 1) := by
  have h₁ := h.cls_pos
  have h₂ := h.cls_le
  exact Alloc.geometry (by omega)

theorem RunOk.word_lt {r : Run} (h : RunOk r) {i : Nat} (hi : i < r.elems) :
    i / 64 < r.bits.length := by
  have hw := h.geometry.words
  rw [← h.elems] at hw
  rw [h.words, hw]
  unfold wordsFor
  omega

theorem freshRun_ok {c now : Nat} (hc : c < kNumClasses) : RunOk (State.freshRun (c + 1) now) where
  magic := rfl
  cls_pos := by simp [State.freshRun]
  cls_le := hc
  elems := rfl
  elem := rfl
  words := by simp [State.freshRun, (Alloc.geometry hc).words]
  high := by
    intro k hk
    simp only [State.freshRun, bitAt_ones, decide_eq_false_iff_not, Nat.not_lt]
    exact hk
  used := by
    refine (clears_eq_zero fun k hk => ?_).symm
    simp only [State.freshRun, bitAt_ones, decide_eq_true_eq]
    exact hk

/-- `run_take` finds the least free block, and clears exactly its bit. -/
theorem findFree_spec {r : Run} (h : RunOk r) {i : Nat} (hi : r.findFree = some i) :
    i < r.elems ∧ bitAt r.bits i = true ∧ (∀ j, j < i → bitAt r.bits j = false) ∧
      ∀ now j, bitAt (r.taken i now).bits j = (decide (j ≠ i) && bitAt r.bits j) := by
  obtain ⟨-, hlt, hset, hne, heq, hmin⟩ := firstSet_some hi
  refine ⟨hlt, hset, hmin, fun now j => ?_⟩
  show bitAt (clearLowAt r.bits (i / 64)) j = _
  rw [bitAt_clearLowAt (h.word_lt hlt) hne, ← heq]

theorem findFree_isSome {r : Run} (h : RunOk r) (hroom : r.used ≠ r.elems) :
    ∃ i, r.findFree = some i := by
  cases hf : r.findFree with
  | some i => exact ⟨i, rfl⟩
  | none =>
      have hw := h.geometry.words
      rw [← h.elems] at hw
      have hall := firstSet_none hf (by rw [hw]; unfold wordsFor; omega)
      exact absurd (h.used.trans (clears_eq_full hall)) hroom

theorem findFree_of_bit {r : Run} (h : RunOk r) {i : Nat} (hi : i < r.elems)
    (hbit : bitAt r.bits i = true) : ∃ j, r.findFree = some j := by
  cases hf : r.findFree with
  | some j => exact ⟨j, rfl⟩
  | none =>
      have hw := h.geometry.words
      rw [← h.elems] at hw
      have hall := firstSet_none hf (by rw [hw]; unfold wordsFor; omega) i hi
      rw [hbit] at hall
      cases hall

theorem taken_ok {r : Run} (h : RunOk r) {i now : Nat} (hi : r.findFree = some i) :
    RunOk (r.taken i now) := by
  obtain ⟨hlt, hset, -, hbits⟩ := findFree_spec h hi
  refine ⟨h.magic, h.cls_pos, h.cls_le, h.elems, h.elem, ?_, ?_, ?_⟩
  · exact (clearLowAt_length _ _).trans h.words
  · intro k hk
    rw [hbits now k, h.high k hk, Bool.and_false]
  · show r.used + 1 = _
    rw [h.used]
    exact (clears_clear hlt hset (hbits now)).symm

theorem given_bits {r : Run} (h : RunOk r) {i : Nat} (hi : i < r.elems) (now now' j : Nat) :
    bitAt (r.given i now now').bits j = (decide (j = i) || bitAt r.bits j) :=
  bitAt_setBit (h.word_lt hi) j

theorem given_used {r : Run} (h : RunOk r) {i : Nat} (hi : i < r.elems)
    (hbit : bitAt r.bits i = false) (now now' : Nat) : (r.given i now now').used + 1 = r.used := by
  have hc := clears_set hi hbit (given_bits h hi now now')
  have hu := h.used
  show (if r.used ≠ 0 then r.used - 1 else r.used) + 1 = r.used
  rw [if_pos (by omega)]
  omega

/-- A run with a block in use is not dated; `taken` keeps it that way. -/
theorem taken_stamp {r : Run} (h : r.used ≠ 0 → r.lastFullyFreeMs = 0) (i now : Nat) :
    (r.taken i now).lastFullyFreeMs = 0 := by
  show (if r.used + 1 = 1 then 0 else r.lastFullyFreeMs) = 0
  split
  · rfl
  · exact h (by omega)

theorem given_stamp {r : Run} (hnever : r.lastFullyFreeMs = 0) (i now now' : Nat) :
    (r.given i now now').lastFullyFreeMs = if (r.given i now now').used = 0 then now' else 0 := by
  show (if (r.given i now now').used = 0 ∧ r.lastFullyFreeMs = 0 then now'
    else r.lastFullyFreeMs) = _
  simp only [hnever, and_true]

theorem given_ok {r : Run} (h : RunOk r) {i now now' : Nat} (hi : i < r.elems)
    (hbit : bitAt r.bits i = false) : RunOk (r.given i now now') := by
  have hused := given_used h hi hbit now now'
  have hclears : clears (r.given i now now').bits r.elems + 1 = clears r.bits r.elems :=
    clears_set hi hbit (given_bits h hi now now')
  have hu := h.used
  refine ⟨h.magic, h.cls_pos, h.cls_le, h.elems, h.elem, ?_, ?_, ?_⟩
  · exact (setBit_length _ _).trans h.words
  · intro k hk
    have hk : r.elems ≤ k := hk
    rw [given_bits h hi, h.high k hk, Bool.or_false, decide_eq_false (by omega)]
  · show (r.given i now now').used = clears (r.given i now now').bits r.elems
    omega

/-! ## The invariant -/

/-- `used` of the run at `a`, if there is one. -/
def usedAt (runs : Nat → Option Run) (a : Nat) : Nat := ((runs a).map Run.used).getD 0

/-- The lists of all classes, with their contents. -/
structure Lists (runs : Nat → Option Run) (cls : Nat → ClassState) (L : Nat → List Nat) : Prop where
  chain : ∀ c, c < kNumClasses → Chain runs (cls c).head (L c)
  nodup : ∀ c, c < kNumClasses → (L c).Nodup
  mem : ∀ a r, runs a = some r → a ∈ L (r.cls - 1)
  own : ∀ c, c < kNumClasses → ∀ a ∈ L c, ∃ r, runs a = some r ∧ r.cls = c + 1
  live : ∀ c, c < kNumClasses → (cls c).liveBlocks = ((L c).map (usedAt runs)).sum

/-- The mappings and the headers in them. -/
structure Maps (s : State) : Prop where
  apart : Apart s.maps
  sane : ∀ g ∈ s.maps, 0 < g.base ∧ g.base % 4096 = 0 ∧ 0 < g.size ∧ g.size % 4096 = 0 ∧
    g.stop ≤ 2 ^ 64
  ofRun : ∀ a r, s.runs a = some r → ∃ g ∈ s.maps, g.base = a ∧ g.size = runMap (r.cls - 1)
  ofLarge : ∀ a h, s.larges a = some h → h.magic = kMagicLarge ∧
    ∃ g ∈ s.maps, g.base = a ∧ g.size = h.mapSize
  owner : ∀ g ∈ s.maps, (∃ r, s.runs g.base = some r ∧ s.larges g.base = none) ∨
    ∃ h, s.larges g.base = some h ∧ s.runs g.base = none

structure Core (s : State) (L : Nat → List Nat) : Prop where
  run : ∀ a r, s.runs a = some r → RunOk r
  lists : Lists s.runs s.cls L
  maps : Maps s

/-- The invariant reads only the headers, the class states and the mappings. -/
theorem Core.congr {s s' : State} {L : Nat → List Nat} (h : Core s L) (hr : s'.runs = s.runs)
    (hc : s'.cls = s.cls) (hl : s'.larges = s.larges) (hm : s'.maps = s.maps) : Core s' L := by
  obtain ⟨run, lists, apart, sane, ofRun, ofLarge, owner⟩ := h
  refine ⟨?_, ?_, ?_, ?_, ?_, ?_, ?_⟩
  · rwa [hr]
  · rwa [hr, hc]
  · rwa [hm]
  · rwa [hm]
  · rwa [hr, hm]
  · rwa [hl, hm]
  · rwa [hr, hl, hm]

theorem init_core (runIdle dirtyIdle : Nat) : Core (State.init runIdle dirtyIdle) (fun _ => []) where
  run := by simp [State.init]
  lists :=
    ⟨fun _ _ => ⟨0, rfl, rfl⟩, fun _ _ => List.nodup_nil, by simp [State.init], by simp,
      by simp [State.init]⟩
  maps := ⟨List.Pairwise.nil, by simp [State.init], by simp [State.init], by simp [State.init],
    by simp [State.init]⟩

/-- A listed run is mapped, so a list is never longer than the mappings. -/
theorem Core.length_le {s : State} {L : Nat → List Nat} (h : Core s L) {c : Nat}
    (hc : c < kNumClasses) : (L c).length ≤ s.maps.length := by
  have hsub : L c ⊆ s.maps.map Span.base := by
    intro a ha
    obtain ⟨r, hr, -⟩ := h.lists.own c hc a ha
    obtain ⟨g, hg, hb, -⟩ := h.maps.ofRun a r hr
    exact List.mem_map.mpr ⟨g, hg, hb⟩
  have hle := ((h.lists.nodup c hc).subperm hsub).length_le
  simpa using hle

/-! ## Rewriting a header in place -/

theorem usedAt_put (runs : Nat → Option Run) (a : Nat) (r : Run) :
    usedAt (put runs a (some r)) = put (usedAt runs) a r.used := by
  funext x
  by_cases hx : x = a
  · subst hx; simp [usedAt]
  · simp [usedAt, put_other _ _ hx]

theorem Lists.rewrite {runs : Nat → Option Run} {cls : Nat → ClassState} {L : Nat → List Nat}
    (h : Lists runs cls L) {a : Nat} {r r' : Run} (hr : runs a = some r)
    (hcls : r'.cls = r.cls)
    (hnext : r'.next = r.next) (hprev : r'.prev = r.prev) {k : ClassState}
    (hhead : k.head = (cls (r.cls - 1)).head)
    (hlive : k.liveBlocks + r.used = (cls (r.cls - 1)).liveBlocks + r'.used) :
    Lists (put runs a (some r')) (put cls (r.cls - 1) k) L := by
  have ha := h.mem a r hr
  refine ⟨fun c hc => ?_, h.nodup, ?_, ?_, ?_⟩
  · obtain ⟨last, hseg⟩ := h.chain c hc
    refine ⟨last, ?_⟩
    have hseg' : Seg (put runs a (some r')) 0 (cls c).head (L c) last 0 :=
      hseg.put_links hr hnext hprev
    by_cases hcc : c = r.cls - 1
    · subst hcc; rwa [put_same, hhead]
    · rwa [put_other _ _ hcc]
  · intro x q hq
    by_cases hx : x = a
    · subst hx
      rw [put_same, Option.some.injEq] at hq
      rw [← hq, hcls]
      exact ha
    · rw [put_other _ _ hx] at hq
      exact h.mem x q hq
  · intro c hc x hx
    obtain ⟨q, hq, hqc⟩ := h.own c hc x hx
    by_cases hxa : x = a
    · subst hxa
      rw [hr] at hq
      cases hq
      exact ⟨r', by simp, hcls.trans hqc⟩
    · exact ⟨q, by rw [put_other _ _ hxa, hq], hqc⟩
  · intro c hc
    rw [usedAt_put]
    by_cases hcc : c = r.cls - 1
    · subst hcc
      have hsum := sum_map_put (h.nodup _ hc) ha (usedAt runs) r'.used
      have hold := h.live _ hc
      have hu : usedAt runs a = r.used := by simp [usedAt, hr]
      rw [put_same]
      omega
    · have hna : a ∉ L c := by
        intro hm
        obtain ⟨q, hq, hqc⟩ := h.own c hc a hm
        rw [hr] at hq
        cases hq
        omega
      rw [put_other _ _ hcc, h.live c hc]
      congr 1
      apply List.map_congr_left
      intro x hx
      have hxa : x ≠ a := fun e => hna (e ▸ hx)
      rw [put_other _ _ hxa]

theorem Core.rewrite {s : State} {L : Nat → List Nat} (h : Core s L) {a : Nat} {r r' : Run}
    (hr : s.runs a = some r) (hok : RunOk r') (hcls : r'.cls = r.cls) (hnext : r'.next = r.next)
    (hprev : r'.prev = r.prev) {k : ClassState} (hhead : k.head = (s.cls (r.cls - 1)).head)
    (hlive : k.liveBlocks + r.used = (s.cls (r.cls - 1)).liveBlocks + r'.used) :
    Core ((s.setRun a r').setCls (r.cls - 1) k) L := by
  have hro := h.run a r hr
  have hpos := hro.cls_pos
  have hle := hro.cls_le
  refine ⟨?_, ?_, ⟨h.maps.apart, h.maps.sane, ?_, h.maps.ofLarge, ?_⟩⟩
  · intro x q hq
    have hq : put s.runs a (some r') x = some q := hq
    by_cases hx : x = a
    · subst hx
      rw [put_same, Option.some.injEq] at hq
      exact hq ▸ hok
    · rw [put_other _ _ hx] at hq
      exact h.run x q hq
  · exact h.lists.rewrite hr hcls hnext hprev hhead hlive
  · intro x q hq
    have hq : put s.runs a (some r') x = some q := hq
    by_cases hx : x = a
    · subst hx
      rw [put_same, Option.some.injEq] at hq
      rw [← hq, hcls]
      exact h.maps.ofRun x r hr
    · rw [put_other _ _ hx] at hq
      exact h.maps.ofRun x q hq
  · intro g hg
    show (∃ q, put s.runs a (some r') g.base = some q ∧ s.larges g.base = none) ∨
      ∃ h, s.larges g.base = some h ∧ put s.runs a (some r') g.base = none
    by_cases hx : g.base = a
    · rcases h.maps.owner g hg with ⟨q, -, hn⟩ | ⟨l, -, hn⟩
      · exact .inl ⟨r', by rw [hx, put_same], hn⟩
      · rw [hx, hr] at hn
        cases hn
    · rw [put_other _ _ hx]
      exact h.maps.owner g hg

end Memflux.Alloc
