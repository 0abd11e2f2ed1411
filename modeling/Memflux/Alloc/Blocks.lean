import Memflux.Alloc.Reservation
import Memflux.Alloc.Trim

/-! # Blocks and the ownership tests

An allocated block of a run lies inside the mapping of the run, after the header
and the bitmap, and apart from every other block (`Within.unique`). The second
part says what `run_of`, `ours_small` and `ours_large` find for the address of a
block, given that runs begin at multiples of `kRunSize`.
-/

namespace Memflux.Alloc

open Spans BitWords DList

/-- Block `i` of the run at `a` is allocated. -/
structure SmallBlock (s : State) (a : Nat) (r : Run) (i : Nat) : Prop where
  run : s.runs a = some r
  index : i < r.elems
  bit : bitAt r.bits i = false

/-- Address `x` belongs to the allocated block that begins at `p`. -/
inductive Within (s : State) (p x : Nat) : Prop where
  | small {a : Nat} {r : Run} {i : Nat} (block : SmallBlock s a r i) (start : p = blockAddr a r i)
      (low : p ≤ x) (high : x < p + r.elem)
  | large {a : Nat} {l : LargeHdr} (header : s.larges a = some l) (start : p = a + sizeofLargeHdr)
      (low : p ≤ x) (high : x < a + l.mapSize)

theorem Within.low {s : State} {p x : Nat} (h : Within s p x) : p ≤ x := by
  cases h <;> assumption

/-! ## Where blocks lie -/

theorem RunOk.elem_pos {r : Run} (h : RunOk r) : 0 < r.elem := by
  rw [h.elem]
  exact Nat.lt_of_lt_of_le (by omega) h.geometry.elem_pos

/-- A block lies after the header and the bitmap and before the end of its mapping. -/
theorem RunOk.block_range {r : Run} (h : RunOk r) {i : Nat} (hi : i < r.elems) (a : Nat) :
    a + sizeofRun + bitsWords r.elems * 8 ≤ blockAddr a r i ∧
      blockAddr a r i + r.elem ≤ runData a r + r.elems * r.elem ∧
      blockAddr a r i + r.elem ≤ a + runMap (r.cls - 1) := by
  have hg := h.geometry
  have hdata := hg.data_ge
  have hmap := hg.map_ge
  rw [← h.elems] at hdata hmap
  rw [← h.elem] at hmap
  have hmul : (i + 1) * r.elem ≤ r.elems * r.elem := Nat.mul_le_mul_right _ hi
  rw [Nat.succ_mul] at hmul
  unfold blockAddr runData
  omega

theorem block_index_unique {a i j x : Nat} {r : Run} (hi : blockAddr a r i ≤ x)
    (hi' : x < blockAddr a r i + r.elem) (hj : blockAddr a r j ≤ x)
    (hj' : x < blockAddr a r j + r.elem) : i = j := by
  unfold blockAddr at hi hi' hj hj'
  rcases Nat.lt_trichotomy i j with h | h | h
  · have hm : (i + 1) * r.elem ≤ j * r.elem := Nat.mul_le_mul_right _ h
    rw [Nat.succ_mul] at hm
    omega
  · exact h
  · have hm : (j + 1) * r.elem ≤ i * r.elem := Nat.mul_le_mul_right _ h
    rw [Nat.succ_mul] at hm
    omega

/-- An address of a block is an address of the mapping its header is in. -/
theorem Core.within_map {s : State} {L : Nat → List Nat} (h : Core s L) {p x : Nat}
    (hw : Within s p x) : ∃ g ∈ s.maps, g.Mem x ∧
      ((∃ r i, SmallBlock s g.base r i ∧ p = blockAddr g.base r i ∧ x < p + r.elem) ∨
        ∃ l, s.larges g.base = some l ∧ p = g.base + sizeofLargeHdr) := by
  cases hw with
  | @small a r i block start low high =>
      obtain ⟨g, hg, rfl, hsize⟩ := h.maps.ofRun a r block.run
      have hrange := (h.run _ r block.run).block_range block.index g.base
      have hstop : g.stop = g.base + g.size := rfl
      exact ⟨g, hg, ⟨by omega, by omega⟩, .inl ⟨r, i, block, start, high⟩⟩
  | @large a l header start low high =>
      obtain ⟨-, g, hg, rfl, hsize⟩ := h.maps.ofLarge a l header
      have hstop : g.stop = g.base + g.size := rfl
      exact ⟨g, hg, ⟨by omega, by omega⟩, .inr ⟨l, header, start⟩⟩

theorem Core.within_unique {s : State} {L : Nat → List Nat} (h : Core s L) {p p' x : Nat}
    (hw : Within s p x) (hw' : Within s p' x) : p = p' := by
  obtain ⟨g, hg, hx, hblock⟩ := h.within_map hw
  obtain ⟨g', hg', hx', hblock'⟩ := h.within_map hw'
  obtain rfl : g = g' := h.maps.apart.eq_of_mem hg hg' hx hx'
  have hlow := hw.low
  have hlow' := hw'.low
  rcases hblock with ⟨r, i, hb, rfl, hhi⟩ | ⟨l, hl, rfl⟩
  · rcases hblock' with ⟨r', i', hb', rfl, hhi'⟩ | ⟨l', hl', rfl⟩
    · have hr := hb.run
      rw [hb'.run] at hr
      cases hr
      rw [block_index_unique hlow hhi hlow' hhi']
    · have hnone := (h.header_alone hg hb.run (Nat.le_refl _)
        (Nat.lt_of_le_of_lt hx.1 hx.2)).2
      rw [hl'] at hnone
      cases hnone
  · rcases hblock' with ⟨r', i', hb', rfl, hhi'⟩ | ⟨l', hl', rfl⟩
    · have hnone := (h.header_alone hg hb'.run (Nat.le_refl _)
        (Nat.lt_of_le_of_lt hx.1 hx.2)).2
      rw [hl] at hnone
      cases hnone
    · rfl

theorem Core.block_place {s : State} {L : Nat → List Nat} (h : Core s L) {a b i j : Nat} {r q : Run}
    (hr : s.runs a = some r) (hi : i < r.elems) (hq : s.runs b = some q) (hj : j < q.elems)
    (heq : blockAddr a r i = blockAddr b q j) : a = b ∧ i = j := by
  have hok := h.run a r hr
  have hok' := h.run b q hq
  have hpos := hok.elem_pos
  have hpos' := hok'.elem_pos
  obtain ⟨g, hg, hbase, hsize⟩ := h.maps.ofRun a r hr
  obtain ⟨g', hg', hbase', hsize'⟩ := h.maps.ofRun b q hq
  have hrange := hok.block_range hi a
  have hrange' := hok'.block_range hj b
  have hstop : g.stop = g.base + g.size := rfl
  have hstop' : g'.stop = g'.base + g'.size := rfl
  have hmem : g.Mem (blockAddr a r i) := ⟨by omega, by omega⟩
  have hmem' : g'.Mem (blockAddr a r i) := ⟨by omega, by omega⟩
  have hsame : a = b := by
    rw [← hbase, ← hbase', h.maps.apart.eq_of_mem hg hg' hmem hmem']
  refine ⟨hsame, ?_⟩
  rw [← hsame, hr, Option.some.injEq] at hq
  rw [← hsame, ← hq] at heq
  apply block_index_unique (x := blockAddr a r i) (Nat.le_refl _) (by omega)
  · exact Nat.le_of_eq heq.symm
  · omega

theorem Core.small_not_large {s : State} {L : Nat → List Nat} (h : Core s L) {a b i : Nat} {r : Run}
    {l : LargeHdr} (hb : SmallBlock s a r i) (hl : s.larges b = some l) :
    blockAddr a r i ≠ b + sizeofLargeHdr := by
  intro hp
  have hok := h.run a r hb.run
  have hrange := hok.block_range hb.index a
  have hpos := hok.elem_pos
  obtain ⟨g, hg, rfl, hsize⟩ := h.maps.ofRun a r hb.run
  obtain ⟨-, g', hg', rfl, hsize'⟩ := h.maps.ofLarge b l hl
  obtain ⟨-, -, hs₁, hs₂, -⟩ := h.maps.sane g' hg'
  have hhdr : sizeofLargeHdr = 24 := rfl
  have hstop : g.stop = g.base + g.size := rfl
  have hstop' : g'.stop = g'.base + g'.size := rfl
  obtain rfl : g = g' := h.maps.apart.eq_of_mem hg hg' (x := blockAddr g.base r i)
    ⟨by omega, by omega⟩ ⟨by omega, by omega⟩
  have hnone := (h.header_alone hg hb.run (Nat.le_refl _) (by omega)).2
  rw [hl] at hnone
  cases hnone

theorem Core.within_self {s : State} {L : Nat → List Nat} (h : Core s L) {p x : Nat}
    (hw : Within s p x) : Within s p p := by
  cases hw with
  | small block start low high =>
      exact .small block start (Nat.le_refl p)
        (Nat.lt_add_of_pos_right (h.run _ _ block.run).elem_pos)
  | large header start low high => exact .large header start (Nat.le_refl p) (by omega)

theorem SmallBlock.used_ne {s : State} {L : Nat → List Nat} (h : Core s L) {a i : Nat} {r : Run}
    (hb : SmallBlock s a r i) : r.used ≠ 0 := by
  intro hu
  have hset := bit_of_clears_eq_zero ((h.run a r hb.run).used.symm.trans hu) hb.index
  rw [hb.bit] at hset
  cases hset

theorem Core.not_within_free {s : State} {L : Nat → List Nat} (h : Core s L) {a i p x : Nat} {r : Run}
    (hr : s.runs a = some r) (hi : i < r.elems) (hbit : bitAt r.bits i = true)
    (h₁ : blockAddr a r i ≤ x) (h₂ : x < blockAddr a r i + r.elem) : ¬ Within s p x := by
  intro hw
  obtain ⟨g, hg, rfl, hsize⟩ := h.maps.ofRun a r hr
  have hrange := (h.run _ r hr).block_range hi g.base
  have hstop : g.stop = g.base + g.size := rfl
  obtain ⟨g', hg', hx, hblock⟩ := h.within_map hw
  obtain rfl : g' = g := h.maps.apart.eq_of_mem hg' hg hx ⟨by omega, by omega⟩
  have hlow := hw.low
  rcases hblock with ⟨q, j, hb, rfl, hlt⟩ | ⟨l, hl, -⟩
  · have hq := hb.run
    rw [hr] at hq
    cases hq
    have hfree := hb.bit
    rw [← block_index_unique h₁ h₂ hlow hlt, hbit] at hfree
    cases hfree
  · have hnone := (h.header_alone hg hr (Nat.le_refl _) (Nat.lt_of_le_of_lt hx.1 hx.2)).2
    rw [hl] at hnone
    cases hnone

theorem Core.not_within_fresh {s : State} {L : Nat → List Nat} (h : Core s L) {base size p x : Nat}
    (hf : Fresh s base size) (h₁ : base ≤ x) (h₂ : x < base + size) : ¬ Within s p x := by
  intro hw
  obtain ⟨g, hg, hx, -⟩ := h.within_map hw
  have ha := hf.apart g hg
  unfold Span.Mem at hx
  omega

/-- A block survives a step that keeps its bit clear and its header in place. -/
theorem Within.frame {s s' : State} {p x : Nat} (h : Within s p x)
    (hruns : ∀ a r i, SmallBlock s a r i → p = blockAddr a r i →
      ∃ r', SmallBlock s' a r' i ∧ r'.elems = r.elems ∧ r'.elem = r.elem)
    (hlarges : ∀ a l, s.larges a = some l → p = a + sizeofLargeHdr → s'.larges a = some l) :
    Within s' p x := by
  cases h with
  | @small a r i block start low high =>
      obtain ⟨r', hb, he, hs⟩ := hruns a r i block start
      have haddr : blockAddr a r' i = blockAddr a r i := by
        rw [blockAddr, blockAddr, runData, runData, he, hs]
      exact .small hb (start.trans haddr.symm) low (by rwa [hs])
  | large header start low high => exact .large (hlarges _ _ header start) start low high

/-! ## The ownership tests -/

/-- What a range of addresses inside one page of a mapping can be read. -/
theorem Maps.readable_page {s : State} (h : Maps s) {g : Span} (hg : g ∈ s.maps) {b x n : Nat}
    (hb : b % 4096 = 0) (h₁ : g.base ≤ b) (h₂ : b < g.stop) (h₃ : b ≤ x) (h₄ : x + n ≤ b + 4096) :
    s.readable x n = true := by
  obtain ⟨-, hmod, -, hsize, -⟩ := h.sane g hg
  have hstop : g.stop = g.base + g.size := rfl
  exact State.readable_iff.mpr ⟨g, hg, by omega, by omega⟩

theorem runWords_run {s : State} {b : Nat} {r : Run} (hr : s.runs b = some r) :
    s.runWords b = .ok ⟨r.magic, r.cls, r.elems, r.elem⟩ := by
  simp [State.runWords, hr]

/-- With a run header at the boundary, `ours_small` accepts exactly the starts of its blocks. -/
theorem oursSmall_run {s : State} {p : Nat} {r : Run} (hr : s.runs (runOf p) = some r)
    (hok : RunOk r) : ∃ b, s.oursSmall p = .ok b ∧
      (b = true ↔ ∃ i, i < r.elems ∧ p = blockAddr (runOf p) r i) := by
  have hpos := hok.elem_pos
  have hhead : ¬ (r.magic ≠ kMagicRun ∨ r.cls = 0 ∨ kNumClasses < r.cls) := by
    have h₁ := hok.magic
    have h₂ := hok.cls_pos
    have h₃ := hok.cls_le
    omega
  have hdata : runOf p + dataOffsetPadded r.elems = runData (runOf p) r := rfl
  simp only [State.oursSmall, runWords_run hr, bind, Except.bind, hhead, if_false, hdata]
  by_cases hlow : p < runData (runOf p) r
  · refine ⟨false, by rw [if_pos hlow], by simp, ?_⟩
    rintro ⟨i, hi, hp⟩
    unfold blockAddr at hp
    omega
  · refine ⟨_, by rw [if_neg hlow], ?_⟩
    rw [decide_eq_true_eq]
    constructor
    · rintro ⟨hlt, hmod⟩
      refine ⟨(p - runData (runOf p) r) / r.elem, ?_, ?_⟩
      · exact Nat.div_lt_of_lt_mul (by rwa [Nat.mul_comm])
      · unfold blockAddr
        rw [Nat.div_mul_cancel (Nat.dvd_of_mod_eq_zero hmod)]
        omega
    · rintro ⟨i, hi, hp⟩
      have hsub : p - runData (runOf p) r = i * r.elem := by
        unfold blockAddr at hp
        omega
      rw [hsub]
      exact ⟨Nat.mul_lt_mul_of_pos_right hi hpos, Nat.mul_mod_left _ _⟩

/-- Distance of block `i` from the base of its run. -/
def blockOffset (r : Run) (i : Nat) : Nat := dataOffsetPadded r.elems + i * r.elem

theorem blockAddr_offset (a : Nat) (r : Run) (i : Nat) : blockAddr a r i = a + blockOffset r i := by
  unfold blockAddr runData blockOffset
  omega

theorem RunOk.offset_lt {r : Run} (h : RunOk r) {i : Nat} (hi : i < r.elems) :
    sizeofRun ≤ blockOffset r i ∧ blockOffset r i + r.elem ≤ runMap (r.cls - 1) := by
  have hrange := h.block_range hi 0
  rw [blockAddr_offset] at hrange
  omega

theorem Reserved.run_base {s : State} (h : Reserved s) {a : Nat} {r : Run}
    (hr : s.runs a = some r) : a % kRunSize = 0 := by
  obtain ⟨g, hg, rfl, -, halign⟩ := h.runHome a r hr
  have hmod := (h.inside g hg).1
  rwa [halign] at hmod

/-- `run_of` finds the base of the run for a block in its first 2 MiB. -/
theorem runOf_low {a off : Nat} (ha : a % kRunSize = 0) (hoff : off < kRunSize) :
    runOf (a + off) = a :=
  roundDown_of_mod ha (Nat.le_add_right _ _) (by omega)

theorem runOf_high {a off : Nat} (ha : a % kRunSize = 0) (h₁ : kRunSize ≤ off)
    (h₂ : off < 2 * kRunSize) : runOf (a + off) = a + kRunSize := by
  refine roundDown_of_mod ?_ (by omega) (by omega)
  rw [Nat.add_mod, ha]
  rfl

theorem Core.inReserve {s : State} {L : Nat → List Nat} (h : Core s L) (hres : Reserved s)
    {p x : Nat} (hw : Within s p x) : s.inReserve x = true := by
  obtain ⟨g, hg, hx, -⟩ := h.within_map hw
  obtain ⟨-, -, hlo, hhi, -⟩ := hres.inside g hg
  unfold Span.Mem at hx
  exact decide_eq_true ⟨by omega, by omega⟩

end Memflux.Alloc
