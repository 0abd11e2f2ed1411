import Memflux.Alloc.World

/-! # What the purge destroys

`purge_run` cuts the data of a run into pages and tests, for each page, the blocks
between two floor divisions. Where the block size divides the page size, or is a
multiple of it, these are all the blocks that meet the page; for the other sizes
below a page they miss the block that straddles its end.
-/

namespace Memflux.Alloc

open Spans BitWords DList

/-! ## The two grids -/

/-- If blocks of `e` bytes divide pages of `P` bytes, or the other way round, the
blocks that meet a page lie between the two quotients. -/
theorem grid_cover {e P off i : Nat} (he : 0 < e) (hdiv : e ∣ P ∨ P ∣ e) (hoff : P ∣ off)
    (hne : off / e < (off + P) / e) (hlow : i * e < off + P) (hhigh : off < i * e + e) :
    off / e ≤ i ∧ i < (off + P) / e := by
  have hceil : off < (i + 1) * e := by rwa [Nat.succ_mul]
  refine ⟨Nat.le_of_lt_succ ((Nat.div_lt_iff_lt_mul he).mpr hceil), ?_⟩
  have hend : (off + P) / e * e = off + P := by
    rcases hdiv with h | h
    · exact Nat.div_mul_cancel (Nat.dvd_add (h.trans hoff) h)
    · -- the quotient times `e` is a multiple of `P` in `(off, off + P]`
      have hle := Nat.div_mul_le_self (off + P) e
      have hgt : off < (off + P) / e * e := (Nat.div_lt_iff_lt_mul he).mp hne
      have hmul : P ∣ (off + P) / e * e - off := Nat.dvd_sub (h.mul_left _) hoff
      have := Nat.le_of_dvd (by omega) hmul
      omega
  exact Nat.lt_of_mul_lt_mul_right (hend.symm ▸ hlow)

/-! ## The pages that are given back -/

theorem mem_purgeLoop {r : Run} {fuel off off' : Nat} (h : off' ∈ r.purgeLoop fuel off)
    (hoff : 4096 ∣ off) :
    4096 ∣ off' ∧ off' + 4096 ≤ r.elems * r.elem ∧
      off' / r.elem < min ((off' + 4096) / r.elem) r.elems ∧
      r.pageFree (off' / r.elem) (min ((off' + 4096) / r.elem) r.elems) = true := by
  induction fuel generalizing off with
  | zero => cases h
  | succ fuel ih =>
      unfold Run.purgeLoop at h
      split at h
      · rename_i hin
        dsimp only at h
        split at h
        · cases h
        · rename_i hlt
          rcases List.mem_append.mp h with h | h
          · split at h
            · rename_i hfree
              obtain rfl := List.mem_singleton.mp h
              exact ⟨hoff, hin, Nat.lt_of_not_le hlt, hfree⟩
            · cases h
          · exact ih h (Nat.dvd_add hoff (Nat.dvd_refl _))
      · cases h

theorem mem_purgeOffsets {r : Run} {off : Nat} (h : off ∈ r.purgeOffsets) :
    (r.elem < 4096 ∨ 4096 ∣ r.elem) ∧ 4096 ∣ off ∧ off + 4096 ≤ r.elems * r.elem ∧
      off / r.elem < min ((off + 4096) / r.elem) r.elems ∧
      r.pageFree (off / r.elem) (min ((off + 4096) / r.elem) r.elems) = true := by
  unfold Run.purgeOffsets at h
  split at h
  · cases h
  · rename_i hskip
    exact ⟨by omega, mem_purgeLoop h (Nat.dvd_zero _)⟩

/-- The block sizes for which the tested blocks are all that meet a page. -/
def Covers (elem : Nat) : Prop := elem ∣ 4096 ∨ 4096 ≤ elem

theorem purge_spares {r : Run} (hr : RunOk r) (hsize : Covers r.elem) {off i : Nat}
    (hoff : off ∈ r.purgeOffsets) (hi : i < r.elems) (hbit : bitAt r.bits i = false)
    (hlow : i * r.elem < off + 4096) : i * r.elem + r.elem ≤ off := by
  obtain ⟨hskip, hmod, -, hne, hfree⟩ := mem_purgeOffsets hoff
  by_contra hhigh
  have hdiv : r.elem ∣ 4096 ∨ 4096 ∣ r.elem := by
    rcases hsize with h | h
    · exact .inl h
    · exact .inr (hskip.resolve_left (Nat.not_lt.mpr h))
  obtain ⟨h₁, h₂⟩ := grid_cover hr.elem_pos hdiv hmod (by omega) hlow (by omega)
  have hset := List.all_eq_true.mp hfree i (List.mem_range'_1.mpr (by omega))
  rw [hbit] at hset
  cases hset

/-- The addresses that `purge_run` passes to `madvise` for the run `r` at `a`. -/
def State.advised (s : State) (a : Nat) (r : Run) (t : Nat) : List Nat :=
  if s.runIdle r t then []
  else if s.dirtyIdle r t then r.purgeOffsets.map fun off => runData a r + off
  else []

/-! ## The headers of a class -/

/-- The headers a run of class `c` can have: mapped, a block taken, an allocated
block given back, and what the lists and the trim pass write. -/
inductive Reached (c : Nat) : Run → Prop where
  | mapped (now : Nat) : Reached c (State.freshRun (c + 1) now)
  | taken {r : Run} {i : Nat} (now : Nat) : Reached c r → r.findFree = some i →
      Reached c (r.taken i now)
  | given {r : Run} {i : Nat} (now now' : Nat) : Reached c r → i < r.elems →
      bitAt r.bits i = false → Reached c (r.given i now now')
  | linked {r r' : Run} : Reached c r → r'.body = r.body → Reached c r'
  | purged {r : Run} (t : Nat) : Reached c r → Reached c { r with lastTouchMs := t }

theorem Reached.ok {c : Nat} (hc : c < kNumClasses) {r : Run} (h : Reached c r) :
    RunOk r ∧ r.cls = c + 1 := by
  induction h with
  | mapped now => exact ⟨freshRun_ok hc, rfl⟩
  | taken now _ hi ih => exact ⟨taken_ok ih.1 hi, ih.2⟩
  | given now now' _ hi hbit ih => exact ⟨given_ok ih.1 hi hbit, ih.2⟩
  | linked _ hb ih => exact ⟨ih.1.of_body hb, (body_cls hb).trans ih.2⟩
  | purged t _ ih =>
      obtain ⟨h, hcls⟩ := ih
      exact ⟨⟨h.magic, h.cls_pos, h.cls_le, h.elems, h.elem, h.words, h.high, h.used⟩, hcls⟩

theorem reached_full {c j : Nat} (hc : c < kNumClasses) (hj : j ≤ elemsOf c) :
    ∃ r, Reached c r ∧ ∀ i, i < elemsOf c → bitAt r.bits i = decide (j ≤ i) := by
  induction j with
  | zero =>
      refine ⟨_, .mapped 0, fun i hi => ?_⟩
      simp [State.freshRun, bitAt_ones, hi]
  | succ j ih =>
      obtain ⟨r, hr, hbits⟩ := ih (by omega)
      obtain ⟨hok, hcls⟩ := hr.ok hc
      have helems : r.elems = elemsOf c := by rw [hok.elems, hcls]; rfl
      obtain ⟨k, hk⟩ := findFree_of_bit hok (i := j) (by omega) (by rw [hbits j (by omega)]; simp)
      obtain ⟨hlt, hset, hmin, htaken⟩ := findFree_spec hok hk
      have hkj : k = j := by
        rw [hbits k (by omega), decide_eq_true_eq] at hset
        by_contra hne
        have hclear := hmin j (by omega)
        rw [hbits j (by omega)] at hclear
        simp at hclear
      subst hkj
      refine ⟨_, hr.taken 0 hk, fun i hi => ?_⟩
      rw [htaken 0 i, hbits i hi, ← Bool.decide_and]
      exact decide_eq_decide.mpr (by omega)

theorem reached_hole {c j m : Nat} (hc : c < kNumClasses) (hj : j ≤ elemsOf c) (hm : m ≤ j) :
    ∃ r, Reached c r ∧ ∀ i, i < elemsOf c → bitAt r.bits i = decide (i < m ∨ j ≤ i) := by
  induction m with
  | zero =>
      obtain ⟨r, hr, hbits⟩ := reached_full hc hj
      exact ⟨r, hr, fun i hi => by rw [hbits i hi]; simp⟩
  | succ m ih =>
      obtain ⟨r, hr, hbits⟩ := ih (by omega)
      obtain ⟨hok, hcls⟩ := hr.ok hc
      have helems : r.elems = elemsOf c := by rw [hok.elems, hcls]; rfl
      have hclear : bitAt r.bits m = false := by
        rw [hbits m (by omega)]
        simp only [decide_eq_false_iff_not]
        omega
      refine ⟨_, hr.given 0 0 (by omega) hclear, fun i hi => ?_⟩
      rw [given_bits hok (by omega), hbits i hi, ← Bool.decide_or]
      exact decide_eq_decide.mpr (by omega)

/-! ## Exactly the sizes that are purged safely -/

/-- The page at `page` holds no byte of the header and bitmap of the run at `a`,
and no byte of an allocated block. -/
def PageSpares (a : Nat) (r : Run) (page : Nat) : Prop :=
  ∀ x, page ≤ x → x < page + 4096 →
    a + sizeofRun + bitsWords r.elems * 8 ≤ x ∧
      ∀ i, i < r.elems → bitAt r.bits i = false →
        ¬ (blockAddr a r i ≤ x ∧ x < blockAddr a r i + r.elem)

/-- No purge of a run of class `c`, whatever its header and the clock, gives back a
page with live data. -/
def ClassSpared (c : Nat) : Prop :=
  ∀ r, Reached c r → ∀ (s : State) (a t : Nat), ∀ page ∈ s.advised a r t, PageSpares a r page

theorem classSpared_of_covers {c : Nat} (hc : c < kNumClasses) (hsize : Covers (kSize c)) :
    ClassSpared c := by
  intro r hr s a t page hpage x hlow hhigh
  obtain ⟨hok, hcls⟩ := hr.ok hc
  have helem : r.elem = kSize c := by rw [hok.elem, hcls]; rfl
  have hoff : ∃ off ∈ r.purgeOffsets, page = runData a r + off := by
    unfold State.advised at hpage
    split at hpage
    · cases hpage
    · split at hpage
      · obtain ⟨off, ho, hp⟩ := List.mem_map.mp hpage
        exact ⟨off, ho, hp.symm⟩
      · cases hpage
  obtain ⟨off, hoff, rfl⟩ := hoff
  constructor
  · have hdata := hok.geometry.data_ge
    rw [← hok.elems] at hdata
    unfold runData at hlow
    omega
  · rintro i hi hbit ⟨h₁, h₂⟩
    unfold blockAddr at h₁ h₂
    have hspare := purge_spares hok (helem ▸ hsize) hoff hi hbit (by omega)
    omega

/-- In the other classes, the first page of the data ends inside a block, and goes
when the whole blocks in it are free. -/
theorem not_classSpared {c : Nat} (hc : c < kNumClasses) (hsize : ¬ Covers (kSize c)) :
    ¬ ClassSpared c := by
  intro hspared
  have hnum : ∀ c, c < 68 → kSize c < 4096 →
      4096 / kSize c + 1 ≤ elemsOf c ∧ 4096 ≤ elemsOf c * kSize c := by decide +kernel
  have hlt : kSize c < 4096 := Nat.lt_of_not_le fun h => hsize (.inr h)
  obtain ⟨hroom, hdata⟩ := hnum c hc hlt
  have hpos := (geometry hc).elem_pos
  generalize hk : 4096 / kSize c = k at hroom
  have hk₁ : 1 ≤ k := by
    rw [← hk]
    exact (Nat.one_le_div_iff (by omega)).mpr (by omega)
  have hmod : 4096 % kSize c ≠ 0 := fun h => hsize (.inl (Nat.dvd_of_mod_eq_zero h))
  have hdiv := Nat.div_add_mod 4096 (kSize c)
  rw [hk, Nat.mul_comm] at hdiv
  -- blocks below `k` are free, block `k` starts in the page and is allocated
  obtain ⟨r, hr, hbits⟩ := reached_hole hc hroom (m := k) (by omega)
  obtain ⟨hok, hcls⟩ := hr.ok hc
  have helems : r.elems = elemsOf c := by rw [hok.elems, hcls]; rfl
  have helem : r.elem = kSize c := by rw [hok.elem, hcls]; rfl
  have hclear : bitAt r.bits k = false := by
    rw [hbits k (by omega)]
    simp
  have hused : r.used ≠ 0 := by
    intro hu
    have hset := bit_of_clears_eq_zero (hok.used.symm.trans hu) (k := k) (by omega)
    rw [hclear] at hset
    cases hset
  have hfree : r.pageFree 0 k = true := by
    refine List.all_eq_true.mpr fun b hb => ?_
    obtain ⟨-, hb⟩ := List.mem_range'_1.mp hb
    rw [hbits b (by omega)]
    exact decide_eq_true (.inl (by omega))
  have hmem : 0 ∈ r.purgeOffsets := by
    unfold Run.purgeOffsets
    rw [helems, helem, if_neg (by omega)]
    obtain ⟨fuel, hfuel⟩ : ∃ fuel, elemsOf c * kSize c / 4096 = fuel + 1 :=
      ⟨_, (Nat.succ_pred_eq_of_pos (Nat.div_pos hdata (by omega))).symm⟩
    rw [hfuel, Run.purgeLoop, helems, helem]
    have hmin : min (4096 / kSize c) (elemsOf c) = k := by omega
    simp only [Nat.zero_add, hdata, if_true, Nat.zero_div, hmin, hfree]
    rw [if_neg (by omega)]
    exact List.mem_append_left _ (List.mem_singleton.mpr rfl)
  have hpage := hspared r hr (State.init 0 0) 0 0 (runData 0 r + 0) (by
    unfold State.advised State.runIdle State.dirtyIdle
    rw [if_neg (by simp [hused]), if_pos (by simp [State.init])]
    exact List.mem_map_of_mem hmem)
  have hin := (hpage (blockAddr 0 r k) (by unfold blockAddr; omega)
    (by unfold blockAddr; rw [helem]; omega)).2 k (by omega) hclear
  exact hin ⟨Nat.le_refl _, by omega⟩

/-! ## Live bytes across a trim pass -/

/-- The block at `p` is large, or of a size that is purged safely. -/
def SafeBlock (s : State) (p : Nat) : Prop :=
  ∀ a r i, SmallBlock s a r i → p = blockAddr a r i → Covers r.elem

theorem Core.safeBlock {s : State} {L : Nat → List Nat} (h : Core s L) {a i : Nat} {r : Run}
    (hb : SmallBlock s a r i) (hsize : Covers r.elem) : SafeBlock s (blockAddr a r i) := by
  intro b q j hq hp
  obtain ⟨hsame, -⟩ := h.block_place hb.run hb.index hq.run hq.index hp
  subst hsame
  obtain rfl : r = q := Option.some.inj (hb.run.symm.trans hq.run)
  exact hsize

theorem Core.not_within_purged {s : State} {L : Nat → List Nat} (h : Core s L) {p x : Nat}
    (hsafe : SafeBlock s p) (hx : InPurgedPage s x) : ¬ Within s p x := by
  intro hw
  obtain ⟨a, r, off, hr, hoff, hlow, hhigh⟩ := hx
  have hok := h.run a r hr
  obtain ⟨g, hg, rfl, hsize⟩ := h.maps.ofRun a r hr
  obtain ⟨-, -, hend, -, -⟩ := mem_purgeOffsets hoff
  have hmap := hok.geometry.map_ge
  rw [← hok.elems, ← hok.elem] at hmap
  have hstop : g.stop = g.base + g.size := rfl
  have hdata : runData g.base r = g.base + dataOffsetPadded r.elems := rfl
  obtain ⟨g', hg', hmem, hblock⟩ := h.within_map hw
  obtain rfl : g' = g := h.maps.apart.eq_of_mem hg' hg hmem ⟨by omega, by omega⟩
  have hstart := hw.low
  rcases hblock with ⟨q, i, hb, rfl, hlt⟩ | ⟨l, hl, -⟩
  · have hq := hb.run
    rw [hr] at hq
    cases hq
    unfold blockAddr at hstart hlt
    have hspare := purge_spares hok (hsafe _ r i hb rfl) hoff hb.index hb.bit (by omega)
    omega
  · have hnone := (h.header_alone hg hr (Nat.le_refl _) (by omega)).2
    rw [hl] at hnone
    cases hnone

/-- The classes that are purged safely are those whose size divides a page or is at
least one; and in every history a trim pass keeps the bytes of all live blocks of
these classes, and of the large ones. -/
theorem live_data_kept {runIdle dirtyIdle : Nat} {w : World}
    (hreach : (World.init runIdle dirtyIdle).Reaches World.Clean w) :
    (∀ c, c < kNumClasses → (ClassSpared c ↔ Covers (kSize c))) ∧
      ∀ clock s', w.st.trimPass clock = .ok s' →
        ∀ p x, Within w.st p x → SafeBlock w.st p → s'.mem x = w.st.mem x := by
  refine ⟨fun c hc => ⟨fun h => ?_, classSpared_of_covers hc⟩, ?_⟩
  · by_contra hsize
    exact not_classSpared hc hsize h
  · intro clock s' ht p x hin hsafe
    have hsound : Sound w.st w.held := (init_sound runIdle dirtyIdle).reaches hreach
    obtain ⟨-, htrim⟩ := hsound.trim ht
    obtain ⟨L, hcore⟩ := hsound.core
    by_contra hne
    exact hcore.not_within_purged hsafe (htrim.mem x hne) hin

/-- Two blocks of 4096 bytes, the first one freed: a pass gives back every page but that
of the second one, whose bytes stay as its client wrote them. -/
theorem live_data_kept_pass :
    ∃ w s', (World.init 1000 1000).Reaches World.Clean w ∧ w.held = [⟨1073750016, 1073750016⟩] ∧
      w.st.mem 1073750016 = 7 ∧ w.st.trimPass 10000 = .ok s' ∧ s'.purged = 511 * 4096 ∧
      (∀ x, Within w.st 1073750016 x → s'.mem x = w.st.mem x) ∧ ClassSpared 31 ∧ ¬ ClassSpared 28 := by
  have hplay : ∃ w, (World.init 1000 1000).Reaches World.Clean w ∧
      (decide (w.held = [⟨1073750016, 1073750016⟩]) &&
        ((w.st.runs 1073741824).any fun r =>
          decide (1 < r.elems ∧ bitAt r.bits 1 = false ∧ blockAddr 1073741824 r 1 = 1073750016 ∧
            r.elem = 4096)) &&
        ((w.st.poke 1073750016 7).trimPass 10000).toOption.any
          fun s' => decide (s'.purged = 511 * 4096)) = true := by
    refine World.Reaches.refl.play (l := [(0, Os.granting (2 ^ 30) 1, .malloc 4096),
      (0, Os.granting (2 ^ 30) 1, .malloc 4096), (0, Os.granting (2 ^ 30) 1, .free 1073745920)])
      ?_
    decide +kernel
  obtain ⟨w, hreach, htest⟩ := hplay
  rw [Bool.and_eq_true, Bool.and_eq_true] at htest
  obtain ⟨⟨hheld, hrun⟩, htrim⟩ := htest
  have hheld := of_decide_eq_true hheld
  obtain ⟨r, hr, hblock⟩ := (Option.any_eq_true _ _).mp hrun
  obtain ⟨hi, hbit, haddr, helem⟩ := of_decide_eq_true hblock
  obtain ⟨s', hs', hpurged⟩ := World.ok_of_any htrim
  have hlast : 1073750016 < 1073750016 + r.elem := by omega
  have hmem : ⟨1073750016, 1073750016⟩ ∈ w.held := by simp [hheld]
  have hwithin : Within w.st 1073750016 1073750016 :=
    .small ⟨hr, hi, hbit⟩ haddr.symm (Nat.le_refl _) hlast
  have hreach' : (World.init 1000 1000).Reaches World.Clean ⟨w.st.poke 1073750016 7, w.held⟩ :=
    hreach.step 0 _ _ none (poke_clean hmem hwithin 7) rfl
  obtain ⟨hsizes, hkept⟩ := live_data_kept hreach'
  have hsafe : SafeBlock (w.st.poke 1073750016 7) 1073750016 := by
    obtain ⟨L, hcore⟩ := ((init_sound 1000 1000).reaches hreach').core
    have hblock := hcore.safeBlock ⟨hr, hi, hbit⟩ (.inr (by rw [helem]))
    rwa [haddr] at hblock
  refine ⟨_, s', hreach', hheld, State.poke_same _ _ _, hs', of_decide_eq_true hpurged,
    fun x hx => hkept 10000 s' hs' 1073750016 x hx hsafe, ?_, fun h => ?_⟩
  · exact (hsizes 31 (by decide)).mpr (.inr (by decide))
  · have hsize := (hsizes 28 (by decide)).mp h
    revert hsize
    unfold Covers
    decide

/-- Two blocks of 2560 bytes, the first one freed: the second one is held, begins in
the first page, and loses the byte that its client wrote. -/
theorem live_data_destroyed :
    ∃ w s' p x, (World.init 1000 1000).Reaches World.Clean w ∧ (∃ h ∈ w.held, h.block = p) ∧
      w.st.trimPass 10000 = .ok s' ∧ Within w.st p x ∧ s'.mem x ≠ w.st.mem x := by
  have hplay : ∃ w, (World.init 1000 1000).Reaches World.Clean w ∧
      (decide (w.held = [⟨1073748480, 1073748480⟩]) &&
        ((w.st.runs 1073741824).any fun r =>
          decide (1 < r.elems ∧ bitAt r.bits 1 = false ∧ blockAddr 1073741824 r 1 = 1073748480 ∧
            0 < r.elem)) &&
        ((w.st.poke 1073748480 1).trimPass 10000).toOption.any
          fun s' => decide (s'.mem 1073748480 = 0)) = true := by
    refine World.Reaches.refl.play (l := [(0, Os.granting (2 ^ 30) 1, .malloc 2560),
      (0, Os.granting (2 ^ 30) 1, .malloc 2560), (0, Os.granting (2 ^ 30) 1, .free 1073745920)])
      ?_
    decide +kernel
  obtain ⟨w, hreach, htest⟩ := hplay
  rw [Bool.and_eq_true, Bool.and_eq_true] at htest
  obtain ⟨⟨hheld, hrun⟩, htrim⟩ := htest
  have hheld := of_decide_eq_true hheld
  obtain ⟨r, hr, hblock⟩ := (Option.any_eq_true _ _).mp hrun
  obtain ⟨hi, hbit, haddr, hpos⟩ := of_decide_eq_true hblock
  have hwithin : Within w.st 1073748480 1073748480 :=
    .small ⟨hr, hi, hbit⟩ haddr.symm (Nat.le_refl _) (Nat.lt_add_of_pos_right hpos)
  have hmem : ⟨1073748480, 1073748480⟩ ∈ w.held := by simp [hheld]
  have hreach' : (World.init 1000 1000).Reaches World.Clean ⟨w.st.poke 1073748480 1, w.held⟩ :=
    hreach.step 0 _ _ none (poke_clean hmem hwithin 1) rfl
  obtain ⟨s', hs', hzero⟩ := World.ok_of_any htrim
  refine ⟨_, s', 1073748480, 1073748480, hreach', ⟨_, hmem, rfl⟩, hs',
    .small ⟨hr, hi, hbit⟩ haddr.symm (Nat.le_refl _) (Nat.lt_add_of_pos_right hpos), ?_⟩
  have hone := State.poke_same w.st 1073748480 1
  rw [of_decide_eq_true hzero, hone]
  decide

end Memflux.Alloc
