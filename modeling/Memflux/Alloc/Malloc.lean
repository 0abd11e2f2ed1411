import Memflux.Alloc.Blocks
import Memflux.Alloc.Steps

/-! # Everything `malloc` can do

`Malloced` lists the outcomes of `malloc` in an initialised state without a cached
block: the request for a mapping is refused, a large block is mapped, a block is
taken from the first run with room, or from a new run. Later modules split on it
and never unfold `malloc`.
-/

namespace Memflux.Alloc

open Spans BitWords DList

/-- Without a reservation, the kernel answers a mapping request with a fresh range. -/
def AnonFresh (s : State) (os : Os) (size _align : Nat) : Prop :=
  s.resStart = 0 → ∀ a, State.mmapAnon os size = some a → Fresh s a size

/-- A mapping request that keeps the bump pointer below `2 ^ 64` and is answered
honestly. -/
def Grantable (s : State) (os : Os) (size align : Nat) : Prop :=
  s.BumpFits os size align ∧ AnonFresh s os size align

theorem kRunSize_dvd {b : Nat} (h : b % kRunSize = 0) : b % 4096 = 0 := by
  unfold kRunSize at h
  omega

theorem Ledger.getsFresh {s : State} (h : Ledger s) {os : Os} {size align : Nat}
    (hsize : size % 4096 = 0) (halign : align = 4096 ∨ align = kRunSize)
    (hg : Grantable s os size align) : GetsFresh s os size align := by
  intro a ha
  rcases hm : s.mapRegion os size align with ⟨base, s₁⟩
  rw [hm] at ha
  obtain rfl : base = some a := ha
  unfold State.mapRegion at hm
  split at hm
  · rename_i h0
    have hres := h.reserved h0
    have hpos : 0 < align := by rcases halign with rfl | rfl <;> decide
    obtain ⟨h1, h2, h3, h4, -, -⟩ := reserveMap_place hpos hres.fits (hg.1 h0) hm
    have hlow := hres.low
    have hfits := hres.fits
    refine ⟨by omega, ?_, h3, hsize, by omega, fun g hg => .inr ?_⟩
    · rcases halign with rfl | rfl
      · exact h1
      · exact kRunSize_dvd h1
    · have hin := (hres.inside g hg).2.2.2.2
      omega
  · rename_i h0
    split at hm
    · cases hm
    · rename_i b hb
      cases hm
      exact hg.2 (by simpa using h0) a hb

/-- A request that the reservation grants does not wrap the bump pointer. -/
theorem Ledger.granted_fits {s s' : State} (h : Ledger s) {os : Os} {size align a : Nat}
    (halign : align = 4096 ∨ align = kRunSize)
    (hm : s.mapRegion os size align = (some a, s')) : s.BumpFits os size align := by
  intro h0
  have hfits := (h.reserved h0).fits
  have hal : 0 < align ∧ align ≤ 2097152 := by
    rcases halign with rfl | rfl <;> decide
  unfold State.mapRegion at hm
  rw [if_pos h0] at hm
  unfold State.reserveMap at hm
  dsimp only at hm
  split at hm
  · cases hm
  · rename_i hin
    split at hm
    · rename_i hok
      simp only [State.mmapFixed, Bool.and_eq_true, decide_eq_true_eq] at hok
      obtain ⟨-, hbase, hsize, htop⟩ := hok
      have hwrap : s.resBump + align - 1 < 2 ^ 64 ∨
          State.reserveBase s.resBump align = 0 := by
        by_cases hw : s.resBump + align - 1 < 2 ^ 64
        · exact .inl hw
        · refine .inr ?_
          have hlt : wrap64 (s.resBump + align - 1) < align := by
            have hbump := (h.reserved h0).high
            unfold wrap64
            omega
          rw [State.reserveBase, roundDown, Nat.div_eq_of_lt hlt, Nat.zero_mul]
      have hw := hwrap.resolve_right hbase
      have hlt := lt_roundDown_add (w := s.resBump + align - 1) hal.1
      have hb : State.reserveBase s.resBump align = roundDown (s.resBump + align - 1) align := by
        rw [State.reserveBase, wrap64, Nat.mod_eq_of_lt hw]
      rw [wrap64, Nat.mod_eq_of_lt (by omega)] at hin
      omega
    · cases hm

/-- What `malloc(n)` does in the initialised state `s`. -/
inductive Malloced (s : State) (t : Tid) (os : Os) (n : Nat) : Option Nat → State → Prop where
  | failed {size align b : Nat} (asks : s.asks t n = some (size, align))
      (refused : s.mapRegion os size align = (none, { s with resBump := b })) :
      Malloced s t os n none { s with resBump := b }
  | large {a al b : Nat} (size : kLargeMin ≤ n) (fresh : Fresh s a (largeMap n)) :
      Malloced s t os n (some (a + sizeofLargeHdr)) (s.withLarge n a al b)
  | taken {a i : Nat} {r : Run} (size : n < kLargeMin)
      (room : s.firstRoom s.maps.length (s.cls (classOf n - 1)).head = .ok a)
      (run : s.runs a = some r) (cls : r.cls = classOf n) (free : r.findFree = some i) :
      Malloced s t os n (some (blockAddr a r i)) (s.afterTake a r i (os.now 1))
  | grown {a al b : Nat} {runs : Nat → Option Run} {l : List Nat} {r : Run} (size : n < kLargeMin)
      (full : s.firstRoom s.maps.length (s.cls (classOf n - 1)).head = .ok 0)
      (fresh : Fresh s a (runMap (classOf n - 1)))
      (links : Relinked (put s.runs a (some (State.freshRun (classOf n) (os.now 0)))) runs l)
      (run : runs a = some r) (ok : RunOk r) (cls : r.cls = classOf n) (free : r.findFree = some 0) :
      Malloced s t os n (some (blockAddr a r 0))
        ((s.withRun (classOf n - 1) a al b runs).afterTake a r 0 (os.now 1))

theorem classOf_lt {n : Nat} (hn : n < kLargeMin) :
    classOf n - 1 < kNumClasses ∧ classOf n - 1 + 1 = classOf n := by
  obtain ⟨c, hc, hlt, -⟩ := classOf_spec (n := n) (by unfold kLargeMin at hn; omega)
  omega

theorem asks_small {s : State} {t : Tid} {n : Nat} (hn : n < kLargeMin) (hcache : s.tcache t = none)
    (hroom : s.firstRoom s.maps.length (s.cls (classOf n - 1)).head = .ok 0) :
    s.asks t n = some (runMap (classOf n - 1), kRunSize) := by
  have hpop : s.tcachePop t (classOf n - 1) = none := by
    simp [State.tcachePop, hcache]
  simp only [State.asks, if_neg (Nat.not_le.mpr hn), hpop, hroom]

/-- The header a fresh run has after it was linked in: its first block is free. -/
theorem freshRun_findFree {c now : Nat} (hc : c < kNumClasses) {r : Run}
    (hb : r.body = (State.freshRun (c + 1) now).body) {i : Nat} (hi : r.findFree = some i) :
    i = 0 := by
  have hfresh : RunOk (State.freshRun (c + 1) now) := freshRun_ok hc
  have hok : RunOk r := hfresh.of_body hb
  have hbits : r.bits = ones (elemsOf c) := by
    show r.body.bits = _
    rw [hb]
    rfl
  obtain ⟨-, -, hmin, -⟩ := findFree_spec hok hi
  by_contra h0
  have hset := hmin 0 (by omega)
  rw [hbits, bitAt_ones, decide_eq_false_iff_not] at hset
  have hpos := (Alloc.geometry hc).elems_pos
  omega

/-- The ways the slow path of `malloc` for class `c` ends. -/
inductive Slow (s : State) (os : Os) (c : Nat) : Option Nat → State → Prop where
  | failed {b : Nat} (full : s.firstRoom s.maps.length (s.cls c).head = .ok 0)
      (refused : s.mapRegion os (runMap c) kRunSize = (none, { s with resBump := b })) :
      Slow s os c none { s with resBump := b }
  | taken {a i : Nat} {r : Run} (room : s.firstRoom s.maps.length (s.cls c).head = .ok a)
      (run : s.runs a = some r) (cls : r.cls = c + 1) (free : r.findFree = some i) :
      Slow s os c (some (blockAddr a r i)) (s.afterTake a r i (os.now 1))
  | grown {a al b : Nat} {runs : Nat → Option Run} {l : List Nat} {r : Run}
      (full : s.firstRoom s.maps.length (s.cls c).head = .ok 0) (fresh : Fresh s a (runMap c))
      (links : Relinked (put s.runs a (some (State.freshRun (c + 1) (os.now 0)))) runs l)
      (run : runs a = some r) (ok : RunOk r) (cls : r.cls = c + 1) (free : r.findFree = some 0) :
      Slow s os c (some (blockAddr a r 0)) ((s.withRun c a al b runs).afterTake a r 0 (os.now 1))

/-- The mapping that the slow path may ask for is fresh. -/
def SlowFresh (s : State) (os : Os) (c : Nat) : Prop :=
  s.firstRoom s.maps.length (s.cls c).head = .ok 0 → GetsFresh s os (runMap c) kRunSize

theorem mallocSlow_cases {s : State} {L : Nat → List Nat} (h : Core s L) {os : Os} {c : Nat}
    (hc : c < kNumClasses) (hfresh : SlowFresh s os c) :
    ∃ ans s', s.mallocSlow os c = .ok (ans, s') ∧ Slow s os c ans s' ∧ ∃ L', Core s' L' := by
  obtain ⟨last, hseg⟩ := h.lists.chain _ hc
  rcases firstRoom_spec hseg (h.length_le hc) with ⟨hroom, -⟩ | ⟨a, ha, r, hroom, hr, hfull⟩
  · rcases runNew_spec h hc (hfresh hroom) with ⟨b, hm, hnew⟩ | ⟨a, al, b, runs, hnew, hf, hcore, hrel⟩
    · refine ⟨none, { s with resBump := b }, ?_, .failed hroom hm, L, h.congr rfl rfl rfl rfl⟩
      simp only [State.mallocSlow, hroom, bind, Except.bind, if_true, hnew]
    · obtain ⟨r, hr, hb⟩ := relinked_some' hrel (put_same s.runs a _)
      have hused : r.used = 0 := by
        show r.body.used = 0
        rw [hb]
        rfl
      have hok := hcore.run a r hr
      have hroom' : r.used ≠ r.elems := by
        have hpos := hok.geometry.elems_pos
        rw [← hok.elems] at hpos
        omega
      obtain ⟨i, hi, htake, hcore'⟩ := runTake_spec hcore hr hroom' (os.now 1)
      obtain rfl := freshRun_findFree hc hb hi
      refine ⟨_, _, ?_, .grown hroom hf hrel hr hok (body_cls hb) hi, _, hcore'⟩
      simp only [State.mallocSlow, hroom, bind, Except.bind, if_true, hnew]
      exact htake
  · obtain ⟨q, hq, hcls⟩ := h.lists.own _ hc a ha
    rw [hr] at hq
    cases hq
    obtain ⟨i, hi, htake, hcore⟩ := runTake_spec h hr hfull (os.now 1)
    have ha0 : a ≠ 0 := (hseg.node ha).1
    refine ⟨_, _, ?_, .taken hroom hr hcls hi, L, hcore⟩
    simp only [State.mallocSlow, hroom, bind, Except.bind, ha0, if_false]
    exact htake

theorem mallocSlow_spec {s : State} {L : Nat → List Nat} (h : Core s L) {t : Tid}
    (hcache : s.tcache t = none) {os : Os} {n : Nat} (hn : n < kLargeMin)
    (hfresh : s.firstRoom s.maps.length (s.cls (classOf n - 1)).head = .ok 0 →
      GetsFresh s os (runMap (classOf n - 1)) kRunSize) :
    ∃ ans s', s.mallocSlow os (classOf n - 1) = .ok (ans, s') ∧ Malloced s t os n ans s' ∧
      ∃ L', Core s' L' := by
  obtain ⟨hc, hsucc⟩ := classOf_lt hn
  obtain ⟨ans, s', hcall, hslow, hcore⟩ := mallocSlow_cases h hc hfresh
  refine ⟨ans, s', hcall, ?_, hcore⟩
  cases hslow with
  | failed full refused => exact .failed (asks_small hn hcache full) refused
  | taken room run cls free => exact .taken hn room run (cls.trans hsucc) free
  | grown full fresh links run ok cls free =>
      rw [hsucc] at links
      exact .grown hn full fresh links run ok (cls.trans hsucc) free

/-- `malloc` in an initialised state under the bookkeeping invariant. -/
theorem mallocReady_spec {s : State} {L : Nat → List Nat} (h : Core s L) {t : Tid}
    (hcache : s.tcache t = none) {os : Os} {n : Nat}
    (hfresh : ∀ size align, s.asks t n = some (size, align) → GetsFresh s os size align) :
    ∃ ans s', s.mallocReady t os n = .ok (ans, s') ∧ Malloced s t os n ans s' ∧
      ∃ L', Core s' L' := by
  by_cases hn : kLargeMin ≤ n
  · have hask : s.asks t n = some (largeMap n, 4096) := if_pos hn
    rw [State.mallocReady, if_pos hn]
    rcases mallocLarge_spec h (hfresh _ _ hask) with ⟨b, hm, hl⟩ | ⟨a, al, b, hl, hf, hcore⟩
    · exact ⟨none, _, by rw [hl], .failed hask hm, L, h.congr rfl rfl rfl rfl⟩
    · exact ⟨_, _, by rw [hl], .large hn hf, L, hcore⟩
  · have hpop : s.tcachePop t (classOf n - 1) = none := by simp [State.tcachePop, hcache]
    have hlt : n < kLargeMin := Nat.lt_of_not_le hn
    simp only [State.mallocReady, if_neg hn, hpop]
    exact mallocSlow_spec h hcache hlt fun hroom => hfresh _ _ (asks_small hlt hcache hroom)

/-! ## What the outcomes keep -/

/-- Block `i` of the run at `a` is still allocated in `s'`, at the same place. -/
def SmallKept (s' : State) (a : Nat) (r : Run) (i : Nat) : Prop :=
  ∃ r', SmallBlock s' a r' i ∧ r'.elems = r.elems ∧ r'.elem = r.elem

theorem afterTake_kept {s : State} {a i now : Nat} {r : Run} (hok : RunOk r)
    (hr : s.runs a = some r) (hi : r.findFree = some i) {b j : Nat} {q : Run}
    (hb : SmallBlock s b q j) : SmallKept (s.afterTake a r i now) b q j := by
  by_cases hba : b = a
  · subst hba
    have hq := hb.run
    rw [hr] at hq
    cases hq
    refine ⟨r.taken i now, ⟨put_same _ _ _, hb.index, ?_⟩, rfl, rfl⟩
    rw [(findFree_spec hok hi).2.2.2 now j, hb.bit, Bool.and_false]
  · exact ⟨q, ⟨(put_other _ _ hba).trans hb.run, hb.index, hb.bit⟩, rfl, rfl⟩

theorem withRun_kept {s : State} {L : Nat → List Nat} (h : Core s L) {c a al b : Nat}
    {runs : Nat → Option Run} {l : List Nat} {fresh : Run} (hf : Fresh s a (runMap c))
    (hrel : Relinked (put s.runs a (some fresh)) runs l) {y j : Nat} {q : Run}
    (hb : SmallBlock s y q j) : SmallKept (s.withRun c a al b runs) y q j := by
  have hya : y ≠ a := by
    rintro rfl
    have hnone := (h.no_header hf (Nat.le_refl _) (Nat.lt_add_of_pos_right hf.size_pos)).1
    rw [hb.run] at hnone
    cases hnone
  obtain ⟨q', hq', hbody⟩ := relinked_some' hrel ((put_other _ _ hya).trans hb.run)
  have hfields : ∀ r : Run, r.elems = r.body.elems ∧ r.elem = r.body.elem ∧ r.bits = r.body.bits :=
    fun _ => ⟨rfl, rfl, rfl⟩
  obtain ⟨h₁, h₂, h₃⟩ := hfields q'
  rw [hbody] at h₁ h₂ h₃
  exact ⟨q', ⟨hq', h₁ ▸ hb.index, by rw [h₃]; exact hb.bit⟩, h₁, h₂⟩

theorem Malloced.smallKept {s s' : State} {L : Nat → List Nat} (h : Core s L) {t : Tid} {os : Os}
    {n : Nat} {ans : Option Nat} (hm : Malloced s t os n ans s') {a i : Nat} {r : Run}
    (hb : SmallBlock s a r i) : SmallKept s' a r i := by
  cases hm with
  | failed asks refused => exact ⟨r, ⟨hb.run, hb.index, hb.bit⟩, rfl, rfl⟩
  | large size fresh => exact ⟨r, ⟨hb.run, hb.index, hb.bit⟩, rfl, rfl⟩
  | taken size room run cls free => exact afterTake_kept (h.run _ _ run) run free hb
  | grown size full fresh links run ok cls free =>
      obtain ⟨r₁, hb₁, he₁, hs₁⟩ := withRun_kept h fresh links hb
      obtain ⟨r₂, hb₂, he₂, hs₂⟩ := afterTake_kept ok run free hb₁
      exact ⟨r₂, hb₂, he₂.trans he₁, hs₂.trans hs₁⟩

theorem Malloced.largeKept {s s' : State} {L : Nat → List Nat} (h : Core s L) {t : Tid} {os : Os}
    {n : Nat} {ans : Option Nat} (hm : Malloced s t os n ans s') {a : Nat} {l : LargeHdr}
    (hl : s.larges a = some l) : s'.larges a = some l := by
  cases hm with
  | failed asks refused => exact hl
  | taken size room run cls free => exact hl
  | grown size full fresh links run ok cls free => exact hl
  | @large b al c size fresh =>
      have hab : a ≠ b := by
        rintro rfl
        have hnone := h.no_header fresh (Nat.le_refl _) (Nat.lt_add_of_pos_right fresh.size_pos)
        rw [hnone.2] at hl
        cases hl
      exact (put_other _ _ hab).trans hl

theorem Malloced.keeps {s s' : State} {L : Nat → List Nat} (h : Core s L) {t : Tid} {os : Os} {n : Nat}
    {ans : Option Nat} (hm : Malloced s t os n ans s') {p x : Nat} (hw : Within s p x) :
    Within s' p x :=
  hw.frame (fun _ _ _ hb _ => hm.smallKept h hb) (fun _ _ hl _ => hm.largeKept h hl)

theorem Malloced.memKept {s s' : State} {L : Nat → List Nat} (h : Core s L) {t : Tid} {os : Os}
    {n : Nat} {ans : Option Nat} (hm : Malloced s t os n ans s') {p x : Nat} (hw : Within s p x) :
    s'.mem x = s.mem x := by
  have hfresh : ∀ {base size} al, Fresh s base size → (s.mmap base size al).mem x = s.mem x := by
    intro base size al hf
    refine if_neg fun hx => ?_
    exact h.not_within_fresh hf hx.1 hx.2 hw
  cases hm with
  | failed asks refused => rfl
  | taken size room run cls free => rfl
  | @large a al b size fresh => exact hfresh al fresh
  | @grown a al b runs l r size full fresh links run ok cls free => exact hfresh al fresh

theorem Malloced.caches {s s' : State} {t : Tid} {os : Os} {n : Nat} {ans : Option Nat}
    (hm : Malloced s t os n ans s') : s'.tcache = s.tcache := by
  cases hm <;> rfl

theorem Malloced.reservation {s s' : State} {t : Tid} {os : Os} {n : Nat} {ans : Option Nat}
    (hm : Malloced s t os n ans s') :
    s'.ready = s.ready ∧ s'.resStart = s.resStart ∧ s'.resEnd = s.resEnd := by
  cases hm <;> exact ⟨rfl, rfl, rfl⟩

theorem Malloced.sizes {s s' : State} {t : Tid} {os : Os} {n : Nat} {ans : Option Nat}
    (hm : Malloced s t os n ans s')
    (h : ∀ a l, s.larges a = some l → kLargeMin ≤ l.user ∧ l.mapSize = largeMap l.user) :
    ∀ a l, s'.larges a = some l → kLargeMin ≤ l.user ∧ l.mapSize = largeMap l.user := by
  cases hm with
  | failed asks refused => exact h
  | taken size room run cls free => exact h
  | grown size full fresh links run ok cls free => exact h
  | @large a al b size fresh =>
      intro x l hl
      have hl : put s.larges a (some ⟨kMagicLarge, largeMap n, n⟩) x = some l := hl
      by_cases hx : x = a
      · subst hx
        rw [put_same, Option.some.injEq] at hl
        subst hl
        exact ⟨size, rfl⟩
      · rw [put_other _ _ hx] at hl
        exact h x l hl

theorem Fresh.header_lt {s : State} {a size : Nat} (h : Fresh s a size) : sizeofLargeHdr < size := by
  have h₁ := h.size_pos
  have h₂ := h.size_mod
  unfold sizeofLargeHdr
  omega

theorem Malloced.new {s s' : State} {L : Nat → List Nat} (h : Core s L) {t : Tid} {os : Os} {n p : Nat}
    (hm : Malloced s t os n (some p) s') (x : Nat) : ¬ Within s p x := by
  intro hw
  have hself := h.within_self hw
  generalize hans : some p = ans at hm
  cases hm with
  | failed asks refused => cases hans
  | large size fresh =>
      cases hans
      have hlt := fresh.header_lt
      exact h.not_within_fresh fresh (Nat.le_add_right _ _) (by omega) hself
  | taken size room run cls free =>
      cases hans
      have hok := h.run _ _ run
      obtain ⟨hi, hset, -, -⟩ := findFree_spec hok free
      exact h.not_within_free run hi hset (Nat.le_refl _)
        (Nat.lt_add_of_pos_right hok.elem_pos) hself
  | @grown a al b runs l r size full fresh links run ok cls free =>
      cases hans
      have hrange := ok.block_range (findFree_spec ok free).1 a
      have hpos := ok.elem_pos
      rw [cls] at hrange
      exact h.not_within_fresh fresh (by omega) (by omega) hself

theorem afterTake_block {s : State} {a i now : Nat} {r : Run} (hok : RunOk r)
    (hi : r.findFree = some i) {x : Nat} (h₁ : blockAddr a r i ≤ x)
    (h₂ : x < blockAddr a r i + r.elem) :
    Within (s.afterTake a r i now) (blockAddr a r i) x := by
  obtain ⟨hlt, -, -, hbits⟩ := findFree_spec hok hi
  have hblock : SmallBlock (s.afterTake a r i now) a (r.taken i now) i :=
    ⟨put_same _ _ _, hlt, by rw [hbits]; simp⟩
  exact .small hblock rfl h₁ h₂

theorem classOf_fits {r : Run} (hok : RunOk r) {n : Nat} (hn : n < kLargeMin)
    (hcls : r.cls = classOf n) : n ≤ r.elem := by
  obtain ⟨c, hc, -, hle, -⟩ := classOf_spec (n := n) (by unfold kLargeMin at hn; omega)
  rw [hok.elem, hcls, hc, Nat.add_sub_cancel]
  exact hle

/-- The mapping of a large block is long enough when the addition of the header
does not wrap; if only the page rounding wraps, the length is zero. -/
theorem le_largeMap {n : Nat} (hn : n + sizeofLargeHdr < 2 ^ 64) (hpos : 0 < largeMap n) :
    sizeofLargeHdr + n ≤ largeMap n := by
  have hsum : wrap64 (sizeofLargeHdr + n) = sizeofLargeHdr + n := Nat.mod_eq_of_lt (by omega)
  unfold largeMap at hpos ⊢
  rw [hsum] at hpos ⊢
  by_cases hround : sizeofLargeHdr + n + 4095 < 2 ^ 64
  · exact (le_pageUp hround).1
  · have hw : wrap64 (sizeofLargeHdr + n + 4095) < 4096 := by
      unfold wrap64
      omega
    have hz : roundDown (wrap64 (sizeofLargeHdr + n + 4095)) 4096 = 0 := by
      unfold roundDown
      rw [Nat.div_eq_of_lt hw, Nat.zero_mul]
    unfold pageUp at hpos
    omega

theorem Malloced.block {s s' : State} {L : Nat → List Nat} (h : Core s L) {t : Tid} {os : Os}
    {n p : Nat} (hm : Malloced s t os n (some p) s') : Within s' p p := by
  generalize hans : some p = ans at hm
  cases hm with
  | failed asks refused => cases hans
  | large size fresh =>
      cases hans
      have hlt := fresh.header_lt
      exact .large (put_same _ _ _) rfl (Nat.le_refl _) (Nat.add_lt_add_left hlt _)
  | taken size room run cls free =>
      cases hans
      have hok := h.run _ _ run
      exact afterTake_block hok free (Nat.le_refl _) (Nat.lt_add_of_pos_right hok.elem_pos)
  | grown size full fresh links run ok cls free =>
      cases hans
      exact afterTake_block ok free (Nat.le_refl _) (Nat.lt_add_of_pos_right ok.elem_pos)

/-- The `n` bytes of the request belong to the block, unless the size wraps. -/
theorem Malloced.extent {s s' : State} {L : Nat → List Nat} (h : Core s L) {t : Tid} {os : Os}
    {n p : Nat} (hm : Malloced s t os n (some p) s') (hn : n + sizeofLargeHdr < 2 ^ 64) {x : Nat}
    (h₁ : p ≤ x) (h₂ : x < p + n) : Within s' p x := by
  generalize hans : some p = ans at hm
  cases hm with
  | failed asks refused => cases hans
  | @large a al b size fresh =>
      cases hans
      have hle := le_largeMap hn fresh.size_pos
      refine .large (put_same _ _ _) rfl h₁ ?_
      show x < a + largeMap n
      omega
  | taken size room run cls free =>
      cases hans
      have hok := h.run _ _ run
      have hle := classOf_fits hok size cls
      exact afterTake_block hok free h₁ (by omega)
  | grown size full fresh links run ok cls free =>
      cases hans
      have hle := classOf_fits ok size cls
      exact afterTake_block ok free h₁ (by omega)

theorem afterTake_small {s : State} {a i now : Nat} {r : Run} (hok : RunOk r)
    (hi : r.findFree = some i) :
    SmallBlock (s.afterTake a r i now) a (r.taken i now) i ∧ RunOk (r.taken i now) := by
  obtain ⟨hlt, -, -, hbits⟩ := findFree_spec hok hi
  exact ⟨⟨put_same _ _ _, hlt, by rw [hbits]; simp⟩, taken_ok hok hi⟩

theorem Malloced.smallBlock {s s' : State} {L : Nat → List Nat} (h : Core s L) {t : Tid} {os : Os}
    {n p : Nat} (hm : Malloced s t os n (some p) s') (hn : n < kLargeMin) :
    ∃ a r i, SmallBlock s' a r i ∧ RunOk r ∧ r.cls = classOf n ∧ p = blockAddr a r i := by
  generalize hans : some p = ans at hm
  cases hm with
  | failed asks refused => cases hans
  | large size fresh => exact absurd hn (Nat.not_lt.mpr size)
  | taken size room run cls free =>
      cases hans
      obtain ⟨hb, hok⟩ := afterTake_small (h.run _ _ run) free
      exact ⟨_, _, _, hb, hok, cls, rfl⟩
  | grown size full fresh links run ok cls free =>
      cases hans
      obtain ⟨hb, hok⟩ := afterTake_small ok free
      exact ⟨_, _, _, hb, hok, cls, rfl⟩

theorem Malloced.largeBlock {s s' : State} {t : Tid} {os : Os} {n p : Nat}
    (hm : Malloced s t os n (some p) s') (hn : kLargeMin ≤ n) :
    ∃ a, s'.larges a = some ⟨kMagicLarge, largeMap n, n⟩ ∧ p = a + sizeofLargeHdr ∧
      0 < largeMap n := by
  generalize hans : some p = ans at hm
  cases hm with
  | failed asks refused => cases hans
  | @large a al b size fresh =>
      cases hans
      exact ⟨a, put_same _ _ _, rfl, fresh.size_pos⟩
  | taken size room run cls free => exact absurd hn (Nat.not_le.mpr size)
  | grown size full fresh links run ok cls free => exact absurd hn (Nat.not_le.mpr size)

end Memflux.Alloc
