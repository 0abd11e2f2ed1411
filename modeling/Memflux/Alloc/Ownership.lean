import Memflux.Alloc.World

/-! # Finding the owner of a pointer

`run_of` rounds a pointer down to a multiple of 2 MiB, and most runs are longer.
The blocks that begin in the first 2 MiB of their run are recognised and go back
to it; the others are not. The second part says which words the ownership tests
read for a live pointer, and when these are mapped.
-/

namespace Memflux.Alloc

open Spans BitWords DList

/-! ## Small blocks -/

/-- Block `i` of the run `r` at `a` went back: its bit is set, its run and its class
count one block less, and nothing else changed but the clock readings. -/
structure GivenBack (s s' : State) (a : Nat) (r : Run) (i : Nat) : Prop where
  header : ∃ r', s'.runs a = some r' ∧ (∀ j, bitAt r'.bits j = (decide (j = i) || bitAt r.bits j)) ∧
    r'.used + 1 = r.used ∧ r'.magic = r.magic ∧ r'.cls = r.cls ∧ r'.elems = r.elems ∧
    r'.elem = r.elem ∧ r'.next = r.next ∧ r'.prev = r.prev
  others : ∀ b, b ≠ a → s'.runs b = s.runs b
  live : (s'.cls (r.cls - 1)).liveBlocks + 1 = (s.cls (r.cls - 1)).liveBlocks
  heads : ∀ c, (s'.cls c).head = (s.cls c).head
  counts : ∀ c, c ≠ r.cls - 1 → s'.cls c = s.cls c
  frame : { s' with runs := s.runs, cls := s.cls } = s

theorem afterGive_givenBack {s : State} {L : Nat → List Nat} (h : Core s L) {a i : Nat} {r : Run}
    (hb : SmallBlock s a r i) (now : Nat → Nat) : GivenBack s (s.afterGive a r i now) a r i := by
  have hok := h.run a r hb.run
  have hused := given_used hok hb.index hb.bit (now 0) (now 1)
  have hlive := h.live_ge hb.run
  refine ⟨⟨_, put_same _ _ _, given_bits hok hb.index _ _, hused, rfl, rfl, rfl, rfl, rfl, rfl⟩,
    fun b hne => put_other _ _ hne, ?_, fun c => ?_, fun c hne => put_other _ _ hne, rfl⟩
  · show (put s.cls _ _ (r.cls - 1)).liveBlocks + 1 = _
    rw [put_same]
    show _ - 1 + 1 = _
    omega
  · by_cases hc : c = r.cls - 1
    · show (put s.cls (r.cls - 1) _ c).head = _
      rw [hc, put_same]
    · exact congrArg ClassState.head (put_other _ _ hc)

/-- A pointer to a block that begins in the first 2 MiB of its run is recognised. -/
theorem Core.recognised {s : State} {L : Nat → List Nat} (h : Core s L) (hres : Reserved s)
    {a i : Nat} {r : Run} (hb : SmallBlock s a r i) (hlow : blockOffset r i < kRunSize) :
    runOf (blockAddr a r i) = a ∧ s.oursSmall (blockAddr a r i) = .ok true := by
  have hbase : runOf (blockAddr a r i) = a := by
    rw [blockAddr_offset]
    exact runOf_low (hres.run_base hb.run) hlow
  obtain ⟨b, hs, hiff⟩ := oursSmall_run (hbase.symm ▸ hb.run) (h.run a r hb.run)
  obtain rfl : b = true := hiff.mpr ⟨i, hb.index, by rw [hbase]⟩
  exact ⟨hbase, hs⟩

/-- Without a thread cache, `free` of such a pointer gives the block back. -/
theorem Core.free_small {s : State} {L : Nat → List Nat} (h : Core s L) {a i : Nat} {r : Run}
    (hb : SmallBlock s a r i) (hin : s.inReserve (blockAddr a r i) = true) {t : Tid}
    (hcache : s.tcache t = none) (now : Nat → Nat) (hbase : runOf (blockAddr a r i) = a)
    (hours : s.oursSmall (blockAddr a r i) = .ok true) :
    s.free t now (blockAddr a r i) = .ok (.small, s.afterGive a r i now) := by
  have hp : blockAddr a r i ≠ 0 := by
    have hrange := (h.run a r hb.run).block_range hb.index a
    have hhdr : sizeofRun = 56 := rfl
    omega
  have hpush : s.tcachePush t (r.cls - 1) (blockAddr a r i) = none := by
    simp [State.tcachePush, hcache]
  have hgive := (runGive_spec h hb.run hb.index hb.bit now).1
  simp only [State.free, hp, hin, hours, if_true, if_false, bind, Except.bind, not_true, and_false,
    State.freeSmall, hbase, hb.run, hpush, hgive]

/-- In every history, whatever other blocks were allocated and freed: an allocated
block of a run is recognised and given back by `free` exactly when it begins in the
first 2 MiB of its run. -/
theorem free_undoes_malloc {runIdle dirtyIdle : Nat} {w : World}
    (h : (World.init runIdle dirtyIdle).Reaches World.Clean w) (h0 : w.st.resStart ≠ 0) {a i : Nat}
    {r : Run} (hb : SmallBlock w.st a r i) (t : Tid) (now : Nat → Nat) :
    (runOf (blockAddr a r i) = a ∧ w.st.oursSmall (blockAddr a r i) = .ok true ∧
        ∃ s', w.st.free t now (blockAddr a r i) = .ok (.small, s') ∧ GivenBack w.st s' a r i) ↔
      blockOffset r i < kRunSize := by
  have hsound : Sound w.st w.held := (init_sound runIdle dirtyIdle).reaches h
  obtain ⟨L, hcore⟩ := hsound.core
  have hres := hsound.ledger.reserved h0
  constructor
  · rintro ⟨hbase, -, -⟩
    have hlt := lt_roundDown_add (w := blockAddr a r i) (a := kRunSize) (by decide)
    have hbase : roundDown (blockAddr a r i) kRunSize = a := hbase
    rw [hbase, blockAddr_offset] at hlt
    omega
  · intro hlow
    obtain ⟨hbase, hours⟩ := hcore.recognised hres hb hlow
    have hin := hcore.inReserve hres (.small hb rfl (Nat.le_refl _)
      (Nat.lt_add_of_pos_right (hcore.run a r hb.run).elem_pos))
    exact ⟨hbase, hours, _, hcore.free_small hb hin (by rw [hsound.caches]) now hbase hours,
      afterGive_givenBack hcore hb now⟩

theorem Core.block_unique {s : State} {L : Nat → List Nat} (h : Core s L) {a a' i i' : Nat}
    {r r' : Run} (hb : SmallBlock s a r i) (hb' : SmallBlock s a' r' i')
    (hp : blockAddr a r i = blockAddr a' r' i') : a = a' :=
  (h.block_place hb.run hb.index hb'.run hb'.index hp).1

/-- `free` gives a block back only through the run that `run_of` finds. -/
theorem Core.not_free_small {s s' : State} {L : Nat → List Nat} (h : Core s L) {a i : Nat} {r : Run}
    (hb : SmallBlock s a r i) {t : Tid} (hcache : s.tcache t = none) {now : Nat → Nat}
    (hbase : runOf (blockAddr a r i) ≠ a) : s.free t now (blockAddr a r i) ≠ .ok (.small, s') := by
  intro hf
  have hself : Within s (blockAddr a r i) (blockAddr a r i) :=
    .small hb rfl (Nat.le_refl _) (Nat.lt_add_of_pos_right (h.run a r hb.run).elem_pos)
  generalize hans : Freed.small = ans at hf
  have hcases := free_cases h hcache hself hf
  cases hcases with
  | kept how =>
      subst hans
      rcases how with h | h | h <;> cases h
  | given block start base => exact hbase (base.trans (h.block_unique hb block start).symm)

/-! ## A run whose last block is lost -/

/-- The run at `a`, of blocks of 4096 bytes, is the only one, and its first `j`
blocks are allocated. -/
structure Solo (w : World) (a j : Nat) : Prop where
  sound : Sound w.st w.held
  ready : w.st.ready = true
  start : w.st.resStart ≠ 0
  run : ∃ r, w.st.runs a = some r ∧ r.cls = 32 ∧ ∀ i, i < r.elems → bitAt r.bits i = decide (j ≤ i)
  alone : ∀ b q, w.st.runs b = some q → b = a

/-- Where the run has room, the walk over the list of its class stops at it. -/
theorem Solo.walk {w : World} {a j : Nat} (h : Solo w a j) {r : Run} (hr : w.st.runs a = some r)
    (hcls : r.cls = 32) (hroom : r.used ≠ r.elems) :
    w.st.firstRoom w.st.maps.length (w.st.cls 31).head = .ok a := by
  obtain ⟨L, hcore⟩ := h.sound.core
  obtain ⟨last, hseg⟩ := hcore.lists.chain 31 (by decide)
  have hmem := hcore.lists.mem a r hr
  rw [hcls] at hmem
  rcases firstRoom_spec hseg (hcore.length_le (by decide)) with ⟨-, hall⟩ | ⟨x, -, q, hx, hq, -⟩
  · exact absurd (hall a hmem r hr) hroom
  · rw [hx, h.alone x q hq]

theorem Solo.ne_zero {w : World} {a j : Nat} (h : Solo w a j) : a ≠ 0 := by
  obtain ⟨r, hr, -⟩ := h.run
  obtain ⟨L, hcore⟩ := h.sound.core
  obtain ⟨g, hg, hbase, -⟩ := hcore.maps.ofRun a r hr
  have hpos := (hcore.maps.sane g hg).1
  omega

theorem Solo.asks_none {w : World} {a j : Nat} (h : Solo w a j)
    (hwalk : w.st.firstRoom w.st.maps.length (w.st.cls 31).head = .ok a) :
    w.st.asks 0 4096 = none := by
  have hclass : classOf 4096 = 32 := by decide +kernel
  have hpop : w.st.tcachePop 0 31 = none := by simp [State.tcachePop, h.sound.caches]
  have hsmall : ¬ kLargeMin ≤ 4096 := by decide
  simp only [State.asks, if_neg hsmall, hclass, hpop, hwalk]
  split
  · rename_i h0
    cases h0
    exact absurd rfl h.ne_zero
  · rfl

theorem Solo.malloc {w : World} {a j : Nat} (h : Solo w a j) (hj : j < 512) :
    ∃ w' r, w.Clean 0 (Os.granting (2 ^ 30) 1) (.malloc 4096) ∧
      w.exec 0 (Os.granting (2 ^ 30) 1) (.malloc 4096) = .ok (some (blockAddr a r j), w') ∧
      Solo w' a (j + 1) ∧ SmallBlock w'.st a r j ∧ r.cls = 32 ∧
      ⟨blockAddr a r j, blockAddr a r j⟩ ∈ w'.held := by
  have hsolo := h
  obtain ⟨hsound, hready, hstart, ⟨r, hr, hcls, hbits⟩, halone⟩ := h
  obtain ⟨L, hcore⟩ := hsound.core
  have hok := hcore.run a r hr
  have helems : r.elems = 512 := by
    rw [hok.elems, hcls]
    decide +kernel
  have hclass : classOf 4096 = 32 := by decide +kernel
  obtain ⟨k, hk⟩ := findFree_of_bit hok (i := j) (by omega) (by rw [hbits j (by omega)]; simp)
  have hroom : r.used ≠ r.elems := by
    have hle := clears_le (r.taken k 0).bits r.elems
    have hused : r.used + 1 = clears (r.taken k 0).bits r.elems := (taken_ok hok hk).used
    omega
  have hwalk := hsolo.walk hr hcls hroom
  have ha := hsolo.ne_zero
  have hasks := hsolo.asks_none hwalk
  have hinit := ensureInit_of_ready hready (Os.granting (2 ^ 30) 1)
  have hneeds : w.st.MallocNeeds Grantable 0 (Os.granting (2 ^ 30) 1) 4096 := by
    intro size align hask
    rw [hinit] at hask
    have hask : w.st.asks 0 4096 = some (size, align) := hask
    rw [hasks] at hask
    cases hask
  have hclean : w.Clean 0 (Os.granting (2 ^ 30) 1) (.malloc 4096) :=
    ⟨granting_sane 1, hneeds, trivial, trivial⟩
  obtain ⟨ans, s', hm, hout, -, -⟩ := hsound.malloc (granting_sane 1) hneeds
  rw [hinit] at hout
  have hout : Malloced w.st 0 (Os.granting (2 ^ 30) 1) 4096 ans s' := hout
  cases hout with
  | failed asks refused =>
      rw [hasks] at asks
      cases asks
  | large size fresh => exact absurd size (by decide)
  | grown size full fresh links run ok cls free =>
      rw [hclass, hwalk] at full
      cases full
      exact absurd rfl ha
  | @taken a' i r' size room run cls free =>
      obtain rfl := halone a' r' run
      rw [hr] at run
      cases run
      obtain ⟨hlt, hset, hmin, htaken⟩ := findFree_spec hok free
      have hij : i = j := by
        rw [hbits i hlt, decide_eq_true_eq] at hset
        by_contra hne
        have hclear := hmin j (by omega)
        rw [hbits j (by omega)] at hclear
        simp at hclear
      subst hij
      have hexec : w.exec 0 (Os.granting (2 ^ 30) 1) (.malloc 4096) =
          .ok (some (blockAddr a' r i), ⟨w.st.afterTake a' r i ((Os.granting (2 ^ 30) 1).now 1),
            gain (some (blockAddr a' r i)) w.held⟩) := by
        simp only [World.exec, State.exec, hm, bind, Except.bind, World.heldAfter]
      have hblock : SmallBlock (w.st.afterTake a' r i ((Os.granting (2 ^ 30) 1).now 1)) a'
          (r.taken i ((Os.granting (2 ^ 30) 1).now 1)) i := (afterTake_small hok free).1
      refine ⟨_, r.taken i ((Os.granting (2 ^ 30) 1).now 1), hclean, hexec,
        ⟨hsound.exec hclean hexec, hready, hstart, ⟨_, put_same _ _ _, hcls, fun k hk => ?_⟩,
          fun b q hq => ?_⟩, hblock, hcls, List.mem_cons_self⟩
      · rw [htaken, hbits k hk, ← Bool.decide_and]
        exact decide_eq_decide.mpr (by omega)
      · by_contra hne
        have hq : put w.st.runs a' _ b = some q := hq
        rw [put_other _ _ hne] at hq
        exact hne (halone b q hq)

theorem Solo.fill {w₀ w : World} {a j : Nat} (hr : w₀.Reaches World.Clean w) (h : Solo w a 1)
    (hj : j < 512) : ∃ w', w₀.Reaches World.Clean w' ∧ Solo w' a (j + 1) := by
  induction j with
  | zero => exact ⟨w, hr, h⟩
  | succ j ih =>
      obtain ⟨w₁, hreach, hsolo⟩ := ih (by omega)
      obtain ⟨w₂, r, hclean, hexec, hsolo₂, -⟩ := hsolo.malloc hj
      exact ⟨w₂, hreach.step _ _ _ _ hclean hexec, hsolo₂⟩

theorem solo_first : ∃ w, (World.init 0 0).Reaches World.Clean w ∧ Solo w 1073741824 1 := by
  have hplay : ∃ w, (World.init 0 0).Reaches World.Clean w ∧
      (decide (w.st.ready = true ∧ w.st.resStart ≠ 0 ∧
          w.st.maps.map Span.base = [1073741824]) &&
        (w.st.runs 1073741824).any fun r =>
          decide (r.cls = 32 ∧ r.elems = 512) &&
            (List.range 512).all fun i => bitAt r.bits i == decide (1 ≤ i)) = true := by
    refine World.Reaches.refl.play (l := [(0, Os.granting (2 ^ 30) 1, .malloc 4096)]) ?_
    decide +kernel
  obtain ⟨w, hreach, htest⟩ := hplay
  obtain ⟨hstate, hrun⟩ := Bool.and_eq_true_iff.mp htest
  obtain ⟨hready, hstart, hmaps⟩ := of_decide_eq_true hstate
  obtain ⟨r, hr, hheader⟩ := (Option.any_eq_true _ _).mp hrun
  obtain ⟨hfields, hbits⟩ := Bool.and_eq_true_iff.mp hheader
  obtain ⟨hcls, helems⟩ := of_decide_eq_true hfields
  have hsound : Sound w.st w.held := (init_sound 0 0).reaches hreach
  refine ⟨w, hreach, hsound, hready, hstart, ⟨r, hr, hcls, fun i hi => ?_⟩, fun b q hq => ?_⟩
  · exact eq_of_beq (List.all_eq_true.mp hbits i (List.mem_range.mpr (helems ▸ hi)))
  · obtain ⟨L, hcore⟩ := hsound.core
    obtain ⟨g, hg, rfl, -⟩ := hcore.maps.ofRun b q hq
    have hmem := List.mem_map_of_mem (f := Span.base) hg
    rw [hmaps] at hmem
    exact List.mem_singleton.mp hmem

/-- Two blocks of 4096 bytes of two threads, the first one freed, and a block of another
class: the second one comes back, though a third thread frees it. -/
theorem free_undoes_second :
    ∃ w r, (World.init 0 0).Reaches World.Clean w ∧
      w.held.map Held.ptr = [1080045568, 1073750016] ∧ SmallBlock w.st 1073741824 r 1 ∧
      runOf (blockAddr 1073741824 r 1) = 1073741824 ∧
      w.st.oursSmall (blockAddr 1073741824 r 1) = .ok true ∧
      ∃ s', w.st.free 2 (fun _ => 2) (blockAddr 1073741824 r 1) = .ok (.small, s') ∧
        GivenBack w.st s' 1073741824 r 1 := by
  let os := Os.granting (2 ^ 30) 1
  have hplay : ∃ w, (World.init 0 0).Reaches World.Clean w ∧
      (decide (w.st.resStart ≠ 0 ∧ w.held.map Held.ptr = [1080045568, 1073750016]) &&
        (w.st.runs 1073741824).any fun r =>
          decide (1 < r.elems ∧ bitAt r.bits 1 = false ∧ blockOffset r 1 < kRunSize)) = true := by
    refine World.Reaches.refl.play (l := [(0, os, .malloc 4096), (1, os, .malloc 4096),
      (1, os, .malloc 8), (0, os, .free 1073745920)]) ?_
    decide +kernel
  obtain ⟨w, hreach, htest⟩ := hplay
  obtain ⟨hstate, hrun⟩ := Bool.and_eq_true_iff.mp htest
  obtain ⟨hstart, hheld⟩ := of_decide_eq_true hstate
  obtain ⟨r, hr, hfields⟩ := (Option.any_eq_true _ _).mp hrun
  obtain ⟨hi, hbit, hlow⟩ := of_decide_eq_true hfields
  have hblock : SmallBlock w.st 1073741824 r 1 := ⟨hr, hi, hbit⟩
  exact ⟨w, r, hreach, hheld, hblock,
    (free_undoes_malloc hreach hstart hblock 2 (fun _ => 2)).mpr hlow⟩

/-- The last of 512 blocks of 4096 bytes begins 2 MiB after its run: `run_of` does
not find the run, and `free` does not give the block back. -/
theorem free_loses_block :
    ∃ w a r i, (World.init 0 0).Reaches World.Clean w ∧ w.st.resStart ≠ 0 ∧
      SmallBlock w.st a r i ∧ (∃ e ∈ w.held, e.ptr = blockAddr a r i ∧ e.block = e.ptr) ∧
      runOf (blockAddr a r i) ≠ a ∧
      ∀ now s', w.st.free 0 now (blockAddr a r i) ≠ .ok (.small, s') := by
  obtain ⟨w₀, hreach₀, hsolo₀⟩ := solo_first
  obtain ⟨w₁, hreach₁, hsolo₁⟩ := hsolo₀.fill (j := 510) hreach₀ (by omega)
  obtain ⟨w, r, hclean, hexec, hsolo, hblock, hcls, hheld⟩ := hsolo₁.malloc (by omega)
  obtain ⟨L, hcore⟩ := hsolo.sound.core
  have hok := hcore.run _ _ hblock.run
  have hbase := (hsolo.sound.ledger.reserved hsolo.start).run_base hblock.run
  have hoff : blockOffset r 511 = kRunSize := by
    unfold blockOffset
    rw [hok.elems, hok.elem, hcls]
    decide +kernel
  have hrun : runOf (blockAddr 1073741824 r 511) ≠ 1073741824 := by
    have hpos : kRunSize = 2097152 := rfl
    rw [blockAddr_offset, runOf_high hbase (by omega) (by omega)]
    omega
  exact ⟨w, 1073741824, r, 511, hreach₁.step _ _ _ _ hclean hexec, hsolo.start, hblock,
    ⟨_, hheld, rfl, rfl⟩, hrun,
    fun now s' => hcore.not_free_small hblock (by rw [hsolo.sound.caches]) hrun⟩

/-! ## What the ownership tests read -/

/-- The words `ours_small(p)` reads: each test stops at the first word that decides it. -/
def State.smallReads (s : State) (p : Nat) : List Nat :=
  let b := runOf p
  match s.runWords b with
  | .error _ => [b]
  | .ok h =>
      if h.magic ≠ kMagicRun then [b]
      else if h.cls = 0 ∨ kNumClasses < h.cls then [b, b + 4]
      else if p < b + dataOffsetPadded h.elems then [b, b + 4, b + 8]
      else [b, b + 4, b + 8, b + 16]

/-- The words that `free` and `realloc` read to find the owner of `p`: `ours_large`
is asked after `ours_small` said no. -/
def State.ownerReads (s : State) (p : Nat) : List Nat :=
  s.smallReads p ++
    match s.oursSmall p with
    | .ok false => [p - sizeofLargeHdr]
    | _ => []

def ReadsMapped (s : State) (p : Nat) : Prop := ∀ x ∈ s.ownerReads p, s.readable x 4 = true

/-- A live run or large block occupies the 2 MiB boundary `b`: a run that begins
there, a run longer than 2 MiB that begins at the boundary before, or a large block
across it. -/
def BoundaryLive (s : State) (b : Nat) : Prop :=
  (∃ r, s.runs b = some r) ∨
    (∃ a r, s.runs a = some r ∧ b = a + kRunSize ∧ kRunSize < runMap (r.cls - 1)) ∨
    ∃ a l, s.larges a = some l ∧ a ≤ b ∧ b < a + l.mapSize

theorem runOf_mod (p : Nat) : runOf p % kRunSize = 0 := roundDown_mod _ _

theorem runOf_le (p : Nat) : runOf p ≤ p := roundDown_le _ _

theorem Core.boundary_iff {s : State} {L : Nat → List Nat} (h : Core s L) (hres : Reserved s)
    {b : Nat} (hb : b % kRunSize = 0) :
    BoundaryLive s b ↔ ∃ g ∈ s.maps, g.Mem b := by
  constructor
  · rintro (⟨r, hr⟩ | ⟨a, r, hr, rfl, hlong⟩ | ⟨a, l, hl, hlow, hhigh⟩)
    · obtain ⟨g, hg, rfl, -⟩ := h.maps.ofRun b r hr
      exact ⟨g, hg, Nat.le_refl _, Nat.lt_add_of_pos_right (h.maps.sane g hg).2.2.1⟩
    · obtain ⟨g, hg, rfl, hsize⟩ := h.maps.ofRun a r hr
      have hstop : g.stop = g.base + g.size := rfl
      exact ⟨g, hg, Nat.le_add_right _ _, by omega⟩
    · obtain ⟨-, g, hg, rfl, hsize⟩ := h.maps.ofLarge a l hl
      have hstop : g.stop = g.base + g.size := rfl
      exact ⟨g, hg, hlow, by omega⟩
  · rintro ⟨g, hg, hlow, hhigh⟩
    have hstop : g.stop = g.base + g.size := rfl
    rcases h.maps.owner g hg with ⟨r, hr, -⟩ | ⟨l, hl, -⟩
    · have hbase := hres.run_base hr
      have hmap := (h.run _ r hr).geometry.map_le
      obtain ⟨g', hg', hbase', hsize⟩ := h.maps.ofRun _ r hr
      obtain rfl : g' = g := h.maps.apart.eq_of_mem hg' hg (x := g.base)
        ⟨by omega, by have := (h.maps.sane g' hg').2.2.1; unfold Span.stop; omega⟩ ⟨Nat.le_refl _, by omega⟩
      -- two multiples of 2 MiB less than two of them apart
      have hrun : kRunSize = 2097152 := rfl
      rw [hrun] at hb hbase
      by_cases he : b = g'.base
      · exact .inl ⟨r, he ▸ hr⟩
      · exact .inr (.inl ⟨g'.base, r, hr, by omega, by omega⟩)
    · obtain ⟨-, g', hg', hbase', hsize⟩ := h.maps.ofLarge _ l hl
      obtain rfl : g' = g := h.maps.apart.eq_of_mem hg' hg (x := g.base)
        ⟨by omega, by have := (h.maps.sane g' hg').2.2.1; unfold Span.stop; omega⟩ ⟨Nat.le_refl _, by omega⟩
      exact .inr (.inr ⟨_, l, hl, hlow, by omega⟩)

/-- `ours_small` reads among the four words of a header at the boundary. -/
theorem smallReads_words {s : State} {p x : Nat} (hx : x ∈ s.smallReads p) :
    x ∈ State.runWordsAt (runOf p) := by
  unfold State.smallReads at hx
  unfold State.runWordsAt
  dsimp only at hx
  repeat' split at hx
  all_goals
    simp only [List.mem_cons, List.not_mem_nil, or_false] at hx ⊢
    omega

/-- If the boundary is mapped, so is the header that `ours_small` expects there. -/
theorem Core.smallReads_mapped {s : State} {L : Nat → List Nat} (h : Core s L) {p : Nat} {g : Span}
    (hg : g ∈ s.maps) (hb : g.Mem (runOf p)) : ∀ x ∈ s.smallReads p, s.readable x 4 = true := by
  have hpage : runOf p % 4096 = 0 := kRunSize_dvd (runOf_mod p)
  have hread : ∀ d, d ≤ 16 → s.readable (runOf p + d) 4 = true := fun d hd =>
    h.maps.readable_page hg hpage hb.1 hb.2 (by omega) (by omega)
  intro x hx
  have hword := smallReads_words hx
  simp only [State.runWordsAt, List.mem_cons, List.not_mem_nil, or_false] at hword
  rcases hword with rfl | rfl | rfl | rfl
  · have h₀ := hread 0 (by omega)
    rwa [Nat.add_zero] at h₀
  · exact hread 4 (by omega)
  · exact hread 8 (by omega)
  · exact hread 16 (by omega)

theorem boundary_mem_reads (s : State) (p : Nat) : runOf p ∈ s.smallReads p := by
  unfold State.smallReads
  dsimp only
  split
  · exact List.mem_singleton_self _
  · repeat' split
    all_goals simp

/-- The ownership tests of a block that clients can hold read mapped memory exactly
when the boundary below it is mapped. -/
theorem Core.reads_iff {s : State} {L : Nat → List Nat} (h : Core s L) {p : Nat}
    (hw : Within s p p) : ReadsMapped s p ↔ ∃ g ∈ s.maps, g.Mem (runOf p) := by
  constructor
  · intro hreads
    have hb := hreads (runOf p) (List.mem_append_left _ (boundary_mem_reads s p))
    obtain ⟨g, hg, hlow, hhigh⟩ := State.readable_iff.mp hb
    exact ⟨g, hg, hlow, by omega⟩
  · rintro ⟨g, hg, hb⟩ x hx
    rcases List.mem_append.mp hx with hx | hx
    · exact h.smallReads_mapped hg hb x hx
    · split at hx
      · obtain rfl := List.mem_singleton.mp hx
        obtain ⟨g', hg', hmem, hblock⟩ := h.within_map hw
        refine State.readable_iff.mpr ⟨g', hg', ?_⟩
        have hhdr : sizeofLargeHdr = 24 := rfl
        unfold Span.Mem at hmem
        rcases hblock with ⟨r, i, hb, hp, -⟩ | ⟨l, hl, hp⟩
        · have hrange := (h.run _ r hb.run).block_range hb.index g'.base
          have hrun : sizeofRun = 56 := rfl
          rw [← hp] at hrange
          omega
        · omega
      · cases hx

/-- The boundary below a block of a run is in the mapping of the run. -/
theorem Core.small_boundary {s : State} {L : Nat → List Nat} (h : Core s L) (hres : Reserved s)
    {a i : Nat} {r : Run} (hb : SmallBlock s a r i) :
    ∃ g ∈ s.maps, g.Mem (runOf (blockAddr a r i)) := by
  have hok := h.run a r hb.run
  obtain ⟨-, hoff⟩ := hok.offset_lt hb.index
  have hpos := hok.elem_pos
  have hbase := hres.run_base hb.run
  obtain ⟨g, hg, rfl, hsize⟩ := h.maps.ofRun a r hb.run
  have hstop : g.stop = g.base + g.size := rfl
  have hle := runOf_le (blockAddr g.base r i)
  have hge : g.base ≤ runOf (blockAddr g.base r i) :=
    le_roundDown hbase (by rw [blockAddr_offset]; omega)
  rw [blockAddr_offset] at hle
  exact ⟨g, hg, hge, by rw [blockAddr_offset]; omega⟩

/-- In every history, for every live pointer that `malloc` returned: the ownership
tests read only mapped memory exactly when the pointer is a block of a run, or the
2 MiB boundary below it is inside a run or large block that is still live. -/
theorem owner_reads_mapped {runIdle dirtyIdle : Nat} {w : World}
    (h : (World.init runIdle dirtyIdle).Reaches World.Clean w) (h0 : w.st.resStart ≠ 0) {e : Held}
    (he : e ∈ w.held) (hstart : e.ptr = e.block) :
    ReadsMapped w.st e.ptr ↔
      (∃ a r i, SmallBlock w.st a r i ∧ e.ptr = blockAddr a r i) ∨
        BoundaryLive w.st (runOf e.ptr) := by
  have hsound : Sound w.st w.held := (init_sound runIdle dirtyIdle).reaches h
  obtain ⟨L, hcore⟩ := hsound.core
  have hres := hsound.ledger.reserved h0
  have hw := hsound.blocks e he
  rw [← hstart] at hw
  rw [hcore.reads_iff hw, hcore.boundary_iff hres (runOf_mod _)]
  refine ⟨.inr, ?_⟩
  rintro (⟨a, r, i, hb, hp⟩ | hmapped)
  · rw [hp]
    exact hcore.small_boundary hres hb
  · exact hmapped

/-- Two large blocks: the boundary below the second one is inside the first one, which
is still live. -/
theorem owner_reads_behind :
    ∃ w, (World.init 0 0).Reaches World.Clean w ∧
      w.held.map Held.ptr = [1076895768, 1073741848] ∧ ReadsMapped w.st 1076895768 := by
  let os := Os.granting (2 ^ 30) 1
  have hplay : ∃ w, (World.init 0 0).Reaches World.Clean w ∧
      (decide (w.st.resStart ≠ 0 ∧
          w.held = [⟨1076895768, 1076895768⟩, ⟨1073741848, 1073741848⟩]) &&
        (w.st.larges 1073741824).any fun l => decide (runOf 1076895768 < 1073741824 + l.mapSize)) = true :=
    World.Reaches.refl.play (l := [(0, os, .malloc 3145728), (1, os, .malloc 3145728)])
      (by decide +kernel)
  obtain ⟨w, hreach, htest⟩ := hplay
  obtain ⟨hstate, hlarge⟩ := Bool.and_eq_true_iff.mp htest
  obtain ⟨hstart, hheld⟩ := of_decide_eq_true hstate
  obtain ⟨l, hl, hlt⟩ := (Option.any_eq_true _ _).mp hlarge
  have he : ⟨1076895768, 1076895768⟩ ∈ w.held := by simp [hheld]
  have hlive : BoundaryLive w.st (runOf 1076895768) :=
    .inr (.inr ⟨_, l, hl, by decide, of_decide_eq_true hlt⟩)
  exact ⟨w, hreach, congrArg (List.map Held.ptr) hheld,
    (owner_reads_mapped hreach hstart he rfl).mpr (.inr hlive)⟩

/-- A run of one block of 2 MiB, then a large block. The boundary below the large
block is past the end of the run, in the gap that the alignment of the run left:
no page of the allocator is mapped there. -/
theorem owner_reads_unmapped :
    ∃ w e, (World.init 0 0).Reaches World.Clean w ∧ w.st.resStart ≠ 0 ∧ e ∈ w.held ∧
      e.ptr = e.block ∧ ¬ ReadsMapped w.st e.ptr := by
  have hplay : ∃ w, (World.init 0 0).Reaches World.Clean w ∧
      decide (w.st.resStart ≠ 0 ∧ ⟨1077940248, 1077940248⟩ ∈ w.held ∧
        w.st.readable (runOf 1077940248) 4 = false) = true :=
    World.Reaches.refl.play (l := [(0, Os.granting (2 ^ 30) 1, .malloc 2097152),
      (0, Os.granting (2 ^ 30) 1, .malloc 3145728)]) (by decide +kernel)
  obtain ⟨w, hreach, htest⟩ := hplay
  obtain ⟨hstart, hheld, hread⟩ := of_decide_eq_true htest
  refine ⟨w, ⟨1077940248, 1077940248⟩, hreach, hstart, hheld, rfl, fun hreads => ?_⟩
  have hmapped := hreads _ (List.mem_append_left _ (boundary_mem_reads _ _))
  rw [hread] at hmapped
  cases hmapped

end Memflux.Alloc
