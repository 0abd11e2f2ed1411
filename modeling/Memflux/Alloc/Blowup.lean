import Memflux.Alloc.Peak

/-! # What the thread caches cost

A class counter is the number of allocated blocks of its class. Each of them is with a
client or in a slot, and a slot array holds sixteen. So what a class has mapped exceeds
what its clients held at a time by no more than the slots of the threads.
-/

namespace Memflux.Alloc

open Spans BitWords DList Sharing

/-- Where the allocated blocks of class `c` begin. -/
def State.classBlocks (s : State) (c : Nat) : Set Nat :=
  { p | ∃ a r i, SmallBlock s a r i ∧ r.cls = c + 1 ∧ p = blockAddr a r i }

/-! ## The class counter counts blocks -/

/-- Where the allocated blocks of the run at `a` begin. -/
def State.blocksOf (s : State) (a : Nat) : Finset Nat :=
  match s.runs a with
  | none => ∅
  | some r => ((Finset.range r.elems).filter fun i => bitAt r.bits i = false).image (blockAddr a r)

theorem mem_blocksOf {s : State} {a p : Nat} :
    p ∈ s.blocksOf a ↔ ∃ r i, SmallBlock s a r i ∧ p = blockAddr a r i := by
  unfold State.blocksOf
  constructor
  · intro hp
    split at hp
    · cases hp
    · rename_i r hr
      obtain ⟨i, hi, rfl⟩ := Finset.mem_image.mp hp
      obtain ⟨hlt, hbit⟩ := Finset.mem_filter.mp hi
      exact ⟨r, i, ⟨hr, Finset.mem_range.mp hlt, hbit⟩, rfl⟩
  · rintro ⟨r, i, hb, rfl⟩
    rw [hb.run]
    exact Finset.mem_image_of_mem _ (Finset.mem_filter.mpr ⟨Finset.mem_range.mpr hb.index, hb.bit⟩)

theorem Core.card_blocksOf {s : State} {L : Nat → List Nat} (h : Core s L) (a : Nat) :
    (s.blocksOf a).card = usedAt s.runs a := by
  unfold State.blocksOf usedAt
  split
  · rename_i hr
    simp [hr]
  · rename_i r hr
    rw [Finset.card_image_of_injOn, hr, Option.map_some, Option.getD_some, (h.run a r hr).used, clears,
      Nat.count_eq_card_filter_range]
    intro i hi j hj heq
    have hi := Finset.mem_range.mp (Finset.mem_filter.mp hi).1
    have hj := Finset.mem_range.mp (Finset.mem_filter.mp hj).1
    exact (h.block_place hr hi hr hj heq).2

theorem Core.classBlocks_eq {s : State} {L : Nat → List Nat} (h : Core s L) {c : Nat}
    (hc : c < kNumClasses) :
    s.classBlocks c = ((L c).toFinset.biUnion s.blocksOf : Finset Nat) := by
  ext p
  rw [Finset.mem_coe, Finset.mem_biUnion]
  constructor
  · rintro ⟨a, r, i, hb, hcls, hp⟩
    have hmem := h.lists.mem a r hb.run
    rw [hcls, Nat.add_sub_cancel] at hmem
    exact ⟨a, List.mem_toFinset.mpr hmem, mem_blocksOf.mpr ⟨r, i, hb, hp⟩⟩
  · rintro ⟨a, ha, hp⟩
    obtain ⟨r, i, hb, hp⟩ := mem_blocksOf.mp hp
    obtain ⟨q, hq, hcls⟩ := h.lists.own c hc a (List.mem_toFinset.mp ha)
    obtain rfl : r = q := Option.some.inj (hb.run.symm.trans hq)
    exact ⟨a, r, i, hb, hcls, hp⟩

theorem Core.live_eq {s : State} {L : Nat → List Nat} (h : Core s L) {c : Nat} (hc : c < kNumClasses) :
    (s.cls c).liveBlocks = (s.classBlocks c).ncard := by
  have hapart : ∀ a ∈ (L c).toFinset, ∀ b ∈ (L c).toFinset, a ≠ b →
      Disjoint (s.blocksOf a) (s.blocksOf b) := by
    intro a _ b _ hne
    refine Finset.disjoint_left.mpr fun p hp hp' => hne ?_
    obtain ⟨r, i, hb, rfl⟩ := mem_blocksOf.mp hp
    obtain ⟨q, j, hb', heq⟩ := mem_blocksOf.mp hp'
    exact (h.block_place hb.run hb.index hb'.run hb'.index heq).1
  rw [h.lists.live c hc, h.classBlocks_eq hc, Set.ncard_coe_finset, Finset.card_biUnion hapart,
    ← List.sum_toFinset _ (h.lists.nodup c hc)]
  exact Finset.sum_congr rfl fun a _ => (h.card_blocksOf a).symm

namespace Book

/-! ## Slots -/

/-- The caches and the slots that destructors have to visit hold at most sixteen blocks of
each class. -/
structure Capped (w : Book) : Prop where
  cache : ∀ t tc c, w.st.tcache t = some tc → (tc.buf c).length ≤ kTCap
  leaving : ∀ t c, (w.leaving t c).length ≤ kTCap

theorem Capped.of_same {w w' : Book} (h : w.Capped) (hcache : w'.st.tcache = w.st.tcache)
    (hleaving : w'.leaving = w.leaving) : w'.Capped := by
  refine ⟨?_, ?_⟩
  · rw [hcache]
    exact h.cache
  · rw [hleaving]
    exact h.leaving

theorem Capped.set {w w' : Book} (h : w.Capped) {t : Tid} {tc : TCache}
    (hcache : w'.st.tcache = put w.st.tcache t (some tc)) (hleaving : w'.leaving = w.leaving)
    (hcap : ∀ c, (tc.buf c).length ≤ kTCap) : w'.Capped := by
  refine ⟨fun u tc' c htc' => ?_, ?_⟩
  · rw [hcache] at htc'
    by_cases hu : u = t
    · rw [hu, put_same, Option.some.injEq] at htc'
      rw [← htc']
      exact hcap c
    · exact h.cache u tc' c ((put_other _ _ hu).symm.trans htc')
  · rw [hleaving]
    exact h.leaving

theorem put_length {buf : Nat → List Nat} (h : ∀ d, (buf d).length ≤ kTCap) {c : Nat} {l : List Nat}
    (hl : l.length ≤ kTCap) (d : Nat) : (put buf c l d).length ≤ kTCap := by
  by_cases hd : d = c
  · rw [hd, put_same]
    exact hl
  · rw [put_other _ _ hd]
    exact h d

theorem Capped.step {w w' : Book} (hk : w.Kept) (h : w.Capped) (hs : w.Step w') : w'.Capped := by
  obtain ⟨L, hcore⟩ := hk.core
  cases hs with
  | malloc cls fresh clock call =>
      obtain ⟨ans, s', hcall, hslow, -⟩ := mallocSlow_cases hcore cls fresh
      rw [call] at hcall
      cases hcall
      exact h.of_same hslow.caches rfl
  | @give t a i r now s' block holds clock call =>
      obtain ⟨hcall, -⟩ := runGive_spec hcore block.run block.index block.bit now
      rw [call] at hcall
      cases hcall
      exact h.of_same rfl rfl
  | push holds inside ours words call =>
      obtain ⟨tc, htc, hroom, rfl⟩ := tcachePush_some call
      exact h.set rfl rfl (put_length (fun d => h.cache _ tc d htc) hroom)
  | @pop t c p s' call =>
      obtain ⟨tc, rest, htc, hbuf, rfl⟩ := tcachePop_some call
      have hcap := h.cache t tc c htc
      rw [hbuf, List.length_cons] at hcap
      exact h.set rfl rfl (put_length (fun d => h.cache _ tc d htc) (by omega))
  | @newCache t =>
      unfold State.tcacheNew
      split
      · exact h.set rfl rfl fun c => Nat.zero_le _
      · exact h.of_same rfl rfl
  | @exit t tc cache done =>
      refine ⟨fun u tc' c htc' => ?_, fun u c => ?_⟩
      · have htc' : put w.st.tcache t none u = some tc' := htc'
        by_cases hu : u = t
        · rw [hu, put_same] at htc'
          cases htc'
        · exact h.cache u tc' c ((put_other _ _ hu).symm.trans htc')
      · show (put w.leaving t tc.buf u c).length ≤ kTCap
        by_cases hu : u = t
        · rw [hu, put_same]
          exact h.cache t tc c cache
        · rw [put_other _ _ hu]
          exact h.leaving u c
  | @drain t c p ps now s' next order clock call =>
      have hin : p ∈ w.blocks (.leaving t c) := by
        have hplace : w.blocks (.leaving t c) = ps ++ [p] := next
        rw [hplace]
        simp
      obtain ⟨r, i, -, -, hcall, -⟩ := Cacheable.drain hcore (hk.slots _ c p rfl hin) now
      rw [call] at hcall
      cases hcall
      refine ⟨h.cache, fun u d => ?_⟩
      show (put w.leaving t (put (w.leaving t) c ps) u d).length ≤ kTCap
      by_cases hu : u = t
      · rw [hu, put_same]
        have hcap := h.leaving t c
        rw [next, List.length_append] at hcap
        exact put_length (h.leaving t) (by omega) d
      · rw [put_other _ _ hu]
        exact h.leaving u d
  | @trim c now s' cls call =>
      obtain ⟨s₁, L', hcall, -, htrims, -⟩ := trimClass_spec hcore cls now
      rw [call] at hcall
      cases hcall
      have hsame := congrArg State.tcache htrims.fixed
      exact h.of_same hsame rfl
  | handOver holds => exact h.of_same rfl rfl

theorem Capped.start (runIdle dirtyIdle : Nat) (os : Os) : (Book.start runIdle dirtyIdle os).Capped := by
  obtain ⟨-, -, hcaches⟩ := ensureInit_same (State.init runIdle dirtyIdle) os
  refine ⟨fun t tc c htc => ?_, fun t c => Nat.zero_le _⟩
  cases (congrFun hcaches t).symm.trans htc

/-! ## Blocks out of use -/

/-- The blocks of class `c` that clients hold. -/
def clientBlocks (w : Book) (c : Nat) : Set Nat := { p ∈ w.st.classBlocks c | ∃ t, p ∈ w.held t }

/-- The slots of class `c`. -/
def slots (w : Book) (c : Nat) (T : Finset Tid) : Finset Nat :=
  T.biUnion fun t => (w.blocks (.slot t c)).toFinset ∪ (w.blocks (.leaving t c)).toFinset

theorem Capped.slots_le {w : Book} (h : w.Capped) (c : Nat) (T : Finset Tid) :
    (w.slots c T).card ≤ T.card * (2 * kTCap) := by
  refine Finset.card_biUnion_le_card_mul _ _ _ fun t _ => ?_
  have hslot : (w.blocks (.slot t c)).length ≤ kTCap := by
    unfold Book.blocks
    dsimp only
    split
    · exact Nat.zero_le _
    · rename_i tc htc
      exact h.cache t tc c htc
  have hleaving : (w.blocks (.leaving t c)).length ≤ kTCap := h.leaving t c
  have hunion := Finset.card_union_le (w.blocks (.slot t c)).toFinset (w.blocks (.leaving t c)).toFinset
  have hcard := List.toFinset_card_le (w.blocks (.slot t c))
  have hcard' := List.toFinset_card_le (w.blocks (.leaving t c))
  omega

theorem Kept.slot_cls {w : Book} (h : w.Kept) {k : Place} {c d p : Nat} (hk : k.cls = some d)
    (hp : p ∈ w.blocks k) (hc : p ∈ w.st.classBlocks c) : d = c := by
  obtain ⟨L, hcore⟩ := h.core
  obtain ⟨a, r, i, hb, hcls, heq⟩ := hc
  obtain ⟨-, q, j, hb', heq', hcls'⟩ := h.slots k d p hk hp
  obtain ⟨hrun, -⟩ := hcore.block_place hb.run hb.index hb'.run hb'.index (heq.symm.trans heq')
  rw [← hrun] at hb'
  obtain rfl : r = q := Option.some.inj (hb.run.symm.trans hb'.run)
  omega

theorem Kept.classBlocks_subset {w : Book} (h : w.Kept) {T : Finset Tid} (hT : w.Among T) (c : Nat) :
    w.st.classBlocks c ⊆ w.clientBlocks c ∪ w.slots c T := by
  intro p hp
  have halloc : Allocated w.st p := by
    obtain ⟨a, r, i, hb, -, heq⟩ := hp
    exact ⟨a, r, i, hb, heq⟩
  obtain ⟨k, hk⟩ := (h.shares.mem p).mp halloc
  cases k with
  | client t => exact .inl ⟨hp, t, hk⟩
  | slot t d =>
      obtain rfl := h.slot_cls (k := .slot t d) rfl hk hp
      have ht : t ∈ T := by
        by_contra hout
        have hnone : w.blocks (.slot t d) = [] := by
          unfold Book.blocks
          dsimp only
          rw [(hT t hout).1]
        rw [hnone] at hk
        cases hk
      exact .inr (Finset.mem_biUnion.mpr ⟨t, ht, Finset.mem_union_left _ (List.mem_toFinset.mpr hk)⟩)
  | leaving t d =>
      obtain rfl := h.slot_cls (k := .leaving t d) rfl hk hp
      have ht : t ∈ T := by
        by_contra hout
        have hnone : w.blocks (.leaving t d) = [] := (hT t hout).2 d
        rw [hnone] at hk
        cases hk
      exact .inr (Finset.mem_biUnion.mpr ⟨t, ht, Finset.mem_union_right _ (List.mem_toFinset.mpr hk)⟩)

theorem Kept.live_le {w : Book} (h : w.Kept) (hcap : w.Capped) {T : Finset Tid} (hT : w.Among T)
    {c : Nat} (hc : c < kNumClasses) :
    (w.st.cls c).liveBlocks ≤ (w.clientBlocks c).ncard + T.card * (2 * kTCap) := by
  obtain ⟨L, hcore⟩ := h.core
  have hfinite : (w.clientBlocks c).Finite := by
    apply Set.Finite.subset _ (Set.sep_subset (w.st.classBlocks c) _)
    rw [hcore.classBlocks_eq hc]
    exact Finset.finite_toSet _
  rw [hcore.live_eq hc]
  calc (w.st.classBlocks c).ncard
      ≤ (w.clientBlocks c ∪ w.slots c T).ncard :=
        Set.ncard_le_ncard (h.classBlocks_subset hT c) (hfinite.union (Finset.finite_toSet _))
    _ ≤ (w.clientBlocks c).ncard + ((w.slots c T : Finset Nat) : Set Nat).ncard := Set.ncard_union_le _ _
    _ ≤ (w.clientBlocks c).ncard + T.card * (2 * kTCap) := by
        rw [Set.ncard_coe_finset]
        exact Nat.add_le_add_left (hcap.slots_le c T) _

/-! ## Any sections of any threads -/

theorem chain_capped {w : Book} {ws : List Book} (hk : w.Kept) (h : w.Capped)
    (hrun : (w :: ws).IsChain Step) : ∀ w' ∈ ws, w'.Kept ∧ w'.Capped := by
  induction ws generalizing w with
  | nil => nofun
  | cons w₁ ws ih =>
      obtain ⟨hstep, hrest⟩ := List.isChain_cons_cons.mp hrun
      have hk₁ := hk.step hstep
      have h₁ := h.step hk hstep
      exact List.forall_mem_cons.mpr ⟨⟨hk₁, h₁⟩, ih hk₁ h₁ hrest⟩

/-- In any order of the sections of the threads in `T`, as long as the clients together
never hold more than `m` blocks of a class, that class stays within the runs for `m`
blocks and the thirty-two slots of each thread. A block is held until its run or a cache
takes it back: one whose `free` is ignored stays held. -/
theorem runs_blowup {runIdle dirtyIdle : Nat} {os : Os} {ws : List Book} {c : Nat} (hc : c < kNumClasses)
    (hrun : (Book.start runIdle dirtyIdle os :: ws).IsChain Step) {T : Finset Tid}
    (hT : ∀ w ∈ ws, w.Among T) {m : Nat} (hm : ∀ w ∈ ws, (w.clientBlocks c).ncard ≤ m) :
    ∀ w ∈ ws, w.st.runCount c ≤ (m + 32 * T.card + (elemsOf c - 1)) / elemsOf c := by
  have hstart := Kept.start runIdle dirtyIdle os
  have hpos := (Alloc.geometry hc).elems_pos
  have hkept := chain_capped hstart (.start runIdle dirtyIdle os) hrun
  have hzero := start_runCount runIdle dirtyIdle os c
  apply ((growsWhenFull hc).peak hstart (hzero ▸ Nat.zero_le _) hrun).mpr
  intro w hw
  have hlive := (hkept w hw).1.live_le (hkept w hw).2 (hT w hw) hc
  have hclients := hm w hw
  have hdiv := Nat.lt_div_mul_add (a := m + 32 * T.card + (elemsOf c - 1)) hpos
  unfold kTCap at hlive
  omega

theorem HoldsAlone.clientBlocks_le {w : Book} {t : Tid} (h : w.HoldsAlone t) (c : Nat) :
    (w.clientBlocks c).ncard ≤ (w.held t).length := by
  have hsub : w.clientBlocks c ⊆ ((w.held t).toFinset : Set Nat) := by
    rintro p ⟨-, u, hu⟩
    by_cases heq : u = t
    · rw [heq] at hu
      exact List.mem_toFinset.mpr hu
    · rw [h u heq] at hu
      cases hu
  have hcard := Set.ncard_le_ncard hsub (Finset.finite_toSet _)
  rw [Set.ncard_coe_finset] at hcard
  exact hcard.trans (List.toFinset_card_le _)

/-- Clients hold one block at a time, a second one stays in the cache of a thread. -/
theorem runs_blowup_cached : ∃ w : Book, (w.st.cls 0).liveBlocks = 2 ∧
    w.blocks (.slot 0 0) = [1073754112] ∧ w.held 1 = [1073754120] ∧
      w.st.runCount 0 ≤ (1 + 32 * ({0} : Finset Tid).card + (elemsOf 0 - 1)) / elemsOf 0 := by
  obtain ⟨w₁, w₂, w₃, w₄, h⟩ := cached_and_held
  refine ⟨w₄, h.two, h.cached, h.client, ?_⟩
  refine runs_blowup (c := 0) (m := 1) (by decide) h.chain h.among (fun w hw => ?_) w₄ (by simp)
  obtain ⟨t, halone, hlength⟩ := h.held w hw
  exact (halone.clientBlocks_le 0).trans hlength

end Book

end Memflux.Alloc
