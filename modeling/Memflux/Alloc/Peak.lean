import Memflux.Alloc.Bookkeeping
import Memflux.Lib.Peak

/-! # The runs of a class

The slow path of `malloc` maps a run only when every run of the class is full, and takes
a block of it at once. So however blocks are taken, cached and given back, by any number
of threads, a class never has more runs than its allocated blocks once needed.
-/

namespace Memflux.Alloc

open Spans BitWords DList Pools

/-- Where the runs of class `c` are. -/
def State.classRuns (s : State) (c : Nat) : Set Nat := { a | ∃ r, s.runs a = some r ∧ r.cls = c + 1 }

noncomputable def State.runCount (s : State) (c : Nat) : Nat := (s.classRuns c).ncard

/-! ## Counting by the lists -/

theorem Core.classRuns_eq {s : State} {L : Nat → List Nat} (h : Core s L) {c : Nat}
    (hc : c < kNumClasses) : s.classRuns c = ((L c).toFinset : Set Nat) := by
  ext a
  rw [Finset.mem_coe, List.mem_toFinset]
  constructor
  · rintro ⟨r, hr, hcls⟩
    have hmem := h.lists.mem a r hr
    rwa [hcls] at hmem
  · intro ha
    exact h.lists.own c hc a ha

theorem Core.runCount_eq {s : State} {L : Nat → List Nat} (h : Core s L) {c : Nat}
    (hc : c < kNumClasses) : s.runCount c = (L c).length := by
  rw [State.runCount, h.classRuns_eq hc, Set.ncard_coe_finset, List.toFinset_card_of_nodup (h.lists.nodup c hc)]

theorem Core.classRuns_finite {s : State} {L : Nat → List Nat} (h : Core s L) {c : Nat}
    (hc : c < kNumClasses) : (s.classRuns c).Finite := by
  rw [h.classRuns_eq hc]
  exact Finset.finite_toSet _

theorem Core.usedAt_of_mem {s : State} {L : Nat → List Nat} (h : Core s L) {c a : Nat}
    (hc : c < kNumClasses) (ha : a ∈ L c) :
    ∃ r, s.runs a = some r ∧ r.elems = elemsOf c ∧ usedAt s.runs a = r.used := by
  obtain ⟨r, hr, hcls⟩ := h.lists.own c hc a ha
  refine ⟨r, hr, ?_, by simp [usedAt, hr]⟩
  rw [(h.run a r hr).elems, hcls, Nat.add_sub_cancel]

theorem Core.live_le {s : State} {L : Nat → List Nat} (h : Core s L) {c : Nat}
    (hc : c < kNumClasses) : (s.cls c).liveBlocks ≤ s.runCount c * elemsOf c := by
  have hle : ∀ n ∈ (L c).map (usedAt s.runs), n ≤ elemsOf c := by
    intro n hn
    obtain ⟨a, ha, rfl⟩ := List.mem_map.mp hn
    obtain ⟨r, hr, helems, hused⟩ := h.usedAt_of_mem hc ha
    rw [hused, (h.run a r hr).used, ← helems]
    exact clears_le _ _
  have hsum := List.sum_le_card_nsmul _ _ hle
  rw [List.length_map, smul_eq_mul] at hsum
  rw [h.lists.live c hc, h.runCount_eq hc]
  exact hsum

/-- When the slow path finds no room, every place of the class is taken. -/
theorem Core.live_of_full {s : State} {L : Nat → List Nat} (h : Core s L) {c : Nat}
    (hc : c < kNumClasses) (hfull : s.firstRoom s.maps.length (s.cls c).head = .ok 0) :
    (s.cls c).liveBlocks = s.runCount c * elemsOf c := by
  obtain ⟨last, hseg⟩ := h.lists.chain c hc
  obtain ⟨-, hall⟩ | ⟨a, ha, r, hroom, -⟩ := firstRoom_spec hseg (h.length_le hc)
  · have heach : ∀ n ∈ (L c).map (usedAt s.runs), n = elemsOf c := by
      intro n hn
      obtain ⟨a, ha, rfl⟩ := List.mem_map.mp hn
      obtain ⟨r, hr, helems, hused⟩ := h.usedAt_of_mem hc ha
      rw [hused, hall a ha r hr, helems]
    rw [h.lists.live c hc, h.runCount_eq hc, List.sum_eq_card_nsmul _ _ heach, List.length_map, smul_eq_mul]
  · have ha0 : a ≠ 0 := (hseg.node ha).1
    rw [hfull] at hroom
    cases hroom
    exact absurd rfl ha0

/-! ## One step -/

theorem classRuns_of_kept {s s' : State} {c : Nat}
    (h : ∀ a r', s'.runs a = some r' → ∃ r, s.runs a = some r ∧ r'.cls = r.cls) :
    s'.classRuns c ⊆ s.classRuns c := by
  rintro a ⟨r', hr', hcls⟩
  obtain ⟨r, hr, hsame⟩ := h a r' hr'
  exact ⟨r, hr, hsame.symm.trans hcls⟩

theorem runCount_congr {s s' : State} (h : s'.runs = s.runs) (c : Nat) :
    s'.runCount c = s.runCount c := by
  unfold State.runCount State.classRuns
  rw [h]

theorem tcachePush_runs {s s' : State} {t : Tid} {c p : Nat} (h : s.tcachePush t c p = some s') :
    s'.runs = s.runs := by
  obtain ⟨tc, -, -, rfl⟩ := tcachePush_some h
  rfl

theorem tcachePop_runs {s s' : State} {t : Tid} {c p : Nat} (h : s.tcachePop t c = some (p, s')) :
    s'.runs = s.runs := by
  obtain ⟨tc, rest, -, -, rfl⟩ := tcachePop_some h
  rfl

theorem afterGive_classRuns {s : State} {a i : Nat} {r : Run} (hr : s.runs a = some r)
    (now : Nat → Nat) (c : Nat) : (s.afterGive a r i now).classRuns c ⊆ s.classRuns c := by
  apply classRuns_of_kept
  intro b q hq
  by_cases hb : b = a
  · have hrun : (s.afterGive a r i now).runs a = some (r.given i (now 0) (now 1)) := put_same _ _ _
    rw [hb, hrun, Option.some.injEq] at hq
    rw [hb, ← hq]
    exact ⟨r, hr, rfl⟩
  · exact ⟨q, (put_other _ _ hb).symm.trans hq, rfl⟩

theorem Grants.classRuns {s s' : State} {a i now : Nat} {r : Run} (hg : Grants s s' a r i now)
    {c : Nat} (hcls : r.cls = c + 1) :
    s'.classRuns c ⊆ insert a (s.classRuns c) ∧ ∀ d, d ≠ c → s'.classRuns d ⊆ s.classRuns d := by
  have hothers : ∀ b q d, b ≠ a → s'.runs b = some q → q.cls = d + 1 → b ∈ s.classRuns d := by
    intro b q d hb hq hd
    have hbody := hg.others b hb
    rw [hq] at hbody
    obtain ⟨r₀, hr₀, hsame⟩ := Option.map_eq_some_iff.mp hbody.symm
    exact ⟨r₀, hr₀, (kept_cls (kept_of_body hsame)).trans hd⟩
  constructor
  · rintro b ⟨q, hq, hd⟩
    by_cases hb : b = a
    · exact .inl hb
    · exact .inr (hothers b q c hb hq hd)
  · rintro d hne b ⟨q, hq, hd⟩
    by_cases hb : b = a
    · have hq := hg.run.symm.trans (hb ▸ hq)
      rw [Option.some.injEq] at hq
      have hd : (r.taken i now).cls = d + 1 := by rw [hq, hd]
      have hsame : r.cls = d + 1 := hd
      exact absurd (by omega) hne
    · exact hothers b q d hb hq hd

theorem Slow.runs {s s' : State} {L : Nat → List Nat} (h : Core s L) {os : Os} {c : Nat}
    {ans : Option Nat} (hs : Slow s os c ans s') {d : Nat}
    (hd : d < kNumClasses) :
    s'.runCount d ≤ s.runCount d ∨
      s'.runCount d = s.runCount d + 1 ∧ (s'.cls d).liveBlocks = s.runCount d * elemsOf d + 1 := by
  have hle : ∀ {t : State}, t.classRuns d ⊆ s.classRuns d → t.runCount d ≤ s.runCount d :=
    fun hsub => Set.ncard_le_ncard hsub (h.classRuns_finite hd)
  cases hs with
  | failed => exact .inl (Nat.le_refl _)
  | @taken a i r room run cls free =>
      refine .inl (hle (classRuns_of_kept fun b q hq => ?_))
      by_cases hb : b = a
      · have hrun : (s.afterTake a r i (os.now 1)).runs a = some (r.taken i (os.now 1)) := put_same _ _ _
        rw [hb, hrun, Option.some.injEq] at hq
        rw [hb, ← hq]
        exact ⟨r, run, rfl⟩
      · exact ⟨q, (put_other _ _ hb).symm.trans hq, rfl⟩
  | @grown a al b runs l r full fresh links run ok cls free =>
      have hgrown : Slow s os c (some (blockAddr a r 0))
          ((s.withRun c a al b runs).afterTake a r 0 (os.now 1)) :=
        .grown full fresh links run ok cls free
      obtain ⟨hnone, -⟩ | ⟨a', r', i, -, hcls, hg⟩ := hgrown.grants h
      · cases hnone
      · obtain ⟨hsame, hothers⟩ := hg.classRuns hcls
        by_cases hdc : d = c
        · subst hdc
          have hcount := (Set.ncard_le_ncard hsame ((h.classRuns_finite hd).insert a')).trans
            (Set.ncard_insert_le a' _)
          obtain hle' | hmore := Nat.le_or_eq_of_le_succ hcount
          · exact .inl hle'
          · refine .inr ⟨hmore, ?_⟩
            rw [← h.live_of_full hd full]
            show (put (put s.cls d { s.cls d with head := a }) (r.cls - 1) _ d).liveBlocks = _
            rw [cls, Nat.add_sub_cancel, put_same]
            show (put s.cls d { s.cls d with head := a } d).liveBlocks + 1 = _
            rw [put_same]
        · exact .inl (hle (hothers d hdc))

namespace Book

/-- A section adds a run to a class only when the class is full, and takes a block of it. -/
theorem Step.runs {w w' : Book} (h : w.Kept) (hs : w.Step w') {d : Nat} (hd : d < kNumClasses) :
    w'.st.runCount d ≤ w.st.runCount d ∨
      w'.st.runCount d = w.st.runCount d + 1 ∧
        (w'.st.cls d).liveBlocks = w.st.runCount d * elemsOf d + 1 := by
  obtain ⟨L, hcore⟩ := h.core
  have hle : ∀ {t : State}, t.classRuns d ⊆ w.st.classRuns d → t.runCount d ≤ w.st.runCount d :=
    fun hsub => Set.ncard_le_ncard hsub (hcore.classRuns_finite hd)
  cases hs with
  | malloc cls fresh clock call =>
      obtain ⟨ans, s', hcall, hslow, L', hcore'⟩ := mallocSlow_cases hcore cls fresh
      rw [call] at hcall
      cases hcall
      exact hslow.runs hcore hd
  | @give t a i r now s' block holds clock call =>
      obtain ⟨hcall, -⟩ := runGive_spec hcore block.run block.index block.bit now
      rw [call] at hcall
      cases hcall
      exact .inl (hle (afterGive_classRuns block.run now d))
  | push holds inside ours words call =>
      exact .inl (Nat.le_of_eq (runCount_congr (tcachePush_runs call) d))
  | pop call => exact .inl (Nat.le_of_eq (runCount_congr (tcachePop_runs call) d))
  | newCache =>
      refine .inl (Nat.le_of_eq (runCount_congr ?_ d))
      rw [State.tcacheNew]
      split <;> rfl
  | exit cache done => exact .inl (Nat.le_refl _)
  | @drain t c p ps now s' next order clock call =>
      have hin : p ∈ w.blocks (.leaving t c) := by
        have hplace : w.blocks (.leaving t c) = ps ++ [p] := next
        rw [hplace]
        simp
      obtain ⟨r, i, hb, -, hcall, -⟩ := Cacheable.drain hcore (h.slots _ c p rfl hin) now
      rw [call] at hcall
      cases hcall
      exact .inl (hle (afterGive_classRuns hb.run now d))
  | @trim c now s' cls call =>
      obtain ⟨s₁, L', hcall, -, htrims, -⟩ := trimClass_spec hcore cls now
      rw [call] at hcall
      cases hcall
      refine .inl (hle (classRuns_of_kept fun a r' hr' => ?_))
      obtain ⟨r, hr, hkept⟩ := htrims.runs a r' hr'
      exact ⟨r, hr, kept_cls hkept⟩
  | handOver holds => exact .inl (Nat.le_refl _)

theorem growsWhenFull {c : Nat} (hc : c < kNumClasses) :
    GrowsWhenFull Step Kept (fun w => w.st.runCount c) (fun w => (w.st.cls c).liveBlocks) (elemsOf c) where
  keeps h hs := h.step hs
  holds h := by
    obtain ⟨L, hcore⟩ := h.core
    exact hcore.live_le hc
  grows h hs := hs.runs h hc

/-- No thread but those of `T` has a cache, or one that is not emptied yet. -/
def Among (w : Book) (T : Finset Tid) : Prop :=
  ∀ t ∉ T, w.st.tcache t = none ∧ ∀ c, w.leaving t c = []

/-! ## Any sections of any threads -/

theorem start_runCount (runIdle dirtyIdle : Nat) (os : Os) (c : Nat) :
    (Book.start runIdle dirtyIdle os).st.runCount c = 0 := by
  obtain ⟨hruns, -⟩ := ensureInit_same (State.init runIdle dirtyIdle) os
  have hnone : (Book.start runIdle dirtyIdle os).st.classRuns c = ∅ := by
    rw [Set.eq_empty_iff_forall_notMem]
    rintro a ⟨r, hr, -⟩
    cases (congrFun hruns a).symm.trans hr
  rw [State.runCount, hnone, Set.ncard_empty]

/-- In any order of the sections of any threads: a class stays within `n` runs exactly
when its allocated blocks, with those in the thread caches, stay within what `n` runs
hold. So it never has more runs than its most blocks at a time needed. -/
theorem runs_peak {runIdle dirtyIdle : Nat} {os : Os} {ws : List Book} {c : Nat} (hc : c < kNumClasses)
    (hrun : (Book.start runIdle dirtyIdle os :: ws).IsChain Step) (n : Nat) :
    (∀ w ∈ ws, w.st.runCount c ≤ n) ↔ ∀ w ∈ ws, (w.st.cls c).liveBlocks ≤ n * elemsOf c := by
  have hzero : (Book.start runIdle dirtyIdle os).st.runCount c ≤ n := by
    rw [start_runCount]
    exact Nat.zero_le n
  exact (growsWhenFull hc).peak (Kept.start runIdle dirtyIdle os) hzero hrun

/-! ## Two threads and a cache -/

theorem Among.same {w w' : Book} {T : Finset Tid} (h : w.Among T) (hcache : w'.st.tcache = w.st.tcache)
    (hleaving : w'.leaving = w.leaving) : w'.Among T := by
  intro t ht
  rw [hcache, hleaving]
  exact h t ht

theorem Among.setTcache {w w' : Book} {T : Finset Tid} (h : w.Among T) {t : Tid} (ht : t ∈ T)
    {o : Option TCache} (hcache : w'.st.tcache = put w.st.tcache t o)
    (hleaving : w'.leaving = w.leaving) : w'.Among T := by
  intro u hu
  have hne : u ≠ t := by
    rintro rfl
    exact hu ht
  rw [hcache, hleaving, put_other _ _ hne]
  exact h u hu

theorem Among.malloc {w : Book} {T : Finset Tid} (h : w.Among T) (hk : w.Kept) {os : Os} {c : Nat}
    (hc : c < kNumClasses) (hfresh : SlowFresh w.st os c) {ans : Option Nat} {s' : State}
    (hcall : w.st.mallocSlow os c = .ok (ans, s')) (t : Tid) (l : List Nat) :
    (w.hold s' t l).Among T := by
  obtain ⟨L, hcore⟩ := hk.core
  obtain ⟨ans₁, s₁, hcall₁, hslow, -⟩ := mallocSlow_cases hcore hc hfresh
  rw [hcall] at hcall₁
  cases hcall₁
  exact h.same hslow.caches rfl

theorem Among.newCache {w : Book} {T : Finset Tid} (h : w.Among T) {t : Tid} (ht : t ∈ T) :
    Among { w with st := w.st.tcacheNew t } T := by
  by_cases hnew : w.st.tkeyOk ∧ w.st.tcache t = none
  · exact h.setTcache ht (congrArg State.tcache (if_pos hnew)) rfl
  · exact h.same (congrArg State.tcache (if_neg hnew)) rfl

theorem Among.push {w : Book} {T : Finset Tid} (h : w.Among T) {t : Tid} (ht : t ∈ T) {c p : Nat}
    {s' : State} (hcall : w.st.tcachePush t c p = some s') (l : List Nat) :
    (w.hold s' t l).Among T := by
  obtain ⟨tc, -, -, hset⟩ := tcachePush_some hcall
  exact h.setTcache ht (congrArg State.tcache hset) rfl

theorem tcacheNew_cls (s : State) (t : Tid) : (s.tcacheNew t).cls = s.cls := by
  unfold State.tcacheNew
  split <;> rfl

theorem tcachePush_cls {s s' : State} {t : Tid} {c p : Nat} (h : s.tcachePush t c p = some s') :
    s'.cls = s.cls := by
  obtain ⟨tc, -, -, rfl⟩ := tcachePush_some h
  rfl

/-- Only thread `t` holds blocks. -/
def HoldsAlone (w : Book) (t : Tid) : Prop := ∀ u, u ≠ t → w.held u = []

/-- A run in which thread 0 takes a block and puts it into its cache, and thread 1 takes
the next one. -/
structure CachedAndHeld (w₁ w₂ w₃ w₄ : Book) : Prop where
  chain : (Book.start 0 0 (Os.granting (2 ^ 30) 1) :: [w₁, w₂, w₃, w₄]).IsChain Step
  among : ∀ w ∈ [w₁, w₂, w₃, w₄], w.Among {0}
  held : ∀ w ∈ [w₁, w₂, w₃, w₄], ∃ t, w.HoldsAlone t ∧ (w.held t).length ≤ 1
  live : ∀ w ∈ [w₁, w₂, w₃, w₄], (w.st.cls 0).liveBlocks ≤ 2
  two : (w₄.st.cls 0).liveBlocks = 2
  cached : w₄.blocks (.slot 0 0) = [1073754112]
  client : w₄.held 1 = [1073754120]

theorem cached_and_held : ∃ w₁ w₂ w₃ w₄, CachedAndHeld w₁ w₂ w₃ w₄ := by
  have htest : ((Book.start 0 0 (Os.granting (2 ^ 30) 1)).st.mallocSlow
      (Os.granting (2 ^ 30) 1) 0).toOption.any (fun x => decide (x.1 = some 1073754112) &&
        decide ((x.2.cls 0).liveBlocks = 1) && (x.2.tcacheNew 0).inReserve 1073754112 &&
        ((x.2.tcacheNew 0).oursSmall 1073754112).toOption.any id &&
        ((x.2.tcacheNew 0).runWords (runOf 1073754112)).toOption.any fun hd =>
          ((x.2.tcacheNew 0).tcachePush 0 (hd.cls - 1) 1073754112).any fun s =>
            (s.firstRoom s.maps.length (s.cls 0).head).toOption.any (fun a => decide (a ≠ 0)) &&
            (s.mallocSlow (Os.granting (2 ^ 30) 1) 0).toOption.any fun y =>
              decide (y.1 = some 1073754120) && decide ((y.2.cls 0).liveBlocks = 2) &&
              (y.2.tcache 0).any fun tc => decide (tc.buf 0 = [1073754112])) = true := by
    decide +kernel
  obtain ⟨⟨ans, s₁⟩, hcall, htest⟩ := World.ok_of_any htest
  simp only [Bool.and_eq_true, decide_eq_true_eq] at htest
  obtain ⟨⟨⟨⟨hans, hlive⟩, hin⟩, hours⟩, hpush⟩ := htest
  obtain ⟨b, hours, htrue⟩ := World.ok_of_any hours
  obtain ⟨hd, hwords, hpush⟩ := World.ok_of_any hpush
  obtain ⟨s₂, hpush, hnext⟩ := (Option.any_eq_true _ _).mp hpush
  simp only [Bool.and_eq_true] at hnext
  obtain ⟨hroom, hnext⟩ := hnext
  obtain ⟨a, hroom, ha⟩ := World.ok_of_any hroom
  obtain ⟨⟨ans', s₃⟩, hcall', hnext⟩ := World.ok_of_any hnext
  simp only [Bool.and_eq_true, decide_eq_true_eq] at hnext
  obtain ⟨⟨hans', htwo⟩, hslot⟩ := hnext
  obtain ⟨tc, htc, hbuf⟩ := (Option.any_eq_true _ _).mp hslot
  have hfresh' : SlowFresh s₂ (Os.granting (2 ^ 30) 1) 0 := by
    intro hfull
    rw [hroom] at hfull
    cases hfull
    exact absurd rfl (of_decide_eq_true ha)
  obtain rfl : ans = some 1073754112 := hans
  obtain rfl : ans' = some 1073754120 := hans'
  obtain rfl : b = true := htrue
  have hclock : ∀ k, (Os.granting (2 ^ 30) 1).now k ≠ 0 := fun _ => Nat.one_ne_zero
  have hclass : 0 < kNumClasses := by decide
  -- the four steps
  let w₀ := Book.start 0 0 (Os.granting (2 ^ 30) 1)
  let w₁ := w₀.hold s₁ 0 [1073754112]
  let w₂ : Book := { w₁ with st := s₁.tcacheNew 0 }
  let w₃ := w₂.hold s₂ 0 ((w₂.held 0).erase 1073754112)
  let w₄ := w₃.hold s₃ 1 ((some 1073754120).toList ++ w₃.held 1)
  have hstep₁ : w₀.Step w₁ := .malloc (t := 0) hclass start_fresh hclock hcall
  have hstep₂ : w₁.Step w₂ := .newCache
  have hstep₃ : w₂.Step w₃ := .push (t := 0) (List.mem_singleton.mpr rfl) hin hours hwords hpush
  have hstep₄ : w₃.Step w₄ := .malloc (t := 1) hclass hfresh' hclock hcall'
  have hkept₀ := Kept.start 0 0 (Os.granting (2 ^ 30) 1)
  have hkept₃ := ((hkept₀.step hstep₁).step hstep₂).step hstep₃
  have hthread : (0 : Tid) ∈ ({0} : Finset Tid) := Finset.mem_singleton_self 0
  have hamong₀ : w₀.Among {0} := fun t _ =>
    ⟨congrFun (ensureInit_same (State.init 0 0) (Os.granting (2 ^ 30) 1)).2.2 t, fun _ => rfl⟩
  have hamong₁ : w₁.Among {0} := hamong₀.malloc hkept₀ hclass start_fresh hcall 0 _
  have hamong₂ : w₂.Among {0} := hamong₁.newCache hthread
  have hamong₃ : w₃.Among {0} := hamong₂.push hthread hpush _
  have hamong₄ : w₄.Among {0} := hamong₃.malloc hkept₃ hclass hfresh' hcall' 1 _
  have hput : ∀ (f : Tid → List Nat) t l, (∀ u, u ≠ t → f u = []) → ∀ u, u ≠ t → put f t l u = [] :=
    fun f t l hf u hu => (put_other _ _ hu).trans (hf u hu)
  have hnone : ∀ u, w₃.held u = [] := by
    intro u
    by_cases hu : u = 0
    · rw [hu]
      show put w₂.held 0 ((put w₀.held 0 [1073754112] 0).erase 1073754112) 0 = []
      rw [put_same, put_same, List.erase_cons_head]
    · exact hput _ 0 _ (hput _ 0 _ fun _ _ => rfl) u hu
  have hclient : w₄.held 1 = [1073754120] := by
    show put w₃.held 1 ((some 1073754120).toList ++ w₃.held 1) 1 = _
    rw [put_same, hnone]
    rfl
  refine ⟨w₁, w₂, w₃, w₄, ?_, ?_, ?_, ?_, htwo, ?_, hclient⟩
  · exact .cons_cons hstep₁ (.cons_cons hstep₂ (.cons_cons hstep₃ (.cons_cons hstep₄ (.singleton _))))
  · simp only [List.forall_mem_cons, List.not_mem_nil, false_imp_iff, implies_true, and_true]
    exact ⟨hamong₁, hamong₂, hamong₃, hamong₄⟩
  · simp only [List.forall_mem_cons, List.not_mem_nil, false_imp_iff, implies_true, and_true]
    refine ⟨⟨0, hput _ _ _ fun _ _ => rfl, Nat.le_refl 1⟩, ⟨0, hput _ _ _ fun _ _ => rfl, Nat.le_refl 1⟩,
      ⟨0, fun u _ => hnone u, ?_⟩, ⟨1, hput _ _ _ fun u _ => hnone u, ?_⟩⟩
    · rw [hnone]
      exact Nat.zero_le 1
    · rw [hclient]
      exact Nat.le_refl 1
  · simp only [List.forall_mem_cons, List.not_mem_nil, false_imp_iff, implies_true, and_true]
    refine ⟨?_, ?_, ?_, Nat.le_of_eq htwo⟩
    · show (s₁.cls 0).liveBlocks ≤ 2
      omega
    · show ((s₁.tcacheNew 0).cls 0).liveBlocks ≤ 2
      rw [tcacheNew_cls]
      omega
    · show (s₂.cls 0).liveBlocks ≤ 2
      rw [tcachePush_cls hpush, tcacheNew_cls]
      omega
  · exact (blocks_slot htc 0).trans (of_decide_eq_true hbuf)

/-- Two blocks, one of them in a cache, fit into one run. -/
theorem runs_peak_cached : ∃ w : Book, (w.st.cls 0).liveBlocks = 2 ∧
    w.blocks (.slot 0 0) = [1073754112] ∧ w.held 1 = [1073754120] ∧ w.st.runCount 0 ≤ 1 := by
  obtain ⟨w₁, w₂, w₃, w₄, h⟩ := cached_and_held
  refine ⟨w₄, h.two, h.cached, h.client, ?_⟩
  have hpeak := (runs_peak (c := 0) (by decide) h.chain 1).mpr
  refine hpeak (fun w hw => (h.live w hw).trans ?_) w₄ (by simp)
  decide

end Book

end Memflux.Alloc
