import Memflux.Alloc.Purge

/-! # The pages that a trim pass gives back

The walk over the list of a class judges every run by the header that the run had
when the walk began, so the pages it passes to `madvise` are those that
`purge_run` selects in these headers. Where the block size divides the page size
these are all pages without an allocated block. Where a block is larger than a
page, the interval of the first page is empty and the loop ends there.
-/

namespace Memflux.Alloc

open Spans BitWords DList

/-! ## The walk -/

/-- The addresses that the walk of a class passes to `madvise`, in order. -/
def walkAdvice (t : Nat) : Nat → State → Nat → List Nat
  | 0, _, _ => []
  | fuel + 1, s, a =>
      if a = 0 then []
      else
        match s.run a, s.purgeRun a t with
        | .ok r, .ok s' => s.advised a r t ++ walkAdvice t fuel s' r.next
        | _, _ => []

/-- Those of one class of a trim pass. -/
def State.classAdvice (s : State) (c t : Nat) : List Nat :=
  walkAdvice t s.maps.length s (s.cls c).head

/-- What `purge_run` would pass on for the run at `a`. -/
def State.adviceAt (s : State) (t a : Nat) : List Nat :=
  match s.runs a with
  | none => []
  | some r => s.advised a r t

theorem adviceAt_run {s : State} {t a : Nat} {r : Run} (hr : s.runs a = some r) :
    s.adviceAt t a = s.advised a r t := by
  rw [State.adviceAt, hr]

/-- Nothing in a header but its links is read later, and a purge leaves the other
headers alone otherwise. -/
theorem purgeRun_body {s s' : State} {a t x : Nat} {q : Run} (hp : s.purgeRun a t = .ok s')
    (hx : x ≠ a) (hq : s'.runs x = some q) : ∃ r, s.runs x = some r ∧ q.body = r.body := by
  have hcases := purgeRun_cases hp
  cases hcases with
  | unmapped run idle unlinked =>
      obtain ⟨l, hrel⟩ := unlink_relinked unlinked
      exact relinked_some hrel (State.munmap_runs_some hq).2
  | @advised r run busy dirty mem n pages =>
      have hq : put s.runs a (some { r with lastTouchMs := t }) x = some q := hq
      rw [put_other _ _ hx] at hq
      exact ⟨q, hq, rfl⟩
  | untouched run busy clean => exact ⟨q, hq, rfl⟩

theorem advised_body {s s' : State} (hfix : s'.fixedPart = s.fixedPart) {r q : Run}
    (hb : q.body = r.body) (a t : Nat) : s'.advised a q t = s.advised a r t := by
  have hrunMs := congrArg State.runIdleMs hfix
  have hdirtyMs := congrArg State.dirtyIdleMs hfix
  have hrunMs : s'.runIdleMs = s.runIdleMs := hrunMs
  have hdirtyMs : s'.dirtyIdleMs = s.dirtyIdleMs := hdirtyMs
  have htouch : q.lastTouchMs = r.lastTouchMs := by
    show q.body.lastTouchMs = r.body.lastTouchMs
    rw [hb]
  have hkept := kept_of_body hb
  have hidle : s'.runIdle q t = s.runIdle r t := by
    rw [State.runIdle, State.runIdle, hrunMs, kept_used hkept, kept_fullyFree hkept]
  have hdirty : s'.dirtyIdle q t = s.dirtyIdle r t := by
    rw [State.dirtyIdle, State.dirtyIdle, hdirtyMs, htouch]
  rw [State.advised, State.advised, hidle, hdirty, kept_purgeOffsets hkept, kept_runData hkept]

/-- The walk over the rest `l` of a list; the induction is on `l`. -/
theorem walkAdvice_spec {t c fuel : Nat} (hc : c < kNumClasses) {l : List Nat} {s : State}
    {L : Nat → List Nat} (h : Core s L) (l₀ : List Nat) (hL : L c = l₀ ++ l)
    (hfuel : l.length ≤ fuel) :
    walkAdvice t fuel s (l.headD 0) = l.flatMap (s.adviceAt t) := by
  induction l generalizing s L l₀ fuel with
  | nil => cases fuel <;> rfl
  | cons a l ih =>
      cases fuel with
      | zero => simp at hfuel
      | succ fuel =>
          obtain ⟨r, s₁, l₁, ⟨h0, hr, hnext⟩, hp, hcore, htrims, -, -⟩ :=
            purgeWalk_step (t := t) hc h hL
          have hsplit : put L c (l₁ ++ l) c = l₁ ++ l := put_same _ _ _
          have hsame : ∀ x ∈ l, s₁.adviceAt t x = s.adviceAt t x := by
            intro x hx
            have hne : x ≠ a := by
              rintro rfl
              have hnd := h.lists.nodup c hc
              rw [hL] at hnd
              exact (List.nodup_cons.mp (List.nodup_append.mp hnd).2.1).1 hx
            obtain ⟨q, hq, -⟩ := hcore.lists.own c hc x (by rw [hsplit]; simp [hx])
            obtain ⟨r', hr', hb⟩ := purgeRun_body hp hne hq
            rw [adviceAt_run hq, adviceAt_run hr', advised_body htrims.fixed hb]
          have hrun : s.run a = .ok r := by simp [State.run, hr]
          show walkAdvice t (fuel + 1) s a = _
          rw [walkAdvice, if_neg h0, hrun, hp, List.flatMap_cons, adviceAt_run hr]
          show s.advised a r t ++ walkAdvice t fuel s₁ r.next = _
          rw [hnext, ih hcore l₁ hsplit (by simpa using hfuel), List.flatMap_congr hsame]

theorem classAdvice_eq {s : State} {L : Nat → List Nat} (h : Core s L) {c : Nat}
    (hc : c < kNumClasses) (t : Nat) : s.classAdvice c t = (L c).flatMap (s.adviceAt t) := by
  rw [State.classAdvice, (h.lists.chain c hc).head_eq]
  exact walkAdvice_spec hc h [] rfl (h.length_le hc)

theorem Core.page_unique {s : State} {L : Nat → List Nat} (h : Core s L) {a b off off' : Nat}
    {r q : Run} (hr : s.runs a = some r) (hq : s.runs b = some q)
    (hoff : off + 4096 ≤ r.elems * r.elem) (hoff' : off' + 4096 ≤ q.elems * q.elem)
    (heq : runData a r + off = runData b q + off') : a = b := by
  obtain ⟨g, hg, rfl, hsize⟩ := h.maps.ofRun a r hr
  obtain ⟨g', hg', rfl, hsize'⟩ := h.maps.ofRun b q hq
  have hok := h.run _ r hr
  have hok' := h.run _ q hq
  have hge := hok.geometry.map_ge
  have hge' := hok'.geometry.map_ge
  rw [← hok.elems, ← hok.elem] at hge
  rw [← hok'.elems, ← hok'.elem] at hge'
  have hstop : g.stop = g.base + g.size := rfl
  have hstop' : g'.stop = g'.base + g'.size := rfl
  unfold runData at heq
  rw [h.maps.apart.eq_of_mem hg hg' (x := g.base + dataOffsetPadded r.elems + off)
    ⟨by omega, by omega⟩ ⟨by omega, by omega⟩]

/-- A page of a run is passed to `madvise` if `purge_run` selects it in that run. -/
theorem mem_classAdvice {s : State} {L : Nat → List Nat} (h : Core s L) {a off : Nat} {r : Run}
    (hr : s.runs a = some r) (hoff : off + 4096 ≤ r.elems * r.elem) {t : Nat}
    (hidle : s.runIdle r t = false) (hdirty : s.dirtyIdle r t = true) :
    runData a r + off ∈ s.classAdvice (r.cls - 1) t ↔ off ∈ r.purgeOffsets := by
  have hok := h.run a r hr
  have hpos := hok.cls_pos
  have hle := hok.cls_le
  have hadvised : s.advised a r t = r.purgeOffsets.map fun off => runData a r + off := by
    simp [State.advised, hidle, hdirty]
  rw [classAdvice_eq h (by omega), List.mem_flatMap]
  constructor
  · rintro ⟨b, hb, hin⟩
    obtain ⟨q, hq, -⟩ := h.lists.own _ (by omega) b hb
    rw [adviceAt_run hq] at hin
    unfold State.advised at hin
    split at hin
    · cases hin
    · split at hin
      · obtain ⟨off', hoff', heq⟩ := List.mem_map.mp hin
        obtain rfl := h.page_unique hr hq hoff (mem_purgeOffsets hoff').2.2.1 heq.symm
        rw [hr] at hq
        cases hq
        obtain rfl : off' = off := Nat.add_left_cancel heq
        exact hoff'
      · cases hin
  · intro hin
    refine ⟨a, h.lists.mem a r hr, ?_⟩
    rw [adviceAt_run hr, hadvised]
    exact List.mem_map_of_mem hin

/-! ## The page loop -/

/-- Block `i` of a run and the page at `off` of its data share an address. -/
def Overlaps (r : Run) (i off : Nat) : Prop := i * r.elem < off + 4096 ∧ off < i * r.elem + r.elem

/-- As long as no page has an empty interval, the loop reaches every page. -/
theorem purgeLoop_reaches {r : Run} {fuel start : Nat}
    (hwide : ∀ p, p + 4096 ≤ r.elems * r.elem →
      p / r.elem < min ((p + 4096) / r.elem) r.elems) {j : Nat} (hj : j < fuel)
    (hin : start + 4096 * j + 4096 ≤ r.elems * r.elem)
    (hfree : r.pageFree ((start + 4096 * j) / r.elem)
      (min ((start + 4096 * j + 4096) / r.elem) r.elems) = true) :
    start + 4096 * j ∈ r.purgeLoop fuel start := by
  induction fuel generalizing start j with
  | zero => omega
  | succ fuel ih =>
      have hstart : start + 4096 ≤ r.elems * r.elem := by omega
      have hlt := hwide start hstart
      unfold Run.purgeLoop
      rw [if_pos hstart]
      dsimp only
      rw [if_neg (by omega)]
      cases j with
      | zero =>
          rw [Nat.mul_zero, Nat.add_zero] at hfree ⊢
          rw [hfree, if_pos rfl]
          exact List.mem_append_left _ (List.mem_singleton.mpr rfl)
      | succ j =>
          have hnext : start + 4096 * (j + 1) = start + 4096 + 4096 * j := by omega
          rw [hnext] at hin hfree ⊢
          exact List.mem_append_right _ (ih (by omega) hin hfree)

theorem purgeOffsets_small {r : Run} (hok : RunOk r) (hdiv : r.elem ∣ 4096) {off : Nat}
    (hmod : 4096 ∣ off) (hin : off + 4096 ≤ r.elems * r.elem)
    (hfree : ∀ i, i < r.elems → Overlaps r i off → bitAt r.bits i = true) :
    off ∈ r.purgeOffsets := by
  have hpos := hok.elem_pos
  have hle : r.elem ≤ 4096 := Nat.le_of_dvd (by decide) hdiv
  have hskip : ¬ (4096 ≤ r.elem ∧ r.elem % 4096 ≠ 0) := by omega
  have hwide : ∀ p, p + 4096 ≤ r.elems * r.elem →
      p / r.elem < min ((p + 4096) / r.elem) r.elems := by
    intro p hp
    have hlast : p / r.elem < r.elems := (Nat.div_lt_iff_lt_mul hpos).mpr (by omega)
    have hstep : p / r.elem + 1 ≤ (p + 4096) / r.elem := by
      rw [← Nat.add_div_right p hpos]
      exact Nat.div_le_div_right (by omega)
    omega
  have hpage : r.pageFree (off / r.elem) (min ((off + 4096) / r.elem) r.elems) = true := by
    refine List.all_eq_true.mpr fun i hi => hfree i ?_ ⟨?_, ?_⟩
    · have := List.mem_range'_1.mp hi
      omega
    · have hlt : i < (off + 4096) / r.elem := by
        have := List.mem_range'_1.mp hi
        omega
      exact Nat.lt_of_lt_of_le (Nat.mul_lt_mul_of_pos_right hlt hpos) (Nat.div_mul_le_self _ _)
    · have hge : off / r.elem < i + 1 := by
        have := List.mem_range'_1.mp hi
        omega
      have hceil := (Nat.div_lt_iff_lt_mul hpos).mp hge
      rwa [Nat.succ_mul] at hceil
  obtain ⟨j, rfl⟩ := hmod
  have hfuel : j < r.elems * r.elem / 4096 := by omega
  have hzero : 0 + 4096 * j = 4096 * j := Nat.zero_add _
  rw [Run.purgeOffsets, if_neg hskip, ← hzero]
  exact purgeLoop_reaches hwide hfuel (by omega) (by rwa [hzero])

theorem purgeOffsets_large {r : Run} (hlarge : 4096 < r.elem) : r.purgeOffsets = [] := by
  unfold Run.purgeOffsets
  split
  · rfl
  · generalize r.elems * r.elem / 4096 = fuel
    cases fuel with
    | zero => rfl
    | succ fuel =>
        have hempty : min ((0 + 4096) / r.elem) r.elems ≤ 0 / r.elem := by
          rw [Nat.zero_add, Nat.div_eq_of_lt hlarge, Nat.zero_min]
          exact Nat.zero_le _
        unfold Run.purgeLoop
        split
        · exact if_pos hempty
        · rfl

theorem overlaps_own_block {r : Run} (hlarge : 4096 < r.elem) {i j : Nat}
    (h : Overlaps r j (i * r.elem)) : j = i := by
  obtain ⟨h₁, h₂⟩ := h
  rcases Nat.lt_trichotomy j i with hlt | heq | hgt
  · have hm : (j + 1) * r.elem ≤ i * r.elem := Nat.mul_le_mul_right _ hlt
    rw [Nat.succ_mul] at hm
    omega
  · exact heq
  · have hm : (i + 1) * r.elem ≤ j * r.elem := Nat.mul_le_mul_right _ hgt
    rw [Nat.succ_mul] at hm
    omega

theorem overlaps_first {r : Run} (hpos : 0 < r.elem) {off : Nat} : Overlaps r (off / r.elem) off := by
  have hle := Nat.div_mul_le_self off r.elem
  have hlt : off < (off / r.elem + 1) * r.elem := (Nat.div_lt_iff_lt_mul hpos).mp (Nat.lt_succ_self _)
  rw [Nat.succ_mul] at hlt
  exact ⟨by omega, hlt⟩

/-! ## Completeness -/

/-- For the block sizes the loop declares covered: in a pass that purges a run, all
its free pages are given back exactly if no block is larger than a page or all blocks
are allocated. -/
theorem pages_returned_iff {s : State} {L : Nat → List Nat} (h : Core s L) {a : Nat} {r : Run}
    (hr : s.runs a = some r) (hcovered : r.elem ∣ 4096 ∨ 4096 ∣ r.elem) {t : Nat}
    (hidle : s.runIdle r t = false) (hdirty : s.dirtyIdle r t = true) :
    (∀ off, 4096 ∣ off → off + 4096 ≤ r.elems * r.elem →
      (∀ i, i < r.elems → Overlaps r i off → bitAt r.bits i = true) →
        runData a r + off ∈ s.classAdvice (r.cls - 1) t) ↔
      r.elem ≤ 4096 ∨ r.used = r.elems := by
  have hok := h.run a r hr
  have hpos := hok.elem_pos
  constructor
  · intro hall
    by_contra hbad
    obtain ⟨hlarge, hroom⟩ := not_or.mp hbad
    have hlarge : 4096 < r.elem := Nat.lt_of_not_le hlarge
    have hmod : 4096 ∣ r.elem := hcovered.resolve_left fun hdiv =>
      absurd (Nat.le_of_dvd (by decide) hdiv) (by omega)
    obtain ⟨i, hi⟩ := findFree_isSome hok hroom
    obtain ⟨hlt, hset, -⟩ := findFree_spec hok hi
    have hend : (i + 1) * r.elem ≤ r.elems * r.elem := Nat.mul_le_mul_right _ hlt
    rw [Nat.succ_mul] at hend
    have hin : i * r.elem + 4096 ≤ r.elems * r.elem := by omega
    have hmem := hall (i * r.elem) (hmod.mul_left i) hin fun j _ hover =>
      overlaps_own_block hlarge hover ▸ hset
    rw [mem_classAdvice h hr hin hidle hdirty, purgeOffsets_large hlarge] at hmem
    cases hmem
  · rintro (hsmall | hfull) off hmod hin hfree
    · have hdiv : r.elem ∣ 4096 := by
        rcases hcovered with hdiv | hdiv
        · exact hdiv
        · have hge := Nat.le_of_dvd hpos hdiv
          rw [Nat.le_antisymm hsmall hge]
      exact (mem_classAdvice h hr hin hidle hdirty).mpr (purgeOffsets_small hok hdiv hmod hin hfree)
    · -- every block is allocated, the one at the start of the page too
      have hlast : off / r.elem < r.elems := (Nat.div_lt_iff_lt_mul hpos).mpr (by omega)
      have hset := hfree _ hlast (overlaps_first hpos)
      have hfull : clears r.bits r.elems = r.elems := hok.used.symm.trans hfull
      rw [bit_of_clears_eq_full hfull hlast] at hset
      cases hset

/-- After `malloc(4096)` every page of the run but the first is given back. -/
theorem pages_returned_page :
    ∃ w r, (World.init 0 0).Reaches World.Clean w ∧ w.st.runs 1073741824 = some r ∧
      ∀ off, 4096 ∣ off → off + 4096 ≤ r.elems * r.elem →
        (∀ i, i < r.elems → Overlaps r i off → bitAt r.bits i = true) →
          runData 1073741824 r + off ∈ w.st.classAdvice (r.cls - 1) 1 := by
  have hplay : ∃ w, (World.init 0 0).Reaches World.Clean w ∧
      ((w.st.runs 1073741824).any fun r => decide (r.elem = 4096 ∧ w.st.runIdle r 1 = false ∧
        w.st.dirtyIdle r 1 = true)) = true :=
    World.Reaches.refl.play (l := [(0, Os.granting (2 ^ 30) 1, .malloc 4096)]) (by decide +kernel)
  obtain ⟨w, hreach, htest⟩ := hplay
  obtain ⟨r, hr, hfields⟩ := (Option.any_eq_true _ _).mp htest
  obtain ⟨helem, hidle, hdirty⟩ := of_decide_eq_true hfields
  have hsound : Sound w.st w.held := (init_sound 0 0).reaches hreach
  obtain ⟨L, hcore⟩ := hsound.core
  exact ⟨w, r, hreach, hr, (pages_returned_iff hcore hr (.inl (by rw [helem])) hidle hdirty).mpr
    (.inl (by rw [helem]))⟩

/-- After `malloc(8192)` the second block is free, and its pages are never given back. -/
theorem pages_kept :
    ∃ w r, (World.init 0 0).Reaches World.Clean w ∧ w.st.runs 1073741824 = some r ∧
      4096 ∣ r.elem ∧ w.st.runIdle r 1 = false ∧ w.st.dirtyIdle r 1 = true ∧
      8192 + 4096 ≤ r.elems * r.elem ∧
      (∀ i, i < r.elems → Overlaps r i 8192 → bitAt r.bits i = true) ∧
      runData 1073741824 r + 8192 ∉ w.st.classAdvice (r.cls - 1) 1 := by
  have hplay : ∃ w, (World.init 0 0).Reaches World.Clean w ∧
      ((w.st.runs 1073741824).any fun r => decide ((r.elem = 8192 ∧ r.elems = 256 ∧
          bitAt r.bits 1 = true) ∧ (w.st.runIdle r 1 = false ∧ w.st.dirtyIdle r 1 = true) ∧
        w.st.classAdvice (r.cls - 1) 1 = [])) = true :=
    World.Reaches.refl.play (l := [(0, Os.granting (2 ^ 30) 1, .malloc 8192)]) (by decide +kernel)
  obtain ⟨w, hreach, htest⟩ := hplay
  obtain ⟨r, hr, hfields⟩ := (Option.any_eq_true _ _).mp htest
  obtain ⟨⟨helem, helems, hbit⟩, ⟨hidle, hdirty⟩, hadvice⟩ := of_decide_eq_true hfields
  refine ⟨w, r, hreach, hr, ?_, hidle, hdirty, ?_, fun i _ hover => ?_, ?_⟩
  · rw [helem]
    decide
  · rw [helem, helems]
    decide
  · have hown : Overlaps r i (1 * r.elem) := by
      rw [helem]
      exact hover
    rw [overlaps_own_block (by omega) hown]
    exact hbit
  · rw [hadvice]
    exact List.not_mem_nil

end Memflux.Alloc
