import Memflux.Alloc.Calls
import Memflux.Alloc.Mapping

/-! # The reservation is a bump allocator

`Reserved` says that the mapped regions are disjoint pieces of the reservation
below the bump pointer, and that each header knows the region it lives in. It
holds whatever the lists, bitmaps and counters hold and whatever pointers the
callers pass, as long as no `reserve_map` wraps the bump pointer. The small
functions only have to keep the layout (`SameLayout`); `reserve_map` and the two
`munmap` calls are treated by themselves.
-/

namespace Memflux.Alloc

open Spans BitWords DList

/-- The regions of an initialised reservation. -/
structure Reserved (s : State) : Prop where
  aligned : s.resStart % 4096 = 0
  stop : s.resEnd = s.resStart + kReserveSize
  fits : s.resEnd ≤ 2 ^ 63
  low : s.resStart ≤ s.resBump
  high : s.resBump < 2 ^ 64
  apart : Apart s.maps
  inside : ∀ g ∈ s.maps, g.base % g.align = 0 ∧ 0 < g.size ∧ s.resStart ≤ g.base ∧
    g.stop ≤ s.resEnd ∧ g.stop ≤ s.resBump
  runHome : ∀ a r, s.runs a = some r → ∃ g ∈ s.maps, g.base = a ∧
    g.size = pageUp (runBytes r.elems r.elem) ∧ g.align = kRunSize
  largeHome : ∀ a h, s.larges a = some h → ∃ g ∈ s.maps, g.base = a ∧ g.size = h.mapSize

/-- Before the first call nothing is mapped; afterwards the reservation, if there
is one, is in order. -/
structure Ledger (s : State) : Prop where
  unready : s.ready = false → s.resStart = 0 ∧ s.maps = [] ∧ s.runs = (fun _ => none) ∧
    s.larges = fun _ => none
  reserved : s.resStart ≠ 0 → Reserved s
  closed : s.resStart = 0 → s.resEnd = 0

theorem init_ledger (runIdle dirtyIdle : Nat) : Ledger (State.init runIdle dirtyIdle) :=
  ⟨fun _ => ⟨rfl, rfl, rfl, rfl⟩, fun h => absurd rfl h, fun _ => rfl⟩

/-- Nothing is mapped or unmapped, and headers keep the sizes they state. -/
structure SameLayout (s s' : State) : Prop where
  ready : s'.ready = s.ready
  start : s'.resStart = s.resStart
  stop : s'.resEnd = s.resEnd
  bump : s'.resBump = s.resBump
  maps : s'.maps = s.maps
  larges : s'.larges = s.larges
  runs : ∀ x r', s'.runs x = some r' → ∃ r, s.runs x = some r ∧ r'.elems = r.elems ∧ r'.elem = r.elem

theorem SameLayout.refl (s : State) : SameLayout s s :=
  ⟨rfl, rfl, rfl, rfl, rfl, rfl, fun _ r h => ⟨r, h, rfl, rfl⟩⟩

theorem SameLayout.trans {s₁ s₂ s₃ : State} (h : SameLayout s₁ s₂) (h' : SameLayout s₂ s₃) :
    SameLayout s₁ s₃ := by
  refine ⟨h'.ready.trans h.ready, h'.start.trans h.start, h'.stop.trans h.stop,
    h'.bump.trans h.bump, h'.maps.trans h.maps, h'.larges.trans h.larges, fun x r₃ h₃ => ?_⟩
  obtain ⟨r₂, h₂, he, hs⟩ := h'.runs x r₃ h₃
  obtain ⟨r₁, h₁, he', hs'⟩ := h.runs x r₂ h₂
  exact ⟨r₁, h₁, he.trans he', hs.trans hs'⟩

theorem Ledger.frame {s s' : State} (h : Ledger s) (hs : SameLayout s s') : Ledger s' := by
  obtain ⟨hready, hstart, hstop, hbump, hmaps, hlarges, hruns⟩ := hs
  refine ⟨fun hr => ?_, fun h0 => ?_, fun h0 => hstop.trans (h.closed (hstart ▸ h0))⟩
  · obtain ⟨h1, h2, h3, h4⟩ := h.unready (hready ▸ hr)
    refine ⟨hstart.trans h1, hmaps.trans h2, funext fun x => ?_, hlarges.trans h4⟩
    cases hx : s'.runs x with
    | none => rfl
    | some r' =>
        obtain ⟨r, hr, -⟩ := hruns x r' hx
        rw [h3] at hr
        cases hr
  · have hres := h.reserved (hstart ▸ h0)
    refine ⟨by rw [hstart]; exact hres.aligned, by rw [hstop, hstart]; exact hres.stop,
      by rw [hstop]; exact hres.fits, by rw [hstart, hbump]; exact hres.low,
      by rw [hbump]; exact hres.high, by rw [hmaps]; exact hres.apart, ?_, ?_, ?_⟩
    · rw [hmaps, hstart, hstop, hbump]
      exact hres.inside
    · intro a r' hr'
      obtain ⟨r, hr, he, hsz⟩ := hruns a r' hr'
      rw [hmaps, he, hsz]
      exact hres.runHome a r hr
    · rw [hmaps, hlarges]
      exact hres.largeHome

theorem sameLayout_setRun {s : State} {a : Nat} {r : Run} (r' : Run) (hr : s.runs a = some r)
    (he : r'.elems = r.elems) (hs : r'.elem = r.elem) : SameLayout s (s.setRun a r') := by
  refine ⟨rfl, rfl, rfl, rfl, rfl, rfl, fun x q hq => ?_⟩
  have hq : put s.runs a (some r') x = some q := hq
  by_cases hx : x = a
  · subst hx
    rw [put_same, Option.some.injEq] at hq
    exact ⟨r, hr, hq ▸ he, hq ▸ hs⟩
  · rw [put_other _ _ hx] at hq
    exact ⟨q, hq, rfl, rfl⟩

theorem sameLayout_relinked {s : State} {runs : Nat → Option Run} {l : List Nat}
    (h : Relinked s.runs runs l) (cls : Nat → ClassState) :
    SameLayout s { s with runs := runs, cls := cls } := by
  refine ⟨rfl, rfl, rfl, rfl, rfl, rfl, fun x q hq => ?_⟩
  obtain ⟨r, hr, hb⟩ := relinked_some h hq
  have he : ∀ q : Run, q.elems = q.body.elems ∧ q.elem = q.body.elem := fun _ => ⟨rfl, rfl⟩
  exact ⟨r, hr, by rw [(he q).1, (he r).1, hb], by rw [(he q).2, (he r).2, hb]⟩

/-! ## Functions that keep the layout -/

theorem runTake_layout {s s' : State} {a now : Nat} {ans : Option Nat}
    (h : s.runTake a now = .ok (ans, s')) : SameLayout s s' := by
  obtain ⟨r, hr, h⟩ := bind_ok h
  cases hf : r.findFree with
  | none =>
      simp only [hf] at h
      cases h
      exact SameLayout.refl s
  | some i =>
      simp only [hf] at h
      cases h
      have hrun := sameLayout_setRun (r.taken i now) (run_ok hr) rfl rfl
      exact ⟨hrun.ready, hrun.start, hrun.stop, hrun.bump, hrun.maps, hrun.larges, hrun.runs⟩

theorem runGive_layout {s s' : State} {a p : Nat} {now : Nat → Nat}
    (h : s.runGive a p now = .ok s') : SameLayout s s' := by
  obtain ⟨r, hr, h⟩ := bind_ok h
  cases h
  have hrun := sameLayout_setRun (r.given ((p - runData a r) / r.elem) (now 0) (now 1))
    (run_ok hr) rfl rfl
  exact ⟨hrun.ready, hrun.start, hrun.stop, hrun.bump, hrun.maps, hrun.larges, hrun.runs⟩

theorem tcachePush_layout {s s' : State} {t : Tid} {c p : Nat}
    (h : s.tcachePush t c p = some s') : SameLayout s s' := by
  obtain ⟨tc, -, -, rfl⟩ := tcachePush_some h
  exact ⟨rfl, rfl, rfl, rfl, rfl, rfl, fun _ r h => ⟨r, h, rfl, rfl⟩⟩

theorem tcachePop_layout {s s' : State} {t : Tid} {c p : Nat}
    (h : s.tcachePop t c = some (p, s')) : SameLayout s s' := by
  obtain ⟨tc, rest, -, -, rfl⟩ := tcachePop_some h
  exact ⟨rfl, rfl, rfl, rfl, rfl, rfl, fun _ r h => ⟨r, h, rfl, rfl⟩⟩

theorem runInsert_layout {s s' : State} {c a : Nat} (h : s.runInsert c a = .ok s') :
    SameLayout s s' := by
  unfold State.runInsert at h
  split at h
  · cases h
  · rename_i runs hl
    cases h
    obtain ⟨l, hrel⟩ := link_relinked hl
    exact sameLayout_relinked hrel _

/-! ## Mapping -/

/-- Where `reserve_map` puts a region when the bump pointer does not wrap. -/
theorem reserveMap_place {s s' : State} {os : Os} {size align base : Nat} (ha : 0 < align)
    (hend : s.resEnd ≤ 2 ^ 63) (hfit : s.resBump + size + align < 2 ^ 64)
    (hm : s.reserveMap os size align = (some base, s')) :
    base % align = 0 ∧ s.resBump ≤ base ∧ 0 < size ∧ base + size ≤ s.resEnd ∧
      base + size ≤ s.resBump + size + align ∧
      s' = { s.mmap base size align with resBump := s.resBump + size + align } := by
  have hsum : wrap64 (size + align) = size + align := Nat.mod_eq_of_lt (by omega)
  have hbump : wrap64 (s.resBump + (size + align)) = s.resBump + size + align := by
    rw [← Nat.add_assoc]
    exact Nat.mod_eq_of_lt hfit
  have hwant : State.reserveBase s.resBump align = roundDown (s.resBump + align - 1) align := by
    rw [State.reserveBase, wrap64, Nat.mod_eq_of_lt (by omega)]
  have hle := roundDown_le (s.resBump + align - 1) align
  have hlt := lt_roundDown_add (w := s.resBump + align - 1) ha
  have hmod := roundDown_mod (s.resBump + align - 1) align
  have hwrap : wrap64 (roundDown (s.resBump + align - 1) align + size) =
      roundDown (s.resBump + align - 1) align + size := Nat.mod_eq_of_lt (by omega)
  simp only [State.reserveMap, hsum, hbump, hwant, hwrap] at hm
  split at hm
  · cases hm
  · rename_i hin
    split at hm
    · rename_i hok
      cases hm
      have hsize : size ≠ 0 := by
        simp only [State.mmapFixed, Bool.and_eq_true, decide_eq_true_eq] at hok
        exact hok.2.2.1
      exact ⟨hmod, by omega, by omega, by omega, by omega, rfl⟩
    · cases hm

/-- A state whose regions are those of `s` and a new one above its bump pointer,
with the headers of `s` and at most one header in the new region. -/
theorem Reserved.add {s s' : State} (h : Reserved s) {base size align b : Nat}
    (hbase : base % align = 0) (hlow : s.resBump ≤ base) (hsize : 0 < size)
    (hend : base + size ≤ s.resEnd) (htop : base + size ≤ b) (hb : b < 2 ^ 64)
    (hstart : s'.resStart = s.resStart) (hstop : s'.resEnd = s.resEnd) (hbump : s'.resBump = b)
    (hmaps : s'.maps = ⟨base, size, align⟩ :: s.maps)
    (hruns : ∀ x r, s'.runs x = some r →
      (x = base ∧ size = pageUp (runBytes r.elems r.elem) ∧ align = kRunSize) ∨ s.runs x = some r)
    (hlarges : ∀ x l, s'.larges x = some l → (x = base ∧ size = l.mapSize) ∨ s.larges x = some l) :
    Reserved s' := by
  have hstart' := h.low
  refine ⟨by rw [hstart]; exact h.aligned, by rw [hstop, hstart]; exact h.stop,
    by rw [hstop]; exact h.fits, by rw [hstart, hbump]; omega, by rw [hbump]; exact hb, ?_, ?_, ?_, ?_⟩
  · rw [hmaps]
    refine List.pairwise_cons.mpr ⟨fun g hg => .inr ?_, h.apart⟩
    have hg := (h.inside g hg).2.2.2.2
    show g.stop ≤ base
    omega
  · rw [hmaps, hstart, hstop, hbump]
    intro g hg
    rcases List.mem_cons.mp hg with rfl | hg
    · exact ⟨hbase, hsize, by show s.resStart ≤ base; omega, hend, htop⟩
    · obtain ⟨h1, h2, h3, h4, h5⟩ := h.inside g hg
      exact ⟨h1, h2, h3, h4, by omega⟩
  · intro x r hr
    rw [hmaps]
    rcases hruns x r hr with ⟨rfl, hs, ha⟩ | hr
    · exact ⟨⟨x, size, align⟩, by simp, rfl, hs, ha⟩
    · obtain ⟨g, hg, hrest⟩ := h.runHome x r hr
      exact ⟨g, by simp [hg], hrest⟩
  · intro x l hl
    rw [hmaps]
    rcases hlarges x l hl with ⟨rfl, hs⟩ | hl
    · exact ⟨⟨x, size, align⟩, by simp, rfl, hs⟩
    · obtain ⟨g, hg, hrest⟩ := h.largeHome x l hl
      exact ⟨g, by simp [hg], hrest⟩

theorem Ledger.mapRegion_none {s s' : State} (h : Ledger s) {os : Os} {size align : Nat}
    (hfit : s.BumpFits os size align) (hm : s.mapRegion os size align = (none, s')) : Ledger s' := by
  unfold State.mapRegion at hm
  split at hm
  · rename_i h0
    have hfit := hfit h0
    have hres := h.reserved h0
    have hlow := hres.low
    have hs' : s' = { s with resBump := s.resBump + size + align } := by
      have hbump : wrap64 (s.resBump + wrap64 (size + align)) = s.resBump + size + align := by
        rw [show wrap64 (size + align) = size + align from Nat.mod_eq_of_lt (by omega),
          ← Nat.add_assoc]
        exact Nat.mod_eq_of_lt hfit
      unfold State.reserveMap at hm
      dsimp only at hm
      rw [hbump] at hm
      split at hm
      · cases hm; rfl
      · split at hm
        · cases hm
        · cases hm; rfl
    subst hs'
    refine ⟨fun hr => absurd (h.unready hr).1 h0, fun _ => ?_, fun h' => absurd h' h0⟩
    refine ⟨hres.aligned, hres.stop, hres.fits,
      by show s.resStart ≤ s.resBump + size + align; omega, hfit, hres.apart, fun g hg => ?_,
      hres.runHome, hres.largeHome⟩
    obtain ⟨h1, h2, h3, h4, h5⟩ := hres.inside g hg
    exact ⟨h1, h2, h3, h4, by show g.stop ≤ s.resBump + size + align; omega⟩
  · split at hm
    · cases hm
      exact h
    · cases hm

/-- A mapping request that succeeds, followed by the header in the new region. -/
theorem Ledger.mapRegion_some {s s₁ s' : State} (h : Ledger s) (hready : s.ready = true) {os : Os}
    {size align base : Nat} (ha : 0 < align) (hfit : s.BumpFits os size align)
    (hm : s.mapRegion os size align = (some base, s₁))
    (hsame : s'.ready = s₁.ready ∧ s'.resStart = s₁.resStart ∧ s'.resEnd = s₁.resEnd ∧
      s'.resBump = s₁.resBump ∧ s'.maps = s₁.maps)
    (hruns : ∀ x r, s'.runs x = some r →
      (x = base ∧ size = pageUp (runBytes r.elems r.elem) ∧ align = kRunSize) ∨ s₁.runs x = some r)
    (hlarges : ∀ x l, s'.larges x = some l → (x = base ∧ size = l.mapSize) ∨ s₁.larges x = some l) :
    Ledger s' := by
  obtain ⟨e₁, e₂, e₃, e₄, e₅⟩ := hsame
  unfold State.mapRegion at hm
  split at hm
  · rename_i h0
    have hres := h.reserved h0
    obtain ⟨h1, h2, h3, h4, h5, rfl⟩ := reserveMap_place ha hres.fits (hfit h0) hm
    refine ⟨fun hr => ?_, fun _ => ?_, fun h' => absurd (e₂ ▸ h') h0⟩
    · have hr : s.ready = false := e₁.symm.trans hr
      rw [hready] at hr
      cases hr
    · refine hres.add h1 h2 h3 h4 h5 (hfit h0) e₂ e₃ e₄ e₅ ?_ ?_
      · intro x r hr
        refine (hruns x r hr).imp_right fun hr => ?_
        have hr : (s.mmap base size align).runs x = some r := hr
        exact State.mmap_runs_some hr
      · intro x l hl
        refine (hlarges x l hl).imp_right fun hl => ?_
        have hl : (s.mmap base size align).larges x = some l := hl
        exact State.mmap_larges_some hl
  · rename_i h0
    split at hm
    · cases hm
    · cases hm
      refine ⟨fun hr => ?_, fun h => absurd (e₂ ▸ h) h0, fun h' => e₃.trans (h.closed (e₂ ▸ h'))⟩
      have hr : s.ready = false := e₁.symm.trans hr
      rw [hready] at hr
      cases hr

theorem Ledger.runNew {s s' : State} (h : Ledger s) (hready : s.ready = true) {os : Os} {c : Nat}
    {ans : Option Nat} (hfit : s.BumpFits os (runMap c) kRunSize) (hn : Renewed s os c ans s') :
    Ledger s' := by
  cases hn with
  | refused region => exact h.mapRegion_none hfit region
  | @mapped base s₁ s' region insert =>
      refine Ledger.frame ?_ (runInsert_layout insert)
      refine h.mapRegion_some hready (by decide) hfit region ⟨rfl, rfl, rfl, rfl, rfl⟩ ?_ ?_
      · intro x r hr
        have hr : put s₁.runs base (some (State.freshRun (c + 1) (os.now 0))) x = some r := hr
        by_cases hx : x = base
        · subst hx
          rw [put_same, Option.some.injEq] at hr
          exact .inl ⟨rfl, by rw [← hr]; rfl, rfl⟩
        · rw [put_other _ _ hx] at hr
          exact .inr hr
      · exact fun x l hl => .inr hl

theorem Ledger.mallocLarge {s s₁ : State} (h : Ledger s) (hready : s.ready = true) {os : Os}
    {n base : Nat} (hfit : s.BumpFits os (largeMap n) 4096)
    (hm : s.mapRegion os (largeMap n) 4096 = (some base, s₁)) :
    Ledger { s₁.setLarge base ⟨kMagicLarge, largeMap n, n⟩ with
      mapped := s₁.mapped + largeMap n } := by
  refine h.mapRegion_some hready (by decide) hfit hm ⟨rfl, rfl, rfl, rfl, rfl⟩ ?_ ?_
  · exact fun x r hr => .inr hr
  · intro x l hl
    have hl : put s₁.larges base (some ⟨kMagicLarge, largeMap n, n⟩) x = some l := hl
    by_cases hx : x = base
    · subst hx
      rw [put_same, Option.some.injEq] at hl
      exact .inl ⟨rfl, by rw [← hl]⟩
    · rw [put_other _ _ hx] at hl
      exact .inr hl

/-! ## Unmapping -/

theorem Reserved.munmap {s : State} (h : Reserved s) {g : Span} (hg : g ∈ s.maps) :
    Reserved (s.munmap g.base g.size) := by
  have hrel : release g.base g.size s.maps = s.maps.erase g :=
    release_span h.apart (fun p hp => (h.inside p hp).2.1) hg
  have hkeep : ∀ p ∈ s.maps, ¬ (g.base ≤ p.base ∧ p.base < g.base + g.size) →
      p ∈ (s.munmap g.base g.size).maps := by
    intro p hp hout
    rw [State.munmap_maps, hrel]
    refine (List.mem_erase_of_ne ?_).mpr hp
    rintro rfl
    exact hout ⟨Nat.le_refl _, Nat.lt_add_of_pos_right (h.inside p hp).2.1⟩
  refine ⟨h.aligned, h.stop, h.fits, h.low, h.high, ?_, ?_, ?_, ?_⟩
  · rw [State.munmap_maps, hrel]
    exact List.Pairwise.sublist List.erase_sublist h.apart
  · rw [State.munmap_maps, hrel]
    exact fun p hp => h.inside p (List.erase_subset hp)
  · intro a r hr
    obtain ⟨hout, hr⟩ := State.munmap_runs_some hr
    obtain ⟨p, hp, rfl, hrest⟩ := h.runHome a r hr
    exact ⟨p, hkeep p hp hout, rfl, hrest⟩
  · intro a l hl
    obtain ⟨hout, hl⟩ := State.munmap_larges_some hl
    obtain ⟨p, hp, rfl, hrest⟩ := h.largeHome a l hl
    exact ⟨p, hkeep p hp hout, rfl, hrest⟩

theorem Ledger.munmap {s : State} (h : Ledger s) {a len : Nat}
    (hhome : s.resStart ≠ 0 → ∃ g ∈ s.maps, g.base = a ∧ g.size = len) :
    Ledger (s.munmap a len) := by
  refine ⟨fun hr => ?_, fun h0 => ?_, h.closed⟩
  · obtain ⟨h1, h2, h3, h4⟩ := h.unready hr
    refine ⟨h1, by rw [State.munmap_maps, h2]; rfl, ?_, ?_⟩
    · funext x
      simp [State.munmap, State.dropHeaders, h3]
    · funext x
      simp [State.munmap, State.dropHeaders, h4]
  · obtain ⟨g, hg, rfl, rfl⟩ := hhome h0
    exact (h.reserved h0).munmap hg

/-! ## Entry points -/

theorem ensureInit_of_ready {s : State} (h : s.ready = true) (os : Os) : s.ensureInit os = s :=
  if_pos h

theorem ensureInit_ready (s : State) (os : Os) : (s.ensureInit os).ready = true := by
  unfold State.ensureInit
  split
  · assumption
  · rfl

theorem ensureInit_unready {s : State} (hr : ¬ s.ready = true) (h0 : s.resStart = 0) (os : Os) :
    s.ensureInit os =
      match os.reserve with
      | none => { s with tkeyOk := os.keyOk, ready := true }
      | some p => { s with
          resStart := p
          resEnd := wrap64 (p + kReserveSize)
          resBump := p
          tkeyOk := os.keyOk
          ready := true } := by
  unfold State.ensureInit
  rw [if_neg hr, if_pos h0]
  unfold State.reserveInit
  cases os.reserve <;> rfl

theorem Ledger.ensureInit {s : State} (h : Ledger s) {os : Os} (hos : os.Sane) :
    Ledger (s.ensureInit os) := by
  by_cases hr : s.ready = true
  · rw [State.ensureInit, if_pos hr]
    exact h
  · obtain ⟨h1, h2, h3, h4⟩ := h.unready (by simpa using hr)
    refine ⟨fun hr => ?_, fun h0 => ?_, fun h0 => ?_⟩
    · rw [ensureInit_ready] at hr
      cases hr
    · simp only [State.ensureInit, hr, h1, if_true, State.reserveInit] at h0 ⊢
      cases hres : os.reserve with
      | none =>
          simp only [hres] at h0
          exact absurd h1 h0
      | some p =>
          obtain ⟨hp, hmod, hfits⟩ := hos p hres
          have hend : wrap64 (p + kReserveSize) = p + kReserveSize := Nat.mod_eq_of_lt (by omega)
          refine ⟨hmod, hend, by show wrap64 _ ≤ _; rw [hend]; exact hfits, Nat.le_refl p,
            by show p < _; omega, ?_, ?_, ?_, ?_⟩
          · show Apart s.maps
            rw [h2]
            exact List.Pairwise.nil
          · show ∀ g ∈ s.maps, _
            rw [h2]
            simp
          · show ∀ a r, s.runs a = some r → _
            rw [h3]
            simp
          · show ∀ a l, s.larges a = some l → _
            rw [h4]
            simp
    · simp only [State.ensureInit, hr, h1, if_true, State.reserveInit] at h0 ⊢
      cases hres : os.reserve with
      | none => exact h.closed h1
      | some p =>
          simp only [hres] at h0
          exact absurd h0 (Nat.ne_of_gt (hos p hres).1)

theorem Ledger.malloc {s s' : State} (h : Ledger s) {t : Tid} {os : Os} (hos : os.Sane) {n : Nat}
    {ans : Option Nat} (hfit : s.MallocNeeds State.BumpFits t os n)
    (hm : s.malloc t os n = .ok (ans, s')) : Ledger s' := by
  have h₁ := h.ensureInit hos
  have hready := ensureInit_ready s os
  have hcases := malloc_cases hm
  cases hcases with
  | refused request region => exact h₁.mapRegion_none (hfit _ _ request) region
  | large request region => exact h₁.mallocLarge hready (hfit _ _ request) region
  | cached request pop => exact h₁.frame (tcachePop_layout pop)
  | taken request take => exact h₁.frame (runTake_layout take)
  | grown small request fresh take =>
      exact (h₁.runNew hready (hfit _ _ request) fresh).frame (runTake_layout take)

theorem Ledger.free {s s' : State} (h : Ledger s) {t : Tid} {now : Nat → Nat} {p : Nat} {r : Freed}
    (hf : s.free t now p = .ok (r, s')) : Ledger s' := by
  have hcases := release_cases hf
  cases hcases with
  | null ptr => exact h
  | libc foreign => exact h
  | ignored => exact h
  | cached own run push => exact h.frame (tcachePush_layout push)
  | small own run full give => exact h.frame (runGive_layout give)
  | large call =>
      obtain ⟨l, n, hl, rfl⟩ := freeLarge_ok call
      have h₁ : Ledger (s.munmap (p - sizeofLargeHdr) l.mapSize) :=
        h.munmap fun h0 => (h.reserved h0).largeHome _ l hl
      exact h₁.frame ⟨rfl, rfl, rfl, rfl, rfl, rfl, fun _ r h => ⟨r, h, rfl, rfl⟩⟩

theorem Ledger.purgeRun {s s' : State} (h : Ledger s) {a t : Nat} (hp : s.purgeRun a t = .ok s') :
    Ledger s' := by
  have hcases := purgeRun_cases hp
  cases hcases with
  | @unmapped r runs head run idle unlinked =>
      obtain ⟨l, hrel⟩ := unlink_relinked unlinked
      have hlay := sameLayout_relinked hrel
        (put s.cls (r.cls - 1) { s.cls (r.cls - 1) with head := head })
      have hhome : s.resStart ≠ 0 →
          ∃ g ∈ s.maps, g.base = a ∧ g.size = pageUp (runBytes r.elems r.elem) := by
        intro h0
        obtain ⟨g, hg, hb, hs, -⟩ := (h.reserved h0).runHome a r run
        exact ⟨g, hg, hb, hs⟩
      have hunmap := (h.frame hlay).munmap hhome
      exact hunmap.frame ⟨rfl, rfl, rfl, rfl, rfl, rfl, fun _ r h => ⟨r, h, rfl, rfl⟩⟩
  | @advised r run busy dirty mem n pages =>
      have hset := sameLayout_setRun { r with lastTouchMs := t } run rfl rfl
      exact h.frame ⟨hset.ready, hset.start, hset.stop, hset.bump, hset.maps, hset.larges, hset.runs⟩
  | untouched run busy clean => exact h

theorem Ledger.trimPass {s s' : State} {t : Nat} (h : Ledger s) (hp : s.trimPass t = .ok s') :
    Ledger s' :=
  trimPass_keeps (fun _ _ _ hs hp => hs.purgeRun hp) h hp

theorem fill_layout (s : State) (a n : Nat) (f : Nat → UInt8) : SameLayout s (s.fill a n f) :=
  ⟨rfl, rfl, rfl, rfl, rfl, rfl, fun _ r h => ⟨r, h, rfl, rfl⟩⟩

theorem memcpy_layout {s s' : State} {q p n : Nat} (h : s.memcpy q p n = .ok s') :
    SameLayout s s' := by
  obtain ⟨-, -, rfl⟩ := memcpy_ok h
  exact fill_layout _ _ _ _

theorem Ledger.calloc {s s' : State} (h : Ledger s) {t : Tid} {os : Os} (hos : os.Sane)
    {nm sz : Nat} {ans : Option Nat}
    (hfit : nm * sz < 2 ^ 64 → s.MallocNeeds State.BumpFits t os (nm * sz))
    (hm : s.calloc t os nm sz = .ok (ans, s')) : Ledger s' := by
  have hcases := calloc_cases hm
  cases hcases with
  | overflow big => exact h
  | refused size call => exact h.malloc hos (hfit size) call
  | zeroed size call mapped => exact (h.malloc hos (hfit size) call).frame (fill_layout _ _ _ _)

theorem Ledger.realloc {s s' : State} (h : Ledger s) {t : Tid} {os : Os} (hos : os.Sane)
    {p n : Nat} {r : Reply} (hfit : s.OpNeeds State.BumpFits t os (.realloc p n))
    (hm : s.realloc t os p n = .ok (r, s')) : Ledger s' := by
  have hcases := realloc_cases hm
  simp only [State.OpNeeds] at hfit
  cases hcases with
  | fresh null call =>
      rw [if_pos null] at hfit
      exact h.malloc hos hfit call
  | emptied ptr zero release call =>
      rw [if_neg ptr, if_pos zero] at hfit
      have hos' : (os.after 2).Sane := hos
      exact (h.free release).malloc hos' (hfit _ _ release) call
  | forwarded ptr size foreign => exact h
  | inPlace ptr size own fits => exact h
  | refused ptr size own moves call =>
      rw [if_neg ptr, if_neg size] at hfit
      exact h.malloc hos (hfit _ own moves) call
  | moved ptr size own moves call copy release =>
      rw [if_neg ptr, if_neg size] at hfit
      exact ((h.malloc hos (hfit _ own moves) call).frame (memcpy_layout copy)).free release

theorem Ledger.posixMemalign {s s' : State} (h : Ledger s) {t : Tid} {os : Os} (hos : os.Sane)
    {outNull : Bool} {align n : Nat} {r : Aligned}
    (hfit : s.OpNeeds State.BumpFits t os (.posixMemalign outNull align n))
    (hm : s.posixMemalign t os outNull align n = .ok (r, s')) : Ledger s' := by
  have hcases := posixMemalign_cases hm
  cases hcases with
  | invalid bad => exact h
  | refused out ok call => exact h.malloc hos (hfit out _ ok) call
  | aligned out ok call => exact h.malloc hos (hfit out _ ok) call

/-! ## Histories -/

/-- The steps of the histories in which no `reserve_map` wraps the bump pointer. -/
def NoWrap (s : State) (t : Tid) (os : Os) (op : Op) : Prop :=
  os.Sane ∧ s.OpNeeds State.BumpFits t os op

theorem Ledger.exec {s s' : State} (h : Ledger s) {t : Tid} {os : Os} {op : Op} {ans : Option Nat}
    (hok : NoWrap s t os op) (he : s.exec t os op = .ok (ans, s')) : Ledger s' := by
  obtain ⟨hos, hfit⟩ := hok
  cases op with
  | malloc n => exact h.malloc hos hfit he
  | calloc nm sz => exact h.calloc hos hfit he
  | realloc p n =>
      obtain ⟨⟨r, s₁⟩, h₁, he⟩ := bind_ok he
      cases he
      exact h.realloc hos hfit h₁
  | posixMemalign outNull align n =>
      obtain ⟨⟨r, s₁⟩, h₁, he⟩ := bind_ok he
      have hl := h.posixMemalign hos hfit h₁
      cases r <;> cases he <;> exact hl
  | free p =>
      obtain ⟨⟨r, s₁⟩, h₁, he⟩ := bind_ok he
      cases he
      exact h.free h₁
  | trim clock =>
      obtain ⟨s₁, h₁, he⟩ := bind_ok he
      cases he
      exact h.trimPass h₁
  | write mem =>
      cases he
      exact h.frame ⟨rfl, rfl, rfl, rfl, rfl, rfl, fun _ r h => ⟨r, h, rfl, rfl⟩⟩

theorem Ledger.reaches {s s' : State} (h : Ledger s) (hr : State.Reaches NoWrap s s') : Ledger s' := by
  induction hr with
  | refl => exact h
  | step t os op ans _ hok he ih => exact ih.exec hok he

/-- In every history whose `reserve_map` calls never wrap the bump pointer, the
regions of the reservation are disjoint, aligned as asked and inside it. -/
theorem reservation_disjoint {runIdle dirtyIdle : Nat} {s : State}
    (h : State.Reaches NoWrap (State.init runIdle dirtyIdle) s) (h0 : s.resStart ≠ 0) :
    s.maps.Pairwise Span.Disjoint ∧
      ∀ g ∈ s.maps, g.base % g.align = 0 ∧ s.resStart ≤ g.base ∧ g.stop ≤ s.resEnd := by
  have hres := ((init_ledger runIdle dirtyIdle).reaches h).reserved h0
  refine ⟨hres.apart, fun g hg => ?_⟩
  obtain ⟨h1, -, h2, h3, -⟩ := hres.inside g hg
  exact ⟨h1, h2, h3⟩

/-- A kernel that reserves at `p` and then grants every mapping it can. -/
def Os.granting (p now : Nat) : Os where
  reserve := some p
  keyOk := true
  anon := none
  fixedOk := true
  now := fun _ => now
  libc := none

theorem granting_sane (now : Nat) : (Os.granting (2 ^ 30) now).Sane := by
  intro p hp
  have hp : some (2 ^ 30) = some p := hp
  cases hp
  decide

namespace State

/-- Enough for a step to meet `NoWrap`, with a sane kernel. -/
def fitTest (s : State) (t : Tid) (os : Os) : Op → Bool
  | .malloc n =>
      match (s.ensureInit os).asks t (if n = 0 then 1 else n) with
      | some (size, align) => decide ((s.ensureInit os).resBump + size + align < 2 ^ 64)
      | none => true
  | .free _ => true
  | .trim _ => true
  | _ => false

theorem fitTest_needs {s : State} {t : Tid} {os : Os} {op : Op} (h : s.fitTest t os op = true) :
    s.OpNeeds BumpFits t os op := by
  cases op with
  | malloc n =>
      intro size align hask _
      simp only [fitTest, hask] at h
      exact of_decide_eq_true h
  | free p => trivial
  | trim clock => trivial
  | calloc nm sz => cases h
  | realloc p n => cases h
  | posixMemalign outNull align n => cases h
  | write mem => cases h

/-- The steps of a list that pass the test, one after the other, then a test of the
state reached. -/
def playFit (s : State) (test : State → Bool) : List (Tid × Os × Op) → Bool
  | [] => test s
  | (t, os, op) :: l =>
      s.fitTest t os op &&
        match s.exec t os op with
        | .ok (_, s) => s.playFit test l
        | .error _ => false

theorem Reaches.playFit {s s₁ : State} (h : Reaches NoWrap s s₁) {test : State → Bool}
    {l : List (Tid × Os × Op)} (hsane : ∀ e ∈ l, e.2.1.Sane) (hl : s₁.playFit test l = true) :
    ∃ s', Reaches NoWrap s s' ∧ test s' = true := by
  induction l generalizing s₁ with
  | nil => exact ⟨s₁, h, hl⟩
  | cons e l ih =>
      obtain ⟨t, os, op⟩ := e
      obtain ⟨hfit, hrest⟩ := Bool.and_eq_true_iff.mp hl
      cases he : s₁.exec t os op with
      | error e =>
          rw [he] at hrest
          cases hrest
      | ok r =>
          rw [he] at hrest
          have hok : NoWrap s₁ t os op := ⟨hsane _ List.mem_cons_self, fitTest_needs hfit⟩
          exact ih (h.step t os op r.1 hok he) (fun e he => hsane e (List.mem_cons_of_mem _ he)) hrest

end State

/-- A run and two large blocks of two threads; the block of the run is freed, and a trim
pass releases the run. -/
theorem reservation_disjoint_released :
    ∃ s : State, s.maps.map Span.base = [1079529472, 1076375552] ∧ s.maps.Pairwise Span.Disjoint ∧
      ∀ g ∈ s.maps, g.base % g.align = 0 ∧ s.resStart ≤ g.base ∧ g.stop ≤ s.resEnd := by
  have hplay : ∃ s, State.Reaches NoWrap (State.init 0 0) s ∧
      decide (s.maps.map Span.base = [1079529472, 1076375552] ∧ s.resStart ≠ 0) = true := by
    refine State.Reaches.refl.playFit (l := [(0, Os.granting (2 ^ 30) 1, .malloc 8),
      (0, Os.granting (2 ^ 30) 1, .malloc 3145728), (1, Os.granting (2 ^ 30) 1, .malloc 4000000),
      (1, Os.granting (2 ^ 30) 1, .free 1073754112), (0, Os.granting (2 ^ 30) 1, .trim 10)]) ?_
      (by decide +kernel)
    intro e he
    simp only [List.mem_cons, List.not_mem_nil, or_false] at he
    rcases he with rfl | rfl | rfl | rfl | rfl <;> exact granting_sane 1
  obtain ⟨s, hreach, htest⟩ := hplay
  obtain ⟨hmaps, h0⟩ := of_decide_eq_true htest
  exact ⟨s, hmaps, reservation_disjoint hreach h0⟩

/-- Three large requests. The second, near `2 ^ 64`, is refused, but takes the bump
pointer back to where it began, so the third gets the region of the first. -/
theorem reservation_overlap :
    ∃ s, State.Reaches (fun _ _ os _ => os.Sane) (State.init 0 0) s ∧ s.resStart ≠ 0 ∧
      ¬ s.maps.Pairwise Span.Disjoint := by
  have hplay : ∃ s, State.Reaches (fun _ _ os _ => os.Sane) (State.init 0 0) s ∧
      decide (s.resStart ≠ 0 ∧ ¬ s.maps.Pairwise Span.Disjoint) = true := by
    refine State.Reaches.refl.play (l := [(0, Os.granting (2 ^ 30) 1, .malloc 3145728),
      (0, Os.granting (2 ^ 30) 1, .malloc (2 ^ 64 - 3158040)),
      (0, Os.granting (2 ^ 30) 1, .malloc 3145728)]) ?_ (by decide +kernel)
    intro e he s
    simp only [List.mem_cons, List.not_mem_nil, or_false] at he
    rcases he with rfl | rfl | rfl <;> exact granting_sane 1
  obtain ⟨s, hreach, htest⟩ := hplay
  exact ⟨s, hreach, of_decide_eq_true htest⟩

end Memflux.Alloc
