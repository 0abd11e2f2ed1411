import Memflux.Alloc.Invariant

/-! # Mapping and unmapping under the invariant

Runs enter and leave the lists together with their mappings. `Fresh` is what a
successful `mmap` promises about its range; under it no existing header is
disturbed. Removal is the step of `purge_run` that unmaps an idle run.
-/

namespace Memflux.Alloc

open Spans BitWords DList

/-! ## Relinked heaps -/

/-- A header without its links. -/
def Run.body (r : Run) : Run := { r with next := 0, prev := 0 }

theorem RunOk.of_body {r r' : Run} (h : RunOk r) (hb : r'.body = r.body) : RunOk r' := by
  have he : r' = { r with next := r'.next, prev := r'.prev } := by
    cases r; cases r'
    simp only [Run.body, Run.mk.injEq] at hb ⊢
    obtain ⟨h1, h2, h3, h4, h5, -, -, h6, h7, h8⟩ := hb
    exact ⟨h1, h2, h3, h4, h5, trivial, trivial, h6, h7, h8⟩
  rw [he]
  exact ⟨h.magic, h.cls_pos, h.cls_le, h.elems, h.elem, h.words, h.high, h.used⟩

theorem relinked_body {runs runs' : Nat → Option Run} {l : List Nat} (h : Relinked runs runs' l)
    (x : Nat) : (runs' x).map Run.body = (runs x).map Run.body :=
  h.data Run.body (fun _ _ => rfl) (fun _ _ => rfl) x

theorem relinked_some {runs runs' : Nat → Option Run} {l : List Nat} (h : Relinked runs runs' l)
    {x : Nat} {r' : Run} (hr : runs' x = some r') : ∃ r, runs x = some r ∧ r'.body = r.body := by
  have hb := relinked_body h x
  cases hx : runs x with
  | none => simp [hr, hx] at hb
  | some r => exact ⟨r, rfl, by simpa [hr, hx] using hb⟩

theorem relinked_some' {runs runs' : Nat → Option Run} {l : List Nat} (h : Relinked runs runs' l)
    {x : Nat} {r : Run} (hr : runs x = some r) : ∃ r', runs' x = some r' ∧ r'.body = r.body := by
  have hb := relinked_body h x
  cases hx : runs' x with
  | none => simp [hr, hx] at hb
  | some r' => exact ⟨r', rfl, by simpa [hr, hx] using hb⟩

theorem relinked_none {runs runs' : Nat → Option Run} {l : List Nat} (h : Relinked runs runs' l)
    {x : Nat} : runs' x = none ↔ runs x = none := by
  have hb := relinked_body h x
  cases hx : runs x <;> cases hx' : runs' x <;> simp [hx, hx'] at hb ⊢

theorem relinked_usedAt {runs runs' : Nat → Option Run} {l : List Nat} (h : Relinked runs runs' l) :
    usedAt runs' = usedAt runs := by
  funext x
  unfold usedAt
  rw [h.data Run.used (fun _ _ => rfl) (fun _ _ => rfl) x]

theorem body_cls {r r' : Run} (h : r'.body = r.body) : r'.cls = r.cls := by
  show r'.body.cls = r.body.cls
  rw [h]

theorem Lists.disjoint {runs : Nat → Option Run} {cls : Nat → ClassState} {L : Nat → List Nat}
    (h : Lists runs cls L) {c d : Nat} (hc : c < kNumClasses) (hd : d < kNumClasses) (hne : d ≠ c)
    {x : Nat} (hx : x ∈ L d) : x ∉ L c := by
  intro hx'
  obtain ⟨r, hr, hrc⟩ := h.own d hd x hx
  obtain ⟨r', hr', hrc'⟩ := h.own c hc x hx'
  rw [hr] at hr'
  cases hr'
  omega

/-! ## Adding a run -/

theorem Lists.insert {runs : Nat → Option Run} {cls : Nat → ClassState} {L : Nat → List Nat}
    (h : Lists runs cls L) {c : Nat} (hc : c < kNumClasses) {a : Nat} {r : Run}
    (hfree : runs a = none) (h0 : a ≠ 0) (hcls : r.cls = c + 1) (hused : r.used = 0) :
    ∃ runs', link (put runs a (some r)) (cls c).head a = some runs' ∧
      Lists runs' (put cls c { cls c with head := a }) (put L c (a :: L c)) ∧
      Relinked (put runs a (some r)) runs' (a :: L c) := by
  have hna : ∀ d, d < kNumClasses → a ∉ L d := by
    intro d hd hm
    obtain ⟨q, hq, -⟩ := h.own d hd a hm
    rw [hfree] at hq
    cases hq
  have hchain : ∀ d, d < kNumClasses → Chain (put runs a (some r)) (cls d).head (L d) := by
    intro d hd
    obtain ⟨last, hs⟩ := h.chain d hd
    exact ⟨last, hs.put_outside (hna d hd) _⟩
  obtain ⟨runs', hlink, hnew, hrel⟩ :=
    link_spec (hchain c hc) (h.nodup c hc) (hna c hc) h0 (put_same _ _ _)
  refine ⟨runs', hlink, ⟨?_, ?_, ?_, ?_, ?_⟩, hrel⟩
  · intro d hd
    by_cases hdc : d = c
    · subst hdc; simpa using hnew
    · obtain ⟨last, hs⟩ := hchain d hd
      rw [put_other _ _ hdc, put_other _ _ hdc]
      refine ⟨last, hs.congr fun x hx v hv => ⟨v, ?_, rfl, rfl⟩⟩
      have hxl : x ∉ a :: L c := by
        rw [List.mem_cons]
        rintro (rfl | hm)
        · exact hna d hd hx
        · exact h.disjoint hc hd hdc hx hm
      rw [hrel.outside x hxl, hv]
  · intro d hd
    by_cases hdc : d = c
    · subst hdc
      rw [put_same]
      exact List.nodup_cons.mpr ⟨hna d hd, h.nodup d hd⟩
    · rw [put_other _ _ hdc]
      exact h.nodup d hd
  · intro x q hq
    obtain ⟨q', hq', hb⟩ := relinked_some hrel hq
    rw [body_cls hb]
    by_cases hx : x = a
    · subst hx
      rw [put_same, Option.some.injEq] at hq'
      rw [← hq', hcls, Nat.add_sub_cancel, put_same]
      simp
    · rw [put_other _ _ hx] at hq'
      have hm := h.mem x q' hq'
      by_cases hd : q'.cls - 1 = c
      · rw [hd, put_same]
        exact List.mem_cons_of_mem _ (hd ▸ hm)
      · rwa [put_other _ _ hd]
  · intro d hd x hx
    have hold : ∃ q, put runs a (some r) x = some q ∧ q.cls = d + 1 := by
      by_cases hxa : x = a
      · subst hxa
        refine ⟨r, put_same _ _ _, ?_⟩
        by_cases hdc : d = c
        · rw [hcls, hdc]
        · rw [put_other _ _ hdc] at hx
          exact absurd hx (hna d hd)
      · have hm : x ∈ L d := by
          by_cases hdc : d = c
          · subst hdc
            rw [put_same] at hx
            exact (List.mem_cons.mp hx).resolve_left hxa
          · rwa [put_other _ _ hdc] at hx
        obtain ⟨q, hq, hqc⟩ := h.own d hd x hm
        exact ⟨q, by rw [put_other _ _ hxa, hq], hqc⟩
    obtain ⟨q, hq, hqc⟩ := hold
    obtain ⟨q', hq', hb⟩ := relinked_some' hrel hq
    exact ⟨q', hq', (body_cls hb).trans hqc⟩
  · intro d hd
    rw [relinked_usedAt hrel, usedAt_put, hused]
    have hsame : ∀ l : List Nat, a ∉ l → l.map (put (usedAt runs) a 0) = l.map (usedAt runs) := by
      intro l hl
      refine List.map_congr_left fun x hx => put_other _ _ ?_
      exact fun e => hl (e ▸ hx)
    by_cases hdc : d = c
    · subst hdc
      rw [put_same, put_same, List.map_cons, List.sum_cons, put_same, hsame _ (hna d hd),
        Nat.zero_add]
      exact h.live d hd
    · rw [put_other _ _ hdc, put_other _ _ hdc, hsame _ (hna d hd)]
      exact h.live d hd

/-- A range that no mapping of the allocator touches. -/
structure Fresh (s : State) (base size : Nat) : Prop where
  pos : 0 < base
  aligned : base % 4096 = 0
  size_pos : 0 < size
  size_mod : size % 4096 = 0
  fits : base + size ≤ 2 ^ 64
  apart : ∀ g ∈ s.maps, base + size ≤ g.base ∨ g.stop ≤ base

theorem Core.no_header {s : State} {L : Nat → List Nat} (h : Core s L) {base size : Nat}
    (hf : Fresh s base size) {x : Nat} (h₁ : base ≤ x) (h₂ : x < base + size) :
    s.runs x = none ∧ s.larges x = none := by
  have hout : ∀ g ∈ s.maps, g.base ≠ x := by
    intro g hg hgx
    have hpos := (h.maps.sane g hg).2.2.1
    have ha := hf.apart g hg
    have hstop : g.stop = g.base + g.size := rfl
    omega
  constructor
  · cases hr : s.runs x with
    | none => rfl
    | some r =>
        obtain ⟨g, hg, hb, -⟩ := h.maps.ofRun x r hr
        exact absurd hb (hout g hg)
  · cases hl : s.larges x with
    | none => rfl
    | some l =>
        obtain ⟨-, g, hg, hb, -⟩ := h.maps.ofLarge x l hl
        exact absurd hb (hout g hg)

theorem Core.mmap_runs {s : State} {L : Nat → List Nat} (h : Core s L) {base size : Nat}
    (hf : Fresh s base size) (align : Nat) : (s.mmap base size align).runs = s.runs := by
  funext x
  show (if base ≤ x ∧ x < base + size then none else s.runs x) = s.runs x
  split
  · rename_i hx
    exact ((h.no_header hf hx.1 hx.2).1).symm
  · rfl

theorem Core.mmap_larges {s : State} {L : Nat → List Nat} (h : Core s L) {base size : Nat}
    (hf : Fresh s base size) (align : Nat) : (s.mmap base size align).larges = s.larges := by
  funext x
  show (if base ≤ x ∧ x < base + size then none else s.larges x) = s.larges x
  split
  · rename_i hx
    exact ((h.no_header hf hx.1 hx.2).2).symm
  · rfl

/-- The mapping half of the invariant after a fresh mapping whose header kind is
given by `runs'` and `larges'`. -/
theorem Maps.add {s s' : State} (h : Maps s) {base size align : Nat} (hf : Fresh s base size)
    (hmaps : s'.maps = ⟨base, size, align⟩ :: s.maps)
    (hruns : ∀ x r, s'.runs x = some r →
      (x = base ∧ size = runMap (r.cls - 1)) ∨ ∃ q, s.runs x = some q ∧ q.cls = r.cls)
    (hlarges : ∀ x l, s'.larges x = some l →
      (x = base ∧ l.magic = kMagicLarge ∧ size = l.mapSize) ∨ s.larges x = some l)
    (howner : (∃ r, s'.runs base = some r ∧ s'.larges base = none) ∨
      ∃ l, s'.larges base = some l ∧ s'.runs base = none)
    (hkeep : ∀ x, x ≠ base → ((s'.runs x).isSome = (s.runs x).isSome) ∧ s'.larges x = s.larges x) :
    Maps s' := by
  have hne : ∀ g ∈ s.maps, g.base ≠ base := by
    intro g hg he
    have hpos := (h.sane g hg).2.2.1
    have ha := hf.apart g hg
    have hsp := hf.size_pos
    have hstop : g.stop = g.base + g.size := rfl
    omega
  refine ⟨?_, ?_, ?_, ?_, ?_⟩
  · rw [hmaps]
    exact List.pairwise_cons.mpr ⟨fun g hg => hf.apart g hg, h.apart⟩
  · rw [hmaps]
    intro g hg
    rcases List.mem_cons.mp hg with rfl | hg
    · exact ⟨hf.pos, hf.aligned, hf.size_pos, hf.size_mod, hf.fits⟩
    · exact h.sane g hg
  · intro x r hr
    rw [hmaps]
    rcases hruns x r hr with ⟨rfl, hs⟩ | ⟨q, hq, hqc⟩
    · exact ⟨⟨x, size, align⟩, by simp, rfl, hs⟩
    · obtain ⟨g, hg, hb, hgs⟩ := h.ofRun x q hq
      exact ⟨g, by simp [hg], hb, by rw [hgs, hqc]⟩
  · intro x l hl
    rw [hmaps]
    rcases hlarges x l hl with ⟨rfl, hm, hs⟩ | hl
    · exact ⟨hm, ⟨x, size, align⟩, by simp, rfl, hs⟩
    · obtain ⟨hm, g, hg, hb, hgs⟩ := h.ofLarge x l hl
      exact ⟨hm, g, by simp [hg], hb, hgs⟩
  · rw [hmaps]
    intro g hg
    rcases List.mem_cons.mp hg with rfl | hg
    · exact howner
    · obtain ⟨hr, hl⟩ := hkeep g.base (hne g hg)
      rcases h.owner g hg with ⟨r, hr', hl'⟩ | ⟨l, hl', hr'⟩
      · rw [hr', Option.isSome_some] at hr
        obtain ⟨q, hq⟩ := Option.isSome_iff_exists.mp hr
        exact .inl ⟨q, hq, by rw [hl, hl']⟩
      · rw [hr', Option.isSome_none] at hr
        exact .inr ⟨l, by rw [hl, hl'], by simpa using hr⟩

theorem Core.addLarge {s s₁ : State} {L : Nat → List Nat} (h : Core s L) {base size align n : Nat}
    (hf : Fresh s base size) (hruns : s₁.runs = s.runs) (hcls : s₁.cls = s.cls)
    (hlarges : s₁.larges = put s.larges base (some ⟨kMagicLarge, size, n⟩))
    (hmaps : s₁.maps = ⟨base, size, align⟩ :: s.maps) : Core s₁ L := by
  have hnone := h.no_header hf (Nat.le_refl base) (Nat.lt_add_of_pos_right hf.size_pos)
  refine ⟨by rw [hruns]; exact h.run, by rw [hruns, hcls]; exact h.lists, ?_⟩
  refine h.maps.add hf hmaps ?_ ?_ ?_ ?_
  · intro x r hr
    rw [hruns] at hr
    exact .inr ⟨r, hr, rfl⟩
  · intro x l hl
    rw [hlarges] at hl
    by_cases hx : x = base
    · subst hx
      rw [put_same, Option.some.injEq] at hl
      subst hl
      exact .inl ⟨rfl, rfl, rfl⟩
    · rw [put_other _ _ hx] at hl
      exact .inr hl
  · exact .inr ⟨_, by rw [hlarges, put_same], by rw [hruns]; exact hnone.1⟩
  · intro x hx
    rw [hruns, hlarges, put_other _ _ hx]
    exact ⟨rfl, rfl⟩

/-- Adding a run: in a state `s₁` that differs from `s` by a fresh mapping and the
header in it, the insertion succeeds. -/
theorem Core.addRun {s : State} {L : Nat → List Nat} (h : Core s L) (s₁ : State)
    {c base : Nat} (align now : Nat)
    (hc : c < kNumClasses) (hf : Fresh s base (runMap c))
    (hruns : s₁.runs = put s.runs base (some (State.freshRun (c + 1) now)))
    (hcls : s₁.cls = s.cls) (hlarges : s₁.larges = s.larges)
    (hmaps : s₁.maps = ⟨base, runMap c, align⟩ :: s.maps) :
    ∃ runs', s₁.runInsert c base =
        .ok { s₁ with runs := runs', cls := put s.cls c { s.cls c with head := base } } ∧
      Core { s₁ with runs := runs', cls := put s.cls c { s.cls c with head := base } }
        (put L c (base :: L c)) ∧
      Relinked (put s.runs base (some (State.freshRun (c + 1) now))) runs' (base :: L c) := by
  have hnone := h.no_header hf (Nat.le_refl base) (Nat.lt_add_of_pos_right hf.size_pos)
  have hok : RunOk (State.freshRun (c + 1) now) := freshRun_ok hc
  obtain ⟨runs', hlink, hlists, hrel⟩ := h.lists.insert hc (r := State.freshRun (c + 1) now)
    hnone.1 (Nat.ne_of_gt hf.pos) rfl rfl
  refine ⟨runs', by rw [State.runInsert, hruns, hcls, hlink], ⟨?_, hlists, ?_⟩, hrel⟩
  · intro x r hr
    obtain ⟨q, hq, hb⟩ := relinked_some hrel hr
    refine RunOk.of_body ?_ hb
    by_cases hx : x = base
    · subst hx
      rw [put_same, Option.some.injEq] at hq
      exact hq ▸ hok
    · rw [put_other _ _ hx] at hq
      exact h.run x q hq
  · refine h.maps.add hf hmaps ?_ ?_ ?_ ?_
    · intro x r hr
      obtain ⟨q, hq, hb⟩ := relinked_some hrel hr
      by_cases hx : x = base
      · subst hx
        rw [put_same, Option.some.injEq] at hq
        refine .inl ⟨rfl, ?_⟩
        rw [body_cls hb, ← hq]
        rfl
      · rw [put_other _ _ hx] at hq
        exact .inr ⟨q, hq, (body_cls hb).symm⟩
    · intro x l hl
      exact .inr (hlarges ▸ hl)
    · obtain ⟨q, hq, -⟩ := relinked_some' hrel (put_same s.runs base _)
      exact .inl ⟨q, hq, by simpa [hlarges] using hnone.2⟩
    · intro x hx
      refine ⟨?_, congrFun hlarges x⟩
      have hb := relinked_body hrel x
      rw [put_other _ _ hx] at hb
      show (runs' x).isSome = (s.runs x).isSome
      rw [← Option.isSome_map, hb, Option.isSome_map]

/-! ## Removing a run -/

theorem Lists.remove {runs : Nat → Option Run} {cls : Nat → ClassState} {L : Nat → List Nat}
    (h : Lists runs cls L) {a : Nat} {r : Run} {c : Nat} {l₁ l₂ : List Nat} (hc : c < kNumClasses)
    (hr : runs a = some r) (hL : L c = l₁ ++ a :: l₂) (hused : r.used = 0) :
    ∃ runs' head', unlink runs (cls c).head a = some (runs', head') ∧
      Lists (put runs' a none) (put cls c { cls c with head := head' }) (put L c (l₁ ++ l₂)) ∧
      Relinked runs runs' (l₁ ++ l₂) := by
  have hnd := h.nodup c hc
  rw [hL] at hnd
  have hna : a ∉ l₁ ++ l₂ := by
    have hperm : (a :: (l₁ ++ l₂)).Nodup := (List.perm_middle.nodup_iff).mp hnd
    exact (List.nodup_cons.mp hperm).1
  have hsub : ∀ x, x ∈ l₁ ++ l₂ → x ∈ L c := by
    intro x hx
    rw [hL]
    rcases List.mem_append.mp hx with hx | hx <;> simp [hx]
  have hrc : r.cls = c + 1 := by
    obtain ⟨q, hq, hqc⟩ := h.own c hc a (by simp [hL])
    rw [hr] at hq
    cases hq
    exact hqc
  obtain ⟨runs', head', hun, hchain, hrel⟩ := unlink_spec (hL ▸ h.chain c hc) hnd hr
  have hmem : ∀ d, d < kNumClasses → ∀ x, x ∈ put L c (l₁ ++ l₂) d → x ≠ a ∧ x ∈ L d := by
    intro d hd x hx
    by_cases hdc : d = c
    · subst hdc
      rw [put_same] at hx
      exact ⟨fun e => hna (e ▸ hx), hsub x hx⟩
    · rw [put_other _ _ hdc] at hx
      exact ⟨fun e => h.disjoint hc hd hdc hx (by rw [e, hL]; simp), hx⟩
  refine ⟨runs', head', hun, ⟨?_, ?_, ?_, ?_, ?_⟩, hrel⟩
  · intro d hd
    by_cases hdc : d = c
    · subst hdc
      obtain ⟨last, hs⟩ := hchain
      rw [put_same, put_same]
      exact ⟨last, hs.put_outside hna _⟩
    · obtain ⟨last, hs⟩ := h.chain d hd
      rw [put_other _ _ hdc, put_other _ _ hdc]
      refine ⟨last, hs.congr fun x hx v hv => ⟨v, ?_, rfl, rfl⟩⟩
      have hxa : x ≠ a := fun e => h.disjoint hc hd hdc hx (by rw [e, hL]; simp)
      rw [put_other _ _ hxa, hrel.outside x (fun hm => h.disjoint hc hd hdc hx (hsub x hm)), hv]
  · intro d hd
    by_cases hdc : d = c
    · subst hdc
      rw [put_same]
      exact (List.nodup_cons.mp ((List.perm_middle.nodup_iff).mp hnd)).2
    · rw [put_other _ _ hdc]
      exact h.nodup d hd
  · intro x q hq
    by_cases hx : x = a
    · subst hx; simp at hq
    · rw [put_other _ _ hx] at hq
      obtain ⟨q', hq', hb⟩ := relinked_some hrel hq
      rw [body_cls hb]
      have hm := h.mem x q' hq'
      by_cases hd : q'.cls - 1 = c
      · rw [hd, hL] at hm
        rw [hd, put_same, List.mem_append]
        rcases List.mem_append.mp hm with hm | hm
        · exact .inl hm
        · exact .inr ((List.mem_cons.mp hm).resolve_left hx)
      · rwa [put_other _ _ hd]
  · intro d hd x hx
    obtain ⟨hxa, hm⟩ := hmem d hd x hx
    obtain ⟨q, hq, hqc⟩ := h.own d hd x hm
    obtain ⟨q', hq', hb⟩ := relinked_some' hrel hq
    exact ⟨q', by rw [put_other _ _ hxa, hq'], (body_cls hb).trans hqc⟩
  · intro d hd
    have hu : ∀ x, x ≠ a → usedAt (put runs' a none) x = usedAt runs x := by
      intro x hx
      rw [← relinked_usedAt hrel]
      simp [usedAt, put_other _ _ hx]
    have hmap : (put L c (l₁ ++ l₂) d).map (usedAt (put runs' a none)) =
        (put L c (l₁ ++ l₂) d).map (usedAt runs) :=
      List.map_congr_left fun x hx => hu x (hmem d hd x hx).1
    rw [hmap]
    by_cases hdc : d = c
    · subst hdc
      have hlive := h.live d hd
      have hua : usedAt runs a = 0 := by simp [usedAt, hr, hused]
      rw [hL] at hlive
      simp only [List.map_append, List.map_cons, List.sum_append, List.sum_cons, hua,
        Nat.zero_add] at hlive
      simpa using hlive
    · rw [put_other _ _ hdc, put_other _ _ hdc]
      exact h.live d hd

theorem Maps.nodup {s : State} (h : Maps s) : s.maps.Nodup := by
  refine List.Pairwise.imp_of_mem (fun {p q} hp _ hd e => ?_) h.apart
  subst e
  have hp0 := (h.sane p hp).2.2.1
  have hst : p.stop = p.base + p.size := rfl
  exact hd.not_mem (x := p.base) ⟨Nat.le_refl _, by omega⟩ ⟨Nat.le_refl _, by omega⟩

theorem Maps.eq_of_base {s : State} (h : Maps s) {g g' : Span} (hg : g ∈ s.maps) (hg' : g' ∈ s.maps)
    (h₁ : g.base ≤ g'.base) (h₂ : g'.base < g.stop) : g' = g := by
  have hp := (h.sane g' hg').2.2.1
  have hst : g'.stop = g'.base + g'.size := rfl
  exact h.apart.eq_of_mem hg' hg (x := g'.base) ⟨Nat.le_refl _, by omega⟩ ⟨h₁, h₂⟩

theorem Core.header_alone {s : State} {L : Nat → List Nat} (h : Core s L) {g : Span} {r : Run}
    (hg : g ∈ s.maps) (hr : s.runs g.base = some r) {x : Nat} (h₁ : g.base ≤ x) (h₂ : x < g.stop) :
    (x ≠ g.base → s.runs x = none) ∧ s.larges x = none := by
  constructor
  · intro hx
    cases hq : s.runs x with
    | none => rfl
    | some q =>
        obtain ⟨g', hg', hb, -⟩ := h.maps.ofRun x q hq
        subst hb
        exact absurd (congrArg Span.base (h.maps.eq_of_base hg hg' h₁ h₂)) hx
  · cases hl : s.larges x with
    | none => rfl
    | some l =>
        obtain ⟨-, g', hg', hb, -⟩ := h.maps.ofLarge x l hl
        subst hb
        have he := h.maps.eq_of_base hg hg' h₁ h₂
        rcases h.maps.owner g hg with ⟨-, -, hn⟩ | ⟨-, -, hn⟩
        · rw [← he, hl] at hn; cases hn
        · rw [hr] at hn; cases hn

/-- Unmapping the whole mapping of a run whose neighbours were relinked. -/
theorem Core.munmap_run {s : State} {L : Nat → List Nat} (h : Core s L) {g : Span} {r : Run}
    (hg : g ∈ s.maps) (hr : s.runs g.base = some r) {runs' : Nat → Option Run} {l : List Nat}
    (hrel : Relinked s.runs runs' l) (cls' : Nat → ClassState) :
    State.munmap { s with runs := runs', cls := cls' } g.base g.size =
      { s with runs := put runs' g.base none, cls := cls', maps := s.maps.erase g } := by
  have hpos := (h.maps.sane g hg).2.2.1
  have hruns : (fun x => if g.base ≤ x ∧ x < g.base + g.size then none else runs' x) =
      put runs' g.base none := by
    funext x
    by_cases hx : x = g.base
    · subst hx
      rw [put_same, if_pos ⟨Nat.le_refl _, by omega⟩]
    · rw [put_other _ _ hx]
      split
      · rename_i hin
        exact ((relinked_none hrel).mpr ((h.header_alone hg hr hin.1 hin.2).1 hx)).symm
      · rfl
  have hlarges : (fun x => if g.base ≤ x ∧ x < g.base + g.size then none else s.larges x) =
      s.larges := by
    funext x
    split
    · rename_i hin
      exact (h.header_alone hg hr hin.1 hin.2).2.symm
    · rfl
  have hmaps : release g.base g.size s.maps = s.maps.erase g :=
    release_span h.maps.apart (fun p hp => (h.maps.sane p hp).2.2.1) hg
  simp only [State.munmap, State.dropHeaders, hruns, hlarges, hmaps]

/-- The mapping half of the invariant after a run and its mapping went. -/
theorem Core.maps_erase {s : State} {L : Nat → List Nat} (h : Core s L) {g : Span} {r : Run}
    (hg : g ∈ s.maps) (hr : s.runs g.base = some r) {runs' : Nat → Option Run} {l : List Nat}
    (hrel : Relinked s.runs runs' l) (cls' : Nat → ClassState) :
    Maps { s with runs := put runs' g.base none, cls := cls', maps := s.maps.erase g } := by
  have hmem : ∀ p, p ∈ s.maps.erase g ↔ p ≠ g ∧ p ∈ s.maps := fun p =>
    h.maps.nodup.mem_erase_iff
  have hbase : ∀ p, p ∈ s.maps → p ≠ g → p.base ≠ g.base := by
    intro p hp hne hb
    have hpos := (h.maps.sane g hg).2.2.1
    have hst : g.stop = g.base + g.size := rfl
    exact hne (h.maps.eq_of_base hg hp (by omega) (by omega))
  refine ⟨?_, ?_, ?_, ?_, ?_⟩
  · exact List.Pairwise.sublist List.erase_sublist h.maps.apart
  · intro p hp
    exact h.maps.sane p ((hmem p).mp hp).2
  · intro x q hq
    have hq : put runs' g.base none x = some q := hq
    by_cases hx : x = g.base
    · subst hx; simp at hq
    · rw [put_other _ _ hx] at hq
      obtain ⟨q', hq', hb⟩ := relinked_some hrel hq
      obtain ⟨p, hp, hpb, hps⟩ := h.maps.ofRun x q' hq'
      refine ⟨p, (hmem p).mpr ⟨fun e => hx (by rw [← hpb, e]), hp⟩, hpb, ?_⟩
      rw [hps, body_cls hb]
  · intro x l hl
    obtain ⟨hm, p, hp, hpb, hps⟩ := h.maps.ofLarge x l hl
    refine ⟨hm, p, (hmem p).mpr ⟨fun e => ?_, hp⟩, hpb, hps⟩
    have hown := (h.header_alone hg hr (Nat.le_refl _)
      (Nat.lt_add_of_pos_right (h.maps.sane g hg).2.2.1)).2
    rw [← e, hpb, hl] at hown
    cases hown
  · intro p hp
    obtain ⟨hne, hp⟩ := (hmem p).mp hp
    have hpb := hbase p hp hne
    show (∃ q, put runs' g.base none p.base = some q ∧ s.larges p.base = none) ∨
      ∃ l, s.larges p.base = some l ∧ put runs' g.base none p.base = none
    rw [put_other _ _ hpb]
    rcases h.maps.owner p hp with ⟨q, hq, hn⟩ | ⟨l, hl, hn⟩
    · obtain ⟨q', hq', -⟩ := relinked_some' hrel hq
      exact .inl ⟨q', hq', hn⟩
    · exact .inr ⟨l, hl, (relinked_none hrel).mpr hn⟩

/-- Removing an idle run: the list skips it and exactly its mapping goes. -/
theorem Core.removeRun {s : State} {L : Nat → List Nat} (h : Core s L) {a : Nat} {r : Run}
    {l₁ l₂ : List Nat} (hr : s.runs a = some r) (hL : L (r.cls - 1) = l₁ ++ a :: l₂)
    (hused : r.used = 0) :
    ∃ s₁ g runs' cls', s.runRemove (r.cls - 1) a = .ok s₁ ∧
      g ∈ s.maps ∧ g.base = a ∧ g.size = runMap (r.cls - 1) ∧
      Relinked s.runs runs' (l₁ ++ l₂) ∧
      s₁.munmap a (runMap (r.cls - 1)) =
        { s with runs := put runs' a none, cls := cls', maps := s.maps.erase g } ∧
      Core { s with runs := put runs' a none, cls := cls', maps := s.maps.erase g }
        (put L (r.cls - 1) (l₁ ++ l₂)) := by
  have hro := h.run a r hr
  have hc : r.cls - 1 < kNumClasses := by
    have h₁ := hro.cls_pos
    have h₂ := hro.cls_le
    omega
  obtain ⟨runs', head', hun, hlists, hrel⟩ := h.lists.remove hc hr hL hused
  obtain ⟨g, hg, rfl, hgs⟩ := h.maps.ofRun a r hr
  let cls' := put s.cls (r.cls - 1) { s.cls (r.cls - 1) with head := head' }
  refine ⟨{ s with runs := runs', cls := cls' }, g, runs', cls', ?_, hg, rfl, hgs, hrel, ?_,
    ?_, hlists, ?_⟩
  · rw [State.runRemove, hun]
  · rw [← hgs]
    exact h.munmap_run hg hr hrel cls'
  · intro x q hq
    have hq : put runs' g.base none x = some q := hq
    by_cases hx : x = g.base
    · subst hx; simp at hq
    · rw [put_other _ _ hx] at hq
      obtain ⟨q', hq', hb⟩ := relinked_some hrel hq
      exact (h.run x q' hq').of_body hb
  · exact h.maps_erase hg hr hrel cls'

end Memflux.Alloc
