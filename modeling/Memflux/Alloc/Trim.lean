import Memflux.Alloc.Calls
import Memflux.Alloc.Steps

/-! # The trim pass

`Trims s s'` says all that purging may do to a state: idle runs without allocated
blocks go together with their mappings, pages that the page loop selected read as
zero, and everything else stays. It is a preorder; one purge is a step of it, and
the list walk and the whole pass follow by induction.
-/

namespace Memflux.Alloc

open Spans BitWords DList

/-- The part of a header that a purge leaves alone. -/
def Run.kept (r : Run) : Run := { r with next := 0, prev := 0, lastTouchMs := 0 }

theorem kept_of_body {r r' : Run} (h : r'.body = r.body) : r'.kept = r.kept := by
  have hk : ∀ q : Run, q.kept = q.body.kept := fun _ => rfl
  rw [hk r', hk r, h]

theorem kept_elems {r r' : Run} (h : r'.kept = r.kept) : r'.elems = r.elems := by
  show r'.kept.elems = r.kept.elems
  rw [h]

theorem kept_elem {r r' : Run} (h : r'.kept = r.kept) : r'.elem = r.elem := by
  show r'.kept.elem = r.kept.elem
  rw [h]

theorem kept_used {r r' : Run} (h : r'.kept = r.kept) : r'.used = r.used := by
  show r'.kept.used = r.kept.used
  rw [h]

theorem kept_bits {r r' : Run} (h : r'.kept = r.kept) : r'.bits = r.bits := by
  show r'.kept.bits = r.kept.bits
  rw [h]

theorem kept_cls {r r' : Run} (h : r'.kept = r.kept) : r'.cls = r.cls := by
  show r'.kept.cls = r.kept.cls
  rw [h]

theorem kept_fullyFree {r r' : Run} (h : r'.kept = r.kept) :
    r'.lastFullyFreeMs = r.lastFullyFreeMs := by
  show r'.kept.lastFullyFreeMs = r.kept.lastFullyFreeMs
  rw [h]

theorem kept_runData {r r' : Run} (h : r'.kept = r.kept) (a : Nat) : runData a r' = runData a r := by
  rw [runData, runData, kept_elems h]

theorem kept_blockAddr {r r' : Run} (h : r'.kept = r.kept) (a i : Nat) :
    blockAddr a r' i = blockAddr a r i := by
  rw [blockAddr, blockAddr, kept_runData h, kept_elem h]

theorem purgeLoop_congr {r r' : Run} (he : r'.elems = r.elems) (hs : r'.elem = r.elem)
    (hb : r'.bits = r.bits) (fuel off : Nat) : r'.purgeLoop fuel off = r.purgeLoop fuel off := by
  have hpage : ∀ b0 b1, r'.pageFree b0 b1 = r.pageFree b0 b1 := by
    intro b0 b1
    simp only [Run.pageFree, hb]
  induction fuel generalizing off with
  | zero => rfl
  | succ fuel ih => simp only [Run.purgeLoop, he, hs, hpage, ih]

theorem kept_purgeOffsets {r r' : Run} (h : r'.kept = r.kept) : r'.purgeOffsets = r.purgeOffsets := by
  simp only [Run.purgeOffsets, kept_elem h, kept_elems h,
    purgeLoop_congr (kept_elems h) (kept_elem h) (kept_bits h)]

/-- A state without the parts a purge may change. -/
def State.fixedPart (s : State) : State :=
  { s with
    runs := fun _ => none
    cls := fun _ => ⟨0, 0⟩
    maps := []
    freedToOs := 0
    purged := 0
    mem := fun _ => 0 }

/-- Address `x` is in a page that the page loop selects in some run of `s`. -/
def InPurgedPage (s : State) (x : Nat) : Prop :=
  ∃ a r off, s.runs a = some r ∧ off ∈ r.purgeOffsets ∧ runData a r + off ≤ x ∧
    x < runData a r + off + 4096

structure Trims (s s' : State) : Prop where
  runs : ∀ x r', s'.runs x = some r' → ∃ r, s.runs x = some r ∧ r'.kept = r.kept
  stays : ∀ x r, s.runs x = some r → r.used ≠ 0 → ∃ r', s'.runs x = some r' ∧ r'.kept = r.kept
  maps : List.Sublist s'.maps s.maps
  balance : s'.freedToOs + total s'.maps = s.freedToOs + total s.maps
  mem : ∀ x, s'.mem x ≠ s.mem x → InPurgedPage s x
  fixed : s'.fixedPart = s.fixedPart

theorem Trims.refl (s : State) : Trims s s :=
  ⟨fun _ r h => ⟨r, h, rfl⟩, fun _ r h _ => ⟨r, h, rfl⟩, List.Sublist.refl _, rfl,
    fun _ h => absurd rfl h, rfl⟩

theorem Trims.trans {s₁ s₂ s₃ : State} (h : Trims s₁ s₂) (h' : Trims s₂ s₃) : Trims s₁ s₃ := by
  refine ⟨?_, ?_, h'.maps.trans h.maps, h'.balance.trans h.balance, ?_, h'.fixed.trans h.fixed⟩
  · intro x r₃ h₃
    obtain ⟨r₂, h₂, hk⟩ := h'.runs x r₃ h₃
    obtain ⟨r₁, h₁, hk'⟩ := h.runs x r₂ h₂
    exact ⟨r₁, h₁, hk.trans hk'⟩
  · intro x r₁ h₁ hu
    obtain ⟨r₂, h₂, hk⟩ := h.stays x r₁ h₁ hu
    obtain ⟨r₃, h₃, hk'⟩ := h'.stays x r₂ h₂ (by rwa [kept_used hk])
    exact ⟨r₃, h₃, hk'.trans hk⟩
  · intro x hx
    by_cases h₂ : s₂.mem x = s₁.mem x
    · obtain ⟨a, r₂, off, hr, hoff, hlo, hhi⟩ := h'.mem x (by rwa [h₂])
      obtain ⟨r₁, hr₁, hk⟩ := h.runs a r₂ hr
      rw [kept_purgeOffsets hk] at hoff
      rw [kept_runData hk] at hlo hhi
      exact ⟨a, r₁, off, hr₁, hoff, hlo, hhi⟩
    · exact h.mem x h₂

theorem Trims.larges {s s' : State} (h : Trims s s') : s'.larges = s.larges := by
  have hf := congrArg State.larges h.fixed
  exact hf

theorem Trims.reservation {s s' : State} (h : Trims s s') :
    s'.ready = s.ready ∧ s'.resStart = s.resStart ∧ s'.resEnd = s.resEnd ∧ s'.resBump = s.resBump := by
  have hready := congrArg State.ready h.fixed
  have hstart := congrArg State.resStart h.fixed
  have hend := congrArg State.resEnd h.fixed
  have hbump := congrArg State.resBump h.fixed
  exact ⟨hready, hstart, hend, hbump⟩

theorem Trims.tcache {s s' : State} (h : Trims s s') : s'.tcache = s.tcache := by
  have hf := congrArg State.tcache h.fixed
  exact hf

/-! ## One purge -/

theorem total_erase {gs : List Span} {g : Span} (hg : g ∈ gs) :
    g.size + total (gs.erase g) = total gs := by
  have hp := ((List.perm_cons_erase hg).map Span.size).sum_eq
  simpa [total] using hp.symm

theorem RunOk.map_eq {r : Run} (h : RunOk r) :
    pageUp (runBytes r.elems r.elem) = runMap (r.cls - 1) := by
  rw [h.elems, h.elem]
  rfl

theorem purgeRun_idle {s : State} {L : Nat → List Nat} (h : Core s L) {a t : Nat} {r : Run}
    {l₁ l₂ : List Nat} (hr : s.runs a = some r) (hL : L (r.cls - 1) = l₁ ++ a :: l₂)
    (hidle : s.runIdle r t = true) :
    ∃ s', s.purgeRun a t = .ok s' ∧ Core s' (put L (r.cls - 1) (l₁ ++ l₂)) ∧ Trims s s' ∧
      ∀ g, g ∈ s'.maps ↔ g ∈ s.maps ∧ g.base ≠ a := by
  have hok := h.run a r hr
  have hrun : s.run a = .ok r := by simp [State.run, hr]
  have hused : r.used = 0 := (of_decide_eq_true hidle).1
  obtain ⟨s₁, g, runs', cls', hrem, hg, hga, hgs, hrel, hstate, hcore⟩ :=
    h.removeRun hr hL hused
  refine ⟨{ s₁.munmap a (runMap (r.cls - 1)) with
    freedToOs := (s₁.munmap a (runMap (r.cls - 1))).freedToOs + runMap (r.cls - 1) }, ?_, ?_, ?_, fun g' => ?_⟩
  · simp only [State.purgeRun, hrun, bind, Except.bind, hidle, if_true, hrem, hok.map_eq]
  · rw [hstate]
    exact hcore.congr rfl rfl rfl rfl
  · rw [hstate]
    refine ⟨?_, ?_, List.erase_sublist, ?_, fun _ hx => absurd rfl hx, rfl⟩
    · intro x q hq
      have hq : put runs' a none x = some q := hq
      by_cases hx : x = a
      · subst hx; simp at hq
      · rw [put_other _ _ hx] at hq
        obtain ⟨q', hq', hb⟩ := relinked_some hrel hq
        exact ⟨q', hq', kept_of_body hb⟩
    · intro x q hq hne
      have hx : x ≠ a := by
        rintro rfl
        rw [hr] at hq
        cases hq
        exact hne hused
      obtain ⟨q', hq', hb⟩ := relinked_some' hrel hq
      exact ⟨q', by show put runs' a none x = _; rw [put_other _ _ hx, hq'], kept_of_body hb⟩
    · have ht := total_erase hg
      show s.freedToOs + runMap (r.cls - 1) + total (s.maps.erase g) = _
      rw [← ht, hgs]
      omega
  · rw [hstate]
    show g' ∈ s.maps.erase g ↔ _
    rw [h.maps.nodup.mem_erase_iff]
    constructor
    · rintro ⟨hne, hg'⟩
      have hpos := (h.maps.sane g' hg').2.2.1
      refine ⟨hg', fun hb => absurd (h.maps.eq_of_base hg' hg (by omega) ?_).symm hne⟩
      unfold Span.stop
      omega
    · rintro ⟨hg', hb⟩
      refine ⟨fun he => ?_, hg'⟩
      exact hb (he ▸ hga)

/-- A run that has been dirty for long enough keeps its mapping; only pages and its time
stamp change. -/
theorem purgeRun_dirty {s : State} {L : Nat → List Nat} (h : Core s L) {a t : Nat} {r : Run}
    (hr : s.runs a = some r) (hidle : ¬ s.runIdle r t = true) (hdirty : s.dirtyIdle r t = true) :
    ∃ s', s.purgeRun a t = .ok s' ∧ Core s' L ∧ Trims s s' ∧ s'.maps = s.maps := by
  have hok := h.run a r hr
  have hrun : s.run a = .ok r := by simp [State.run, hr]
  obtain ⟨mem, n, hadv, hmem⟩ := adviseAll_eq (s.setRun a { r with lastTouchMs := t })
    (runData a r) r.purgeOffsets
  refine ⟨(s.setRun a { r with lastTouchMs := t }).adviseAll (runData a r) r.purgeOffsets,
    ?_, ?_, ?_, ?_⟩
  · have hpo : Run.purgeOffsets { r with lastTouchMs := t } = r.purgeOffsets :=
      kept_purgeOffsets rfl
    simp only [State.purgeRun, hrun, bind, Except.bind, hidle, hdirty, if_true, hpo]
    rfl
  · rw [hadv]
    have hok' : RunOk { r with lastTouchMs := t } :=
      ⟨hok.magic, hok.cls_pos, hok.cls_le, hok.elems, hok.elem, hok.words, hok.high, hok.used⟩
    have hc := h.rewrite hr hok' rfl rfl rfl (k := s.cls (r.cls - 1)) rfl rfl
    refine hc.congr rfl ?_ rfl rfl
    exact (put_self s.cls (r.cls - 1)).symm
  · rw [hadv]
    refine ⟨?_, ?_, List.Sublist.refl _, rfl, ?_, rfl⟩
    · intro x q hq
      have hq : put s.runs a (some { r with lastTouchMs := t }) x = some q := hq
      by_cases hx : x = a
      · subst hx
        rw [put_same, Option.some.injEq] at hq
        exact ⟨r, hr, by rw [← hq]; rfl⟩
      · rw [put_other _ _ hx] at hq
        exact ⟨q, hq, rfl⟩
    · intro x q hq _
      by_cases hx : x = a
      · subst hx
        rw [hr] at hq
        cases hq
        exact ⟨_, put_same _ _ _, rfl⟩
      · exact ⟨q, by show put s.runs a _ x = _; rw [put_other _ _ hx, hq], rfl⟩
    · intro x hx
      obtain ⟨-, off, ho, hin⟩ := hmem x hx
      exact ⟨a, r, off, hr, ho, hin⟩
  · rw [hadv]
    rfl

/-- One purge keeps the invariant; the list of its class keeps every other run. -/
theorem purgeRun_spec {s : State} {L : Nat → List Nat} (h : Core s L) {a t : Nat} {r : Run}
    {l₁ l₂ : List Nat} (hr : s.runs a = some r) (hL : L (r.cls - 1) = l₁ ++ a :: l₂) :
    ∃ s' l₁', s.purgeRun a t = .ok s' ∧ Core s' (put L (r.cls - 1) (l₁' ++ l₂)) ∧ Trims s s' ∧
      ∀ g, g ∈ s'.maps ↔ g ∈ s.maps ∧ (g.base = a → s.runIdle r t = false) := by
  by_cases hidle : s.runIdle r t
  · obtain ⟨s', hs', hcore, htrims, hmaps⟩ := purgeRun_idle h hr hL hidle
    refine ⟨s', l₁, hs', hcore, htrims, fun g => ?_⟩
    rw [hmaps g, hidle]
    simp
  · have hkeepL : put L (r.cls - 1) ((l₁ ++ [a]) ++ l₂) = L := by
      rw [List.append_assoc, List.singleton_append, ← hL, put_self]
    have hbusy : s.runIdle r t = false := by simpa using hidle
    by_cases hdirty : s.dirtyIdle r t
    · obtain ⟨s', hs', hcore, htrims, hmaps⟩ := purgeRun_dirty h hr hidle hdirty
      refine ⟨s', l₁ ++ [a], hs', by rw [hkeepL]; exact hcore, htrims, fun g => ?_⟩
      rw [hmaps, hbusy]
      simp
    · refine ⟨s, l₁ ++ [a], ?_, by rw [hkeepL]; exact h, Trims.refl s, fun g => ?_⟩
      · have hrun : s.run a = .ok r := by simp [State.run, hr]
        simp only [State.purgeRun, hrun, bind, Except.bind, hidle, hdirty]
        rfl
      · rw [hbusy]
        simp

theorem Trims.runIdle {s s' : State} (h : Trims s s') {r r' : Run} (hk : r'.kept = r.kept) (t : Nat) :
    s'.runIdle r' t = s.runIdle r t := by
  have hms : s'.runIdleMs = s.runIdleMs := by
    have hf := congrArg State.runIdleMs h.fixed
    exact hf
  rw [State.runIdle, State.runIdle, hms, kept_used hk, kept_fullyFree hk]

/-- The mappings that go are those of the idle runs among the runs `P`. -/
def Releases (s s' : State) (t : Nat) (P : Nat → Run → Prop) : Prop :=
  ∀ g, g ∈ s'.maps ↔
    g ∈ s.maps ∧ ∀ r, s.runs g.base = some r → P g.base r → s.runIdle r t = false

theorem Releases.refl (s : State) (t : Nat) {P : Nat → Run → Prop} (hP : ∀ a r, ¬ P a r) :
    Releases s s t P :=
  fun _ => ⟨fun hg => ⟨hg, fun _ _ hp => absurd hp (hP _ _)⟩, fun hg => hg.1⟩

theorem Releases.trans {s s₁ s' : State} {L L₁ : Nat → List Nat} {t : Nat} {P Q : Nat → Run → Prop}
    (hcore : Core s L) (hcore₁ : Core s₁ L₁) (htrim : Trims s s₁) (h : Releases s s₁ t P)
    (h' : Releases s₁ s' t Q) (hQ : ∀ a r r', r'.kept = r.kept → Q a r → Q a r') :
    Releases s s' t fun a r => P a r ∨ Q a r := by
  intro g
  rw [h' g, h g]
  constructor
  · rintro ⟨⟨hg, hp⟩, hq⟩
    refine ⟨hg, fun r hr hpq => hpq.elim (hp r hr) fun hqr => ?_⟩
    rcases hcore₁.maps.owner g ((h g).mpr ⟨hg, hp⟩) with ⟨r₁, hr₁, -⟩ | ⟨l, hl, -⟩
    · obtain ⟨r', hr', hk⟩ := htrim.runs _ _ hr₁
      rw [hr] at hr'
      cases hr'
      rw [← htrim.runIdle hk t]
      exact hq r₁ hr₁ (hQ _ _ _ hk hqr)
    · rw [htrim.larges] at hl
      rcases hcore.maps.owner g hg with ⟨-, -, hnone⟩ | ⟨-, -, hnone⟩
      · rw [hl] at hnone
        cases hnone
      · rw [hr] at hnone
        cases hnone
  · rintro ⟨hg, hpq⟩
    refine ⟨⟨hg, fun r hr hp => hpq r hr (.inl hp)⟩, fun r₁ hr₁ hq => ?_⟩
    obtain ⟨r, hr, hk⟩ := htrim.runs _ _ hr₁
    rw [htrim.runIdle hk t]
    exact hpq r hr (.inr (hQ _ _ _ hk.symm hq))

theorem Releases.congr {s s' : State} {t : Nat} {P Q : Nat → Run → Prop} (h : Releases s s' t P)
    (hPQ : ∀ a r, s.runs a = some r → (P a r ↔ Q a r)) : Releases s s' t Q := by
  intro g
  rw [h g]
  exact and_congr_right fun _ => forall_congr' fun r =>
    forall_congr' fun hr => imp_congr_left (hPQ _ r hr)

/-! ## The walk and the pass -/

theorem purgeWalk_step {t c : Nat} (hc : c < kNumClasses) {a : Nat} {l l₀ : List Nat} {s : State}
    {L : Nat → List Nat} (h : Core s L) (hL : L c = l₀ ++ a :: l) :
    ∃ r s₁ l₁, (a ≠ 0 ∧ s.runs a = some r ∧ r.next = l.headD 0) ∧ s.purgeRun a t = .ok s₁ ∧
      Core s₁ (put L c (l₁ ++ l)) ∧ Trims s s₁ ∧
      (∀ g, g ∈ s₁.maps ↔ g ∈ s.maps ∧ (g.base = a → s.runIdle r t = false)) ∧
      ∀ fuel, State.purgeWalk t (fuel + 1) s a = State.purgeWalk t fuel s₁ (l.headD 0) := by
  obtain ⟨r, hr, hrc⟩ := h.lists.own c hc a (by rw [hL]; simp)
  have hcls : r.cls - 1 = c := by omega
  obtain ⟨last, hseg⟩ := h.lists.chain c hc
  rw [hL] at hseg
  obtain ⟨mid, n, -, -, h0, q, hq, -, hrest⟩ := Seg.append.mp hseg
  rw [hr] at hq
  cases hq
  have hnext : r.next = l.headD 0 := by
    cases l with
    | nil => exact hrest.2.symm
    | cons b l => exact hrest.1
  obtain ⟨s₁, l₁, hp, hcore, htrim, hmaps⟩ := purgeRun_spec (t := t) h hr (hcls.symm ▸ hL)
  rw [hcls] at hcore
  refine ⟨r, s₁, l₁, ⟨h0, hr, hnext⟩, hp, hcore, htrim, hmaps, fun fuel => ?_⟩
  have hrun : s.run a = .ok r := by simp [State.run, hr]
  simp only [State.purgeWalk, h0, if_false, hrun, bind, Except.bind, hp, hnext]

/-- The walk over the rest `l` of a list, whose first part was already visited.
The induction is on `l`; the purged run is off the remaining path because its
successor was read first. -/
theorem purgeWalk_spec {t c fuel : Nat} (hc : c < kNumClasses) {l : List Nat} {s : State}
    {L : Nat → List Nat} (h : Core s L) (l₀ : List Nat) (hL : L c = l₀ ++ l) (hfuel : l.length ≤ fuel) :
    ∃ s' L', State.purgeWalk t fuel s (l.headD 0) = .ok s' ∧ Core s' L' ∧ Trims s s' ∧
      Releases s s' t fun a _ => a ∈ l := by
  induction l generalizing s L l₀ fuel with
  | nil =>
      exact ⟨s, L, by cases fuel <;> rfl, h, Trims.refl s, .refl s t fun _ _ => List.not_mem_nil⟩
  | cons a l ih =>
      cases fuel with
      | zero => simp at hfuel
      | succ fuel =>
          obtain ⟨r, s₁, l₁, ⟨-, hr, -⟩, -, hcore, htrim, hrel, hwalk⟩ := purgeWalk_step (t := t) hc h hL
          obtain ⟨s', L', hw, hcore', htrim', hrel'⟩ :=
            ih hcore l₁ (put_same _ _ _) (by simpa using hfuel)
          have hone : Releases s s₁ t fun b _ => b = a := by
            intro g
            rw [hrel g]
            refine and_congr_right fun _ => ⟨fun hidle q hq hb => ?_, fun hidle hb => ?_⟩
            · rw [hb, hr] at hq
              cases hq
              exact hidle hb
            · exact hidle r (hb ▸ hr) hb
          refine ⟨s', L', (hwalk fuel).trans hw, hcore', htrim.trans htrim', ?_⟩
          exact (hone.trans h hcore htrim hrel' fun _ _ _ _ hb => hb).congr
            fun b _ _ => List.mem_cons.symm

theorem trimClass_spec {s : State} {L : Nat → List Nat} (h : Core s L) {c : Nat}
    (hc : c < kNumClasses) (t : Nat) :
    ∃ s' L', s.trimClass c t = .ok s' ∧ Core s' L' ∧ Trims s s' ∧
      Releases s s' t fun _ r => r.cls - 1 = c := by
  have hhead := (h.lists.chain c hc).head_eq
  obtain ⟨s', L', hw, hcore, htrim, hrel⟩ :=
    purgeWalk_spec (t := t) hc h [] rfl (h.length_le hc)
  refine ⟨s', L', by rw [State.trimClass, hhead, hw], hcore, htrim, hrel.congr fun a r hr => ?_⟩
  constructor
  · intro ha
    obtain ⟨q, hq, hcls⟩ := h.lists.own c hc a ha
    rw [hr] at hq
    cases hq
    omega
  · intro hcls
    exact hcls ▸ h.lists.mem a r hr

theorem trimFold_spec {cs : List Nat} (hcs : ∀ c ∈ cs, c < kNumClasses) (t : Nat) {s : State}
    {L : Nat → List Nat} (h : Core s L) :
    ∃ s' L', cs.foldlM (fun s c => s.trimClass c t) s = .ok s' ∧ Core s' L' ∧ Trims s s' ∧
      Releases s s' t fun _ r => r.cls - 1 ∈ cs := by
  induction cs generalizing s L with
  | nil => exact ⟨s, L, rfl, h, Trims.refl s, .refl s t fun _ _ => List.not_mem_nil⟩
  | cons c cs ih =>
      obtain ⟨s₁, L₁, h₁, hcore₁, htrim₁, hrel₁⟩ := trimClass_spec h (hcs c (by simp)) t
      obtain ⟨s', L', h', hcore', htrim', hrel'⟩ := ih (fun d hd => hcs d (by simp [hd])) hcore₁
      refine ⟨s', L', ?_, hcore', htrim₁.trans htrim', ?_⟩
      · simp only [List.foldlM_cons, h₁, bind, Except.bind]
        exact h'
      · have hcls : ∀ (a : Nat) (r r' : Run), r'.kept = r.kept → r.cls - 1 ∈ cs → r'.cls - 1 ∈ cs := by
          intro a r r' hk hc
          rwa [kept_cls hk]
        exact (hrel₁.trans h hcore₁ htrim₁ hrel' hcls).congr fun _ _ _ => List.mem_cons.symm

/-- A whole trim pass never leaves the mapped headers, and is a `Trims` step. -/
theorem trimPass_spec {s : State} {L : Nat → List Nat} (h : Core s L) (t : Nat) :
    ∃ s' L', s.trimPass t = .ok s' ∧ Core s' L' ∧ Trims s s' := by
  unfold State.trimPass
  split
  · obtain ⟨s', L', hfold, hcore, htrim, -⟩ := trimFold_spec (fun c hc => List.mem_range.mp hc) t h
    exact ⟨s', L', hfold, hcore, htrim⟩
  · exact ⟨s, L, rfl, h, Trims.refl s⟩

/-- Once the allocator is initialised, a pass unmaps the idle runs and nothing else. -/
theorem trimPass_releases {s s' : State} {L : Nat → List Nat} (h : Core s L)
    (hready : s.ready = true) {t : Nat} (ht : s.trimPass t = .ok s') :
    Releases s s' t fun _ _ => True := by
  have hcs : ∀ c ∈ List.range kNumClasses, c < kNumClasses := fun c hc => List.mem_range.mp hc
  obtain ⟨s₁, L', hfold, -, -, hrel⟩ := trimFold_spec hcs t h
  rw [State.trimPass, if_pos hready, hfold] at ht
  cases ht
  refine hrel.congr fun a r hr => ⟨fun _ => trivial, fun _ => List.mem_range.mpr ?_⟩
  have hpos := (h.run a r hr).cls_pos
  have hle := (h.run a r hr).cls_le
  omega

end Memflux.Alloc
