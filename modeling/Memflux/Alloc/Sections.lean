import Memflux.Alloc.Pages

/-! # Critical sections

What the code does under one class lock, whoever runs it: the slow path of `malloc`,
which takes one block, `run_give` of an allocated block, and the purges of one class
of a trim pass. Each is described by the headers before and after.
-/

namespace Memflux.Alloc

open Spans BitWords DList

theorem Core.ensureInit {s : State} {L : Nat → List Nat} (h : Core s L) (os : Os) :
    Core (s.ensureInit os) L := by
  unfold State.ensureInit State.reserveInit
  split
  · exact h
  · dsimp only
    split
    · split
      · exact h.congr rfl rfl rfl rfl
      · exact h.congr rfl rfl rfl rfl
    · exact h.congr rfl rfl rfl rfl

theorem ensureInit_same (s : State) (os : Os) :
    (s.ensureInit os).runs = s.runs ∧ (s.ensureInit os).mem = s.mem ∧
      (s.ensureInit os).tcache = s.tcache := by
  unfold State.ensureInit State.reserveInit
  split
  · exact ⟨rfl, rfl, rfl⟩
  · dsimp only
    split
    · split <;> exact ⟨rfl, rfl, rfl⟩
    · exact ⟨rfl, rfl, rfl⟩

/-! ## The slow path of `malloc` -/

/-- The headers after one block was taken: that of the run `a`, which was `r` before or
is new, and those of the others. -/
structure Grants (s s' : State) (a : Nat) (r : Run) (i now : Nat) : Prop where
  run : s'.runs a = some (r.taken i now)
  ok : RunOk r
  free : r.findFree = some i
  before : s.runs a = some r ∨
    s.runs a = none ∧ r.used = 0 ∧ ∀ j, j < r.elems → bitAt r.bits j = true
  others : ∀ x, x ≠ a → (s'.runs x).map Run.body = (s.runs x).map Run.body

theorem Slow.grants {s s' : State} {L : Nat → List Nat} (h : Core s L) {os : Os} {c : Nat}
    {ans : Option Nat} (hs : Slow s os c ans s') :
    (ans = none ∧ s'.runs = s.runs) ∨
      ∃ a r i, ans = some (blockAddr a r i) ∧ r.cls = c + 1 ∧ Grants s s' a r i (os.now 1) := by
  cases hs with
  | failed => exact .inl ⟨rfl, rfl⟩
  | @taken a i r room run cls free =>
      refine .inr ⟨a, r, i, rfl, cls, put_same _ _ _, h.run a r run, free, .inl run, ?_⟩
      intro x hx
      exact congrArg _ (put_other _ _ hx)
  | @grown a al b runs l r full fresh links run ok cls free =>
      obtain ⟨q, hq, hbody⟩ := relinked_some links run
      rw [put_same, Option.some.injEq] at hq
      rw [← hq] at hbody
      have hnone := (h.no_header fresh (Nat.le_refl _) (Nat.lt_add_of_pos_right fresh.size_pos)).1
      have hused : r.used = 0 := congrArg Run.used hbody
      have hbits : r.bits = ones (elemsOf (c + 1 - 1)) := congrArg Run.bits hbody
      have helems : r.elems = elemsOf (c + 1 - 1) := congrArg Run.elems hbody
      refine .inr ⟨a, r, 0, rfl, cls, put_same _ _ _, ok, free, .inr ⟨hnone, hused, ?_⟩, ?_⟩
      · intro j hj
        rw [hbits, bitAt_ones]
        simpa [helems] using hj
      · intro x hx
        have hbody' := relinked_body links x
        rw [put_other _ _ hx] at hbody'
        exact (congrArg _ (put_other _ _ hx)).trans hbody'

theorem Slow.waits {s s' : State} {os : Os} {c : Nat} {ans : Option Nat} (hs : Slow s os c ans s') :
    s'.runIdleMs = s.runIdleMs ∧ s'.dirtyIdleMs = s.dirtyIdleMs := by
  cases hs <;> exact ⟨rfl, rfl⟩

/-- The slow path hands out addresses and moves no boundary of the reservation. -/
theorem Slow.reserve {s s' : State} {os : Os} {c : Nat} {ans : Option Nat}
    (hs : Slow s os c ans s') : s'.resStart = s.resStart ∧ s'.resEnd = s.resEnd := by
  cases hs <;> exact ⟨rfl, rfl⟩

theorem Slow.caches {s s' : State} {os : Os} {c : Nat} {ans : Option Nat}
    (hs : Slow s os c ans s') : s'.tcache = s.tcache := by
  cases hs <;> rfl

/-! ## The purges of one class -/

/-- Headers survive purges but for links and the time of the last touch, which becomes
the clock reading of the pass in those of the runs `V` that had been left alone long enough. -/
structure Restamps (s s' : State) (t : Nat) (V : Nat → Prop) : Prop where
  runs : ∀ x q, s'.runs x = some q → ∃ r, s.runs x = some r ∧ q.kept = r.kept ∧
    (q.lastTouchMs = r.lastTouchMs ∨
      q.lastTouchMs = t ∧ V x ∧ s.dirtyIdle r t = true ∧ s.runIdle r t = false)
  waits : s'.runIdleMs = s.runIdleMs ∧ s'.dirtyIdleMs = s.dirtyIdleMs

theorem touch_of_body {r r' : Run} (h : r'.body = r.body) : r'.lastTouchMs = r.lastTouchMs := by
  have htouch := congrArg Run.lastTouchMs h
  exact htouch

theorem Restamps.refl (s : State) (t : Nat) (V : Nat → Prop) : Restamps s s t V where
  runs _ q hq := ⟨q, hq, rfl, .inl rfl⟩
  waits := ⟨rfl, rfl⟩

/-- The idle tests read nothing that purges change in a header that keeps its stamp. -/
theorem Restamps.idle {s s' : State} {t : Nat} {V : Nat → Prop} (h : Restamps s s' t V) {r q : Run}
    (hk : q.kept = r.kept) :
    s'.runIdle q t = s.runIdle r t ∧
      (q.lastTouchMs = r.lastTouchMs → s'.dirtyIdle q t = s.dirtyIdle r t) := by
  constructor
  · rw [State.runIdle, State.runIdle, h.waits.1, kept_used hk, kept_fullyFree hk]
  · intro htouch
    rw [State.dirtyIdle, State.dirtyIdle, h.waits.2, htouch]

theorem Restamps.trans {s s₁ s' : State} {t : Nat} {V V' W : Nat → Prop}
    (h : Restamps s s₁ t V) (h' : Restamps s₁ s' t V') (hV : ∀ x, V x → W x)
    (hV' : ∀ x, V' x → W x) : Restamps s s' t W := by
  refine ⟨?_, h'.waits.1.trans h.waits.1, h'.waits.2.trans h.waits.2⟩
  intro x q hq
  obtain ⟨r₁, hr₁, hk₁, hstamp₁⟩ := h'.runs x q hq
  obtain ⟨r, hr, hk, hstamp⟩ := h.runs x r₁ hr₁
  refine ⟨r, hr, hk₁.trans hk, ?_⟩
  have hidle := h.idle hk
  cases hstamp with
  | inl hsame =>
      cases hstamp₁ with
      | inl hsame₁ => exact .inl (hsame₁.trans hsame)
      | inr hset₁ =>
          rw [hidle.1, hidle.2 hsame] at hset₁
          exact .inr ⟨hset₁.1, hV' x hset₁.2.1, hset₁.2.2⟩
  | inr hset =>
      cases hstamp₁ with
      | inl hsame₁ => exact .inr ⟨hsame₁.trans hset.1, hV x hset.2.1, hset.2.2⟩
      | inr hset₁ => exact .inr ⟨hset₁.1, hV x hset.2.1, hset.2.2⟩

theorem purgeRun_restamps {s s' : State} {a t : Nat} (hp : s.purgeRun a t = .ok s') :
    Restamps s s' t (· = a) := by
  have hcases := purgeRun_cases hp
  constructor
  · intro x q hq
    by_cases hx : x = a
    · rw [hx] at hq ⊢
      cases hcases with
      | @unmapped r runs head run idle unlinked =>
          obtain ⟨l, hrel⟩ := unlink_relinked unlinked
          obtain ⟨r', hr', hbody⟩ := relinked_some hrel (State.munmap_runs_some hq).2
          exact ⟨r', hr', kept_of_body hbody, .inl (touch_of_body hbody)⟩
      | @advised r run busy dirty mem n pages =>
          have hq : put s.runs a (some { r with lastTouchMs := t }) a = some q := hq
          rw [put_same, Option.some.injEq] at hq
          rw [← hq]
          exact ⟨r, run, rfl, .inr ⟨rfl, rfl, dirty, by simpa using busy⟩⟩
      | untouched run busy clean => exact ⟨q, hq, rfl, .inl rfl⟩
    · obtain ⟨r', hr', hbody⟩ := purgeRun_body hp hx hq
      exact ⟨r', hr', kept_of_body hbody, .inl (touch_of_body hbody)⟩
  · cases hcases with
    | unmapped run idle unlinked => exact ⟨rfl, rfl⟩
    | advised run busy dirty mem n pages => exact ⟨rfl, rfl⟩
    | untouched run busy clean => exact ⟨rfl, rfl⟩

/-- The walk over the rest `l` of a list; the induction is on `l`. -/
theorem purgeWalk_restamps {t c fuel : Nat} (hc : c < kNumClasses) {l : List Nat} {s s' : State}
    {L : Nat → List Nat} (h : Core s L) (l₀ : List Nat) (hL : L c = l₀ ++ l)
    (hfuel : l.length ≤ fuel) (hw : State.purgeWalk t fuel s (l.headD 0) = .ok s') :
    Restamps s s' t (· ∈ l) := by
  induction l generalizing s L l₀ fuel with
  | nil =>
      have hsame : s = s' := by
        cases fuel <;> exact Except.ok.inj hw
      rw [hsame]
      exact Restamps.refl s' t _
  | cons a l ih =>
      cases fuel with
      | zero => simp at hfuel
      | succ fuel =>
          obtain ⟨r, s₁, l₁, -, hp, hcore, -, -, hwalk⟩ := purgeWalk_step (t := t) hc h hL
          rw [List.headD_cons, hwalk] at hw
          apply (purgeRun_restamps hp).trans (ih hcore l₁ (put_same _ _ _) (by simpa using hfuel) hw)
          · intro x hx
            rw [hx]
            exact List.mem_cons_self
          · intro x hx
            exact List.mem_cons_of_mem a hx

theorem trimClass_restamps {s s' : State} {L : Nat → List Nat} (h : Core s L) {c t : Nat}
    (hc : c < kNumClasses) (ht : s.trimClass c t = .ok s') : Restamps s s' t (· ∈ L c) := by
  rw [State.trimClass, (h.lists.chain c hc).head_eq] at ht
  exact purgeWalk_restamps hc h [] rfl (h.length_le hc) ht

theorem trimClass_gone {s s' : State} {L : Nat → List Nat} (h : Core s L) {c t : Nat}
    (hc : c < kNumClasses) (ht : s.trimClass c t = .ok s') {a : Nat} {r : Run}
    (hr : s.runs a = some r) (hgone : s'.runs a = none) :
    r.cls - 1 = c ∧ s.runIdle r t = true := by
  obtain ⟨s₁, L', h₁, hcore, htrims, hrel⟩ := trimClass_spec h hc t
  rw [ht] at h₁
  cases h₁
  obtain ⟨g, hg, hbase, -⟩ := h.maps.ofRun a r hr
  have hunmapped : g ∉ s'.maps := by
    intro hg'
    rcases hcore.maps.owner g hg' with ⟨q, hq, -⟩ | ⟨l, hl, -⟩
    · rw [hbase, hgone] at hq
      cases hq
    · rw [htrims.larges, hbase] at hl
      rcases h.maps.owner g hg with ⟨-, -, hnone⟩ | ⟨-, -, hnone⟩
      · rw [hbase, hl] at hnone
        cases hnone
      · rw [hbase, hr] at hnone
        cases hnone
  by_contra hkept
  apply hunmapped
  refine (hrel g).mpr ⟨hg, ?_⟩
  intro q hq hcls
  rw [hbase, hr] at hq
  cases hq
  by_contra hidle
  exact hkept ⟨hcls, by simpa using hidle⟩

theorem trimClass_idle {s s' : State} {L : Nat → List Nat} (h : Core s L) {c t : Nat}
    (hc : c < kNumClasses) (ht : s.trimClass c t = .ok s') {a : Nat} {r : Run}
    (hr : s.runs a = some r) (hcls : r.cls = c + 1) (hidle : s.runIdle r t = true) :
    s'.runs a = none := by
  obtain ⟨s₁, L', h₁, hcore, -, hrel⟩ := trimClass_spec h hc t
  rw [ht] at h₁
  cases h₁
  cases hq : s'.runs a with
  | none => rfl
  | some q =>
      obtain ⟨g, hg, hbase, -⟩ := hcore.maps.ofRun a q hq
      have hkept := ((hrel g).mp hg).2 r (by rw [hbase, hr]) (by omega)
      rw [hidle] at hkept
      cases hkept

/-- A page given back by a class pass lies in a run of the class that is not idle but was
left alone long enough. -/
theorem mem_classAdvice_run {s : State} {L : Nat → List Nat} (h : Core s L) {c t page : Nat}
    (hc : c < kNumClasses) (hpage : page ∈ s.classAdvice c t) :
    ∃ a r off, s.runs a = some r ∧ r.cls = c + 1 ∧ page = runData a r + off ∧
      off ∈ r.purgeOffsets ∧ s.runIdle r t = false ∧ s.dirtyIdle r t = true := by
  rw [classAdvice_eq h hc] at hpage
  obtain ⟨a, ha, hin⟩ := List.mem_flatMap.mp hpage
  obtain ⟨r, hr, hcls⟩ := h.lists.own c hc a ha
  rw [adviceAt_run hr] at hin
  unfold State.advised at hin
  split at hin
  · cases hin
  · rename_i hidle
    split at hin
    · rename_i hdirty
      obtain ⟨off, hoff, heq⟩ := List.mem_map.mp hin
      exact ⟨a, r, off, hr, hcls, heq.symm, hoff, by simpa using hidle, hdirty⟩
    · cases hin

end Memflux.Alloc
