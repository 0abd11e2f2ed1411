import Memflux.Alloc.World

/-! # Failed allocations

A call fails because a mapping request is refused (`mallocReady_failed`), and a
refused request still moved the bump pointer. What follows is the exact condition
under which a failing call leaves the allocator as it was, in any history, with
any pointers and sizes.
-/

namespace Memflux.Alloc

open Spans BitWords DList

/-! ## What every history keeps -/

/-- Holds of every state, whatever the clients ask for. -/
structure Booted (s : State) : Prop where
  unready : s.ready = false → s.resStart = 0
  closed : s.resStart = 0 → s.resEnd = 0
  bump : s.resBump < 2 ^ 64

theorem init_booted (runIdle dirtyIdle : Nat) : Booted (State.init runIdle dirtyIdle) :=
  ⟨fun _ => rfl, fun _ => rfl, Nat.two_pow_pos 64⟩

/-- The reservation stays where it is. -/
structure Settled (s s' : State) : Prop where
  ready : s'.ready = s.ready
  start : s'.resStart = s.resStart
  stop : s'.resEnd = s.resEnd
  bump : s.resBump < 2 ^ 64 → s'.resBump < 2 ^ 64

theorem Settled.refl (s : State) : Settled s s := ⟨rfl, rfl, rfl, id⟩

theorem Settled.trans {s₁ s₂ s₃ : State} (h : Settled s₁ s₂) (h' : Settled s₂ s₃) :
    Settled s₁ s₃ :=
  ⟨h'.ready.trans h.ready, h'.start.trans h.start, h'.stop.trans h.stop, h'.bump ∘ h.bump⟩

theorem SameLayout.settled {s s' : State} (h : SameLayout s s') : Settled s s' :=
  ⟨h.ready, h.start, h.stop, fun hb => h.bump ▸ hb⟩

theorem Booted.settled {s s' : State} (h : Booted s) (hs : Settled s s') : Booted s' :=
  ⟨fun hr => hs.start.trans (h.unready (hs.ready ▸ hr)),
    fun h0 => hs.stop.trans (h.closed (hs.start ▸ h0)), hs.bump h.bump⟩

theorem Booted.ensureInit {s : State} (h : Booted s) {os : Os} (hos : os.Sane) :
    Booted (s.ensureInit os) := by
  by_cases hr : s.ready = true
  · rw [State.ensureInit, if_pos hr]
    exact h
  · have h0 := h.unready (by simpa using hr)
    rw [ensureInit_unready hr h0]
    cases hp : os.reserve with
    | none => exact ⟨fun hf => absurd hf (by simp), h.closed, h.bump⟩
    | some p =>
        obtain ⟨hpos, -, hfit⟩ := hos p hp
        have hsize : kReserveSize = 2 ^ 40 := rfl
        exact ⟨fun hf => absurd hf (by simp), fun he => absurd he (by dsimp only; omega),
          by dsimp only; omega⟩

theorem mapRegion_settled {s s' : State} {os : Os} {size align : Nat} {ans : Option Nat}
    (hm : s.mapRegion os size align = (ans, s')) : Settled s s' := by
  have hwrap : ∀ x, wrap64 x < 2 ^ 64 := fun x => Nat.mod_lt x (Nat.two_pow_pos 64)
  unfold State.mapRegion at hm
  split at hm
  · unfold State.reserveMap at hm
    dsimp only at hm
    split at hm
    · cases hm
      exact ⟨rfl, rfl, rfl, fun _ => hwrap _⟩
    · split at hm
      · cases hm
        exact ⟨rfl, rfl, rfl, fun _ => hwrap _⟩
      · cases hm
        exact ⟨rfl, rfl, rfl, fun _ => hwrap _⟩
  · split at hm
    · cases hm
      exact Settled.refl _
    · cases hm
      exact ⟨rfl, rfl, rfl, id⟩

theorem runNew_settled {s s' : State} {os : Os} {c : Nat} {ans : Option Nat}
    (hn : Renewed s os c ans s') : Settled s s' := by
  cases hn with
  | refused region => exact mapRegion_settled region
  | mapped region insert =>
      have hset := mapRegion_settled region
      have hins := (runInsert_layout insert).settled
      exact ⟨hins.ready.trans hset.ready, hins.start.trans hset.start, hins.stop.trans hset.stop,
        fun hb => hins.bump (hset.bump hb)⟩

theorem mallocReady_settled {s s' : State} {t : Tid} {os : Os} {n : Nat} {ans : Option Nat}
    (hm : s.mallocReady t os n = .ok (ans, s')) : Settled s s' := by
  have hcases := malloc_cases hm
  cases hcases with
  | refused request region => exact mapRegion_settled region
  | large request region =>
      have hset := mapRegion_settled region
      exact ⟨hset.ready, hset.start, hset.stop, hset.bump⟩
  | cached request pop => exact (tcachePop_layout pop).settled
  | taken request take => exact (runTake_layout take).settled
  | grown small request fresh take => exact (runNew_settled fresh).trans (runTake_layout take).settled

theorem Booted.malloc {s s' : State} (h : Booted s) {t : Tid} {os : Os} (hos : os.Sane) {n : Nat}
    {ans : Option Nat} (hm : s.malloc t os n = .ok (ans, s')) : Booted s' :=
  (h.ensureInit hos).settled (mallocReady_settled hm)

theorem free_flags {s s' : State} {t : Tid} {now : Nat → Nat} {p : Nat} {r : Freed}
    (hf : s.free t now p = .ok (r, s')) :
    s'.tkeyOk = s.tkeyOk ∧ s'.resBump = s.resBump ∧ Settled s s' := by
  have hcases := release_cases hf
  cases hcases with
  | null ptr => exact ⟨rfl, rfl, Settled.refl s⟩
  | libc foreign => exact ⟨rfl, rfl, Settled.refl s⟩
  | ignored => exact ⟨rfl, rfl, Settled.refl s⟩
  | cached own run push =>
      have hlay := tcachePush_layout push
      obtain ⟨tc, -, -, rfl⟩ := tcachePush_some push
      exact ⟨rfl, hlay.bump, hlay.settled⟩
  | small own run full give =>
      have hlay := runGive_layout give
      refine ⟨?_, hlay.bump, hlay.settled⟩
      obtain ⟨q, -, hg⟩ := bind_ok give
      cases hg
      rfl
  | large call =>
      obtain ⟨l, n, -, rfl⟩ := freeLarge_ok call
      exact ⟨rfl, rfl, rfl, rfl, rfl, id⟩

theorem purgeRun_settled {s s' : State} {a t : Nat} (hp : s.purgeRun a t = .ok s') :
    Settled s s' := by
  have hcases := purgeRun_cases hp
  cases hcases with
  | unmapped run idle unlinked => exact ⟨rfl, rfl, rfl, id⟩
  | advised run busy dirty mem n pages => exact ⟨rfl, rfl, rfl, id⟩
  | untouched run busy clean => exact Settled.refl _

theorem trimPass_settled {s s' : State} {t : Nat} (hp : s.trimPass t = .ok s') : Settled s s' := by
  have hstep : ∀ s₁ a s₂, Settled s s₁ → s₁.purgeRun a t = .ok s₂ → Settled s s₂ :=
    fun _ _ _ h hp => h.trans (purgeRun_settled hp)
  exact trimPass_keeps hstep (Settled.refl s) hp

theorem Booted.realloc {s s' : State} (h : Booted s) {t : Tid} {os : Os} (hos : os.Sane) {p n : Nat}
    {r : Reply} (hm : s.realloc t os p n = .ok (r, s')) : Booted s' := by
  have hcases := realloc_cases hm
  cases hcases with
  | fresh null call => exact h.malloc hos call
  | emptied ptr zero release call =>
      have hos' : (os.after 2).Sane := hos
      exact (h.settled (free_flags release).2.2).malloc hos' call
  | forwarded ptr size foreign => exact h
  | inPlace ptr size own fits => exact h
  | refused ptr size own moves call => exact h.malloc hos call
  | moved ptr size own moves call copy release =>
      exact ((h.malloc hos call).settled (memcpy_layout copy).settled).settled (free_flags release).2.2

theorem Booted.exec {s s' : State} (h : Booted s) {t : Tid} {os : Os} (hos : os.Sane) {op : Op}
    {ans : Option Nat} (he : s.exec t os op = .ok (ans, s')) : Booted s' := by
  cases op with
  | malloc n => exact h.malloc hos he
  | calloc nm sz =>
      have hcases := calloc_cases he
      cases hcases with
      | overflow big => exact h
      | refused size call => exact h.malloc hos call
      | zeroed size call mapped => exact (h.malloc hos call).settled (fill_layout _ _ _ _).settled
  | realloc p n =>
      obtain ⟨⟨r, s₁⟩, h₁, he⟩ := bind_ok he
      cases he
      exact h.realloc hos h₁
  | posixMemalign outNull align n =>
      obtain ⟨⟨r, s₁⟩, h₁, he⟩ := bind_ok he
      have hcases := posixMemalign_cases h₁
      cases hcases with
      | invalid bad =>
          cases he
          exact h
      | refused out ok call =>
          cases he
          exact h.malloc hos call
      | aligned out ok call =>
          cases he
          exact h.malloc hos call
  | free p =>
      obtain ⟨⟨r, s₁⟩, h₁, he⟩ := bind_ok he
      cases he
      exact h.settled (free_flags h₁).2.2
  | trim clock =>
      obtain ⟨s₁, h₁, he⟩ := bind_ok he
      cases he
      exact h.settled (trimPass_settled h₁)
  | write mem =>
      cases he
      exact h.settled ⟨rfl, rfl, rfl, id⟩

theorem Booted.reaches {s s' : State} (h : Booted s)
    (hr : State.Reaches (fun _ _ os _ => os.Sane) s s') : Booted s' := by
  induction hr with
  | refl => exact h
  | step t os op ans _ hos he ih => exact ih.exec hos he

/-! ## How `malloc` fails -/

theorem runTake_fresh {s s' : State} {c now now' a : Nat} (hc : c < kNumClasses)
    {r : Run} (hr : s.runs a = some r) (hb : r.body = (State.freshRun (c + 1) now).body) :
    s.runTake a now' ≠ .ok (none, s') := by
  have hfresh : RunOk (State.freshRun (c + 1) now) := freshRun_ok hc
  have hok : RunOk r := hfresh.of_body hb
  have hused : r.used = 0 := by
    show r.body.used = 0
    rw [hb]
    rfl
  have hpos := hok.geometry.elems_pos
  rw [← hok.elems] at hpos
  obtain ⟨i, hi⟩ := findFree_isSome hok (by omega)
  intro h
  obtain ⟨q, hq, h⟩ := bind_ok h
  have hq := run_ok hq
  rw [hr] at hq
  cases hq
  simp only [hi] at h
  cases h

/-- If `run_new` gets a mapping, wherever it is, the header in it is fresh. -/
theorem runNew_fresh {s s' : State} {os : Os} {c a : Nat} (h : Renewed s os c (some a) s') :
    ∃ r, s'.runs a = some r ∧ r.body = (State.freshRun (c + 1) (os.now 0)).body := by
  cases h with
  | mapped region insert =>
      unfold State.runInsert at insert
      split at insert
      · cases insert
      · rename_i runs hl
        cases insert
        obtain ⟨l, hrel⟩ := link_relinked hl
        exact relinked_some' hrel (put_same _ _ _)

theorem runTake_none {s s' : State} {a now : Nat} (h : s.runTake a now = .ok (none, s')) : s' = s := by
  obtain ⟨r, -, h⟩ := bind_ok h
  split at h
  · cases h
    rfl
  · cases h

/-- A failing `malloc` was refused a mapping, or asked for none and changed nothing. -/
theorem mallocReady_failed {s s' : State} {t : Tid} {os : Os} {n : Nat}
    (hm : s.mallocReady t os n = .ok (none, s')) :
    (s.asks t n = none ∧ s' = s) ∨
      ∃ size align, s.asks t n = some (size, align) ∧ s.mapRegion os size align = (none, s') := by
  have hcases := malloc_cases hm
  cases hcases with
  | refused request region => exact .inr ⟨_, _, request, region⟩
  | taken request take => exact .inl ⟨request, runTake_none take⟩
  | grown small request fresh take =>
      obtain ⟨r, hr, hbody⟩ := runNew_fresh fresh
      exact absurd take (runTake_fresh (classOf_lt small).1 hr hbody)

theorem mapRegion_refused {s s' : State} {os : Os} {size align : Nat}
    (hm : s.mapRegion os size align = (none, s')) :
    s' = { s with
      resBump := if s.resStart = 0 then s.resBump
        else wrap64 (s.resBump + wrap64 (size + align)) } := by
  unfold State.mapRegion at hm
  split at hm
  · rename_i h0
    rw [if_neg h0]
    unfold State.reserveMap at hm
    dsimp only at hm
    split at hm
    · cases hm
      rfl
    · split at hm
      · cases hm
      · cases hm
        rfl
  · rename_i h0
    rw [if_pos (by simpa using h0)]
    split at hm
    · cases hm
      rfl
    · cases hm

/-! ## What is left intact -/

/-- Everything but the initialisation flags is as before. -/
def Intact (s s' : State) : Prop := { s' with ready := s.ready, tkeyOk := s.tkeyOk } = s

/-- Every call that would have returned a pointer before returns it now, given the
same answers of the kernel. -/
def StillServes (s s' : State) (os : Os) : Prop :=
  ∀ t' os' op q s₁, os'.reserve = os.reserve → os'.keyOk = os.keyOk →
    s.exec t' os' op = .ok (some q, s₁) → ∃ s₂, s'.exec t' os' op = .ok (some q, s₂)

/-- A refused `malloc(n)` does not move the bump pointer: this call makes no
reservation, and it asks the reservation for nothing, or for a length that adds up
to `2 ^ 64` with the alignment. -/
def KeepsBump (s : State) (t : Tid) (os : Os) (n : Nat) : Prop :=
  (s.ready = true ∨ os.reserve = none) ∧
    ∀ size align, (s.ensureInit os).asks t (bytesAsked n) = some (size, align) →
      s.resStart = 0 ∨ wrap64 (size + align) = 0

/-- The condition for each of the calls. -/
def Untouched (s : State) (t : Tid) (os : Os) : Op → Prop
  | .malloc n => KeepsBump s t os n
  | .calloc nm sz => 2 ^ 64 ≤ nm * sz ∨ KeepsBump s t os (nm * sz)
  | .realloc p n =>
      if p = 0 then KeepsBump s t os n
      else if n = 0 then (∃ r, s.free t os.now p = .ok (r, s)) ∧ KeepsBump s t os 1
      else s.forwards p = true ∨ KeepsBump s t os n
  | .posixMemalign outNull align n =>
      outNull = true ∨ State.memalignAlign align = none ∨
        ∃ a, State.memalignAlign align = some a ∧ KeepsBump s t os (State.memalignNeed a n)
  | _ => True

def Op.Fallible : Op → Prop
  | .malloc _ | .calloc _ _ | .realloc _ _ | .posixMemalign _ _ _ => True
  | _ => False

theorem Intact.of_bump {s s' : State} {b : Nat} (h : s' = { s with resBump := b }) :
    Intact s s' ↔ b = s.resBump := by
  subst h
  constructor
  · intro h
    exact congrArg State.resBump h
  · rintro rfl
    rfl

theorem wrap64_add_eq {b x : Nat} (hb : b < 2 ^ 64) (hx : x < 2 ^ 64) :
    wrap64 (b + x) = b ↔ x = 0 := by
  unfold wrap64
  omega

/-- With the allocator ready, a failing `malloc` changes at most the bump pointer. -/
theorem malloc_failed_ready {s s' : State} {t : Tid} {os : Os} {n : Nat} (hready : s.ready = true)
    (hm : s.malloc t os n = .ok (none, s')) : ∃ b, s' = { s with resBump := b } := by
  have hm : (s.ensureInit os).mallocReady t os (bytesAsked n) = .ok (none, s') := hm
  rw [ensureInit_of_ready hready] at hm
  rcases mallocReady_failed hm with ⟨-, rfl⟩ | ⟨size, align, -, hreg⟩
  · exact ⟨s'.resBump, rfl⟩
  · exact ⟨_, mapRegion_refused hreg⟩

/-- Before the reservation could be made, it changes nothing but the flags. -/
theorem malloc_failed_unready {s s' : State} {t : Tid} {os : Os} {n : Nat} (hr : ¬ s.ready = true)
    (h0 : s.resStart = 0) (hres : os.reserve = none) (hm : s.malloc t os n = .ok (none, s')) :
    s' = s.ensureInit os := by
  have hm : (s.ensureInit os).mallocReady t os (bytesAsked n) = .ok (none, s') := hm
  have hinit := ensureInit_unready hr h0 os
  rw [hres] at hinit
  rcases mallocReady_failed hm with ⟨-, he⟩ | ⟨size, align, -, hreg⟩
  · exact he
  · have he := mapRegion_refused hreg
    rw [hinit] at he ⊢
    rw [he]
    simp only [h0, if_true]

/-- A failing `malloc` leaves the allocator intact exactly when its request does
not move the bump pointer. -/
theorem Booted.malloc_intact {s s' : State} (h : Booted s) {t : Tid} {os : Os} (hos : os.Sane)
    {n : Nat} (hm : s.malloc t os n = .ok (none, s')) : Intact s s' ↔ KeepsBump s t os n := by
  have hm : (s.ensureInit os).mallocReady t os (bytesAsked n) = .ok (none, s') := hm
  have hfail := mallocReady_failed hm
  unfold KeepsBump
  by_cases hready : s.ready = true
  · rw [ensureInit_of_ready hready] at hfail ⊢
    rcases hfail with ⟨hask, rfl⟩ | ⟨size, align, hask, hreg⟩
    · exact ⟨fun _ => ⟨.inl hready, fun _ _ ha => by rw [hask] at ha; cases ha⟩, fun _ => rfl⟩
    · rw [Intact.of_bump (mapRegion_refused hreg)]
      have hsum : wrap64 (size + align) < 2 ^ 64 := Nat.mod_lt _ (Nat.two_pow_pos 64)
      have hiff : (if s.resStart = 0 then s.resBump
          else wrap64 (s.resBump + wrap64 (size + align))) = s.resBump ↔
          s.resStart = 0 ∨ wrap64 (size + align) = 0 := by
        by_cases h0 : s.resStart = 0
        · simp [h0]
        · rw [if_neg h0, wrap64_add_eq h.bump hsum]
          simp [h0]
      rw [hiff]
      constructor
      · intro hk
        refine ⟨.inl hready, fun size' align' ha => ?_⟩
        rw [hask] at ha
        cases ha
        exact hk
      · exact fun hk => hk.2 size align hask
  · have h0 := h.unready (by simpa using hready)
    have hinit := ensureInit_unready hready h0 os
    cases hres : os.reserve with
    | none =>
        rw [hres] at hinit
        have hs' := malloc_failed_unready hready h0 hres hm
        rw [hinit] at hs'
        subst hs'
        exact ⟨fun _ => ⟨.inr rfl, fun _ _ _ => .inl h0⟩, fun _ => rfl⟩
    | some p =>
        have hp := (hos p hres).1
        rw [hres] at hinit
        have hstart : s'.resStart = p := by
          rw [(mallocReady_settled hm).start, hinit]
        constructor
        · intro hi
          have hsame : s'.resStart = s.resStart := by
            have hi := congrArg State.resStart hi
            exact hi
          omega
        · rintro ⟨hr | hr, -⟩
          · exact absurd hr hready
          · cases hr

/-- If it does, the state is the one before, or the one the call initialised. -/
theorem Booted.malloc_kept {s s' : State} (h : Booted s) {t : Tid} {os : Os} (hos : os.Sane) {n : Nat}
    (hm : s.malloc t os n = .ok (none, s')) (hi : Intact s s') :
    s' = s ∨ s.ready = false ∧ os.reserve = none ∧ s' = s.ensureInit os := by
  by_cases hready : s.ready = true
  · obtain ⟨b, rfl⟩ := malloc_failed_ready hready hm
    obtain rfl : b = s.resBump := congrArg State.resBump hi
    exact .inl rfl
  · have hres := ((h.malloc_intact hos hm).mp hi).1.resolve_left hready
    have hr : s.ready = false := by simpa using hready
    exact .inr ⟨hr, hres, malloc_failed_unready hready (h.unready hr) hres hm⟩

theorem Booted.foreign {s : State} (h : Booted s) (h0 : s.resStart = 0) (p : Nat) :
    s.inReserve p = false := by
  have h1 := h.closed h0
  simp [State.inReserve, h0, h1]

theorem Booted.free_foreign {s : State} (h : Booted s) (h0 : s.resStart = 0) {p : Nat} (hp : p ≠ 0)
    (t : Tid) (now : Nat → Nat) : s.free t now p = .ok (.ignored, s) := by
  simp [State.free, hp, h0, h.foreign h0]

theorem Booted.oldSize_foreign {s : State} (h0 : s.resStart = 0) (p : Nat) :
    s.oldSize p = .ok none := by
  simp [State.oldSize, h0]

theorem Booted.emptied_intact {s s₁ s' : State} (h : Booted s) {t : Tid} {os : Os} (hos : os.Sane)
    {p : Nat} (hp : p ≠ 0) {f : Freed} (release : s.free t os.now p = .ok (f, s₁))
    (call : s₁.malloc t (os.after 2) 1 = .ok (none, s')) :
    Intact s s' ↔ (∃ r, s.free t os.now p = .ok (r, s)) ∧ KeepsBump s t os 1 := by
  have hos' : (os.after 2).Sane := hos
  obtain ⟨hkey, hbump, hset⟩ := free_flags release
  have hiff := (h.settled hset).malloc_intact hos' call
  constructor
  · intro hi
    have hsame : s₁ = s := by
      by_cases hready : s.ready = true
      · obtain ⟨b, rfl⟩ := malloc_failed_ready (hset.ready.trans hready) call
        have hb : b = s.resBump := congrArg State.resBump hi
        rw [hb, ← hbump] at hi
        have hs₁ : { s₁ with ready := s.ready, tkeyOk := s.tkeyOk } = s := hi
        rw [← hset.ready, ← hkey] at hs₁
        exact hs₁
      · rw [h.free_foreign (h.unready (by simpa using hready)) hp] at release
        cases release
        rfl
    subst hsame
    exact ⟨⟨f, release⟩, hiff.mp hi⟩
  · rintro ⟨⟨r, hr⟩, hk⟩
    rw [release] at hr
    cases hr
    exact hiff.mpr hk

/-- A failing call changes nothing by itself: it fails outright, or its `malloc`
fails, the old block of a `realloc(p, 0)` being freed first. -/
theorem failed_cases {s s' : State} {t : Tid} {os : Os} {op : Op} (hop : op.Fallible)
    (he : s.exec t os op = .ok (none, s')) :
    (s' = s ∧ Untouched s t os op) ∨
      (∃ n, s.malloc t os n = .ok (none, s') ∧ (Untouched s t os op ↔ KeepsBump s t os n)) ∨
      ∃ p f s₁, p ≠ 0 ∧ s.free t os.now p = .ok (f, s₁) ∧
        s₁.malloc t (os.after 2) 1 = .ok (none, s') ∧
        (Untouched s t os op ↔ (∃ r, s.free t os.now p = .ok (r, s)) ∧ KeepsBump s t os 1) := by
  cases op with
  | malloc n => exact .inr (.inl ⟨n, he, Iff.rfl⟩)
  | calloc nm sz =>
      generalize hans : (none : Option Nat) = ans at he
      have hcases := calloc_cases he
      cases hcases with
      | overflow big => exact .inl ⟨rfl, .inl big⟩
      | refused size call =>
          exact .inr (.inl ⟨_, call, fun hk => hk.resolve_left (Nat.not_le.mpr size), .inr⟩)
      | zeroed size call mapped => cases hans
  | realloc p n =>
      obtain ⟨⟨r, s₁⟩, h₁, he⟩ := bind_ok he
      have hcases := realloc_cases h₁
      unfold Untouched
      dsimp only
      cases hcases with
      | fresh null call =>
          cases he
          rw [if_pos null]
          exact .inr (.inl ⟨n, call, Iff.rfl⟩)
      | emptied ptr zero release call =>
          cases he
          rw [if_neg ptr, if_pos zero]
          exact .inr (.inr ⟨p, _, _, ptr, release, call, Iff.rfl⟩)
      | forwarded ptr size foreign =>
          obtain rfl : s = s' := congrArg Prod.snd (Except.ok.inj he)
          rw [if_neg ptr, if_neg size]
          exact .inl ⟨rfl, .inl (by simp [State.forwards, foreign])⟩
      | inPlace ptr size own fits => cases he
      | refused ptr size own moves call =>
          cases he
          rw [if_neg ptr, if_neg size]
          have hf : s.forwards p ≠ true := by simp [State.forwards, own]
          exact .inr (.inl ⟨n, call, fun hk => hk.resolve_left hf, .inr⟩)
      | moved ptr size own moves call copy release => cases he
  | posixMemalign outNull align n =>
      obtain ⟨⟨r, s₁⟩, h₁, he⟩ := bind_ok he
      have hcases := posixMemalign_cases h₁
      cases hcases with
      | invalid bad =>
          cases he
          exact .inl ⟨rfl, bad.imp id .inl⟩
      | @refused a s' out ok call =>
          cases he
          refine .inr (.inl ⟨_, call, ?_, fun hk => .inr (.inr ⟨a, ok, hk⟩)⟩)
          rintro (hk | hk | ⟨b, hb, hk⟩)
          · rw [out] at hk
            cases hk
          · rw [ok] at hk
            cases hk
          · rw [ok] at hb
            cases hb
            exact hk
      | aligned out ok call => cases he
  | free p => exact hop.elim
  | trim clock => exact hop.elim
  | write mem => exact hop.elim

/-- The exact condition under which a failing call leaves the allocator intact. -/
theorem Booted.intact_iff {s s' : State} (h : Booted s) {t : Tid} {os : Os} (hos : os.Sane) {op : Op}
    (hop : op.Fallible) (he : s.exec t os op = .ok (none, s')) :
    Intact s s' ↔ Untouched s t os op := by
  rcases failed_cases hop he with ⟨rfl, hu⟩ | ⟨n, call, hu⟩ | ⟨p, f, s₁, ptr, release, call, hu⟩
  · exact ⟨fun _ => hu, fun _ => rfl⟩
  · exact (h.malloc_intact hos call).trans hu.symm
  · exact (h.emptied_intact hos ptr release call).trans hu.symm

/-- An intact state is the one before the call, or the one that the call initialised. -/
theorem Booted.intact_cases {s s' : State} (h : Booted s) {t : Tid} {os : Os} (hos : os.Sane)
    {op : Op} (hop : op.Fallible) (he : s.exec t os op = .ok (none, s')) (hi : Intact s s') :
    s' = s ∨ s.ready = false ∧ os.reserve = none ∧ s' = s.ensureInit os := by
  rcases failed_cases hop he with ⟨rfl, -⟩ | ⟨n, call, -⟩ | ⟨p, f, s₁, ptr, release, call, -⟩
  · exact .inl rfl
  · exact h.malloc_kept hos call hi
  · obtain ⟨⟨r, hr⟩, -⟩ := (h.emptied_intact hos ptr release call).mp hi
    rw [release] at hr
    cases hr
    have hos' : (os.after 2).Sane := hos
    have hkept := h.malloc_kept hos' call hi
    exact hkept

/-! ## What is still served -/

/-- Initialising without a reservation, before or during the next call. -/
theorem ensureInit_again {s : State} (hr : s.ready = false) (h0 : s.resStart = 0) {os os' : Os}
    (hres : os.reserve = none) (hsame : os'.reserve = os.reserve) (hkey : os'.keyOk = os.keyOk) :
    (s.ensureInit os).ensureInit os' = s.ensureInit os' := by
  have hr : ¬ s.ready = true := by simp [hr]
  rw [ensureInit_of_ready (ensureInit_ready s os), ensureInit_unready hr h0,
    ensureInit_unready hr h0, hsame, hkey, hres]

/-- A call that failed to make a reservation costs the later ones nothing. -/
theorem Booted.serves_ensureInit {s : State} (h : Booted s) (hr : s.ready = false) {os : Os}
    (hres : os.reserve = none) : StillServes s (s.ensureInit os) os := by
  intro t' os' op q s₁ hsame hkey he
  have h0 := h.unready hr
  have hmalloc : ∀ n t'' os'', os''.reserve = os'.reserve → os''.keyOk = os'.keyOk →
      (s.ensureInit os).malloc t'' os'' n = s.malloc t'' os'' n := by
    intro n t'' os'' h₁ h₂
    simp only [State.malloc, ensureInit_again hr h0 hres (h₁.trans hsame) (h₂.trans hkey)]
  have hm := fun n => hmalloc n t' os' rfl rfl
  have hstart : (s.ensureInit os).resStart = 0 := by
    rw [ensureInit_unready (by simp [hr]) h0, hres]
    exact h0
  have hboot : Booted (s.ensureInit os) := h.ensureInit fun p hp => by rw [hres] at hp; cases hp
  cases op with
  | malloc n => exact ⟨s₁, (hm n).trans he⟩
  | calloc nm sz =>
      by_cases hov : 2 ^ 64 ≤ nm * sz
      · have he : s.calloc t' os' nm sz = .ok (some q, s₁) := he
        rw [State.calloc, if_pos hov] at he
        cases he
      · refine ⟨s₁, Eq.trans ?_ he⟩
        simp only [State.exec, State.calloc, hov, if_false, hm]
  | realloc p n =>
      by_cases hp : p = 0
      · refine ⟨s₁, Eq.trans ?_ he⟩
        simp only [State.exec, State.realloc, hp, if_true, hm]
      · by_cases hn : n = 0
        · refine ⟨s₁, Eq.trans ?_ he⟩
          simp only [State.exec, State.realloc, hp, hn, if_true, if_false, h.free_foreign h0 hp,
            hboot.free_foreign hstart hp]
          simp only [bind, Except.bind, hmalloc 1 t' (os'.after 2) rfl rfl]
        · simp only [State.exec, State.realloc, hp, hn, if_false, Booted.oldSize_foreign h0,
            Booted.oldSize_foreign hstart] at he ⊢
          have hq : os'.libc = some q := congrArg Prod.fst (Except.ok.inj he)
          exact ⟨_, congrArg (fun x => Except.ok (x, s.ensureInit os)) hq⟩
  | posixMemalign outNull align n =>
      cases outNull with
      | true => cases he
      | false =>
          cases ha : State.memalignAlign align with
          | none =>
              simp only [State.exec, State.posixMemalign, ha] at he
              cases he
          | some a =>
              refine ⟨s₁, Eq.trans ?_ he⟩
              simp only [State.exec, State.posixMemalign, Bool.false_eq_true, if_false, ha, hm]
  | free p =>
      obtain ⟨⟨r, s₂⟩, -, he⟩ := bind_ok he
      cases he
  | trim clock =>
      obtain ⟨s₂, -, he⟩ := bind_ok he
      cases he
  | write mem => cases he

/-- In every history, a failing call leaves the allocator intact, so that every
request served before is still served, exactly when its own request does not move
the bump pointer. -/
theorem failure_intact {runIdle dirtyIdle : Nat} {s s' : State}
    (h : State.Reaches (fun _ _ os _ => os.Sane) (State.init runIdle dirtyIdle) s) {t : Tid} {os : Os}
    (hos : os.Sane) {op : Op} (hop : op.Fallible) (he : s.exec t os op = .ok (none, s')) :
    (Intact s s' ∧ StillServes s s' os) ↔ Untouched s t os op := by
  have hboot := (init_booted runIdle dirtyIdle).reaches h
  have hiff := hboot.intact_iff hos hop he
  refine ⟨fun hi => hiff.mp hi.1, fun hu => ?_⟩
  have hi := hiff.mpr hu
  refine ⟨hi, ?_⟩
  rcases hboot.intact_cases hos hop he hi with rfl | ⟨hr, hres, rfl⟩
  · exact fun _ _ _ _ s₁ _ _ he => ⟨s₁, he⟩
  · exact hboot.serves_ensureInit hr hres

/-- A small and a large block are allocated, and a request whose length and alignment add
up to `2 ^ 64` is refused: the next request still gets its block. -/
theorem failure_intact_held :
    ∃ s s', State.Reaches (fun _ _ os _ => os.Sane) (State.init 0 0) s ∧
      (s.cls 0).liveBlocks = 1 ∧ (s.larges 1076375552).isSome = true ∧
      s.exec 0 (Os.granting (2 ^ 30) 1) (.malloc (2 ^ 64 - 4120)) = .ok (none, s') ∧
      Intact s s' ∧ StillServes s s' (Os.granting (2 ^ 30) 1) ∧
      ∃ s₂, s'.exec 0 (Os.granting (2 ^ 30) 1) (.malloc 100) = .ok (some 1080037376, s₂) := by
  let os := Os.granting (2 ^ 30) 1
  have hplay : ∃ s, State.Reaches (fun _ _ os _ => os.Sane) (State.init 0 0) s ∧
      (s.ready && decide ((s.cls 0).liveBlocks = 1) && (s.larges 1076375552).isSome &&
        (s.exec 0 os (.malloc (2 ^ 64 - 4120))).toOption.any (fun x => x.1.isNone) &&
        (s.exec 0 os (.malloc 100)).toOption.any fun x => decide (x.1 = some 1080037376)) = true := by
    refine State.Reaches.refl.play (l := [(0, os, .malloc 8), (0, os, .malloc 3145728)]) ?_ ?_
    · intro e he _
      rcases List.mem_pair.mp he with rfl | rfl <;> exact granting_sane 1
    · decide +kernel
  obtain ⟨s, hreach, htest⟩ := hplay
  simp only [Bool.and_eq_true, decide_eq_true_eq] at htest
  obtain ⟨⟨⟨⟨hready, hlive⟩, hlarge⟩, hrefused⟩, hserved⟩ := htest
  obtain ⟨⟨ans, s'⟩, he, hans⟩ := World.ok_of_any hrefused
  obtain rfl : ans = none := Option.isNone_iff_eq_none.mp hans
  obtain ⟨⟨ans, s₁⟩, hnext, hans⟩ := World.ok_of_any hserved
  obtain rfl : ans = some 1080037376 := of_decide_eq_true hans
  -- the length that is asked for is `2 ^ 64 - 4096`
  have hkeeps : Untouched s 0 os (.malloc (2 ^ 64 - 4120)) := by
    refine ⟨.inl hready, fun size align hasks => .inr ?_⟩
    have hwhole : (s.ensureInit os).asks 0 (bytesAsked (2 ^ 64 - 4120)) =
        some (2 ^ 64 - 4096, 4096) := if_pos (by decide)
    obtain ⟨rfl, rfl⟩ := Prod.mk.inj (Option.some.inj (hwhole.symm.trans hasks))
    decide
  have hop : (Op.malloc (2 ^ 64 - 4120)).Fallible := trivial
  obtain ⟨hintact, hserves⟩ := (failure_intact hreach (granting_sane 1) hop he).mpr hkeeps
  exact ⟨s, s', hreach, hlive, hlarge, he, hintact, hserves, hserves 0 os _ _ _ rfl rfl hnext⟩

/-- A request for a terabyte is refused and uses up the reservation, so that
a request which would have been served just before is refused too. -/
theorem failure_exhausts :
    ∃ s s', State.Reaches (fun _ _ os _ => os.Sane) (State.init 0 0) s ∧
      s.exec 0 (Os.granting (2 ^ 30) 1) (.malloc (2 ^ 40)) = .ok (none, s') ∧
      ¬ Intact s s' ∧ ¬ StillServes s s' (Os.granting (2 ^ 30) 1) := by
  have hreach := @State.Reaches.step (fun _ _ os _ => os.Sane) (State.init 0 0) _ _ 0
    (Os.granting (2 ^ 30) 1) (.malloc 3145728) _ .refl (granting_sane 1) rfl
  refine ⟨_, _, hreach, rfl, fun hi => ?_, fun hserves => ?_⟩
  · have hbump := congrArg State.resBump hi
    revert hbump
    decide
  · obtain ⟨s₂, hs₂⟩ := hserves 0 (Os.granting (2 ^ 30) 1) (.malloc 3145728) _ _ rfl rfl rfl
    have hrefused : Except.ok (none, _) = Except.ok (_, s₂) := hs₂
    cases hrefused

end Memflux.Alloc
