import Memflux.Alloc.Sections

/-! # Idle times

A trim pass reads the clock once and then takes the class locks one by one, while
other threads take and give blocks. The system below interleaves the sections under
the locks with a monotonic clock, and keeps on the side when a block of each run was
last taken or returned and when the run last became free. A stamp later than the
reading of the pass makes the unsigned age wrap around.
-/

namespace Memflux.Alloc

open Spans BitWords DList

/-! ## The system -/

def Run.allFree (r : Run) : Bool := (List.range r.elems).all fun i => bitAt r.bits i

def State.allFreeAt (s : State) (a : Nat) : Bool := (s.runs a).any Run.allFree

/-- The allocator, the clock, the reading and the next class of the trim pass under way,
and for each run when its bitmap last changed and when it last became entirely free. -/
structure Timed where
  st : State
  clock : Nat
  pass : Option (Nat × Nat)
  touched : Nat → Nat
  freeSince : Nat → Nat

namespace Timed

/-- The runs whose bitmap the section changed were touched at `now`. -/
def noteTouched (w : Timed) (s' : State) (now : Nat) : Nat → Nat := fun a =>
  if (s'.runs a).map Run.bits = (w.st.runs a).map Run.bits then w.touched a else now

/-- The runs that the section made entirely free are so since `now`. -/
def noteFree (w : Timed) (s' : State) (now : Nat) : Nat → Nat := fun a =>
  if s'.allFreeAt a && !w.st.allFreeAt a then now else w.freeSince a

/-- After a section that changed bitmaps before its reading `now`, and last read `clock`. -/
def after (w : Timed) (s' : State) (now clock : Nat) : Timed where
  st := s'
  clock := clock
  pass := w.pass
  touched := w.noteTouched s' now
  freeSince := w.noteFree s' clock

/-- One step of the clock, of a thread in `malloc` or `free`, or of the trim thread. The
label is the reading and the class of a purge section. No thread has a cache, since
nothing creates one, and a `free` of a large block does not return. -/
inductive Step (w : Timed) : Option (Nat × Nat) → Timed → Prop where
  | tick {now : Nat} (later : w.clock ≤ now) (fits : now < 2 ^ 64) :
      Step w none { w with clock := now }
  | malloc {c : Nat} {os : Os} {ans : Option Nat} {s' : State} (cls : c < kNumClasses)
      (fresh : SlowFresh w.st os c) (later : w.clock ≤ os.now 0) (later' : os.now 0 ≤ os.now 1)
      (fits : os.now 1 < 2 ^ 64) (call : w.st.mallocSlow os c = .ok (ans, s')) :
      Step w none (w.after s' (os.now 1) (os.now 1))
  | large {n : Nat} {os : Os} {ans : Option Nat} {s' : State}
      (fresh : GetsFresh w.st os (largeMap n) 4096) (call : w.st.mallocLarge os n = (ans, s')) :
      Step w none { w with st := s' }
  | free {a i : Nat} {r : Run} {now : Nat → Nat} {s' : State} (block : SmallBlock w.st a r i)
      (later : w.clock ≤ now 0) (later' : now 0 ≤ now 1) (fits : now 1 < 2 ^ 64)
      (call : w.st.runGive a (blockAddr a r i) now = .ok s') :
      Step w none (w.after s' (now 0) (now 1))
  | readClock (idle : w.pass = none) : Step w none { w with pass := some (w.clock, 0) }
  | purge {t c : Nat} {s' : State} (pass : w.pass = some (t, c)) (cls : c < kNumClasses)
      (call : w.st.trimClass c t = .ok s') :
      Step w (some (t, c)) { w with st := s', pass := some (t, c + 1) }
  | finish {t : Nat} (pass : w.pass = some (t, kNumClasses)) : Step w none { w with pass := none }

def start (runIdle dirtyIdle : Nat) (os : Os) : Timed where
  st := (State.init runIdle dirtyIdle).ensureInit os
  clock := 0
  pass := none
  touched := fun _ => 0
  freeSince := fun _ => 0

/-! ## One purge section -/

/-- A run is unmapped only when it has been entirely free for the run idle time, and its
pages are given back only when it has not been touched for the dirty idle time. -/
structure IdleRespected (w : Timed) (t c : Nat) (s' : State) : Prop where
  unmapped : ∀ a r, w.st.runs a = some r → s'.runs a = none →
    r.allFree = true ∧ w.freeSince a + w.st.runIdleMs ≤ w.clock
  purged : ∀ a r off, w.st.runs a = some r → off + 4096 ≤ r.elems * r.elem →
    runData a r + off ∈ w.st.classAdvice c t → w.touched a + w.st.dirtyIdleMs ≤ w.clock

/-- Where a stamp is later than the reading of the pass and its age, wrapped around, is
long enough for the test, the age by the clock is long enough too. -/
structure Prompt (w : Timed) (t c : Nat) : Prop where
  idle : ∀ a r, w.st.runs a = some r → r.cls = c + 1 → w.st.runIdle r t = true →
    t < r.lastFullyFreeMs → r.lastFullyFreeMs + w.st.runIdleMs ≤ w.clock
  dirty : ∀ a r, w.st.runs a = some r → r.cls = c + 1 → w.st.runIdle r t = false →
    w.st.dirtyIdle r t = true → r.purgeOffsets ≠ [] →
      t < r.lastTouchMs → r.lastTouchMs + w.st.dirtyIdleMs ≤ w.clock

/-- The states reached when every purge section is prompt. -/
inductive PromptRun (w : Timed) : Timed → Prop where
  | refl : PromptRun w w
  | step {w₁ w₂ : Timed} {label : Option (Nat × Nat)} (run : PromptRun w w₁)
      (step : w₁.Step label w₂) (prompt : ∀ t c, label = some (t, c) → w₁.Prompt t c) :
      PromptRun w w₂

/-! ## The invariant -/

/-- What the stamps of a run say about its times. A stamp of the last touch that is not
the time of that touch is the reading of this or of an earlier pass. -/
structure Stamped (w : Timed) (a : Nat) (r : Run) : Prop where
  fullyFree_le : r.lastFullyFreeMs ≤ w.clock
  touch_le : r.lastTouchMs ≤ w.clock
  free : r.used = 0 → w.freeSince a = r.lastFullyFreeMs
  busy : r.used ≠ 0 → r.lastFullyFreeMs = 0
  touch : w.touched a = r.lastTouchMs ∨
    (∀ t c, w.pass = some (t, c) → r.lastTouchMs ≤ t) ∧
      (r.purgeOffsets = [] ∨ w.touched a ≤ r.lastTouchMs ∨
        w.touched a + w.st.dirtyIdleMs ≤ w.clock)

structure Kept (w : Timed) : Prop where
  core : ∃ L, Core w.st L
  stamped : ∀ a r, w.st.runs a = some r → w.Stamped a r
  clock_lt : w.clock < 2 ^ 64
  pass_le : ∀ t c, w.pass = some (t, c) → t ≤ w.clock


/-! ## What a section notes -/

theorem allFree_iff {r : Run} (h : RunOk r) : r.allFree = true ↔ r.used = 0 := by
  rw [Run.allFree, List.all_eq_true, h.used]
  constructor
  · intro hall
    exact clears_eq_zero fun i hi => hall i (List.mem_range.mpr hi)
  · intro hzero i hi
    exact bit_of_clears_eq_zero hzero (List.mem_range.mp hi)

theorem allFreeAt_run {s : State} {a : Nat} {r : Run} (hr : s.runs a = some r) (h : RunOk r) :
    s.allFreeAt a = decide (r.used = 0) := by
  rw [State.allFreeAt, hr, Option.any_some]
  exact Bool.eq_iff_iff.mpr ((allFree_iff h).trans decide_eq_true_iff.symm)

theorem bits_of_body {o o' : Option Run} (h : o'.map Run.body = o.map Run.body) :
    o'.map Run.bits = o.map Run.bits ∧ o'.any Run.allFree = o.any Run.allFree := by
  have hbits : ∀ q : Option Run, q.map Run.bits = (q.map Run.body).map Run.bits := by
    intro q
    cases q <;> rfl
  have hfree : ∀ q : Option Run, q.any Run.allFree = (q.map Run.body).any Run.allFree := by
    intro q
    cases q <;> rfl
  constructor
  · rw [hbits o', hbits o, h]
  · rw [hfree o', hfree o, h]

/-- A section notes nothing of a run whose header it leaves alone but for links. -/
theorem note_same {w : Timed} {s' : State} {x : Nat} (now : Nat)
    (h : (s'.runs x).map Run.body = (w.st.runs x).map Run.body) :
    w.noteTouched s' now x = w.touched x ∧ w.noteFree s' now x = w.freeSince x := by
  obtain ⟨hbits, hfree⟩ := bits_of_body h
  constructor
  · exact if_pos hbits
  · apply if_neg
    rw [State.allFreeAt, State.allFreeAt, hfree]
    simp

theorem noteTouched_bit {w : Timed} {s' : State} {a i now : Nat} {q : Run}
    (hq : s'.runs a = some q)
    (hbit : ∀ r, w.st.runs a = some r → bitAt q.bits i ≠ bitAt r.bits i) :
    w.noteTouched s' now a = now := by
  apply if_neg
  intro heq
  rw [hq] at heq
  obtain ⟨r, hr, hbits⟩ := Option.map_eq_some_iff.mp heq.symm
  apply hbit r hr
  rw [hbits]

/-! ## One step -/

/-- What a section that leaves the stamps of a header alone needs to keep for it. -/
theorem Stamped.keep {w w' : Timed} {a : Nat} {r q : Run} (h : w.Stamped a r)
    (hkept : q.kept = r.kept) (hstamp : q.lastTouchMs = r.lastTouchMs)
    (hclock : w.clock ≤ w'.clock) (htouched : w'.touched a = w.touched a)
    (hfree : w'.freeSince a = w.freeSince a) (hwait : w'.st.dirtyIdleMs = w.st.dirtyIdleMs)
    (hpass : ∀ t c, w'.pass = some (t, c) → r.lastTouchMs ≤ t ∨ ∃ c', w.pass = some (t, c')) :
    w'.Stamped a q := by
  constructor
  · rw [kept_fullyFree hkept]
    exact Nat.le_trans h.fullyFree_le hclock
  · rw [hstamp]
    exact Nat.le_trans h.touch_le hclock
  · rw [kept_used hkept, kept_fullyFree hkept, hfree]
    exact h.free
  · rw [kept_used hkept, kept_fullyFree hkept]
    exact h.busy
  · rw [hstamp, htouched, hwait, kept_purgeOffsets hkept]
    cases h.touch with
    | inl hsame => exact .inl hsame
    | inr hearlier =>
        refine .inr ⟨?_, ?_⟩
        · intro t c hp
          cases hpass t c hp with
          | inl hle => exact hle
          | inr hold =>
              obtain ⟨c', hc'⟩ := hold
              exact hearlier.1 t c' hc'
        · rcases hearlier.2 with hnone | hsince | hwaited
          · exact .inl hnone
          · exact .inr (.inl hsince)
          · exact .inr (.inr (Nat.le_trans hwaited hclock))

/-- A run whose header keeps its body across a section that notes what changed. -/
theorem Stamped.frame {w : Timed} {s' : State} {now clock a : Nat} {q : Run}
    (h : ∀ r, w.st.runs a = some r → w.Stamped a r)
    (hbody : (s'.runs a).map Run.body = (w.st.runs a).map Run.body) (hq : s'.runs a = some q)
    (hclock : w.clock ≤ clock) (hwait : s'.dirtyIdleMs = w.st.dirtyIdleMs) :
    (w.after s' now clock).Stamped a q := by
  rw [hq] at hbody
  obtain ⟨r, hr, hsame⟩ := Option.map_eq_some_iff.mp hbody.symm
  rw [← hq] at hbody
  refine (h r hr).keep (kept_of_body hsame.symm) (touch_of_body hsame.symm) hclock
    (note_same now hbody).1 (note_same clock hbody).2 hwait ?_
  intro t c hp
  exact .inr ⟨c, hp⟩

theorem Kept.malloc {w : Timed} (h : w.Kept) {c : Nat} {os : Os} {ans : Option Nat} {s' : State}
    (hc : c < kNumClasses) (hfresh : SlowFresh w.st os c) (hlater : w.clock ≤ os.now 0)
    (hlater' : os.now 0 ≤ os.now 1) (hfits : os.now 1 < 2 ^ 64)
    (hcall : w.st.mallocSlow os c = .ok (ans, s')) :
    (w.after s' (os.now 1) (os.now 1)).Kept := by
  obtain ⟨L, hcore⟩ := h.core
  obtain ⟨ans₁, s₁, hcall₁, hslow, hcore'⟩ := mallocSlow_cases hcore hc hfresh
  rw [hcall] at hcall₁
  cases hcall₁
  have hclock : w.clock ≤ os.now 1 := Nat.le_trans hlater hlater'
  have hwait := hslow.waits.2
  refine ⟨hcore', ?_, hfits, ?_⟩
  · intro x q hq
    rcases hslow.grants hcore with ⟨-, hsame⟩ | ⟨a, r, i, -, -, hg⟩
    · have hbody : (s'.runs x).map Run.body = (w.st.runs x).map Run.body := by rw [hsame]
      exact Stamped.frame (h.stamped x) hbody hq hclock hwait
    · by_cases hx : x = a
      · rw [hx] at hq ⊢
        have hq := hg.run.symm.trans hq
        rw [Option.some.injEq] at hq
        obtain ⟨hlt, hset, -, hbits⟩ := findFree_spec hg.ok hg.free
        have htouched : w.noteTouched s' (os.now 1) a = os.now 1 := by
          apply noteTouched_bit (i := i) hg.run
          intro r₀ hr₀
          have hset₀ : bitAt r₀.bits i = true := by
            rcases hg.before with hold | hnew
            · rw [hold, Option.some.injEq] at hr₀
              rw [← hr₀]
              exact hset
            · rw [hnew.1] at hr₀
              cases hr₀
          rw [hset₀, hbits (os.now 1) i]
          simp
        have hzero : (r.taken i (os.now 1)).lastFullyFreeMs = 0 := by
          apply taken_stamp
          intro hused
          rcases hg.before with hold | hnew
          · exact (h.stamped a r hold).busy hused
          · exact absurd hnew.2.1 hused
        rw [← hq]
        constructor
        · rw [hzero]
          exact Nat.zero_le _
        · exact Nat.le_refl _
        · intro hfree
          cases hfree
        · intro _
          exact hzero
        · exact .inl htouched
      · exact Stamped.frame (h.stamped x) (hg.others x hx) hq hclock hwait
  · intro t k hp
    exact Nat.le_trans (h.pass_le t k hp) hclock

theorem Kept.free {w : Timed} (h : w.Kept) {a i : Nat} {r : Run} {now : Nat → Nat} {s' : State}
    (hb : SmallBlock w.st a r i) (hlater : w.clock ≤ now 0) (hlater' : now 0 ≤ now 1)
    (hfits : now 1 < 2 ^ 64) (hcall : w.st.runGive a (blockAddr a r i) now = .ok s') :
    (w.after s' (now 0) (now 1)).Kept := by
  obtain ⟨L, hcore⟩ := h.core
  have hok := hcore.run a r hb.run
  obtain ⟨hcall₁, hcore'⟩ := runGive_spec hcore hb.run hb.index hb.bit now
  rw [hcall] at hcall₁
  cases hcall₁
  have hclock : w.clock ≤ now 1 := Nat.le_trans hlater hlater'
  have hused := hb.used_ne hcore
  have hgiven := given_used hok hb.index hb.bit (now 0) (now 1)
  have hnever := (h.stamped a r hb.run).busy hused
  refine ⟨⟨L, hcore'⟩, ?_, hfits, ?_⟩
  · intro x q hq
    by_cases hx : x = a
    · have hrun : (w.st.afterGive a r i now).runs a = some (r.given i (now 0) (now 1)) :=
        put_same _ _ _
      rw [hx] at hq ⊢
      have hq := hrun.symm.trans hq
      rw [Option.some.injEq] at hq
      have hok' : RunOk (r.given i (now 0) (now 1)) := given_ok hok hb.index hb.bit
      have htouched : w.noteTouched (w.st.afterGive a r i now) (now 0) a = now 0 := by
        apply noteTouched_bit (i := i) hrun
        intro r₀ hr₀
        rw [hb.run, Option.some.injEq] at hr₀
        rw [← hr₀, given_bits hok hb.index, hb.bit]
        simp
      have hstamp := given_stamp hnever i (now 0) (now 1)
      rw [← hq]
      constructor
      · rw [hstamp]
        show _ ≤ now 1
        split
        · exact Nat.le_refl _
        · exact Nat.zero_le _
      · exact hlater'
      · intro hzero
        rw [hstamp, if_pos hzero]
        show w.noteFree _ (now 1) a = now 1
        apply if_pos
        rw [allFreeAt_run hrun hok', allFreeAt_run hb.run hok]
        simp [hzero, hused]
      · intro hbusy
        rw [hstamp, if_neg hbusy]
      · exact .inl htouched
    · have hbody : ((w.st.afterGive a r i now).runs x).map Run.body =
          (w.st.runs x).map Run.body := by
        rw [State.afterGive]
        exact congrArg _ (put_other _ _ hx)
      exact Stamped.frame (h.stamped x) hbody hq hclock rfl
  · intro t k hp
    exact Nat.le_trans (h.pass_le t k hp) hclock

theorem wrapSub_age {t stamp : Nat} (hle : stamp ≤ t) (ht : t < 2 ^ 64) :
    wrapSub t stamp = t - stamp := by
  unfold wrapSub
  omega

/-- A prompt purge section pushes the stamp of a run forward only after its wait. -/
theorem Kept.purge {w : Timed} (h : w.Kept) {t c : Nat} {s' : State} (hpass : w.pass = some (t, c))
    (hc : c < kNumClasses) (hcall : w.st.trimClass c t = .ok s') (hprompt : w.Prompt t c) :
    Kept { w with st := s', pass := some (t, c + 1) } := by
  obtain ⟨L, hcore⟩ := h.core
  obtain ⟨s₁, L', hcall₁, hcore', -, -⟩ := trimClass_spec hcore hc t
  rw [hcall] at hcall₁
  cases hcall₁
  have hrestamps := trimClass_restamps hcore hc hcall
  have ht := h.pass_le t c hpass
  have hnext : ∀ t' c', some (t, c + 1) = some (t', c') → t' = t := by
    intro t' c' heq
    cases heq
    rfl
  refine ⟨⟨L', hcore'⟩, ?_, h.clock_lt, ?_⟩
  · intro x q hq
    obtain ⟨r, hr, hkept, hstamp⟩ := hrestamps.runs x q hq
    have hold := h.stamped x r hr
    cases hstamp with
    | inl hsame =>
        refine hold.keep hkept hsame (Nat.le_refl _) rfl rfl hrestamps.waits.2 ?_
        intro t' c' hp
        rw [hnext t' c' hp]
        exact .inr ⟨c, hpass⟩
    | inr hset =>
        obtain ⟨hstamp, hmem, hdirty, hidle⟩ := hset
        obtain ⟨r₀, hr₀, hcls⟩ := hcore.lists.own c hc x hmem
        rw [hr, Option.some.injEq] at hr₀
        rw [← hr₀] at hcls
        refine ⟨?_, ?_, ?_, ?_, .inr ⟨?_, ?_⟩⟩
        · rw [kept_fullyFree hkept]
          exact hold.fullyFree_le
        · rw [hstamp]
          exact ht
        · rw [kept_used hkept, kept_fullyFree hkept]
          exact hold.free
        · rw [kept_used hkept, kept_fullyFree hkept]
          exact hold.busy
        · intro t' c' hp
          rw [hnext t' c' hp, hstamp]
        · show q.purgeOffsets = [] ∨ w.touched x ≤ q.lastTouchMs ∨
            w.touched x + s'.dirtyIdleMs ≤ w.clock
          rw [kept_purgeOffsets hkept, hstamp, hrestamps.waits.2]
          by_cases hnone : r.purgeOffsets = []
          · exact .inl hnone
          · have hlate := hprompt.dirty x r hr hcls hidle hdirty hnone
            have htouch := hold.touch
            have hle := hold.touch_le
            by_cases hin : r.lastTouchMs ≤ t
            · rcases htouch with hsame | ⟨-, htime⟩
              · omega
              · have htime := htime.resolve_left hnone
                omega
            · have hwait := hlate (by omega)
              rcases htouch with hsame | ⟨hbefore, -⟩
              · omega
              · exact absurd (hbefore t c hpass) hin
  · intro t' c' hp
    rw [hnext t' c' hp]
    exact ht

/-- Each step keeps the invariant if it is no purge section or a prompt one. -/
theorem Kept.step {w w' : Timed} {label : Option (Nat × Nat)} (h : w.Kept) (hs : w.Step label w')
    (hprompt : ∀ t c, label = some (t, c) → w.Prompt t c) : w'.Kept := by
  cases hs with
  | @tick now later fits =>
      refine ⟨h.core, ?_, fits, ?_⟩
      · intro x r hr
        refine (h.stamped x r hr).keep rfl rfl later rfl rfl rfl ?_
        intro t c hp
        exact .inr ⟨c, hp⟩
      · intro t c hp
        exact Nat.le_trans (h.pass_le t c hp) later
  | malloc cls fresh later later' fits call => exact h.malloc cls fresh later later' fits call
  | large fresh call =>
      obtain ⟨L, hcore⟩ := h.core
      rcases mallocLarge_spec hcore fresh with ⟨b, -, hm⟩ | ⟨a, al, b, hm, -, hcore'⟩
      · rw [call] at hm
        cases hm
        refine ⟨⟨L, hcore.congr rfl rfl rfl rfl⟩, ?_, h.clock_lt, h.pass_le⟩
        intro x r hr
        have hold := h.stamped x r hr
        exact ⟨hold.fullyFree_le, hold.touch_le, hold.free, hold.busy, hold.touch⟩
      · rw [call] at hm
        cases hm
        refine ⟨⟨L, hcore'⟩, ?_, h.clock_lt, h.pass_le⟩
        intro x r hr
        have hold := h.stamped x r hr
        exact ⟨hold.fullyFree_le, hold.touch_le, hold.free, hold.busy, hold.touch⟩
  | free block later later' fits call => exact h.free block later later' fits call
  | readClock idle =>
      refine ⟨h.core, ?_, h.clock_lt, ?_⟩
      · intro x r hr
        refine (h.stamped x r hr).keep rfl rfl (Nat.le_refl _) rfl rfl rfl ?_
        intro t c hp
        cases hp
        exact .inl (h.stamped x r hr).touch_le
      · intro t c hp
        cases hp
        exact Nat.le_refl _
  | @purge t c s' pass cls call => exact h.purge pass cls call (hprompt t c rfl)
  | finish pass =>
      refine ⟨h.core, ?_, h.clock_lt, ?_⟩
      · intro x r hr
        refine (h.stamped x r hr).keep rfl rfl (Nat.le_refl _) rfl rfl rfl ?_
        intro t c hp
        cases hp
      · intro t c hp
        cases hp

theorem Kept.start (runIdle dirtyIdle : Nat) (os : Os) : (Timed.start runIdle dirtyIdle os).Kept := by
  have hruns : ∀ a, (Timed.start runIdle dirtyIdle os).st.runs a = none :=
    congrFun (ensureInit_same (State.init runIdle dirtyIdle) os).1
  refine ⟨⟨fun _ => [], (init_core runIdle dirtyIdle).ensureInit os⟩, ?_, Nat.two_pow_pos 64, ?_⟩
  · intro a r hr
    rw [hruns a] at hr
    cases hr
  · intro t c hp
    cases hp

theorem PromptRun.kept {w w' : Timed} (hr : w.PromptRun w') (h : w.Kept) : w'.Kept := by
  induction hr with
  | refl => exact h
  | step run step prompt ih => exact ih.step step prompt

/-! ## Idle times -/

/-- Where no stamp is later than the reading, or only ones whose age is long enough, the
waits are respected. -/
theorem Kept.respected {w : Timed} (h : w.Kept) {t c : Nat} {s' : State}
    (hpass : w.pass = some (t, c)) (hc : c < kNumClasses) (hcall : w.st.trimClass c t = .ok s')
    (hprompt : w.Prompt t c) : IdleRespected w t c s' := by
  obtain ⟨L, hcore⟩ := h.core
  have ht := h.pass_le t c hpass
  have hlt := Nat.lt_of_le_of_lt ht h.clock_lt
  constructor
  · intro a r hr hgone
    obtain ⟨hcls, hidle⟩ := trimClass_gone hcore hc hcall hr hgone
    have hok := hcore.run a r hr
    have hpos := hok.cls_pos
    have htest := hidle
    rw [State.runIdle, decide_eq_true_eq] at htest
    obtain ⟨hused, hwait⟩ := htest
    refine ⟨(allFree_iff hok).mpr hused, ?_⟩
    rw [(h.stamped a r hr).free hused]
    by_cases hle : r.lastFullyFreeMs ≤ t
    · rw [wrapSub_age hle hlt] at hwait
      omega
    · exact hprompt.idle a r hr (by omega) hidle (by omega)
  · intro a r off hr hoff hpage
    obtain ⟨b, q, off', hq, hcls, heq, hin, hidle, hdirty⟩ := mem_classAdvice_run hcore hc hpage
    have hoff' := (mem_purgeOffsets hin).2.2.1
    have hsame : a = b := hcore.page_unique hr hq hoff hoff' heq
    rw [← hsame] at hq
    have hold := h.stamped a q hq
    have hnone : q.purgeOffsets ≠ [] := List.ne_nil_of_mem hin
    have hwait := hdirty
    rw [State.dirtyIdle, decide_eq_true_eq] at hwait
    by_cases hle : q.lastTouchMs ≤ t
    · rw [wrapSub_age hle hlt] at hwait
      rcases hold.touch with htouch | ⟨-, htime⟩
      · omega
      · have htime := htime.resolve_left hnone
        omega
    · have hlate := hprompt.dirty a q hq hcls hidle hdirty hnone (by omega)
      rcases hold.touch with htouch | ⟨hbefore, -⟩
      · omega
      · exact absurd (hbefore t c hpass) hle

/-- A stamp that is later than the reading is the time of what it records, so a test that
passes on its wrapped age too early breaks a wait. -/
theorem Kept.prompt_of_respected {w : Timed} (h : w.Kept) {t c : Nat} {s' : State}
    (hpass : w.pass = some (t, c)) (hc : c < kNumClasses) (hcall : w.st.trimClass c t = .ok s')
    (hresp : IdleRespected w t c s') : w.Prompt t c := by
  obtain ⟨L, hcore⟩ := h.core
  constructor
  · intro a r hr hcls hidle _
    have hgone := trimClass_idle hcore hc hcall hr hcls hidle
    have hwait := (hresp.unmapped a r hr hgone).2
    rw [State.runIdle, decide_eq_true_eq] at hidle
    rwa [(h.stamped a r hr).free hidle.1] at hwait
  · intro a r hr hcls hidle hdirty hnone hlate
    obtain ⟨off, hin⟩ := List.exists_mem_of_ne_nil _ hnone
    have hoff := (mem_purgeOffsets hin).2.2.1
    have hindex : r.cls - 1 = c := by omega
    have hpage := (mem_classAdvice hcore hr hoff hidle hdirty).mpr hin
    rw [hindex] at hpage
    have hwait := hresp.purged a r off hr hoff hpage
    rcases (h.stamped a r hr).touch with htouch | ⟨hbefore, -⟩
    · rwa [htouch] at hwait
    · exact absurd (hbefore t c hpass) (Nat.not_le.mpr hlate)

/-- The next purge section of a run of the system respects the idle times exactly when it
is prompt; so all do in a run whose purge sections are prompt. -/
theorem idle_respected_iff {runIdle dirtyIdle : Nat} {os : Os} {w w' : Timed} {t c : Nat}
    (hrun : (Timed.start runIdle dirtyIdle os).PromptRun w) (hstep : w.Step (some (t, c)) w') :
    IdleRespected w t c w'.st ↔ w.Prompt t c := by
  have hkept := hrun.kept (Kept.start runIdle dirtyIdle os)
  cases hstep with
  | purge pass cls call =>
      constructor
      · intro hresp
        exact hkept.prompt_of_respected pass cls call hresp
      · intro hprompt
        exact hkept.respected pass cls call hprompt

/-! ## A run that breaks a wait -/

theorem Kept.purges {w : Timed} (h : w.Kept) {t c : Nat} (hpass : w.pass = some (t, c))
    (hc : c < kNumClasses) : ∃ w', w.Step (some (t, c)) w' ∧ w.st.trimClass c t = .ok w'.st := by
  obtain ⟨L, hcore⟩ := h.core
  obtain ⟨s', L', hcall, -⟩ := trimClass_spec hcore hc t
  exact ⟨_, .purge hpass hc hcall, hcall⟩

theorem PromptRun.quiet {w w₁ w₂ : Timed} (h : w.PromptRun w₁) (hs : w₁.Step none w₂) :
    w.PromptRun w₂ := by
  apply h.step hs
  intro t c heq
  cases heq

theorem first_block :
    ∃ w a r, (Timed.start 6000 2000 (Os.granting (2 ^ 30) 1)).PromptRun w ∧ w.pass = none ∧
      w.clock = 1 ∧ w.st.runIdleMs = 6000 ∧ SmallBlock w.st a r 0 ∧ r.cls = 1 ∧ r.used = 1 := by
  have hcall : ((Timed.start 6000 2000 (Os.granting (2 ^ 30) 1)).st.mallocSlow
      (Os.granting (2 ^ 30) 1) 0).toOption.any (fun x => x.1.isSome) = true := by decide +kernel
  obtain ⟨⟨ans, s'⟩, hcall, hsome⟩ := World.ok_of_any hcall
  have hcore := (init_core 6000 2000).ensureInit (Os.granting (2 ^ 30) 1)
  have hledger := (init_ledger 6000 2000).ensureInit (granting_sane 1)
  have hfresh : SlowFresh (Timed.start 6000 2000 (Os.granting (2 ^ 30) 1)).st
      (Os.granting (2 ^ 30) 1) 0 := by
    intro _
    apply hledger.getsFresh (by decide) (.inr rfl)
    refine ⟨fun _ => by decide, fun h0 => ?_⟩
    cases h0
  have hc : 0 < kNumClasses := by decide
  obtain ⟨ans₁, s₁, hcall₁, hslow, -⟩ := mallocSlow_cases hcore hc hfresh
  have hsame := hcall.symm.trans hcall₁
  cases hsame
  rcases hslow.grants hcore with ⟨hnone, -⟩ | ⟨a, r, i, -, hcls, hg⟩
  · rw [hnone] at hsome
    cases hsome
  · have hnew : r.used = 0 ∧ ∀ j, j < r.elems → bitAt r.bits j = true := by
      rcases hg.before with hold | hnew
      · cases hold
      · exact hnew.2
    obtain ⟨hlt, -, hfirst, hbits⟩ := findFree_spec hg.ok hg.free
    have hi : i = 0 := by
      by_contra hne
      have hclear := hfirst 0 (by omega)
      rw [hnew.2 0 (by omega)] at hclear
      cases hclear
    rw [hi] at hlt hbits hg
    refine ⟨_, a, r.taken 0 1, PromptRun.refl.quiet (.malloc hc hfresh ?_ ?_ ?_ hcall), rfl, rfl,
      hslow.waits.1, ⟨hg.run, hlt, ?_⟩, hcls, ?_⟩
    · exact Nat.zero_le _
    · exact Nat.le_refl _
    · show 1 < 2 ^ 64
      decide
    · rw [hbits]
      simp
    · show r.used + 1 = 1
      rw [hnew.1]

theorem Kept.lastFreed {w : Timed} (h : w.Kept) {a now : Nat} {r : Run}
    (hb : SmallBlock w.st a r 0) (hused : r.used = 1) (hlater : w.clock ≤ now)
    (hfits : now < 2 ^ 64) :
    ∃ w' q, w.Step none w' ∧ w'.st.runs a = some q ∧ w'.pass = w.pass ∧ w'.clock = now ∧
      w'.st.runIdleMs = w.st.runIdleMs ∧ q.cls = r.cls ∧ q.used = 0 ∧ q.lastFullyFreeMs = now := by
  obtain ⟨L, hcore⟩ := h.core
  have hok := hcore.run a r hb.run
  obtain ⟨hcall, -⟩ := runGive_spec hcore hb.run hb.index hb.bit fun _ => now
  have hgiven := given_used hok hb.index hb.bit now now
  have hzero : (r.given 0 now now).used = 0 := by omega
  have hnever := (h.stamped a r hb.run).busy (by omega)
  refine ⟨_, r.given 0 now now, .free hb hlater (Nat.le_refl _) hfits hcall, put_same _ _ _, rfl,
    rfl, rfl, rfl, hzero, ?_⟩
  rw [given_stamp hnever, if_pos hzero]

/-- The pass reads 1, the last block of a run is given back at 2, and the purge section
of its class unmaps the run at once. -/
theorem idle_cut_short :
    ∃ w w', (Timed.start 6000 2000 (Os.granting (2 ^ 30) 1)).PromptRun w ∧
      w.Step (some (1, 0)) w' ∧ ¬ IdleRespected w 1 0 w'.st := by
  obtain ⟨w, a, r, hrun, hpass, hclock, hms, hb, hcls, hused⟩ := first_block
  have hread := hrun.quiet (.readClock hpass)
  have hkept := hread.kept (Kept.start _ _ _)
  have hlater : w.clock ≤ 2 := by omega
  obtain ⟨w₁, q, hs, hq, hpass₁, hclock₁, hms₁, hcls₁, hused₁, hstamp⟩ :=
    hkept.lastFreed hb hused hlater (by decide)
  have hrun₁ := hread.quiet hs
  have hkept₁ := hrun₁.kept (Kept.start _ _ _)
  have hpass₁ : w₁.pass = some (1, 0) := hpass₁.trans (by rw [hclock])
  obtain ⟨w', hs', hcall⟩ := hkept₁.purges hpass₁ (by decide)
  refine ⟨w₁, w', hrun₁, hs', ?_⟩
  intro hresp
  have hprompt := hkept₁.prompt_of_respected hpass₁ (by decide) hcall hresp
  have hms₁ : w₁.st.runIdleMs = 6000 := hms₁.trans hms
  have hidle : w₁.st.runIdle q 1 = true := by
    rw [State.runIdle, hms₁, hstamp, hused₁]
    decide
  have hwait := hprompt.idle a q hq (hcls₁.trans hcls) hidle (by omega)
  omega

/-- A run that has been free since time 1 is unmapped by a pass that reads 6001. -/
theorem idle_waited :
    ∃ w w' a, (Timed.start 6000 2000 (Os.granting (2 ^ 30) 1)).PromptRun w ∧
      w.Step (some (6001, 0)) w' ∧ w.st.runs a ≠ none ∧ w'.st.runs a = none ∧
        IdleRespected w 6001 0 w'.st := by
  obtain ⟨w, a, r, hrun, hpass, hclock, hms, hb, hcls, hused⟩ := first_block
  have hkept := hrun.kept (Kept.start _ _ _)
  have hlater : w.clock ≤ 1 := by omega
  obtain ⟨w₁, q, hs, hq, hpass₁, hclock₁, hms₁, hcls₁, hused₁, hstamp⟩ :=
    hkept.lastFreed hb hused hlater (by decide)
  have htick : w₁.Step none { w₁ with clock := 6001 } := .tick (by omega) (by decide)
  have hread := ((hrun.quiet hs).quiet htick).quiet (.readClock (hpass₁.trans hpass))
  have hkept₂ := hread.kept (Kept.start _ _ _)
  obtain ⟨w', hs', hcall⟩ := hkept₂.purges rfl (by decide)
  obtain ⟨L, hcore⟩ := hkept₂.core
  have hms₁ : w₁.st.runIdleMs = 6000 := hms₁.trans hms
  have hidle : w₁.st.runIdle q 6001 = true := by
    rw [State.runIdle, hms₁, hstamp, hused₁]
    decide
  refine ⟨_, w', a, hread, hs', ?_, ?_, (idle_respected_iff hread hs').mpr ⟨?_, ?_⟩⟩
  · show w₁.st.runs a ≠ none
    rw [hq]
    exact Option.some_ne_none q
  · exact trimClass_idle hcore (by decide) hcall hq (hcls₁.trans hcls) hidle
  · intro b r' hr' _ _ hlate
    exact absurd (hkept₂.stamped b r' hr').fullyFree_le (Nat.not_le.mpr hlate)
  · intro b r' hr' _ _ _ _ hlate
    exact absurd (hkept₂.stamped b r' hr').touch_le (Nat.not_le.mpr hlate)

end Timed

end Memflux.Alloc
