import Memflux.Alloc.Classes
import Memflux.Lib.LockGraph

/-! # The mutexes of the allocator

The control skeleton of every path that locks: `malloc` on its small and large
paths, `free`, `tcache_dtor`, the trim thread and the fork handlers. Choices that
depend on data (whether a run has a free block, whether a block is cached) are
left open. A child of `fork` starts with one thread that holds every mutex, which
is also how a process of one thread gets there.
-/

namespace Memflux.Alloc

open LockGraph LockProgram

/-- An index into `g_mu`. -/
abbrev Cls := Fin kNumClasses

/-- `g_slot_mu` and `g_mu[c]`. -/
inductive Mutex where
  | slot
  | cls (c : Cls)
  deriving DecidableEq

/-- Where a thread stands; a position named `…Lock` is about to lock. The trim
thread sleeps between its passes, every other thread is idle between its calls. -/
inductive Pos where
  | idle
  | mallocLock (c : Cls)
  | mallocIn (c : Cls)
  | growLock (c : Cls)
  | growIn (c : Cls)
  | mallocOut (c : Cls)
  | largeLock
  | largeIn
  | freeLock (c : Cls)
  | freeIn (c : Cls)
  | dtor
  | dtorLock (c : Cls)
  | dtorIn (c : Cls)
  | sleep
  | trimLock (c : Cls)
  | trimIn (c : Cls)
  | forkSlot
  | forkLock (c : Cls)
  | forkUnlock (c : Cls)
  | forkOut
  deriving DecidableEq

def firstCls : Cls := ⟨0, by decide⟩

inductive Move : Pos → Act Mutex → Pos → Prop where
  | malloc (c : Cls) : Move .idle .tau (.mallocLock c)
  | mallocLock (c : Cls) : Move (.mallocLock c) (.take (.cls c)) (.mallocIn c)
  /-- A run with a free block was found, or no run could be mapped. -/
  | mallocFound (c : Cls) : Move (.mallocIn c) (.drop (.cls c)) .idle
  /-- Every run of the class is full: `run_new` reaches for the reservation. -/
  | mallocGrow (c : Cls) : Move (.mallocIn c) .tau (.growLock c)
  | growLock (c : Cls) : Move (.growLock c) (.take .slot) (.growIn c)
  | growUnlock (c : Cls) : Move (.growIn c) (.drop .slot) (.mallocOut c)
  | mallocOut (c : Cls) : Move (.mallocOut c) (.drop (.cls c)) .idle
  | large : Move .idle .tau .largeLock
  | largeLock : Move .largeLock (.take .slot) .largeIn
  | largeUnlock : Move .largeIn (.drop .slot) .idle
  | free (c : Cls) : Move .idle .tau (.freeLock c)
  | freeLock (c : Cls) : Move (.freeLock c) (.take (.cls c)) (.freeIn c)
  | freeUnlock (c : Cls) : Move (.freeIn c) (.drop (.cls c)) .idle
  | exit : Move .idle .tau .dtor
  | dtorNext (c : Cls) : Move .dtor .tau (.dtorLock c)
  | dtorLock (c : Cls) : Move (.dtorLock c) (.take (.cls c)) (.dtorIn c)
  | dtorUnlock (c : Cls) : Move (.dtorIn c) (.drop (.cls c)) .dtor
  /-- Other destructors of the thread may still call the allocator. -/
  | dtorDone : Move .dtor .tau .idle
  | wake : Move .sleep .tau (.trimLock firstCls)
  | trimLock (c : Cls) : Move (.trimLock c) (.take (.cls c)) (.trimIn c)
  | trimNext (c : Cls) (h : c + 1 < kNumClasses) :
      Move (.trimIn c) (.drop (.cls c)) (.trimLock ⟨c + 1, h⟩)
  | trimDone (c : Cls) (h : c + 1 = kNumClasses) : Move (.trimIn c) (.drop (.cls c)) .sleep
  | fork : Move .idle .tau .forkSlot
  | forkSlot : Move .forkSlot (.take .slot) (.forkLock firstCls)
  | forkLock (c : Cls) (h : c + 1 < kNumClasses) :
      Move (.forkLock c) (.take (.cls c)) (.forkLock ⟨c + 1, h⟩)
  /-- The last lock of `atfork_prepare`; then `fork`, then `atfork_release`. -/
  | forkLast (c : Cls) (h : c + 1 = kNumClasses) :
      Move (.forkLock c) (.take (.cls c)) (.forkUnlock firstCls)
  | forkUnlock (c : Cls) (h : c + 1 < kNumClasses) :
      Move (.forkUnlock c) (.drop (.cls c)) (.forkUnlock ⟨c + 1, h⟩)
  | forkOut (c : Cls) (h : c + 1 = kNumClasses) : Move (.forkUnlock c) (.drop (.cls c)) .forkOut
  | forkDone : Move .forkOut (.drop .slot) .idle

def Holds : Pos → Mutex → Prop
  | .mallocIn c, m => m = .cls c
  | .growLock c, m => m = .cls c
  | .growIn c, m => m = .slot ∨ m = .cls c
  | .mallocOut c, m => m = .cls c
  | .largeIn, m => m = .slot
  | .freeIn c, m => m = .cls c
  | .dtorIn c, m => m = .cls c
  | .trimIn c, m => m = .cls c
  | .forkLock c, m => m = .slot ∨ ∃ d, d < c ∧ m = .cls d
  | .forkUnlock c, m => m = .slot ∨ ∃ d, c ≤ d ∧ m = .cls d
  | .forkOut, m => m = .slot
  | _, _ => False

attribute [local simp] Holds

theorem holds_tau {p p' : Pos} (h : Move p .tau p') (x : Mutex) : Holds p' x ↔ Holds p x := by
  cases h <;> simp [Holds]

theorem holds_take {p p' : Pos} {m : Mutex} (h : Move p (.take m) p') (x : Mutex) :
    Holds p' x ↔ x = m ∨ Holds p x := by
  cases h with
  | forkLock c h => grind [Holds]
  | forkLast c h => grind [Holds, firstCls]
  | forkSlot => grind [Holds, firstCls]
  | _ => simp [Holds]

theorem holds_drop {p p' : Pos} {m : Mutex} (h : Move p (.drop m) p') : Holds p m := by
  cases h <;> simp [Holds]

theorem holds_after_drop {p p' : Pos} {m : Mutex} (h : Move p (.drop m) p') (x : Mutex) :
    Holds p' x ↔ x ≠ m ∧ Holds p x := by
  cases h <;> grind [Holds]

def locks : LockProgram Pos Mutex where
  Move := Move
  Holds := Holds
  holds_tau := holds_tau
  holds_take := holds_take
  holds_drop := holds_drop
  holds_after_drop := holds_after_drop

/-! ## Interleavings -/

section

variable {T : Type} [DecidableEq T]

/-- Every thread is between two calls or two passes, and no mutex is locked. -/
def Quiet (cfg : Conf T Pos Mutex) : Prop :=
  (∀ t, cfg.pos t = .idle ∨ cfg.pos t = .sleep) ∧ ∀ m, cfg.owner m = none

/-- `atfork_prepare` owns the reservation lock and takes the class locks. -/
def Forking (p : Pos) : Prop := ∃ c, p = .forkLock c

/-- `run_new` owns its class lock and reaches for the reservation lock. -/
def Growing (p : Pos) : Prop := ∃ c, p = .growLock c

/-- A step that does not start a `run_new` while a fork takes the class locks, nor
lets `atfork_prepare` lock while a `run_new` reaches for the reservation. -/
def Spaced (cfg : Conf T Pos Mutex) (_ : T) (p : Pos) : Prop :=
  (Growing p → ∀ u, ¬ Forking (cfg.pos u)) ∧ (Forking p → ∀ u, ¬ Growing (cfg.pos u))

def AnyStep (_ : Conf T Pos Mutex) (_ : T) (_ : Pos) : Prop := True

omit [DecidableEq T] in
theorem Quiet.tracks {cfg : Conf T Pos Mutex} (h : Quiet cfg) : locks.Tracks cfg := by
  intro t m
  rw [h.2 m]
  rcases h.1 t with ht | ht <;> simp [ht, locks, Holds]

/-- No thread of `cfg` takes class locks for a fork while another one grows. -/
def Calm (cfg : Conf T Pos Mutex) : Prop :=
  ∀ t u, Forking (cfg.pos t) → ¬ Growing (cfg.pos u)

omit [DecidableEq T] in
theorem Quiet.calm {cfg : Conf T Pos Mutex} (h : Quiet cfg) : Calm cfg := by
  rintro t u ⟨c, hc⟩
  rcases h.1 t with ht | ht <;> rw [ht] at hc <;> cases hc

theorem Calm.step {cfg cfg' : Conf T Pos Mutex} {t : T} {p : Pos} (h : Calm cfg)
    (hok : Spaced cfg t p) (hs : locks.Step cfg t p cfg') : Calm cfg' := by
  intro v u hv hu
  by_cases hvt : v = t
  · subst hvt
    rw [hs.pos_self] at hv
    by_cases huv : u = v
    · subst huv
      rw [hs.pos_self] at hu
      obtain ⟨c, hc⟩ := hv
      obtain ⟨d, hd⟩ := hu
      rw [hc] at hd
      cases hd
    · rw [hs.pos_of_ne huv] at hu
      exact hok.2 hv u hu
  · rw [hs.pos_of_ne hvt] at hv
    by_cases hut : u = t
    · subst hut
      rw [hs.pos_self] at hu
      exact hok.1 hu v hv
    · rw [hs.pos_of_ne hut] at hu
      exact h v u hv hu

/-- Order of the locks while nobody grows: the reservation first. -/
def slotFirst : Mutex → Nat
  | .slot => 0
  | .cls c => c + 1

/-- Order of the locks while no fork takes them: the reservation last. -/
def slotLast : Mutex → Nat
  | .slot => kNumClasses
  | .cls c => c

/-- Only a growing thread waits below a lock it holds when the reservation comes first. -/
theorem slotFirst_lt {p p' : Pos} {m x : Mutex} (hm : Move p (.take m) p') (hx : Holds p x)
    (hp : ¬ Growing p) : slotFirst x < slotFirst m := by
  cases hm with
  | growLock c => exact absurd ⟨c, rfl⟩ hp
  | forkLock c _ =>
      rcases hx with rfl | ⟨d, hd, rfl⟩
      · simp [slotFirst]
      · simpa [slotFirst] using hd
  | forkLast c _ =>
      rcases hx with rfl | ⟨d, hd, rfl⟩
      · simp [slotFirst]
      · simpa [slotFirst] using hd
  | _ => exact hx.elim

/-- Only a forking thread waits below a lock it holds when the reservation comes last. -/
theorem slotLast_lt {p p' : Pos} {m x : Mutex} (hm : Move p (.take m) p') (hx : Holds p x)
    (hp : ¬ Forking p) : slotLast x < slotLast m := by
  cases hm with
  | growLock c =>
      obtain rfl : x = .cls c := hx
      exact c.isLt
  | forkLock c _ => exact absurd ⟨c, rfl⟩ hp
  | forkLast c _ => exact absurd ⟨c, rfl⟩ hp
  | _ => exact hx.elim

omit [DecidableEq T] in
theorem Calm.not_deadlocked {cfg : Conf T Pos Mutex} (h : Calm cfg) (htr : locks.Tracks cfg) :
    ¬ locks.Deadlocked cfg := by
  by_cases hf : ∃ t, Forking (cfg.pos t)
  · obtain ⟨t, ht⟩ := hf
    refine not_deadlocked_of_rank htr slotFirst ?_
    rintro u m x ⟨p, hm⟩ hx
    exact slotFirst_lt hm hx (h t u ht)
  · refine not_deadlocked_of_rank htr slotLast ?_
    rintro u m x ⟨p, hm⟩ hx
    exact slotLast_lt hm hx fun hu => hf ⟨u, hu⟩

/-! ## A fork that meets a growing class -/

omit [DecidableEq T] in
theorem forking_awaits {cfg : Conf T Pos Mutex} {t : T} {c : Cls} (h : cfg.pos t = .forkLock c) :
    locks.Awaits cfg t (.cls c) := by
  by_cases hc : c + 1 < kNumClasses
  · exact ⟨_, h ▸ Move.forkLock c hc⟩
  · exact ⟨_, h ▸ Move.forkLast c (by omega)⟩

omit [DecidableEq T] in
/-- The class that a fork waits for is the one a growing thread holds. -/
theorem deadlocked_of_same {cfg : Conf T Pos Mutex} (htr : locks.Tracks cfg) {t u : T} {c : Cls}
    (ht : cfg.pos t = .forkLock c) (hu : cfg.pos u = .growLock c) : locks.Deadlocked cfg := by
  have hslot : cfg.owner .slot = some t := (htr t .slot).mpr (by simp [locks, Holds, ht])
  have hcls : cfg.owner (.cls c) = some u := (htr u (.cls c)).mpr (by simp [locks, Holds, hu])
  exact deadlocked_of_pair ⟨_, forking_awaits ht, hcls⟩ ⟨_, ⟨_, hu ▸ Move.growLock c⟩, hslot⟩

/-- A thread that holds a class lock and not the reservation lock either grows or
gives the class lock back with its next move. -/
theorem holder_cases {p : Pos} {c : Cls} (h : Holds p (.cls c)) (hslot : ¬ Holds p .slot) :
    p = .growLock c ∨ ∃ p', Move p (.drop (.cls c)) p' := by
  cases p with
  | mallocIn d =>
      obtain rfl : c = d := by simpa [Holds] using h
      exact Or.inr ⟨_, .mallocFound c⟩
  | growLock d =>
      obtain rfl : c = d := by simpa [Holds] using h
      exact Or.inl rfl
  | mallocOut d =>
      obtain rfl : c = d := by simpa [Holds] using h
      exact Or.inr ⟨_, .mallocOut c⟩
  | freeIn d =>
      obtain rfl : c = d := by simpa [Holds] using h
      exact Or.inr ⟨_, .freeUnlock c⟩
  | dtorIn d =>
      obtain rfl : c = d := by simpa [Holds] using h
      exact Or.inr ⟨_, .dtorUnlock c⟩
  | trimIn d =>
      obtain rfl : c = d := by simpa [Holds] using h
      by_cases hc : c + 1 < kNumClasses
      · exact Or.inr ⟨_, .trimNext c hc⟩
      · exact Or.inr ⟨_, .trimDone c (by omega)⟩
  | growIn d => exact absurd (Or.inl rfl) hslot
  | forkLock d => exact absurd (Or.inl rfl) hslot
  | forkUnlock d => exact absurd (Or.inl rfl) hslot
  | largeIn => cases h
  | forkOut => cases h
  | _ => exact h.elim

/-- A fork below the class of a growing thread takes its next lock, after the
holder gave it back, or waits for a holder that grows. -/
theorem fork_advances {cfg : Conf T Pos Mutex} (htr : locks.Tracks cfg) {t u : T} {c d : Cls}
    (ht : cfg.pos t = .forkLock c) (hu : cfg.pos u = .growLock d) (hcd : c < d) :
    locks.Deadlocked cfg ∨ ∃ cfg' h, locks.Reaches AnyStep cfg cfg' ∧
      cfg'.pos t = .forkLock ⟨c + 1, h⟩ ∧ cfg'.pos u = .growLock d := by
  have hc : (c : Nat) + 1 < kNumClasses := Nat.lt_of_le_of_lt hcd d.isLt
  have htu : u ≠ t := by
    rintro rfl
    rw [ht] at hu
    cases hu
  have hslot : locks.Holds (cfg.pos t) .slot := by simp [locks, Holds, ht]
  -- the step of the fork itself, in a configuration where the lock is free
  have hgo : ∀ cfg₁ : Conf T Pos Mutex, locks.Reaches AnyStep cfg cfg₁ → cfg₁.pos t = .forkLock c →
      cfg₁.pos u = .growLock d → cfg₁.owner (.cls c) = none →
      ∃ cfg' h, locks.Reaches AnyStep cfg cfg' ∧ cfg'.pos t = .forkLock ⟨c + 1, h⟩ ∧
        cfg'.pos u = .growLock d := by
    intro cfg₁ hr ht₁ hu₁ hfree
    have hs : locks.Step cfg₁ t (.forkLock ⟨c + 1, hc⟩) _ := .take (ht₁ ▸ Move.forkLock c hc) hfree
    exact ⟨_, hc, hr.step t _ trivial hs, hs.pos_self, (hs.pos_of_ne htu).trans hu₁⟩
  cases hown : cfg.owner (.cls c) with
  | none => exact Or.inr (hgo cfg .refl ht hu hown)
  | some w =>
      have hw : locks.Holds (cfg.pos w) (.cls c) := (htr w _).mp hown
      have hwt : w ≠ t := by
        rintro rfl
        simp [locks, Holds, ht] at hw
      have hnot : ¬ locks.Holds (cfg.pos w) .slot := fun h => hwt (htr.exclusive h hslot)
      rcases holder_cases hw hnot with hgrow | ⟨p', hm⟩
      · exact Or.inl (deadlocked_of_same htr ht hgrow)
      · have hwu : u ≠ w := by
          rintro rfl
          rw [hu] at hw
          obtain rfl : c = d := by simpa [locks, Holds] using hw
          exact absurd hcd (Nat.lt_irrefl _)
        have hs : locks.Step cfg w p' _ := .drop hm
        refine Or.inr (hgo _ (.step w p' .refl trivial hs) ?_ ?_ ?_)
        · rw [hs.pos_of_ne hwt.symm, ht]
        · rw [hs.pos_of_ne hwu, hu]
        · simp

/-- Once a fork takes class locks beside a growing thread, a deadlock lies ahead. -/
theorem deadlock_ahead {cfg : Conf T Pos Mutex} (htr : locks.Tracks cfg) {t u : T} {c d : Cls}
    (ht : cfg.pos t = .forkLock c) (hu : cfg.pos u = .growLock d) :
    ∃ cfg', locks.Reaches AnyStep cfg cfg' ∧ locks.Deadlocked cfg' := by
  rcases Nat.lt_trichotomy c d with hcd | hcd | hcd
  · rcases fork_advances htr ht hu hcd with hdead | ⟨cfg₁, h, hr, ht₁, hu₁⟩
    · exact ⟨cfg, .refl, hdead⟩
    · obtain ⟨cfg', hr', hdead⟩ := deadlock_ahead (hr.tracks htr) ht₁ hu₁
      exact ⟨cfg', hr.trans hr', hdead⟩
  · obtain rfl : c = d := Fin.ext hcd
    exact ⟨cfg, .refl, deadlocked_of_same htr ht hu⟩
  · -- the fork holds every class below `c`, the growing thread holds `d`
    have htu : t = u := htr.exclusive (m := .cls d) (by simp [locks, Holds, ht]; exact hcd)
      (by simp [locks, Holds, hu])
    subst htu
    rw [ht] at hu
    cases hu
  termination_by d - c.val

/-- The locks never deadlock exactly as long as no fork takes the class locks while
a `run_new`, its own class locked, reaches for the reservation lock. -/
theorem deadlock_iff_spaced {start : Conf T Pos Mutex} (hq : Quiet start) :
    (∀ cfg, locks.Reaches Spaced start cfg → ¬ locks.Deadlocked cfg) ∧
      ∀ cfg t p cfg₁, locks.Reaches AnyStep start cfg → locks.Step cfg t p cfg₁ →
        ¬ Spaced cfg t p → ∃ cfg', locks.Reaches AnyStep cfg₁ cfg' ∧ locks.Deadlocked cfg' := by
  refine ⟨fun cfg hr => ?_, fun cfg t p cfg₁ hr hs hbad => ?_⟩
  · have hcalm : Calm cfg := hr.invariant hq.calm fun h hok hs => h.step hok hs
    exact hcalm.not_deadlocked (hr.tracks hq.tracks)
  · have htr := hs.tracks (hr.tracks hq.tracks)
    obtain ⟨a, hm⟩ := hs.move
    rcases not_and_or.mp hbad with hbad | hbad
    · obtain ⟨⟨d, rfl⟩, hf⟩ := Classical.not_imp.mp hbad
      obtain ⟨u, hu⟩ := not_forall.mp hf
      obtain ⟨c, hc⟩ := not_not.mp hu
      have hut : u ≠ t := by
        rintro rfl
        rw [hc] at hm
        cases hm
      exact deadlock_ahead htr ((hs.pos_of_ne hut).trans hc) hs.pos_self
    · obtain ⟨⟨c, rfl⟩, hf⟩ := Classical.not_imp.mp hbad
      obtain ⟨u, hu⟩ := not_forall.mp hf
      obtain ⟨d, hd⟩ := not_not.mp hu
      have hut : u ≠ t := by
        rintro rfl
        rw [hd] at hm
        cases hm
      exact deadlock_ahead htr hs.pos_self ((hs.pos_of_ne hut).trans hd)

end

def allIdle : Conf Nat Pos Mutex := ⟨fun _ => .idle, fun _ => none⟩

theorem deadlock_iff_spaced_idle :
    (∀ cfg, locks.Reaches Spaced allIdle cfg → ¬ locks.Deadlocked cfg) ∧
      ∀ cfg t p cfg₁, locks.Reaches AnyStep allIdle cfg → locks.Step cfg t p cfg₁ →
        ¬ Spaced cfg t p → ∃ cfg', locks.Reaches AnyStep cfg₁ cfg' ∧ locks.Deadlocked cfg' :=
  deadlock_iff_spaced ⟨fun _ => Or.inl rfl, fun _ => rfl⟩

/-- Thread 1 grows the first class while thread 0 forks: each waits for the other. -/
theorem fork_deadlocks :
    ¬ ∀ cfg, locks.Reaches AnyStep allIdle cfg → ¬ locks.Deadlocked cfg := by
  intro hall
  let c₁ := allIdle.goto 0 .forkSlot
  let c₂ := c₁.goto 1 (.mallocLock firstCls)
  let c₃ := (c₂.setOwner (.cls firstCls) (some 1)).goto 1 (.mallocIn firstCls)
  let c₄ := c₃.goto 1 (.growLock firstCls)
  let c₅ := (c₄.setOwner .slot (some 0)).goto 0 (.forkLock firstCls)
  have h₁ : locks.Step allIdle 0 .forkSlot c₁ := .tau .fork
  have h₂ : locks.Step c₁ 1 (.mallocLock firstCls) c₂ := .tau (.malloc firstCls)
  have h₃ : locks.Step c₂ 1 (.mallocIn firstCls) c₃ := .take (.mallocLock firstCls) rfl
  have h₄ : locks.Step c₃ 1 (.growLock firstCls) c₄ := .tau (.mallocGrow firstCls)
  have h₅ : locks.Step c₄ 0 (.forkLock firstCls) c₅ := .take .forkSlot rfl
  have hr : locks.Reaches AnyStep allIdle c₅ :=
    ((((Reaches.refl.step 0 _ trivial h₁).step 1 _ trivial h₂).step 1 _ trivial h₃).step
      1 _ trivial h₄).step 0 _ trivial h₅
  have hforkWaits : locks.WaitsFor c₅ 0 1 :=
    ⟨.cls firstCls, ⟨_, .forkLock firstCls (by decide)⟩, rfl⟩
  have hgrowWaits : locks.WaitsFor c₅ 1 0 := ⟨.slot, ⟨_, .growLock firstCls⟩, rfl⟩
  exact hall c₅ hr (deadlocked_of_pair hforkWaits hgrowWaits)

end Memflux.Alloc
