import Mathlib

/-! # Threads that lock and unlock

A lock program gives the positions of a thread, its moves from one position to
the next, and the mutexes it holds at each position. A configuration places every
thread and names the owner of every mutex. A deadlock is a cycle of threads, each
of them waiting for a mutex that the next one owns; ranking the mutexes rules it
out where every thread waits above what it holds.
-/

namespace LockGraph

inductive Act (M : Type) where
  | tau
  | take (m : M)
  | drop (m : M)

structure LockProgram (P M : Type) where
  Move : P → Act M → P → Prop
  Holds : P → M → Prop
  holds_tau : ∀ {p p' : P}, Move p .tau p' → ∀ x, Holds p' x ↔ Holds p x
  holds_take : ∀ {p p' : P} {m : M}, Move p (.take m) p' → ∀ x, Holds p' x ↔ x = m ∨ Holds p x
  holds_drop : ∀ {p p' : P} {m : M}, Move p (.drop m) p' → Holds p m
  holds_after_drop : ∀ {p p' : P} {m : M}, Move p (.drop m) p' →
    ∀ x, Holds p' x ↔ x ≠ m ∧ Holds p x

structure Conf (T P M : Type) where
  pos : T → P
  owner : M → Option T

section

variable {T P M : Type} [DecidableEq T] [DecidableEq M]

namespace Conf

/-- Thread `t` is at `p` now. -/
def goto (cfg : Conf T P M) (t : T) (p : P) : Conf T P M :=
  { cfg with pos := Function.update cfg.pos t p }

def setOwner (cfg : Conf T P M) (m : M) (o : Option T) : Conf T P M :=
  { cfg with owner := Function.update cfg.owner m o }

omit [DecidableEq M] in
@[simp] theorem goto_pos_self (cfg : Conf T P M) (t : T) (p : P) : (cfg.goto t p).pos t = p := by
  simp [goto]

omit [DecidableEq M] in
theorem goto_pos_of_ne (cfg : Conf T P M) {t u : T} (p : P) (h : u ≠ t) :
    (cfg.goto t p).pos u = cfg.pos u := by
  simp [goto, Function.update_of_ne h]

omit [DecidableEq M] in
@[simp] theorem goto_owner (cfg : Conf T P M) (t : T) (p : P) :
    (cfg.goto t p).owner = cfg.owner := rfl

omit [DecidableEq T] in
@[simp] theorem setOwner_pos (cfg : Conf T P M) (m : M) (o : Option T) :
    (cfg.setOwner m o).pos = cfg.pos := rfl

omit [DecidableEq T] in
@[simp] theorem setOwner_owner_self (cfg : Conf T P M) (m : M) (o : Option T) :
    (cfg.setOwner m o).owner m = o := by
  simp [setOwner]

omit [DecidableEq T] in
theorem setOwner_owner_of_ne (cfg : Conf T P M) {m x : M} (o : Option T) (h : x ≠ m) :
    (cfg.setOwner m o).owner x = cfg.owner x := by
  simp [setOwner, Function.update_of_ne h]

end Conf

namespace LockProgram

variable (L : LockProgram P M)

/-- Thread `t` moves to `p`; a mutex is taken only when nobody owns it. -/
inductive Step (cfg : Conf T P M) (t : T) (p : P) : Conf T P M → Prop where
  | tau : L.Move (cfg.pos t) .tau p → Step cfg t p (cfg.goto t p)
  | take {m : M} : L.Move (cfg.pos t) (.take m) p → cfg.owner m = none →
      Step cfg t p ((cfg.setOwner m (some t)).goto t p)
  | drop {m : M} : L.Move (cfg.pos t) (.drop m) p →
      Step cfg t p ((cfg.setOwner m none).goto t p)

/-- Interleavings whose steps all meet `ok`. -/
inductive Reaches (ok : Conf T P M → T → P → Prop) (cfg : Conf T P M) : Conf T P M → Prop where
  | refl : Reaches ok cfg cfg
  | step {cfg₁ cfg₂ : Conf T P M} (t : T) (p : P) : Reaches ok cfg cfg₁ → ok cfg₁ t p →
      L.Step cfg₁ t p cfg₂ → Reaches ok cfg cfg₂

/-- The owner of a mutex is the thread whose position holds it. -/
def Tracks (cfg : Conf T P M) : Prop := ∀ t m, cfg.owner m = some t ↔ L.Holds (cfg.pos t) m

/-- The next move of `t` takes `m`. -/
def Awaits (cfg : Conf T P M) (t : T) (m : M) : Prop := ∃ p, L.Move (cfg.pos t) (.take m) p

def WaitsFor (cfg : Conf T P M) (t u : T) : Prop :=
  ∃ m, L.Awaits cfg t m ∧ cfg.owner m = some u

/-- A cycle of threads, each waiting for a mutex that the next one owns. -/
def Deadlocked (cfg : Conf T P M) : Prop := ∃ t, Relation.TransGen (L.WaitsFor cfg) t t

variable {L}

/-! ## Steps -/

theorem Step.pos_self {cfg cfg' : Conf T P M} {t : T} {p : P} (h : L.Step cfg t p cfg') :
    cfg'.pos t = p := by
  cases h <;> simp

theorem Step.pos_of_ne {cfg cfg' : Conf T P M} {t u : T} {p : P} (h : L.Step cfg t p cfg')
    (hu : u ≠ t) : cfg'.pos u = cfg.pos u := by
  cases h <;> simp [Conf.goto_pos_of_ne _ _ hu]

theorem Step.move {cfg cfg' : Conf T P M} {t : T} {p : P} (h : L.Step cfg t p cfg') :
    ∃ a, L.Move (cfg.pos t) a p := by
  cases h with
  | tau hm => exact ⟨_, hm⟩
  | take hm _ => exact ⟨_, hm⟩
  | drop hm => exact ⟨_, hm⟩

theorem Step.tracks {cfg cfg' : Conf T P M} {t : T} {p : P} (h : L.Step cfg t p cfg')
    (htr : L.Tracks cfg) : L.Tracks cfg' := by
  intro u x
  cases h with
  | tau hm =>
      by_cases hu : u = t
      · subst hu
        simp only [Conf.goto_owner, Conf.goto_pos_self]
        rw [htr u x, L.holds_tau hm x]
      · simp only [Conf.goto_owner, Conf.goto_pos_of_ne _ _ hu]
        exact htr u x
  | @take m hm hfree =>
      by_cases hx : x = m
      · subst hx
        simp only [Conf.goto_owner, Conf.setOwner_owner_self]
        by_cases hu : u = t
        · subst hu
          simp [(L.holds_take hm x).mpr (Or.inl rfl)]
        · rw [Conf.goto_pos_of_ne _ _ hu, Conf.setOwner_pos, ← htr u x, hfree]
          simp [Ne.symm hu]
      · rw [Conf.goto_owner, Conf.setOwner_owner_of_ne _ _ hx, htr u x]
        by_cases hu : u = t
        · subst hu
          rw [Conf.goto_pos_self, L.holds_take hm x]
          simp [hx]
        · rw [Conf.goto_pos_of_ne _ _ hu, Conf.setOwner_pos]
  | @drop m hm =>
      have hown : cfg.owner m = some t := (htr t m).mpr (L.holds_drop hm)
      by_cases hx : x = m
      · subst hx
        rw [Conf.goto_owner, Conf.setOwner_owner_self]
        by_cases hu : u = t
        · subst hu
          rw [Conf.goto_pos_self, L.holds_after_drop hm x]
          simp
        · rw [Conf.goto_pos_of_ne _ _ hu, Conf.setOwner_pos, ← htr u x, hown]
          simp [Ne.symm hu]
      · rw [Conf.goto_owner, Conf.setOwner_owner_of_ne _ _ hx, htr u x]
        by_cases hu : u = t
        · subst hu
          rw [Conf.goto_pos_self, L.holds_after_drop hm x]
          simp [hx]
        · rw [Conf.goto_pos_of_ne _ _ hu, Conf.setOwner_pos]

/-! ## Runs -/

theorem Reaches.tracks {ok : Conf T P M → T → P → Prop} {cfg cfg' : Conf T P M}
    (h : L.Reaches ok cfg cfg') (htr : L.Tracks cfg) : L.Tracks cfg' := by
  induction h with
  | refl => exact htr
  | step _ _ _ _ hs ih => exact hs.tracks ih

theorem Reaches.invariant {ok : Conf T P M → T → P → Prop} {I : Conf T P M → Prop}
    {cfg cfg' : Conf T P M} (h : L.Reaches ok cfg cfg') (hi : I cfg)
    (hstep : ∀ {c c' : Conf T P M} {t : T} {p : P}, I c → ok c t p → L.Step c t p c' → I c') :
    I cfg' := by
  induction h with
  | refl => exact hi
  | step _ _ _ hok hs ih => exact hstep ih hok hs

theorem Reaches.trans {ok : Conf T P M → T → P → Prop} {cfg₁ cfg₂ cfg₃ : Conf T P M}
    (h₁ : L.Reaches ok cfg₁ cfg₂) (h₂ : L.Reaches ok cfg₂ cfg₃) : L.Reaches ok cfg₁ cfg₃ := by
  induction h₂ with
  | refl => exact h₁
  | step t p _ hok hs ih => exact ih.step t p hok hs

omit [DecidableEq T] [DecidableEq M] in
theorem Tracks.exclusive {cfg : Conf T P M} (htr : L.Tracks cfg) {t u : T} {m : M}
    (ht : L.Holds (cfg.pos t) m) (hu : L.Holds (cfg.pos u) m) : t = u := by
  have h₁ := (htr t m).mpr ht
  rw [(htr u m).mpr hu] at h₁
  exact (Option.some.inj h₁).symm

/-! ## Cycles -/

omit [DecidableEq T] [DecidableEq M] in
theorem rank_le_of_chain {cfg : Conf T P M} (htr : L.Tracks cfg) {rank : M → Nat}
    (hrank : ∀ t m x, L.Awaits cfg t m → L.Holds (cfg.pos t) x → rank x < rank m) {t u : T}
    (h : Relation.TransGen (L.WaitsFor cfg) t u) :
    ∃ m x, L.Awaits cfg t m ∧ L.Holds (cfg.pos u) x ∧ rank m ≤ rank x := by
  induction h with
  | single hw =>
      obtain ⟨m, ha, ho⟩ := hw
      exact ⟨m, m, ha, (htr _ m).mp ho, Nat.le_refl _⟩
  | tail _ hw ih =>
      obtain ⟨m, x, ha, hx, hle⟩ := ih
      obtain ⟨y, hy, ho⟩ := hw
      have hlt := hrank _ y x hy hx
      exact ⟨m, y, ha, (htr _ y).mp ho, by omega⟩

omit [DecidableEq T] [DecidableEq M] in
/-- Lock ordering: nobody is in a cycle when everybody waits above what they hold. -/
theorem not_deadlocked_of_rank {cfg : Conf T P M} (htr : L.Tracks cfg) (rank : M → Nat)
    (hrank : ∀ t m x, L.Awaits cfg t m → L.Holds (cfg.pos t) x → rank x < rank m) :
    ¬ L.Deadlocked cfg := by
  rintro ⟨t, hcycle⟩
  obtain ⟨m, x, ha, hx, hle⟩ := rank_le_of_chain htr hrank hcycle
  have hlt := hrank t m x ha hx
  omega

omit [DecidableEq T] [DecidableEq M] in
theorem deadlocked_of_pair {cfg : Conf T P M} {t u : T} (h₁ : L.WaitsFor cfg t u)
    (h₂ : L.WaitsFor cfg u t) : L.Deadlocked cfg :=
  ⟨t, (Relation.TransGen.single h₁).tail h₂⟩

end LockProgram

end

end LockGraph
