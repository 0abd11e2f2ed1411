import Memflux.Alloc.World

/-! # The thread cache on the hot path

`free` pushes to the cache of its thread and `malloc` pops from it, but only
`tcache()` makes a cache and nothing calls it. So no thread ever has one, and every
small `malloc` takes the lock of its class.
-/

namespace Memflux.Alloc

open Spans BitWords DList

/-! ## No thread gets a cache -/

def State.NoCache (s : State) : Prop := s.tcache = fun _ => none

theorem mapRegion_tcache (s : State) (os : Os) (size align : Nat) :
    (s.mapRegion os size align).2.tcache = s.tcache := by
  unfold State.mapRegion
  split
  · unfold State.reserveMap
    dsimp only
    split
    · rfl
    · split <;> rfl
  · split <;> rfl

theorem ensureInit_tcache (s : State) (os : Os) : (s.ensureInit os).tcache = s.tcache := by
  unfold State.ensureInit State.reserveInit
  split
  · rfl
  · split
    · split <;> rfl
    · rfl

theorem runTake_tcache {s s' : State} {a now : Nat} {ans : Option Nat}
    (h : s.runTake a now = .ok (ans, s')) : s'.tcache = s.tcache := by
  obtain ⟨r, -, h⟩ := bind_ok h
  cases hf : r.findFree with
  | none =>
      rw [hf] at h
      cases h
      rfl
  | some i =>
      rw [hf] at h
      cases h
      rfl

theorem runGive_tcache {s s' : State} {a p : Nat} {now : Nat → Nat}
    (h : s.runGive a p now = .ok s') : s'.tcache = s.tcache := by
  obtain ⟨r, -, h⟩ := bind_ok h
  cases h
  rfl

theorem runNew_tcache {s s' : State} {os : Os} {c : Nat} {ans : Option Nat}
    (h : Renewed s os c ans s') : s'.tcache = s.tcache := by
  have hmap := mapRegion_tcache s os (runMap c) kRunSize
  cases h with
  | refused region =>
      rw [region] at hmap
      exact hmap
  | mapped region insert =>
      rw [region] at hmap
      unfold State.runInsert at insert
      split at insert
      · cases insert
      · cases insert
        exact hmap

namespace State.NoCache

theorem congr {s s' : State} (h : s.NoCache) (hs : s'.tcache = s.tcache) : s'.NoCache := hs.trans h

theorem tcachePop {s : State} (h : s.NoCache) (t : Tid) (c : Nat) : s.tcachePop t c = none := by
  rw [NoCache] at h
  simp [State.tcachePop, h]

theorem tcachePush {s : State} (h : s.NoCache) (t : Tid) (c p : Nat) : s.tcachePush t c p = none := by
  rw [NoCache] at h
  simp [State.tcachePush, h]

theorem malloc {s s' : State} (h : s.NoCache) {t : Tid} {os : Os} {n : Nat} {ans : Option Nat}
    (hm : s.malloc t os n = .ok (ans, s')) : s'.NoCache := by
  have hinit : (s.ensureInit os).NoCache := h.congr (ensureInit_tcache s os)
  have hcases := malloc_cases hm
  cases hcases with
  | @refused size align s' request region =>
      have hmap := mapRegion_tcache (s.ensureInit os) os size align
      rw [region] at hmap
      exact hinit.congr hmap
  | large request region =>
      have hmap := mapRegion_tcache (s.ensureInit os) os (largeMap (if n = 0 then 1 else n)) 4096
      rw [region] at hmap
      exact hinit.congr hmap
  | cached request pop =>
      rw [hinit.tcachePop] at pop
      cases pop
  | taken request take => exact hinit.congr (runTake_tcache take)
  | grown small request fresh take =>
      exact hinit.congr ((runTake_tcache take).trans (runNew_tcache fresh))

theorem free {s s' : State} (h : s.NoCache) {t : Tid} {now : Nat → Nat} {p : Nat} {r : Freed}
    (hf : s.free t now p = .ok (r, s')) : s'.NoCache := by
  have hcases := release_cases hf
  cases hcases with
  | null ptr => exact h
  | libc foreign => exact h
  | ignored => exact h
  | cached own run push =>
      rw [h.tcachePush] at push
      cases push
  | small own run full give => exact h.congr (runGive_tcache give)
  | large call =>
      obtain ⟨l, n, -, rfl⟩ := freeLarge_ok call
      exact h

theorem calloc {s s' : State} (h : s.NoCache) {t : Tid} {os : Os} {nm sz : Nat} {ans : Option Nat}
    (hc : s.calloc t os nm sz = .ok (ans, s')) : s'.NoCache := by
  have hcases := calloc_cases hc
  cases hcases with
  | overflow big => exact h
  | refused size call => exact h.malloc call
  | zeroed size call mapped => exact (h.malloc call).congr rfl

theorem realloc {s s' : State} (h : s.NoCache) {t : Tid} {os : Os} {p n : Nat} {ans : Reply}
    (hr : s.realloc t os p n = .ok (ans, s')) : s'.NoCache := by
  have hcases := realloc_cases hr
  cases hcases with
  | fresh null call => exact h.malloc call
  | emptied ptr zero release call => exact (h.free release).malloc call
  | forwarded ptr size foreign => exact h
  | inPlace ptr size own fits => exact h
  | refused ptr size own moves call => exact h.malloc call
  | moved ptr size own moves call copy release =>
      obtain ⟨-, -, hcopy⟩ := memcpy_ok copy
      have hcache := congrArg State.tcache hcopy
      exact ((h.malloc call).congr hcache).free release

theorem posixMemalign {s s' : State} (h : s.NoCache) {t : Tid} {os : Os} {outNull : Bool}
    {align n : Nat} {r : Aligned} (hp : s.posixMemalign t os outNull align n = .ok (r, s')) :
    s'.NoCache := by
  have hcases := posixMemalign_cases hp
  cases hcases with
  | invalid bad => exact h
  | refused out ok call => exact h.malloc call
  | aligned out ok call => exact h.malloc call

theorem purgeRun {s s' : State} (h : s.NoCache) {a t : Nat} (hp : s.purgeRun a t = .ok s') :
    s'.NoCache := by
  have hcases := purgeRun_cases hp
  cases hcases with
  | unmapped run idle unlinked => exact h
  | advised run busy dirty mem n pages => exact h
  | untouched run busy clean => exact h

theorem trimPass {s s' : State} {t : Nat} (h : s.NoCache) (hp : s.trimPass t = .ok s') :
    s'.NoCache :=
  trimPass_keeps (fun _ _ _ hs hp => hs.purgeRun hp) h hp

theorem exec {s s' : State} (h : s.NoCache) {t : Tid} {os : Os} {op : Op} {ans : Option Nat}
    (he : s.exec t os op = .ok (ans, s')) : s'.NoCache := by
  cases op with
  | malloc n => exact h.malloc he
  | calloc nm sz => exact h.calloc he
  | realloc p n =>
      obtain ⟨⟨r, s₁⟩, hr, he⟩ := bind_ok he
      cases he
      exact h.realloc hr
  | posixMemalign outNull align n =>
      obtain ⟨⟨r, s₁⟩, hp, he⟩ := bind_ok he
      have h₁ := h.posixMemalign hp
      cases r with
      | einval =>
          cases he
          exact h₁
      | enomem =>
          cases he
          exact h₁
      | ok q =>
          cases he
          exact h₁
  | free p =>
      obtain ⟨⟨r, s₁⟩, hf, he⟩ := bind_ok he
      cases he
      exact h.free hf
  | trim clock =>
      obtain ⟨s₁, ht, he⟩ := bind_ok he
      cases he
      exact h.trimPass ht
  | write mem =>
      cases he
      exact h

end State.NoCache

def AnyCall (_ : State) (_ : Tid) (_ : Os) (_ : Op) : Prop := True

theorem reaches_noCache {s s' : State} (h : s.NoCache) (hr : s.Reaches AnyCall s') : s'.NoCache := by
  induction hr with
  | refl => exact h
  | step t os op ans _ _ he ih => exact ih.exec he

/-! ## The hot path -/

/-- The class locks that a `malloc(n)` acquires. -/
def State.mallocLocks (s : State) (t : Tid) (os : Os) (n : Nat) : List Nat :=
  if kLargeMin ≤ bytesAsked n then []
  else
    match (s.ensureInit os).tcachePop t (classOf (bytesAsked n) - 1) with
    | some _ => []
    | none => [classOf (bytesAsked n) - 1]

/-- Thread `t` frees small blocks of class `c`, in this order, while the other threads
take steps. -/
inductive Frees (t : Tid) (c : Nat) : State → List Nat → State → Prop where
  | nil (s : State) : Frees t c s [] s
  | other {s s₁ s' : State} {ps : List Nat} (u : Tid) (os : Os) (op : Op) (ans : Option Nat)
      (apart : u ≠ t) : s.exec u os op = .ok (ans, s₁) → Frees t c s₁ ps s' → Frees t c s ps s'
  | free {s s₁ s' : State} {ps : List Nat} {a i : Nat} {r : Run} (os : Os) (ans : Option Nat)
      (block : SmallBlock s a r i) (cls : r.cls = c + 1) :
        s.exec t os (.free (blockAddr a r i)) = .ok (ans, s₁) → Frees t c s₁ ps s' →
          Frees t c s (blockAddr a r i :: ps) s'

/-- Thread `t` calls `malloc` for class `c`, while the other threads take steps; each
call is listed with its answer and the class locks it acquires. -/
inductive Mallocs (t : Tid) (c : Nat) : State → List (Option Nat × List Nat) → State → Prop where
  | nil (s : State) : Mallocs t c s [] s
  | other {s s₁ s' : State} {l : List (Option Nat × List Nat)} (u : Tid) (os : Os) (op : Op)
      (ans : Option Nat) (apart : u ≠ t) : s.exec u os op = .ok (ans, s₁) → Mallocs t c s₁ l s' →
        Mallocs t c s l s'
  | malloc {s s₁ s' : State} {l : List (Option Nat × List Nat)} (os : Os) (n : Nat)
      (ans : Option Nat) (small : bytesAsked n < kLargeMin) (cls : classOf (bytesAsked n) = c + 1) :
        s.exec t os (.malloc n) = .ok (ans, s₁) → Mallocs t c s₁ l s' →
          Mallocs t c s ((ans, s.mallocLocks t os n) :: l) s'

theorem frees_noCache {t : Tid} {c : Nat} {s s' : State} {ps : List Nat} (h : s.NoCache)
    (hf : Frees t c s ps s') : s'.NoCache := by
  induction hf with
  | nil => exact h
  | other u os op ans apart step rest ih => exact ih (h.exec step)
  | free os ans block cls step rest ih => exact ih (h.exec step)

theorem noCache_mallocLocks {s : State} (h : s.NoCache) (t : Tid) (os : Os) {n : Nat}
    (hsmall : bytesAsked n < kLargeMin) :
    s.mallocLocks t os n = [classOf (bytesAsked n) - 1] := by
  have hinit : (s.ensureInit os).NoCache := h.congr (ensureInit_tcache s os)
  rw [State.mallocLocks, if_neg (Nat.not_le.mpr hsmall), hinit.tcachePop]

theorem mallocs_locked {t : Tid} {c : Nat} {s s' : State} {l : List (Option Nat × List Nat)}
    (h : s.NoCache) (hm : Mallocs t c s l s') : ∀ x ∈ l, x.2 = [c] := by
  induction hm with
  | nil => simp
  | other u os op ans apart step rest ih => exact ih (h.exec step)
  | malloc os n ans small cls step rest ih =>
      intro x hx
      rcases List.mem_cons.mp hx with rfl | hx
      · rw [noCache_mallocLocks h t os small, cls, Nat.add_sub_cancel]
      · exact ih (h.exec step) x hx

/-- In every reachable state: after a thread has freed blocks of a class, its next
as many `malloc`s of the class return them last freed first and without a lock only
if there are none. -/
theorem hot_path_iff {runIdle dirtyIdle : Nat} {s s₁ s₂ : State}
    (hreach : (State.init runIdle dirtyIdle).Reaches AnyCall s) {t : Tid} {c : Nat}
    {ps : List Nat} (hf : Frees t c s ps s₁) {l : List (Option Nat × List Nat)}
    (hm : Mallocs t c s₁ l s₂) (hlen : l.length = ps.length) :
    l = ps.reverse.map (fun p => (some p, [])) ↔ ps = [] := by
  have hinit : (State.init runIdle dirtyIdle).NoCache := rfl
  have hlocks := mallocs_locked (frees_noCache (reaches_noCache hinit hreach) hf) hm
  constructor
  · intro hhot
    cases l with
    | nil => exact List.eq_nil_of_length_eq_zero hlen.symm
    | cons x l =>
        have hx := hlocks x List.mem_cons_self
        have hin : x ∈ ps.reverse.map (fun p => (some p, ([] : List Nat))) := by
          rw [← hhot]
          exact List.mem_cons_self
        obtain ⟨p, -, rfl⟩ := List.mem_map.mp hin
        cases hx
  · intro hnone
    subst hnone
    exact List.eq_nil_of_length_eq_zero hlen

/-! ## A run that shows it -/

/-- Thread 0 frees `p`, block `i` of the run at 2^30, and `next` holds after it. -/
def freeTest (next : State → Bool) (p i : Nat) (s : State) : Bool :=
  (s.runs (2 ^ 30)).any fun r =>
    decide ((i < r.elems ∧ bitAt r.bits i = false) ∧ r.cls = 1 ∧ blockAddr (2 ^ 30) r i = p) &&
      (s.exec 0 (Os.granting (2 ^ 30) 1) (.free p)).toOption.any fun x => next x.2

/-- `malloc(8)` of thread 0 returns `p` and takes the lock, and `next` holds after it. -/
def mallocTest (next : State → Bool) (p : Nat) (s : State) : Bool :=
  decide (s.mallocLocks 0 (Os.granting (2 ^ 30) 1) 8 = [0]) &&
    (s.exec 0 (Os.granting (2 ^ 30) 1) (.malloc 8)).toOption.any fun x =>
      decide (x.1 = some p) && next x.2

theorem frees_of_test {next : State → Bool} {p i : Nat} {s : State}
    (h : freeTest next p i s = true) :
    ∃ s₁, next s₁ = true ∧ ∀ ps s', Frees 0 0 s₁ ps s' → Frees 0 0 s (p :: ps) s' := by
  obtain ⟨r, hr, h⟩ := (Option.any_eq_true _ _).mp h
  obtain ⟨hblock, hexec⟩ := Bool.and_eq_true_iff.mp h
  obtain ⟨⟨hi, hbit⟩, hcls, rfl⟩ := of_decide_eq_true hblock
  obtain ⟨⟨ans, s₁⟩, he, hnext⟩ := World.ok_of_any hexec
  exact ⟨s₁, hnext, fun ps s' hf => .free _ ans ⟨hr, hi, hbit⟩ hcls he hf⟩

theorem mallocs_of_test {next : State → Bool} {p : Nat} {s : State}
    (h : mallocTest next p s = true) :
    ∃ s₁, next s₁ = true ∧ ∀ l s', Mallocs 0 0 s₁ l s' → Mallocs 0 0 s ((some p, [0]) :: l) s' := by
  obtain ⟨hlocks, hexec⟩ := Bool.and_eq_true_iff.mp h
  obtain ⟨⟨ans, s₁⟩, he, hx⟩ := World.ok_of_any hexec
  obtain ⟨hans, hnext⟩ := Bool.and_eq_true_iff.mp hx
  obtain rfl := of_decide_eq_true hans
  refine ⟨s₁, hnext, fun l s' hm => ?_⟩
  rw [← of_decide_eq_true hlocks]
  exact .malloc _ 8 _ (by decide) (by decide) he hm

/-- Two blocks of 8 bytes are freed, the lower one first, and come back in that order. -/
theorem freed_in_order :
    ∃ s s₁ s₂, (State.init 0 0).Reaches AnyCall s ∧
      Frees 0 0 s [1073754112, 1073754120] s₁ ∧
        Mallocs 0 0 s₁ [(some 1073754112, [0]), (some 1073754120, [0])] s₂ := by
  have hplay : ∃ s, (State.init 0 0).Reaches AnyCall s ∧
      freeTest (freeTest (mallocTest (mallocTest (fun _ => true) 1073754120) 1073754112)
        1073754120 1) 1073754112 0 s = true :=
    State.Reaches.refl.play
      (l := [(0, Os.granting (2 ^ 30) 1, .malloc 8), (0, Os.granting (2 ^ 30) 1, .malloc 8)])
      (fun _ _ _ => trivial) (by decide +kernel)
  obtain ⟨s, hreach, htest⟩ := hplay
  obtain ⟨_, htest, hfree₁⟩ := frees_of_test htest
  obtain ⟨s₁, htest, hfree₂⟩ := frees_of_test htest
  obtain ⟨_, htest, hmalloc₁⟩ := mallocs_of_test htest
  obtain ⟨s₂, -, hmalloc₂⟩ := mallocs_of_test htest
  exact ⟨s, s₁, s₂, hreach, hfree₁ _ _ (hfree₂ _ _ (.nil _)), hmalloc₁ _ _ (hmalloc₂ _ _ (.nil _))⟩

/-- After `free(p₁)` and `free(p₂)` the next two calls return `p₁` and then `p₂`, each
under the lock of the class. -/
theorem hot_path_fails :
    ∃ s s₁ s₂ l, (State.init 0 0).Reaches AnyCall s ∧
      Frees 0 0 s [1073754112, 1073754120] s₁ ∧ Mallocs 0 0 s₁ l s₂ ∧ l.length = 2 ∧
        l ≠ [1073754112, 1073754120].reverse.map fun p => (some p, []) := by
  obtain ⟨s, s₁, s₂, hreach, hf, hm⟩ := freed_in_order
  exact ⟨s, s₁, s₂, _, hreach, hf, hm, rfl, by decide⟩

/-- The theorem at these two calls. -/
theorem hot_path_two :
    ∃ s s₁ s₂ l, (State.init 0 0).Reaches AnyCall s ∧
      Frees 0 0 s [1073754112, 1073754120] s₁ ∧ Mallocs 0 0 s₁ l s₂ ∧ l.length = 2 ∧
        (l = [1073754112, 1073754120].reverse.map (fun p => (some p, [])) ↔
          [1073754112, 1073754120] = ([] : List Nat)) := by
  obtain ⟨s, s₁, s₂, hreach, hf, hm⟩ := freed_in_order
  exact ⟨s, s₁, s₂, _, hreach, hf, hm, rfl, hot_path_iff hreach hf hm rfl⟩

end Memflux.Alloc
