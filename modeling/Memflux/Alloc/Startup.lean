import Memflux.Alloc.Foreign
import Memflux.Alloc.Aligned

/-! # First calls of several threads

`ensure_init` in its atomic steps: the thread that wins the exchange of `res_done`
makes the reservation, the others go on to `pthread_once` without waiting for it.
Whoever allocates while there is no reservation gets a mapping of its own from the
kernel, and `free` and `realloc` judge that pointer later, by the reservation that
is there then.
-/

namespace Memflux.Alloc

open Spans BitWords DList

/-! ## The steps -/

namespace State

/-- `if(!g_res_start) reserve_init();` -/
def reserveOnce (s : State) (os : Os) : State := if s.resStart = 0 then s.reserveInit os else s

def doInit (s : State) (os : Os) : State := { s with tkeyOk := os.keyOk, ready := true }

end State

namespace Startup

/-- Where a thread stands in a `malloc(n)` that found `g_ready` false; `allocating` is
also where a thread stands that found it true. -/
inductive Phase where
  | out
  | entering (n : Nat)
  | exchanging (n : Nat)
  | reserving (n : Nat)
  | once (n : Nat)
  | starting (n : Nat)
  | checking (n : Nat)
  | allocating (n : Nat)
  deriving DecidableEq

inductive Step where
  /-- Enter `malloc(n)` and read `g_ready`. -/
  | call (n : Nat)
  /-- `started.load`. -/
  | load
  /-- `res_done.compare_exchange_strong`. -/
  | exchange
  | reserve
  /-- `pthread_once(&g_init_once, do_init)`. -/
  | once
  /-- `started.compare_exchange_strong`. -/
  | start
  /-- Back in `malloc`, read `g_ready` again. -/
  | check
  | allocate
  /-- A whole call of a thread that finds `g_ready` true, a trim pass, or a write. -/
  | op (o : Op)

structure Boot where
  st : State
  held : List Held
  resDone : Bool
  started : Bool
  phase : Tid → Phase

namespace Boot

def init (runIdle dirtyIdle : Nat) : Boot where
  st := State.init runIdle dirtyIdle
  held := []
  resDone := false
  started := false
  phase := fun _ => .out

def world (g : Boot) : World := ⟨g.st, g.held⟩

def move (g : Boot) (t : Tid) (p : Phase) : Boot := { g with phase := put g.phase t p }

/-- One atomic step of thread `t`, if it stands where the step begins. -/
def step (g : Boot) (t : Tid) (os : Os) : Step → Option Boot
  | .call n =>
      match g.phase t with
      | .out => some (g.move t (if g.st.ready then .allocating n else .entering n))
      | _ => none
  | .load =>
      match g.phase t with
      | .entering n => some (g.move t (if g.started then .checking n else .exchanging n))
      | _ => none
  | .exchange =>
      match g.phase t with
      | .exchanging n =>
          some { g.move t (if g.resDone then .once n else .reserving n) with resDone := true }
      | _ => none
  | .reserve =>
      match g.phase t with
      | .reserving n => some { g.move t (.once n) with st := g.st.reserveOnce os }
      | _ => none
  | .once =>
      match g.phase t with
      | .once n =>
          some { g.move t (.starting n) with st := if g.st.ready then g.st else g.st.doInit os }
      | _ => none
  | .start =>
      match g.phase t with
      | .starting n => some { g.move t (.checking n) with started := true }
      | _ => none
  | .check =>
      match g.phase t with
      | .checking n => some (g.move t (if g.st.ready then .allocating n else .out))
      | _ => none
  | .allocate =>
      match g.phase t with
      | .allocating n =>
          match g.st.mallocReady t os (bytesAsked n) with
          | .ok (ans, s) => some { g.move t .out with st := s, held := gain ans g.held }
          | .error _ => none
      | _ => none
  | .op o =>
      match g.phase t with
      | .out =>
          if g.st.ready then
            match g.world.exec t os o with
            | .ok (_, w) => some { g with st := w.st, held := w.held }
            | .error _ => none
          else none
      | _ => none

inductive Reaches (ok : Boot → Tid → Os → Step → Prop) (g : Boot) : Boot → Prop where
  | refl : Reaches ok g g
  | step {g₁ g₂ : Boot} (t : Tid) (os : Os) (e : Step) : Reaches ok g g₁ → ok g₁ t os e →
      g₁.step t os e = some g₂ → Reaches ok g g₂

/-- The kernel reserves sanely, the clients use their own blocks, and no size and no
bump pointer wraps. -/
def Valid (g : Boot) (t : Tid) (os : Os) : Step → Prop
  | .allocate => os.Sane ∧ ∀ n, g.phase t = .allocating n → g.st.MallocNeeds Grantable t os n
  | .op o => g.world.Clean t os o
  | _ => os.Sane

end Boot

/-- The calls that may map memory. -/
def Allocates : Op → Prop
  | .malloc _ => True
  | .calloc _ _ => True
  | .realloc _ _ => True
  | .posixMemalign _ _ _ => True
  | _ => False

/-- No call allocates before the reservation is there. -/
def Boot.Prompt (g : Boot) (t : Tid) (os : Os) (e : Step) : Prop :=
  g.Valid t os e ∧ match e with
    | .allocate => g.st.resStart ≠ 0
    | .op o => Allocates o → g.st.resStart ≠ 0
    | _ => True

/-! ## What prompt histories keep -/

/-- The state as it is once `do_init` has run. -/
def opened (s : State) : State := { s with ready := true }

theorem opened_of_ready {s : State} (h : s.ready = true) : opened s = s := by
  unfold opened
  rw [← h]

/-- Nothing is mapped before the reservation is there, and nothing is allocated
before `do_init` has run. -/
structure Orderly (g : Boot) : Prop where
  sound : Sound (opened g.st) g.held
  quiet : g.st.ready = false → g.held = []
  bare : g.st.resStart = 0 → g.st.maps = [] ∧ g.held = []
  phase : ∀ t n, g.phase t = .allocating n → g.st.ready = true

theorem orderly_init (runIdle dirtyIdle : Nat) : Orderly (Boot.init runIdle dirtyIdle) where
  sound := by
    refine (init_sound runIdle dirtyIdle).congr rfl rfl rfl rfl rfl ?_
    exact ⟨fun h => (nomatch h), fun h => absurd rfl h, fun _ => rfl⟩
  quiet := fun _ => rfl
  bare := fun _ => ⟨rfl, rfl⟩
  phase := fun _ _ h => nomatch h

theorem no_headers {s : State} {held : List Held} (h : Sound s held) (hmaps : s.maps = []) :
    s.runs = (fun _ => none) ∧ s.larges = fun _ => none := by
  obtain ⟨L, hcore⟩ := h.core
  constructor
  · funext a
    cases hr : s.runs a with
    | none => rfl
    | some r =>
        obtain ⟨g, hg, -⟩ := hcore.maps.ofRun a r hr
        rw [hmaps] at hg
        cases hg
  · funext a
    cases hl : s.larges a with
    | none => rfl
    | some l =>
        obtain ⟨-, g, hg, -⟩ := hcore.maps.ofLarge a l hl
        rw [hmaps] at hg
        cases hg

/-- `reserve_init` in a state without mappings, whatever the other threads have done. -/
theorem reserveOnce_sound {s : State} {held : List Held} (h : Sound (opened s) held)
    (hbare : s.resStart = 0 → s.maps = []) {os : Os} (hos : os.Sane) :
    Sound (opened (s.reserveOnce os)) held := by
  unfold State.reserveOnce
  by_cases h0 : s.resStart = 0
  · rw [if_pos h0]
    obtain ⟨hruns, hlarges⟩ := no_headers h (hbare h0)
    have hclosed : Ledger { s with ready := false } :=
      ⟨fun _ => ⟨h0, hbare h0, hruns, hlarges⟩, fun h' => absurd h0 h', fun _ => h.ledger.closed h0⟩
    have hinit := hclosed.ensureInit hos
    have hunready : ¬ ({ s with ready := false } : State).ready = true := fun hr => nomatch hr
    rw [ensureInit_unready hunready h0] at hinit
    unfold State.reserveInit
    cases hres : os.reserve with
    | none => exact h
    | some p =>
        simp only [hres] at hinit
        exact h.congr rfl rfl rfl rfl rfl
          (hinit.frame ⟨rfl, rfl, rfl, rfl, rfl, rfl, fun x r hr => ⟨r, hr, rfl, rfl⟩⟩)
  · rw [if_neg h0]
    exact h

theorem reserveOnce_frame (s : State) (os : Os) : (s.reserveOnce os).ready = s.ready ∧
    (s.reserveOnce os).maps = s.maps ∧ ((s.reserveOnce os).resStart = 0 → s.resStart = 0) := by
  unfold State.reserveOnce
  by_cases h0 : s.resStart = 0
  · rw [if_pos h0]
    unfold State.reserveInit
    split <;> exact ⟨rfl, rfl, fun _ => h0⟩
  · rw [if_neg h0]
    exact ⟨rfl, rfl, id⟩

theorem Orderly.moved {g : Boot} (h : Orderly g) {t : Tid} {p : Phase} (resDone started : Bool)
    (hp : ∀ n, p = .allocating n → g.st.ready = true) :
    Orderly { g.move t p with resDone := resDone, started := started } := by
  refine ⟨h.sound, h.quiet, h.bare, fun t' n hphase => ?_⟩
  by_cases ht : t' = t
  · have hphase : put g.phase t p t' = .allocating n := hphase
    rw [ht, put_same] at hphase
    exact hp n hphase
  · have hphase : put g.phase t p t' = .allocating n := hphase
    rw [put_other _ _ ht] at hphase
    exact h.phase t' n hphase

theorem Orderly.reserve {g : Boot} (h : Orderly g) {os : Os} (hos : os.Sane) :
    Orderly { g with st := g.st.reserveOnce os } := by
  obtain ⟨hready, hmaps, hstart⟩ := reserveOnce_frame g.st os
  refine ⟨reserveOnce_sound h.sound (fun h0 => (h.bare h0).1) hos, fun hr => ?_, fun h0 => ?_,
    fun t n hp => ?_⟩
  · exact h.quiet (hready.symm.trans hr)
  · obtain ⟨hm, hheld⟩ := h.bare (hstart h0)
    exact ⟨hmaps.trans hm, hheld⟩
  · exact hready.trans (h.phase t n hp)

theorem Orderly.doInit {g : Boot} (h : Orderly g) (os : Os) :
    Orderly { g with st := g.st.doInit os } := by
  have hledger : Ledger (opened (g.st.doInit os)) :=
    h.sound.ledger.frame ⟨rfl, rfl, rfl, rfl, rfl, rfl, fun x r hr => ⟨r, hr, rfl, rfl⟩⟩
  exact ⟨h.sound.congr rfl rfl rfl rfl rfl hledger, fun hr => (nomatch hr), h.bare, fun _ _ _ => rfl⟩

theorem Orderly.allocate {g : Boot} (h : Orderly g) (hready : g.st.ready = true)
    (h0 : g.st.resStart ≠ 0) {t : Tid} {os : Os} (hos : os.Sane) {n : Nat}
    (hneeds : g.st.MallocNeeds Grantable t os n) {ans : Option Nat} {s : State}
    (hm : g.st.mallocReady t os (bytesAsked n) = .ok (ans, s)) :
    Orderly { g with st := s, held := gain ans g.held } := by
  have hsound := h.sound
  rw [opened_of_ready hready] at hsound
  have hcall : g.st.malloc t os n = .ok (ans, s) := by
    rw [State.malloc, ensureInit_of_ready hready]
    exact hm
  obtain ⟨ans', s₁, hm', hout, -, -⟩ := hsound.malloc hos hneeds
  rw [hcall] at hm'
  cases hm'
  rw [ensureInit_of_ready hready] at hout
  obtain ⟨hr, hstart, -⟩ := hout.reservation
  have hr : s.ready = true := hr.trans hready
  refine ⟨?_, fun hr' => ?_, fun h0' => absurd (hstart ▸ h0') h0, fun _ _ _ => hr⟩
  · rw [opened_of_ready hr]
    exact hsound.mallocOk hos hneeds hcall
  · have hr' : s.ready = false := hr'
    rw [hr] at hr'
    cases hr'

theorem exec_start {w w' : World} (hs : Sound w.st w.held) (h0 : w.st.resStart ≠ 0) {t : Tid} {os : Os}
    {o : Op} (hok : w.Clean t os o) {ans : Option Nat} (he : w.exec t os o = .ok (ans, w')) :
    w'.st.resStart ≠ 0 := by
  obtain ⟨⟨ans', s'⟩, he', hw⟩ := bind_ok he
  cases hw
  by_cases htrim : ∃ clock, o = .trim clock
  · obtain ⟨clock, rfl⟩ := htrim
    obtain ⟨s₁, ht, hret⟩ := bind_ok he'
    cases hret
    show s'.resStart ≠ 0
    rw [(hs.trim ht).2.reservation.2.1]
    exact h0
  · have hwide := hs.exec_widens hok (fun clock hop => htrim ⟨clock, hop⟩) he'
    show s'.resStart ≠ 0
    rw [(hwide.reservation h0).1]
    exact h0

/-- Before there is a reservation, a prompt step of a client changes no header, no
mapping and nothing that is held. -/
theorem exec_bare {w w' : World} (hs : Sound w.st w.held) (hmaps : w.st.maps = [])
    (hheld : w.held = []) {t : Tid} {os : Os} {o : Op} (hok : w.Clean t os o) (ho : ¬ Allocates o)
    {ans : Option Nat} (he : w.exec t os o = .ok (ans, w')) :
    w'.st.ready = w.st.ready ∧ w'.st.maps = [] ∧ w'.held = [] := by
  obtain ⟨⟨ans', s'⟩, he', hw⟩ := bind_ok he
  cases hw
  obtain ⟨-, -, -, hlegal⟩ := hok
  cases o with
  | malloc n => exact absurd trivial ho
  | calloc nm sz => exact absurd trivial ho
  | realloc p n => exact absurd trivial ho
  | posixMemalign outNull align n => exact absurd trivial ho
  | free p =>
      rcases hlegal with rfl | ⟨e, he, -⟩
      · cases he'
        refine ⟨rfl, hmaps, ?_⟩
        show drop 0 w.held = []
        rw [hheld]
        rfl
      · rw [hheld] at he
        cases he
  | trim clock =>
      obtain ⟨s₁, ht, hret⟩ := bind_ok he'
      cases hret
      have htrims := (hs.trim ht).2
      have hsub := htrims.maps
      rw [hmaps] at hsub
      exact ⟨htrims.reservation.1, List.sublist_nil.mp hsub, hheld⟩
  | write mem =>
      cases he'
      exact ⟨rfl, hmaps, hheld⟩

theorem Orderly.op {g : Boot} (h : Orderly g) (hready : g.st.ready = true) {t : Tid} {os : Os} {o : Op}
    (hok : g.world.Clean t os o) (hprompt : Allocates o → g.st.resStart ≠ 0) {ans : Option Nat}
    {w : World} (he : g.world.exec t os o = .ok (ans, w)) :
    Orderly { g with st := w.st, held := w.held } := by
  have hsound := h.sound
  rw [opened_of_ready hready] at hsound
  have hsound : Sound g.world.st g.world.held := hsound
  have hsound' := hsound.exec hok he
  have hafter : w.st.ready = true ∧ (w.st.resStart = 0 → w.st.maps = [] ∧ w.held = []) := by
    by_cases h0 : g.st.resStart = 0
    · obtain ⟨hmaps, hheld⟩ := h.bare h0
      obtain ⟨hr, hm, hh⟩ := exec_bare hsound hmaps hheld hok (fun ho => hprompt ho h0) he
      exact ⟨hr.trans hready, fun _ => ⟨hm, hh⟩⟩
    · have h0' := exec_start hsound h0 hok he
      refine ⟨?_, fun hz => absurd hz h0'⟩
      by_contra hr
      exact h0' (hsound'.ledger.unready (by simpa using hr)).1
  obtain ⟨hr, hbare⟩ := hafter
  refine ⟨?_, fun hr' => ?_, hbare, fun _ _ _ => hr⟩
  · rw [opened_of_ready hr]
    exact hsound'
  · have hr' : w.st.ready = false := hr'
    rw [hr] at hr'
    cases hr'

theorem Orderly.step {g g' : Boot} (h : Orderly g) {t : Tid} {os : Os} {e : Step}
    (hok : g.Prompt t os e) (hstep : g.step t os e = some g') : Orderly g' := by
  obtain ⟨hvalid, hprompt⟩ := hok
  unfold Boot.step at hstep
  cases e with
  | call n =>
      dsimp only at hstep
      split at hstep
      · cases hstep
        refine h.moved g.resDone g.started fun m hm => ?_
        split at hm
        · assumption
        · cases hm
      · cases hstep
  | load =>
      dsimp only at hstep
      split at hstep
      · cases hstep
        refine h.moved g.resDone g.started fun m hm => ?_
        split at hm <;> cases hm
      · cases hstep
  | exchange =>
      dsimp only at hstep
      split at hstep
      · cases hstep
        refine h.moved true g.started fun m hm => ?_
        split at hm <;> cases hm
      · cases hstep
  | reserve =>
      dsimp only at hstep
      split at hstep
      · cases hstep
        exact (h.reserve hvalid).moved g.resDone g.started fun m hm => nomatch hm
      · cases hstep
  | once =>
      dsimp only at hstep
      split at hstep
      · cases hstep
        by_cases hr : g.st.ready = true
        · simp only [hr, if_true]
          exact h.moved g.resDone g.started fun m hm => nomatch hm
        · simp only [hr, Bool.false_eq_true, if_false]
          exact (h.doInit os).moved g.resDone g.started fun m hm => nomatch hm
      · cases hstep
  | start =>
      dsimp only at hstep
      split at hstep
      · cases hstep
        exact h.moved g.resDone true fun m hm => nomatch hm
      · cases hstep
  | check =>
      dsimp only at hstep
      split at hstep
      · cases hstep
        refine h.moved g.resDone g.started fun m hm => ?_
        split at hm
        · assumption
        · cases hm
      · cases hstep
  | allocate =>
      dsimp only at hstep
      split at hstep
      · rename_i n hphase
        split at hstep
        · rename_i ans s hm
          cases hstep
          exact (h.allocate (h.phase t n hphase) hprompt hvalid.1 (hvalid.2 n hphase) hm).moved
            g.resDone g.started fun m hm => nomatch hm
        · cases hstep
      · cases hstep
  | op o =>
      dsimp only at hstep
      split at hstep
      · split at hstep
        · rename_i hready
          split at hstep
          · rename_i ans w he
            cases hstep
            exact h.op hready hvalid hprompt he
          · cases hstep
        · cases hstep
      · cases hstep

theorem Orderly.reaches {runIdle dirtyIdle : Nat} {g : Boot}
    (h : (Boot.init runIdle dirtyIdle).Reaches Boot.Prompt g) : Orderly g := by
  induction h with
  | refl => exact orderly_init runIdle dirtyIdle
  | step t os e _ hok hstep ih => exact ih.step hok hstep

/-! ## Delegation -/

/-- `free(p)` releases the block, and `realloc(p, m)` is answered by the allocator
and keeps the bytes of the block that fit. -/
structure Delegated (s : State) (p : Nat) (t : Tid) (os : Os) (m : Nat) : Prop where
  freed : ∃ f s', s.free t os.now p = .ok (f, s') ∧ (f = .small ∨ f = .large) ∧
    ∀ x, ¬ Within s' p x
  resized : ∃ ans s', s.realloc t os p m = .ok (⟨ans, false⟩, s') ∧
    ∀ q, ans = some q → ∀ j, Within s p (p + j) → j < m → s'.mem (q + j) = s.mem (p + j)

/-- In every interleaving of first calls in which no thread allocates before the
reservation is there: a live pointer is handled by the allocator exactly when it is
a block that begins in the first 2 MiB of its run. -/
theorem delegation_iff {runIdle dirtyIdle : Nat} {g : Boot}
    (h : (Boot.init runIdle dirtyIdle).Reaches Boot.Prompt g) {e : Held} (he : e ∈ g.held) {t : Tid}
    {os : Os} {m : Nat} (hok : g.world.Clean t os (.realloc e.ptr m))
    (hm : m + sizeofLargeHdr < 2 ^ 64) :
    Delegated g.st e.ptr t os m ↔
      ∃ a r i, SmallBlock g.st a r i ∧ e.ptr = blockAddr a r i ∧ blockOffset r i < kRunSize := by
  have horderly := Orderly.reaches h
  have hready : g.st.ready = true := by
    by_contra hr
    rw [horderly.quiet (by simpa using hr)] at he
    cases he
  have h0 : g.st.resStart ≠ 0 := by
    intro h0
    rw [(horderly.bare h0).2] at he
    cases he
  have hsound := horderly.sound
  rw [opened_of_ready hready] at hsound
  obtain ⟨L, hcore⟩ := hsound.core
  constructor
  · rintro ⟨⟨f, s', hf, hkind, -⟩, -⟩
    exact (hsound.freed_start he hf hkind).2
  · rintro ⟨a, r, i, hb, hp, hlow⟩
    have hres := hsound.ledger.reserved h0
    obtain ⟨hbase, hours⟩ := hcore.recognised hres hb hlow
    have hself : Within g.st (blockAddr a r i) (blockAddr a r i) :=
      .small hb rfl (Nat.le_refl _) (Nat.lt_add_of_pos_right (hcore.run a r hb.run).elem_pos)
    have hf := hcore.free_small hb (hcore.inReserve hres hself) (t := t) (by rw [hsound.caches])
      os.now hbase hours
    rw [hp] at hok ⊢
    obtain ⟨ans, s', hcall, hcopy⟩ := Sound.realloc_recognised (w := g.world) hsound h0 hb hlow hok hm
    refine ⟨⟨_, _, hf, .inl rfl, hcore.given_gone hb os.now⟩, ans, s', hcall, fun q hq j hj hjm => ?_⟩
    have hend := hcore.within_small hb hj
    exact hcopy q hq j (by omega)

/-! ## Checked histories -/

/-- A mapping request that the reservation serves without wrap-around, or that the
kernel answers with a fresh range. -/
def grantTest (s : State) (os : Os) (size align : Nat) : Bool :=
  if s.resStart = 0 then
    match State.mmapAnon os size with
    | none => true
    | some a => decide (0 < a ∧ a % 4096 = 0 ∧ 0 < size ∧ size % 4096 = 0 ∧ a + size ≤ 2 ^ 64 ∧
        ∀ g ∈ s.maps, a + size ≤ g.base ∨ g.stop ≤ a)
  else decide (s.resBump + size + align < 2 ^ 64)

theorem grantTest_grantable {s : State} {os : Os} {size align : Nat}
    (h : grantTest s os size align = true) : Grantable s os size align := by
  unfold grantTest at h
  by_cases h0 : s.resStart = 0
  · rw [if_pos h0] at h
    refine ⟨fun hne => absurd h0 hne, fun _ a ha => ?_⟩
    rw [ha] at h
    obtain ⟨h₁, h₂, h₃, h₄, h₅, h₆⟩ := of_decide_eq_true h
    exact ⟨h₁, h₂, h₃, h₄, h₅, h₆⟩
  · rw [if_neg h0] at h
    exact ⟨fun _ => of_decide_eq_true h, fun hz => absurd hz h0⟩

namespace Boot

def validTest (g : Boot) (t : Tid) (os : Os) : Step → Bool
  | .allocate => os.saneTest &&
      match g.phase t with
      | .allocating n =>
          match (g.st.ensureInit os).asks t (bytesAsked n) with
          | none => true
          | some (size, align) => grantTest (g.st.ensureInit os) os size align
      | _ => true
  | .op _ => false
  | _ => os.saneTest

theorem validTest_valid {g : Boot} {t : Tid} {os : Os} {e : Step} (h : g.validTest t os e = true) :
    g.Valid t os e := by
  cases e with
  | allocate =>
      obtain ⟨hos, hask⟩ := Bool.and_eq_true_iff.mp h
      refine ⟨World.saneTest_sane hos, fun n hn size align hsize => ?_⟩
      rw [hn] at hask
      unfold bytesAsked at hask
      dsimp only at hask
      rw [hsize] at hask
      exact grantTest_grantable hask
  | op o => cases h
  | call n => exact World.saneTest_sane h
  | load => exact World.saneTest_sane h
  | exchange => exact World.saneTest_sane h
  | reserve => exact World.saneTest_sane h
  | once => exact World.saneTest_sane h
  | start => exact World.saneTest_sane h
  | check => exact World.saneTest_sane h

/-- The steps of a list that pass `ok`, one after the other, then a test of the state
reached. -/
def playTest (ok : Boot → Tid → Os → Step → Bool) (g : Boot) (test : Boot → Bool) :
    List (Tid × Os × Step) → Bool
  | [] => test g
  | (t, os, e) :: l =>
      ok g t os e &&
        match g.step t os e with
        | some g => g.playTest ok test l
        | none => false

theorem Reaches.play {ok : Boot → Tid → Os → Step → Bool} {P : Boot → Tid → Os → Step → Prop}
    (hok : ∀ g t os e, ok g t os e = true → P g t os e) {g g₁ : Boot} (h : g.Reaches P g₁)
    {test : Boot → Bool} {l : List (Tid × Os × Step)} (hl : g₁.playTest ok test l = true) :
    ∃ g', g.Reaches P g' ∧ test g' = true := by
  induction l generalizing g₁ with
  | nil => exact ⟨g₁, h, hl⟩
  | cons x l ih =>
      obtain ⟨t, os, e⟩ := x
      obtain ⟨hpass, hrest⟩ := Bool.and_eq_true_iff.mp hl
      cases hstep : g₁.step t os e with
      | none =>
          rw [hstep] at hrest
          cases hrest
      | some g₂ =>
          rw [hstep] at hrest
          exact ih (h.step t os e (hok _ _ _ _ hpass) hstep) hrest

def promptTest (g : Boot) (t : Tid) (os : Os) (e : Step) : Bool :=
  g.validTest t os e && match e with
    | .allocate => decide (g.st.resStart ≠ 0)
    | _ => true

theorem promptTest_prompt {g : Boot} {t : Tid} {os : Os} {e : Step}
    (h : g.promptTest t os e = true) : g.Prompt t os e := by
  obtain ⟨hvalid, hprompt⟩ := Bool.and_eq_true_iff.mp h
  refine ⟨validTest_valid hvalid, ?_⟩
  cases e with
  | allocate => exact of_decide_eq_true hprompt
  | op o => cases hvalid
  | _ => trivial

end Boot

def firstCall (t : Tid) (os : Os) (n : Nat) : List (Tid × Os × Step) :=
  [.call n, .load, .exchange, .reserve, .once, .start, .check, .allocate].map fun e => (t, os, e)

/-- A second thread passes `do_init` while the first is about to make the reservation, and
allocates once it is there: its block is resized and freed by the allocator. -/
theorem delegation_raced :
    ∃ g, (Boot.init 0 0).Reaches Boot.Prompt g ∧ g.held.map Held.ptr = [1080045568, 1073745920] ∧
      Delegated g.st 1073745920 1 (Os.granting (2 ^ 30) 1) 100 := by
  let os := Os.granting (2 ^ 30) 1
  have hplay : ∃ g, (Boot.init 0 0).Reaches Boot.Prompt g ∧
      (decide (g.held = [⟨1080045568, 1080045568⟩, ⟨1073745920, 1073745920⟩]) &&
        ((g.st.runs 1073741824).any fun r =>
          decide (1073745920 = blockAddr 1073741824 r 0 ∧ 0 < r.elems ∧ bitAt r.bits 0 = false ∧
            blockOffset r 0 < kRunSize)) &&
        g.st.askTest 1 os 100) = true := by
    refine Boot.Reaches.refl.play (fun _ _ _ _ => Boot.promptTest_prompt)
      (l := ([(0, .call 8), (0, .load), (0, .exchange), (1, .call 4096), (1, .load), (1, .exchange),
        (1, .once), (1, .start), (0, .reserve), (1, .check), (1, .allocate), (0, .once), (0, .start),
        (0, .check), (0, .allocate)] : List (Tid × Step)).map fun e => (e.1, os, e.2)) ?_
    decide +kernel
  obtain ⟨g, hreach, htest⟩ := hplay
  simp only [Bool.and_eq_true] at htest
  obtain ⟨⟨hheld, hrun⟩, hask⟩ := htest
  have hheld := of_decide_eq_true hheld
  have he : ⟨1073745920, 1073745920⟩ ∈ g.held := by simp [hheld]
  obtain ⟨r, hr, hfields⟩ := (Option.any_eq_true _ _).mp hrun
  obtain ⟨haddr, hpos, hbit, hlow⟩ := of_decide_eq_true hfields
  have hneeds := World.askTest_needs hask
  have hclean : g.world.Clean 1 os (.realloc 1073745920 100) :=
    ⟨granting_sane 1, fun _ _ _ => hneeds, trivial, .inr ⟨_, he, rfl⟩⟩
  exact ⟨g, hreach, congrArg (List.map Held.ptr) hheld,
    (delegation_iff hreach he hclean (by decide)).mpr ⟨1073741824, r, 0, ⟨hr, hpos, hbit⟩, haddr, hlow⟩⟩

/-- A kernel that maps at 16 MiB whatever is asked of it outside a reservation. -/
def mapping (reserve : Option Nat) : Os where
  reserve := reserve
  keyOk := true
  anon := some (2 ^ 24)
  fixedOk := true
  now := fun _ => 1
  libc := none

/-- `reserve_init` fails, or a second thread allocates while the first has not made the
reservation yet: `free` and `realloc` ignore the block, or hand it to libc. -/
theorem delegation_fails :
    (∃ g e, (Boot.init 0 0).Reaches Boot.Valid g ∧ e ∈ g.held ∧
      (∃ s, g.st.free 0 (fun _ => 1) e.ptr = .ok (.ignored, s)) ∧
      ∃ s, g.st.realloc 0 (mapping none) e.ptr 100 = .ok (⟨none, true⟩, s)) ∧
    ∃ g e, (Boot.init 0 0).Reaches Boot.Valid g ∧ e ∈ g.held ∧
      (∃ s, g.st.free 0 (fun _ => 1) e.ptr = .ok (.libc, s)) ∧
      ∃ s, g.st.realloc 0 (mapping (some (2 ^ 30))) e.ptr 100 = .ok (⟨none, true⟩, s) := by
  have hfailed : ∃ g, (Boot.init 0 0).Reaches Boot.Valid g ∧
      (decide (⟨16781312, 16781312⟩ ∈ g.held) &&
        (g.st.free 0 (fun _ => 1) 16781312).toOption.any (fun x => decide (x.1 = .ignored)) &&
        (g.st.realloc 0 (mapping none) 16781312 100).toOption.any
          fun x => decide (x.1 = ⟨none, true⟩)) = true :=
    Boot.Reaches.refl.play (fun _ _ _ _ => Boot.validTest_valid)
      (l := firstCall 0 (mapping none) 4096) (by decide +kernel)
  have hovertaken : ∃ g, (Boot.init 0 0).Reaches Boot.Valid g ∧
      (decide (⟨16781312, 16781312⟩ ∈ g.held) &&
        (g.st.free 0 (fun _ => 1) 16781312).toOption.any (fun x => decide (x.1 = .libc)) &&
        (g.st.realloc 0 (mapping (some (2 ^ 30))) 16781312 100).toOption.any
          fun x => decide (x.1 = ⟨none, true⟩)) = true := by
    refine Boot.Reaches.refl.play (fun _ _ _ _ => Boot.validTest_valid)
      (l := ([(0, .call 8), (0, .load), (0, .exchange), (1, .call 4096), (1, .load), (1, .exchange),
        (1, .once), (1, .start), (1, .check), (1, .allocate), (0, .reserve)] :
          List (Tid × Step)).map fun e => (e.1, mapping (some (2 ^ 30)), e.2)) ?_
    decide +kernel
  obtain ⟨g₁, hreach₁, htest₁⟩ := hfailed
  obtain ⟨g₂, hreach₂, htest₂⟩ := hovertaken
  simp only [Bool.and_eq_true] at htest₁ htest₂
  obtain ⟨⟨hheld₁, hfree₁⟩, hrealloc₁⟩ := htest₁
  obtain ⟨⟨hheld₂, hfree₂⟩, hrealloc₂⟩ := htest₂
  obtain ⟨⟨f₁, s₁⟩, hf₁, hignored⟩ := World.ok_of_any hfree₁
  obtain ⟨⟨r₁, u₁⟩, hr₁, hlibc₁⟩ := World.ok_of_any hrealloc₁
  obtain ⟨⟨f₂, s₂⟩, hf₂, hlibc⟩ := World.ok_of_any hfree₂
  obtain ⟨⟨r₂, u₂⟩, hr₂, hlibc₂⟩ := World.ok_of_any hrealloc₂
  obtain rfl : f₁ = .ignored := of_decide_eq_true hignored
  obtain rfl : r₁ = ⟨none, true⟩ := of_decide_eq_true hlibc₁
  obtain rfl : f₂ = .libc := of_decide_eq_true hlibc
  obtain rfl : r₂ = ⟨none, true⟩ := of_decide_eq_true hlibc₂
  exact ⟨⟨g₁, _, hreach₁, of_decide_eq_true hheld₁, ⟨s₁, hf₁⟩, u₁, hr₁⟩,
    g₂, _, hreach₂, of_decide_eq_true hheld₂, ⟨s₂, hf₂⟩, u₂, hr₂⟩

end Startup

end Memflux.Alloc
