import Memflux.Alloc.Api

/-! # Histories of calls

`Op` lists what can happen to the allocator between two instants at which no
thread is inside it: one of the entry points, a trim pass, or client code writing
to memory. `Reaches` is a history of such steps, each with its own answers of the
kernel; a parameter restricts the steps of the histories under discussion.
-/

namespace Memflux.Alloc

open Spans BitWords DList

theorem bind_ok {ε α β : Type} {x : Except ε α} {f : α → Except ε β} {b : β}
    (h : (x >>= f) = .ok b) : ∃ a, x = .ok a ∧ f a = .ok b := by
  cases x with
  | error e => cases h
  | ok a => exact ⟨a, rfl, h⟩

theorem memcpy_ok {s s' : State} {q p n : Nat} (h : s.memcpy q p n = .ok s') :
    s.readable p n = true ∧ s.readable q n = true ∧
      s' = s.fill q n fun x => s.mem (p + (x - q)) := by
  unfold State.memcpy at h
  split at h
  · cases h
  · split at h
    · cases h
    · rename_i h₁ h₂
      cases h
      exact ⟨by simpa using h₁, by simpa using h₂, rfl⟩

/-! ## The thread cache -/

theorem tcachePush_some {s s' : State} {t : Tid} {c p : Nat} (h : s.tcachePush t c p = some s') :
    ∃ tc, s.tcache t = some tc ∧ (tc.buf c).length < kTCap ∧
      s' = s.setTcache t (some ⟨put tc.buf c (p :: tc.buf c)⟩) := by
  unfold State.tcachePush at h
  split at h
  · split at h
    · cases h
    · rename_i tc htc
      split at h
      · rename_i hroom
        exact ⟨tc, htc, hroom, (Option.some.inj h).symm⟩
      · cases h
  · cases h

theorem tcachePop_some {s s' : State} {t : Tid} {c p : Nat} (h : s.tcachePop t c = some (p, s')) :
    ∃ tc rest, s.tcache t = some tc ∧ tc.buf c = p :: rest ∧
      s' = s.setTcache t (some ⟨put tc.buf c rest⟩) := by
  unfold State.tcachePop at h
  split at h
  · split at h
    · cases h
    · rename_i tc htc
      split at h
      · cases h
      · rename_i q rest hbuf
        cases h
        exact ⟨tc, rest, htc, hbuf, rfl⟩
  · cases h

/-! ## What the calls built on `malloc` and `free` can do -/

inductive Calloced (s : State) (t : Tid) (os : Os) (nm sz : Nat) : Option Nat → State → Prop where
  | overflow (big : 2 ^ 64 ≤ nm * sz) : Calloced s t os nm sz none s
  | refused {s₁ : State} (size : nm * sz < 2 ^ 64)
      (call : s.malloc t os (nm * sz) = .ok (none, s₁)) : Calloced s t os nm sz none s₁
  | zeroed {s₁ : State} {p : Nat} (size : nm * sz < 2 ^ 64)
      (call : s.malloc t os (nm * sz) = .ok (some p, s₁)) (mapped : s₁.readable p (nm * sz) = true) :
      Calloced s t os nm sz (some p) (s₁.fill p (nm * sz) fun _ => 0)

theorem calloc_cases {s s' : State} {t : Tid} {os : Os} {nm sz : Nat} {ans : Option Nat}
    (h : s.calloc t os nm sz = .ok (ans, s')) : Calloced s t os nm sz ans s' := by
  unfold State.calloc at h
  split at h
  · cases h
    exact .overflow (by assumption)
  · have hsize : nm * sz < 2 ^ 64 := by omega
    obtain ⟨⟨p, s₁⟩, h₁, h⟩ := bind_ok h
    cases p with
    | none =>
        cases h
        exact .refused hsize h₁
    | some p =>
        obtain ⟨s₂, h₂, h⟩ := bind_ok h
        cases h
        unfold State.memsetZero at h₂
        split at h₂
        · cases h₂
          exact .zeroed hsize h₁ (by assumption)
        · cases h₂

inductive Realloced (s : State) (t : Tid) (os : Os) (p n : Nat) : Reply → State → Prop where
  | fresh {q : Option Nat} {s' : State} (null : p = 0) (call : s.malloc t os n = .ok (q, s')) :
      Realloced s t os p n ⟨q, false⟩ s'
  | emptied {f : Freed} {s₁ s' : State} {q : Option Nat} (ptr : p ≠ 0) (zero : n = 0)
      (release : s.free t os.now p = .ok (f, s₁))
      (call : s₁.malloc t (os.after 2) 1 = .ok (q, s')) : Realloced s t os p n ⟨q, false⟩ s'
  | forwarded (ptr : p ≠ 0) (size : n ≠ 0) (foreign : s.oldSize p = .ok none) :
      Realloced s t os p n ⟨os.libc, true⟩ s
  | inPlace {old : Nat} (ptr : p ≠ 0) (size : n ≠ 0) (own : s.oldSize p = .ok (some old))
      (fits : n ≤ old ∧ old < kLargeMin ∧ old / 2 < n) : Realloced s t os p n ⟨some p, false⟩ s
  | refused {old : Nat} {s' : State} (ptr : p ≠ 0) (size : n ≠ 0)
      (own : s.oldSize p = .ok (some old)) (moves : ¬ (n ≤ old ∧ old < kLargeMin ∧ old / 2 < n))
      (call : s.malloc t os n = .ok (none, s')) : Realloced s t os p n ⟨none, false⟩ s'
  | moved {old q : Nat} {s₁ s₂ s' : State} {f : Freed} (ptr : p ≠ 0) (size : n ≠ 0)
      (own : s.oldSize p = .ok (some old)) (moves : ¬ (n ≤ old ∧ old < kLargeMin ∧ old / 2 < n))
      (call : s.malloc t os n = .ok (some q, s₁)) (copy : s₁.memcpy q p (min old n) = .ok s₂)
      (release : s₂.free t (os.after 2).now p = .ok (f, s')) :
      Realloced s t os p n ⟨some q, false⟩ s'

theorem realloc_cases {s s' : State} {t : Tid} {os : Os} {p n : Nat} {r : Reply}
    (h : s.realloc t os p n = .ok (r, s')) : Realloced s t os p n r s' := by
  unfold State.realloc at h
  split at h
  · obtain ⟨⟨q, s₁⟩, h₁, h⟩ := bind_ok h
    cases h
    exact .fresh (by assumption) h₁
  · rename_i hp
    split at h
    · obtain ⟨⟨f, s₁⟩, h₁, h⟩ := bind_ok h
      obtain ⟨⟨q, s₂⟩, h₂, h⟩ := bind_ok h
      cases h
      exact .emptied hp (by assumption) h₁ h₂
    · rename_i hn
      obtain ⟨old, h₁, h⟩ := bind_ok h
      cases old with
      | none =>
          cases h
          exact .forwarded hp hn h₁
      | some old =>
          dsimp only at h
          split at h
          · cases h
            exact .inPlace hp hn h₁ (by assumption)
          · rename_i hmove
            obtain ⟨⟨q, s₁⟩, h₂, h⟩ := bind_ok h
            cases q with
            | none =>
                cases h
                exact .refused hp hn h₁ hmove h₂
            | some q =>
                obtain ⟨s₂, h₃, h⟩ := bind_ok h
                obtain ⟨⟨f, s₃⟩, h₄, h⟩ := bind_ok h
                cases h
                exact .moved hp hn h₁ hmove h₂ h₃ h₄

inductive Memaligned (s : State) (t : Tid) (os : Os) (outNull : Bool) (align n : Nat) :
    Aligned → State → Prop where
  | invalid (bad : outNull = true ∨ State.memalignAlign align = none) :
      Memaligned s t os outNull align n .einval s
  | refused {a : Nat} {s' : State} (out : outNull = false) (ok : State.memalignAlign align = some a)
      (call : s.malloc t os (State.memalignNeed a n) = .ok (none, s')) :
      Memaligned s t os outNull align n .enomem s'
  | aligned {a p : Nat} {s' : State} (out : outNull = false) (ok : State.memalignAlign align = some a)
      (call : s.malloc t os (State.memalignNeed a n) = .ok (some p, s')) :
      Memaligned s t os outNull align n (.ok (State.alignPtr p a)) s'

theorem posixMemalign_cases {s s' : State} {t : Tid} {os : Os} {outNull : Bool} {align n : Nat}
    {r : Aligned} (h : s.posixMemalign t os outNull align n = .ok (r, s')) :
    Memaligned s t os outNull align n r s' := by
  unfold State.posixMemalign at h
  split at h
  · cases h
    exact .invalid (.inl (by assumption))
  · rename_i hout
    have hout : outNull = false := by simpa using hout
    cases ha : State.memalignAlign align with
    | none =>
        rw [ha] at h
        cases h
        exact .invalid (.inr ha)
    | some a =>
        rw [ha] at h
        obtain ⟨⟨p, s₁⟩, h₁, h⟩ := bind_ok h
        cases p with
        | none =>
            cases h
            exact .refused hout ha h₁
        | some p =>
            cases h
            exact .aligned hout ha h₁

/-! ## What `free` can do -/

inductive Released (s : State) (t : Tid) (now : Nat → Nat) (p : Nat) : Freed → State → Prop where
  | null (ptr : p = 0) : Released s t now p .null s
  | libc (foreign : s.resStart ≠ 0 ∧ ¬ s.inReserve p = true) : Released s t now p .libc s
  | ignored : Released s t now p .ignored s
  | cached {r : Run} {s' : State} (own : s.oursSmall p = .ok true)
      (run : s.runs (runOf p) = some r) (push : s.tcachePush t (r.cls - 1) p = some s') :
      Released s t now p .cached s'
  | small {r : Run} {s' : State} (own : s.oursSmall p = .ok true)
      (run : s.runs (runOf p) = some r) (full : s.tcachePush t (r.cls - 1) p = none)
      (give : s.runGive (runOf p) p now = .ok s') : Released s t now p .small s'
  | large {r : Freed} {s' : State} (call : s.freeLarge p = .ok (r, s')) : Released s t now p r s'

theorem release_cases {s s' : State} {t : Tid} {now : Nat → Nat} {p : Nat} {r : Freed}
    (h : s.free t now p = .ok (r, s')) : Released s t now p r s' := by
  unfold State.free at h
  split at h
  · cases h
    exact .null (by assumption)
  · split at h
    · cases h
      exact .libc (by assumption)
    · split at h
      · obtain ⟨small, hsmall, h⟩ := bind_ok h
        cases small with
        | true =>
            simp only [if_true] at h
            unfold State.freeSmall at h
            split at h
            · cases h
            · rename_i r hr
              split at h
              · rename_i hpush
                cases h
                exact .cached hsmall hr hpush
              · rename_i hpush
                obtain ⟨s₁, hgive, h⟩ := bind_ok h
                cases h
                exact .small hsmall hr hpush hgive
        | false =>
            simp only [Bool.false_eq_true, if_false] at h
            obtain ⟨large, -, h⟩ := bind_ok h
            cases large with
            | true => exact .large h
            | false =>
                cases h
                exact .ignored
      · cases h
        exact .ignored

theorem freeLarge_ok {s s' : State} {p : Nat} {r : Freed} (h : s.freeLarge p = .ok (r, s')) :
    ∃ l n, s.larges (p - sizeofLargeHdr) = some l ∧
      s' = { s.munmap (p - sizeofLargeHdr) l.mapSize with freedToOs := n } := by
  unfold State.freeLarge at h
  dsimp only at h
  split at h
  · cases h
  · rename_i l hl
    split at h
    · cases h
    · cases h
      exact ⟨l, _, hl, rfl⟩

/-! ## What a purge can do -/

theorem run_ok {s : State} {a : Nat} {r : Run} (h : s.run a = .ok r) : s.runs a = some r := by
  unfold State.run at h
  cases hr : s.runs a with
  | none => rw [hr] at h; cases h
  | some q => rw [hr] at h; cases h; rfl

/-- The bytes that change are zero then, and lie in one of the pages. -/
theorem adviseAll_eq (s : State) (d : Nat) (offs : List Nat) :
    ∃ mem n, s.adviseAll d offs = { s with mem := mem, purged := n } ∧
      ∀ x, mem x ≠ s.mem x → mem x = 0 ∧ ∃ off ∈ offs, d + off ≤ x ∧ x < d + off + 4096 := by
  induction offs generalizing s with
  | nil => exact ⟨s.mem, s.purged, rfl, fun _ h => absurd rfl h⟩
  | cons off offs ih =>
      obtain ⟨mem, n, he, hmem⟩ :=
        ih { s.dontNeed (d + off) with purged := s.purged + 4096 }
      refine ⟨mem, n, ?_, ?_⟩
      · show State.adviseAll { s.dontNeed (d + off) with purged := s.purged + 4096 } d offs = _
        rw [he]
        rfl
      · intro x hx
        by_cases hlater : mem x = (s.dontNeed (d + off)).mem x
        · by_cases hin : d + off ≤ x ∧ x < d + off + 4096
          · exact ⟨hlater.trans (if_pos hin), off, List.mem_cons_self, hin⟩
          · exact absurd (hlater.trans (if_neg hin)) hx
        · obtain ⟨hzero, off', ho, h⟩ := hmem x hlater
          exact ⟨hzero, off', List.mem_cons_of_mem off ho, h⟩

inductive Purged (s : State) (a t : Nat) : State → Prop where
  | unmapped {r : Run} {runs : Nat → Option Run} {head : Nat} (run : s.runs a = some r)
      (idle : s.runIdle r t = true)
      (unlinked : unlink s.runs (s.cls (r.cls - 1)).head a = some (runs, head)) :
      Purged s a t
        { State.munmap
            { s with
              runs := runs
              cls := put s.cls (r.cls - 1) { s.cls (r.cls - 1) with head := head } }
            a (pageUp (runBytes r.elems r.elem)) with
          freedToOs := s.freedToOs + pageUp (runBytes r.elems r.elem) }
  | advised {r : Run} (run : s.runs a = some r) (busy : ¬ s.runIdle r t = true)
      (dirty : s.dirtyIdle r t = true) (mem : Nat → UInt8) (n : Nat)
      (pages : ∀ x, mem x ≠ s.mem x →
        mem x = 0 ∧ ∃ off ∈ Run.purgeOffsets { r with lastTouchMs := t },
          runData a r + off ≤ x ∧ x < runData a r + off + 4096) :
      Purged s a t { s.setRun a { r with lastTouchMs := t } with mem := mem, purged := n }
  | untouched {r : Run} (run : s.runs a = some r) (busy : ¬ s.runIdle r t = true)
      (clean : ¬ s.dirtyIdle r t = true) : Purged s a t s

theorem purgeRun_cases {s s' : State} {a t : Nat} (h : s.purgeRun a t = .ok s') :
    Purged s a t s' := by
  obtain ⟨r, hr, h⟩ := bind_ok h
  have hr := run_ok hr
  split at h
  · obtain ⟨s₁, hrem, h⟩ := bind_ok h
    cases h
    unfold State.runRemove at hrem
    split at hrem
    · cases hrem
    · cases hrem
      exact .unmapped hr (by assumption) (by assumption)
  · rename_i hbusy
    split at h
    · cases h
      obtain ⟨mem, n, hadv, hmem⟩ := adviseAll_eq (s.setRun a { r with lastTouchMs := t })
        (runData a { r with lastTouchMs := t }) (Run.purgeOffsets { r with lastTouchMs := t })
      rw [hadv]
      exact .advised hr hbusy (by assumption) mem n hmem
    · cases h
      exact .untouched hr hbusy (by assumption)

theorem purgeWalk_keeps {t : Nat} {P : State → Prop}
    (hstep : ∀ s a s', P s → s.purgeRun a t = .ok s' → P s') {fuel a : Nat} {s s' : State} (h : P s)
    (hw : State.purgeWalk t fuel s a = .ok s') : P s' := by
  induction fuel generalizing s a with
  | zero =>
      unfold State.purgeWalk at hw
      split at hw
      · cases hw
        exact h
      · cases hw
  | succ fuel ih =>
      unfold State.purgeWalk at hw
      split at hw
      · cases hw
        exact h
      · obtain ⟨r, -, hw⟩ := bind_ok hw
        obtain ⟨s₁, hp, hw⟩ := bind_ok hw
        exact ih (hstep s a s₁ h hp) hw

theorem trimPass_keeps {t : Nat} {P : State → Prop}
    (hstep : ∀ s a s', P s → s.purgeRun a t = .ok s' → P s') {s s' : State} (h : P s)
    (hp : s.trimPass t = .ok s') : P s' := by
  unfold State.trimPass at hp
  split at hp
  · rename_i hready
    clear hready
    generalize List.range kNumClasses = cs at hp
    induction cs generalizing s with
    | nil =>
        cases hp
        exact h
    | cons c cs ih =>
        rw [List.foldlM_cons] at hp
        obtain ⟨s₁, h₁, hp⟩ := bind_ok hp
        exact ih (purgeWalk_keeps hstep h h₁) hp
  · cases hp
    exact h

/-! ## Histories -/

/-- What the kernel promises of the address of the reservation: a page boundary,
not zero, with the whole terabyte in the user half of the address space. -/
def Os.Sane (os : Os) : Prop :=
  ∀ p, os.reserve = some p → 0 < p ∧ p % 4096 = 0 ∧ p + kReserveSize ≤ 2 ^ 63

inductive Op where
  | malloc (n : Nat)
  | calloc (nm sz : Nat)
  | realloc (p n : Nat)
  | posixMemalign (outNull : Bool) (align n : Nat)
  | free (p : Nat)
  | trim (clock : Nat)
  | write (mem : Nat → UInt8)

namespace State

def exec (s : State) (t : Tid) (os : Os) : Op → Except Trap (Option Nat × State)
  | .malloc n => s.malloc t os n
  | .calloc nm sz => s.calloc t os nm sz
  | .realloc p n => do
      let (r, s) ← s.realloc t os p n
      .ok (r.ptr, s)
  | .posixMemalign outNull align n => do
      let (r, s) ← s.posixMemalign t os outNull align n
      match r with
      | .ok q => .ok (some q, s)
      | _ => .ok (none, s)
  | .free p => do
      let (_, s) ← s.free t os.now p
      .ok (none, s)
  | .trim clock => do
      let s ← s.trimPass clock
      .ok (none, s)
  | .write mem => .ok (none, { s with mem := mem })

/-- The mapping that `malloc(n)` asks for in an initialised state, if it asks for one. -/
def asks (s : State) (t : Tid) (n : Nat) : Option (Nat × Nat) :=
  if kLargeMin ≤ n then some (largeMap n, 4096)
  else
    match s.tcachePop t (classOf n - 1) with
    | some _ => none
    | none =>
        match s.firstRoom s.maps.length (s.cls (classOf n - 1)).head with
        | .ok 0 => some (runMap (classOf n - 1), kRunSize)
        | _ => none

/-- A `reserve_map(size, align)` in this state does not wrap the bump pointer. -/
def BumpFits (s : State) (_ : Os) (size align : Nat) : Prop :=
  s.resStart ≠ 0 → s.resBump + size + align < 2 ^ 64

/-- The mapping request of a `malloc(n)`, if it makes one, meets `P` in the state
in which it is made. -/
def MallocNeeds (P : State → Os → Nat → Nat → Prop) (s : State) (t : Tid) (os : Os) (n : Nat) : Prop :=
  ∀ size align, (s.ensureInit os).asks t (if n = 0 then 1 else n) = some (size, align) →
    P (s.ensureInit os) os size align

/-- The mapping request of a step, if it makes one, meets `P`. -/
def OpNeeds (P : State → Os → Nat → Nat → Prop) (s : State) (t : Tid) (os : Os) : Op → Prop
  | .malloc n => s.MallocNeeds P t os n
  | .calloc nm sz => nm * sz < 2 ^ 64 → s.MallocNeeds P t os (nm * sz)
  | .realloc p n =>
      if p = 0 then s.MallocNeeds P t os n
      else if n = 0 then
        ∀ r s', s.free t os.now p = .ok (r, s') → s'.MallocNeeds P t (os.after 2) 1
      else
        ∀ old, s.oldSize p = .ok (some old) → ¬ (n ≤ old ∧ old < kLargeMin ∧ old / 2 < n) →
          s.MallocNeeds P t os n
  | .posixMemalign outNull align n =>
      outNull = false → ∀ a, memalignAlign align = some a → s.MallocNeeds P t os (memalignNeed a n)
  | _ => True

theorem MallocNeeds.mono {P Q : State → Os → Nat → Nat → Prop}
    (hPQ : ∀ s os size align, P s os size align → Q s os size align) {s : State} {t : Tid} {os : Os}
    {n : Nat} (h : s.MallocNeeds P t os n) : s.MallocNeeds Q t os n :=
  fun size align hasks => hPQ _ _ _ _ (h size align hasks)

theorem OpNeeds.mono {P Q : State → Os → Nat → Nat → Prop}
    (hPQ : ∀ s os size align, P s os size align → Q s os size align) {s : State} {t : Tid} {os : Os}
    {op : Op} (h : s.OpNeeds P t os op) : s.OpNeeds Q t os op := by
  cases op with
  | malloc n => exact MallocNeeds.mono hPQ h
  | calloc nm sz => exact fun hov => (h hov).mono hPQ
  | realloc p n =>
      simp only [OpNeeds] at h ⊢
      split
      · rename_i hp
        rw [if_pos hp] at h
        exact h.mono hPQ
      · rename_i hp
        rw [if_neg hp] at h
        split
        · rename_i hn
          rw [if_pos hn] at h
          exact fun r s' hf => (h r s' hf).mono hPQ
        · rename_i hn
          rw [if_neg hn] at h
          exact fun old ho hm => (h old ho hm).mono hPQ
  | posixMemalign outNull align n => exact fun ho a ha => (h ho a ha).mono hPQ
  | free p => trivial
  | trim clock => trivial
  | write mem => trivial

inductive Reaches (ok : State → Tid → Os → Op → Prop) (s : State) : State → Prop where
  | refl : Reaches ok s s
  | step {s₁ s₂ : State} (t : Tid) (os : Os) (op : Op) (ans : Option Nat) : Reaches ok s s₁ →
      ok s₁ t os op → s₁.exec t os op = .ok (ans, s₂) → Reaches ok s s₂

def play (s : State) : List (Tid × Os × Op) → Except Trap State
  | [] => .ok s
  | (t, os, op) :: l => do
      let (_, s) ← s.exec t os op
      s.play l

def playTest (s : State) (l : List (Tid × Os × Op)) (test : State → Bool) : Bool :=
  match s.play l with
  | .ok s => test s
  | .error _ => false

theorem Reaches.play {ok : State → Tid → Os → Op → Prop} {l : List (Tid × Os × Op)} {s s₁ : State}
    (h : Reaches ok s s₁) (hok : ∀ e ∈ l, ∀ s, ok s e.1 e.2.1 e.2.2) {test : State → Bool}
    (htest : s₁.playTest l test = true) : ∃ s', Reaches ok s s' ∧ test s' = true := by
  induction l generalizing s₁ with
  | nil => exact ⟨s₁, h, htest⟩
  | cons e l ih =>
      obtain ⟨t, os, op⟩ := e
      unfold playTest State.play at htest
      cases he : s₁.exec t os op with
      | error e =>
          rw [he] at htest
          cases htest
      | ok r =>
          obtain ⟨ans, s₂⟩ := r
          rw [he] at htest
          have hstep := h.step t os op ans (hok (t, os, op) (by simp) s₁) he
          exact ih hstep (fun e he => hok e (by simp [he])) htest

end State

/-! ## What `malloc` can do -/

inductive Renewed (s : State) (os : Os) (c : Nat) : Option Nat → State → Prop where
  | refused {s' : State} (region : s.mapRegion os (runMap c) kRunSize = (none, s')) :
      Renewed s os c none s'
  | mapped {a : Nat} {s₁ s' : State} (region : s.mapRegion os (runMap c) kRunSize = (some a, s₁))
      (insert : State.runInsert
        { s₁.setRun a (State.freshRun (c + 1) (os.now 0)) with mapped := s₁.mapped + runMap c }
        c a = .ok s') : Renewed s os c (some a) s'

theorem runNew_cases {s s' : State} {os : Os} {c : Nat} {ans : Option Nat}
    (h : s.runNew os (c + 1) = .ok (ans, s')) : Renewed s os c ans s' := by
  have hmap : pageUp (runBytes (elemsOf (c + 1 - 1)) (kSize (c + 1 - 1))) = runMap c := rfl
  unfold State.runNew at h
  dsimp only at h
  rw [hmap] at h
  rcases hregion : s.mapRegion os (runMap c) kRunSize with ⟨_ | a, s₁⟩
  · rw [hregion] at h
    cases h
    exact .refused hregion
  · rw [hregion] at h
    obtain ⟨s₂, hinsert, h⟩ := bind_ok h
    cases h
    exact .mapped hregion hinsert

/-- The ways a `malloc` returns in an initialised state, with the mapping it asks for. -/
inductive Obtained (s : State) (t : Tid) (os : Os) (n : Nat) : Option Nat → State → Prop where
  | refused {size align : Nat} {s' : State} (request : s.asks t n = some (size, align))
      (region : s.mapRegion os size align = (none, s')) : Obtained s t os n none s'
  | large {a : Nat} {s₁ : State} (request : s.asks t n = some (largeMap n, 4096))
      (region : s.mapRegion os (largeMap n) 4096 = (some a, s₁)) :
      Obtained s t os n (some (a + sizeofLargeHdr))
        { s₁.setLarge a ⟨kMagicLarge, largeMap n, n⟩ with mapped := s₁.mapped + largeMap n }
  | cached {p : Nat} {s' : State} (request : s.asks t n = none)
      (pop : s.tcachePop t (classOf n - 1) = some (p, s')) : Obtained s t os n (some p) s'
  | taken {a : Nat} {ans : Option Nat} {s' : State} (request : s.asks t n = none)
      (take : s.runTake a (os.now 1) = .ok (ans, s')) : Obtained s t os n ans s'
  | grown {a : Nat} {s₁ s' : State} {ans : Option Nat} (small : n < kLargeMin)
      (request : s.asks t n = some (runMap (classOf n - 1), kRunSize))
      (fresh : Renewed s os (classOf n - 1) (some a) s₁)
      (take : s₁.runTake a (os.now 1) = .ok (ans, s')) : Obtained s t os n ans s'

theorem malloc_cases {s s' : State} {t : Tid} {os : Os} {n : Nat} {ans : Option Nat}
    (h : s.mallocReady t os n = .ok (ans, s')) : Obtained s t os n ans s' := by
  unfold State.mallocReady at h
  split at h
  · rename_i hlarge
    have hask : s.asks t n = some (largeMap n, 4096) := if_pos hlarge
    unfold State.mallocLarge at h
    dsimp only at h
    split at h
    · cases h
      exact .refused hask (by assumption)
    · cases h
      exact .large hask (by assumption)
  · rename_i hsmall
    have hask : s.asks t n = _ := if_neg hsmall
    dsimp only at h
    cases hpop : s.tcachePop t (classOf n - 1) with
    | some x =>
        rw [hpop] at h hask
        cases h
        exact .cached hask hpop
    | none =>
        rw [hpop] at h hask
        obtain ⟨a, hroom, h⟩ := bind_ok h
        dsimp only at hask
        rw [hroom] at hask
        by_cases ha : a = 0
        · subst ha
          rw [if_pos rfl] at h
          obtain ⟨⟨r, s₁⟩, hnew, h⟩ := bind_ok h
          have hcases := runNew_cases hnew
          cases hcases with
          | refused region =>
              cases h
              exact .refused hask region
          | mapped region insert =>
              exact .grown (Nat.lt_of_not_le hsmall) hask (.mapped region insert) h
        · rw [if_neg ha] at h
          apply Obtained.taken _ h
          rw [hask]
          split
          · rename_i hzero
            cases hzero
            exact absurd rfl ha
          · rfl

end Memflux.Alloc
