import Memflux.Alloc.Malloc

/-! # The allocator and its clients

A `World` is a state together with the pointers the clients hold, each with the
block it points into. Clients free and resize only pointers they hold and write
only inside their blocks. `Sound` is what every such history keeps as long as no
size or bump pointer wraps: the bookkeeping, the ledger of the reservation, and
that held pointers point into distinct allocated blocks.
-/

namespace Memflux.Alloc

open Spans BitWords DList

/-- A pointer a client holds, and the start of the block it points into. -/
structure Held where
  ptr : Nat
  block : Nat
  deriving DecidableEq

structure World where
  st : State
  held : List Held

namespace State

/-- What `malloc` gave to `posix_memalign(align, n)`; `0` if nothing. -/
def memalignBlock (s : State) (t : Tid) (os : Os) (align n : Nat) : Nat :=
  match memalignAlign align with
  | none => 0
  | some a =>
      match s.malloc t os (memalignNeed a n) with
      | .ok (some p, _) => p
      | _ => 0

/-- `realloc` does not recognise the pointer and hands it to libc. -/
def forwards (s : State) (p : Nat) : Bool :=
  match s.oldSize p with
  | .ok none => true
  | _ => false

end State

/-- The client that made a call holds the block it returned. -/
def gain (ans : Option Nat) (held : List Held) : List Held :=
  (ans.toList.map fun p => ⟨p, p⟩) ++ held

/-- The client that held `p` gives it up. -/
def drop (p : Nat) (held : List Held) : List Held := held.filter fun h => h.ptr ≠ p

namespace World

def heldAfter (w : World) (t : Tid) (os : Os) (ans : Option Nat) : Op → List Held
  | .malloc _ => gain ans w.held
  | .calloc _ _ => gain ans w.held
  | .realloc p n =>
      if p = 0 then gain ans w.held
      else if n = 0 then gain ans (drop p w.held)
      else if w.st.forwards p then drop p w.held
      else if ans = none then w.held
      else gain ans (drop p w.held)
  | .posixMemalign _ align n =>
      (ans.toList.map fun q => ⟨q, w.st.memalignBlock t os align n⟩) ++ w.held
  | .free p => drop p w.held
  | .trim _ => w.held
  | .write _ => w.held

def exec (w : World) (t : Tid) (os : Os) (op : Op) : Except Trap (Option Nat × World) := do
  let (ans, s) ← w.st.exec t os op
  .ok (ans, ⟨s, w.heldAfter t os ans op⟩)

/-- Clients free and resize what they hold, and write inside their blocks. -/
def Legal (w : World) : Op → Prop
  | .free p => p = 0 ∨ ∃ h ∈ w.held, h.ptr = p
  | .realloc p _ => p = 0 ∨ ∃ h ∈ w.held, h.ptr = p
  | .write mem => ∀ x, mem x ≠ w.st.mem x → ∃ h ∈ w.held, Within w.st h.block x
  | _ => True

/-- The size that `posix_memalign` computes, header included, does not wrap. -/
def SizeFits : Op → Prop
  | .posixMemalign _ align n =>
      ∀ a, State.memalignAlign align = some a → n + a + 4096 + sizeofLargeHdr < 2 ^ 64
  | _ => True

/-- The steps of the histories without wrap-around. -/
def Clean (w : World) (t : Tid) (os : Os) (op : Op) : Prop :=
  os.Sane ∧ w.st.OpNeeds Grantable t os op ∧ SizeFits op ∧ w.Legal op

inductive Reaches (ok : World → Tid → Os → Op → Prop) (w : World) : World → Prop where
  | refl : Reaches ok w w
  | step {w₁ w₂ : World} (t : Tid) (os : Os) (op : Op) (ans : Option Nat) : Reaches ok w w₁ →
      ok w₁ t os op → w₁.exec t os op = .ok (ans, w₂) → Reaches ok w w₂

def init (runIdle dirtyIdle : Nat) : World := ⟨State.init runIdle dirtyIdle, []⟩

end World

/-! ## The invariant -/

structure Sound (s : State) (held : List Held) : Prop where
  core : ∃ L, Core s L
  ledger : Ledger s
  caches : s.tcache = fun _ => none
  sizes : ∀ a l, s.larges a = some l → kLargeMin ≤ l.user ∧ l.mapSize = largeMap l.user
  blocks : ∀ h ∈ held, Within s h.block h.ptr
  distinct : (held.map Held.block).Nodup

theorem init_sound (runIdle dirtyIdle : Nat) : Sound (State.init runIdle dirtyIdle) [] where
  core := ⟨_, init_core runIdle dirtyIdle⟩
  ledger := init_ledger runIdle dirtyIdle
  caches := rfl
  sizes := by simp [State.init]
  blocks := by simp
  distinct := List.nodup_nil

/-- The invariant reads only headers, classes, mappings, caches and the ledger. -/
theorem Sound.congr {s s' : State} {held : List Held} (h : Sound s held) (hr : s'.runs = s.runs)
    (hc : s'.cls = s.cls) (hl : s'.larges = s.larges) (hm : s'.maps = s.maps)
    (ht : s'.tcache = s.tcache) (hledger : Ledger s') : Sound s' held := by
  obtain ⟨L, hcore⟩ := h.core
  refine ⟨⟨L, hcore.congr hr hc hl hm⟩, hledger, ht.trans h.caches, by rw [hl]; exact h.sizes,
    fun e he => ?_, h.distinct⟩
  refine (h.blocks e he).frame (fun a r i hb _ => ⟨r, ⟨?_, hb.index, hb.bit⟩, rfl, rfl⟩) ?_
  · rw [hr]; exact hb.run
  · intro a l hl' _
    rw [hl]; exact hl'

theorem Sound.ensureInit {s : State} {held : List Held} (h : Sound s held) {os : Os} (hos : os.Sane) :
    Sound (s.ensureInit os) held := by
  have hl := h.ledger.ensureInit hos
  have hsame : (s.ensureInit os).runs = s.runs ∧ (s.ensureInit os).cls = s.cls ∧
      (s.ensureInit os).larges = s.larges ∧ (s.ensureInit os).maps = s.maps ∧
      (s.ensureInit os).tcache = s.tcache := by
    unfold State.ensureInit State.reserveInit
    split
    · exact ⟨rfl, rfl, rfl, rfl, rfl⟩
    · split
      · split <;> exact ⟨rfl, rfl, rfl, rfl, rfl⟩
      · exact ⟨rfl, rfl, rfl, rfl, rfl⟩
  obtain ⟨h₁, h₂, h₃, h₄, h₅⟩ := hsame
  exact h.congr h₁ h₂ h₃ h₄ h₅ hl

theorem Sound.eq_of_block {s : State} {held : List Held} (h : Sound s held) {e e' : Held}
    (he : e ∈ held) (he' : e' ∈ held) (hb : e.block = e'.block) : e = e' :=
  List.inj_on_of_nodup_map h.distinct he he' hb

/-- The blocks still held after `p` was given up begin elsewhere than the block of `p`. -/
theorem Sound.drop_block {s : State} {held : List Held} (h : Sound s held) {e : Held} (he : e ∈ held)
    {e' : Held} (he' : e' ∈ drop e.ptr held) : e' ∈ held ∧ e'.block ≠ e.block := by
  obtain ⟨hm, hp⟩ := List.mem_filter.mp he'
  refine ⟨hm, fun hb => ?_⟩
  rw [h.eq_of_block hm he hb] at hp
  simp at hp

theorem drop_sublist (p : Nat) (held : List Held) : (drop p held).Sublist held :=
  List.filter_sublist

theorem Sound.giveUp {s : State} {held : List Held} (h : Sound s held) (p : Nat) :
    Sound s (drop p held) :=
  ⟨h.core, h.ledger, h.caches, h.sizes, fun e he => h.blocks e ((drop_sublist p held).subset he),
    h.distinct.sublist ((drop_sublist p held).map _)⟩

theorem Sound.hold {s : State} {held : List Held} (h : Sound s held) {q p : Nat} (hq : Within s p q)
    (hnew : ∀ e ∈ held, e.block ≠ p) : Sound s (⟨q, p⟩ :: held) := by
  refine ⟨h.core, h.ledger, h.caches, h.sizes, ?_, ?_⟩
  · intro e he
    rcases List.mem_cons.mp he with rfl | he
    · exact hq
    · exact h.blocks e he
  · refine List.nodup_cons.mpr ⟨?_, h.distinct⟩
    rintro hm
    obtain ⟨e, he, hb⟩ := List.mem_map.mp hm
    exact hnew e he hb

/-- `n = 0` counts as one byte. -/
def bytesAsked (n : Nat) : Nat := if n = 0 then 1 else n

theorem asks_shape {s : State} {t : Tid} {n size align : Nat} (h : s.asks t n = some (size, align)) :
    size % 4096 = 0 ∧ (align = 4096 ∨ align = kRunSize) := by
  unfold State.asks at h
  split at h
  · cases h
    exact ⟨pageUp_mod _, .inl rfl⟩
  · split at h
    · cases h
    · split at h
      · cases h
        exact ⟨pageUp_mod _, .inr rfl⟩
      · cases h

/-- `malloc` succeeds as a call, its outcome is in the list, and the clients keep
what they hold. -/
theorem Sound.malloc {s : State} {held : List Held} (h : Sound s held) {t : Tid} {os : Os}
    (hos : os.Sane) {n : Nat} (hneeds : s.MallocNeeds Grantable t os n) :
    ∃ ans s', s.malloc t os n = .ok (ans, s') ∧
      Malloced (s.ensureInit os) t os (bytesAsked n) ans s' ∧ Sound s' held ∧
      (∀ p, ans = some p → Within s' p p ∧ (∀ e ∈ held, e.block ≠ p) ∧
        ∀ x, ¬ Within (s.ensureInit os) p x) := by
  have hinit := h.ensureInit hos
  obtain ⟨L, hcore⟩ := hinit.core
  have hcache : (s.ensureInit os).tcache t = none := by rw [hinit.caches]
  have hfresh : ∀ size align, (s.ensureInit os).asks t (bytesAsked n) = some (size, align) →
      GetsFresh (s.ensureInit os) os size align := by
    intro size align hask
    have hg := hneeds size align hask
    have hshape := asks_shape hask
    exact hinit.ledger.getsFresh hshape.1 hshape.2 hg
  obtain ⟨ans, s', hm, hout, L', hcore'⟩ := mallocReady_spec hcore hcache hfresh
  have hledger : Ledger s' := h.ledger.malloc hos (hneeds.mono fun _ _ _ _ hg => hg.1) hm
  have hsound : Sound s' held :=
    ⟨⟨L', hcore'⟩, hledger, hout.caches.trans hinit.caches, hout.sizes hinit.sizes,
      fun e he => hout.keeps hcore (hinit.blocks e he), h.distinct⟩
  refine ⟨ans, s', hm, hout, hsound, fun p hp => ?_⟩
  subst hp
  refine ⟨hout.block hcore, fun e he hb => ?_, hout.new hcore⟩
  have hw := hinit.blocks e he
  rw [hb] at hw
  exact hout.new hcore _ hw

/-- The mapping request of a `malloc` that returned a block did not wrap. -/
theorem Sound.granted {s s' : State} {held : List Held} (h : Sound s held) {t : Tid} {os : Os}
    (hos : os.Sane) {n p : Nat} (hanon : s.MallocNeeds AnonFresh t os n)
    (hm : s.malloc t os n = .ok (some p, s')) : s.MallocNeeds Grantable t os n := by
  intro size align hask
  have hl := h.ledger.ensureInit hos
  have hanon' := hanon size align hask
  refine ⟨?_, hanon'⟩
  have hask : (s.ensureInit os).asks t (bytesAsked n) = some (size, align) := hask
  have hm : (s.ensureInit os).mallocReady t os (bytesAsked n) = .ok (some p, s') := hm
  have hcases := malloc_cases hm
  cases hcases with
  | large request region =>
      rw [request] at hask
      cases hask
      exact hl.granted_fits (.inl rfl) region
  | cached request pop =>
      rw [request] at hask
      cases hask
  | taken request take =>
      rw [request] at hask
      cases hask
  | grown small request fresh take =>
      rw [request] at hask
      cases hask
      cases fresh with
      | mapped region insert => exact hl.granted_fits (.inr rfl) region

theorem Sound.returned {s : State} {held : List Held} (h : Sound s held) {ans : Option Nat}
    (hnew : ∀ p, ans = some p → Within s p p ∧ ∀ e ∈ held, e.block ≠ p) :
    Sound s (gain ans held) := by
  cases ans with
  | none => exact h
  | some p =>
      obtain ⟨hw, hne⟩ := hnew p rfl
      exact h.hold hw hne

/-! ## Freeing -/

/-- What a `free` of a pointer into an allocated block can do and return. -/
inductive FreedAs (s : State) (now : Nat → Nat) (p : Nat) : Freed → State → Prop where
  | kept {r : Freed} (how : r = .null ∨ r = .libc ∨ r = .ignored) : FreedAs s now p r s
  | given {a i : Nat} {r : Run} (block : SmallBlock s a r i) (start : p = blockAddr a r i)
      (base : runOf p = a) : FreedAs s now p .small (s.afterGive a r i now)

/-- After the `munmap` of a large block its header is gone, so the second read of
`map_size` faults. -/
theorem freeLarge_faults {s : State} {L : Nat → List Nat} (h : Core s L) {p : Nat} {l : LargeHdr}
    (hl : s.larges (p - sizeofLargeHdr) = some l) :
    s.freeLarge p = .error (.outside (p - sizeofLargeHdr + 8)) := by
  obtain ⟨-, g, hg, -, hsize⟩ := h.maps.ofLarge _ l hl
  have hpos := (h.maps.sane g hg).2.2.1
  have hgone : (s.munmap (p - sizeofLargeHdr) l.mapSize).larges (p - sizeofLargeHdr) = none := by
    show (if _ ∧ _ then none else s.larges (p - sizeofLargeHdr)) = none
    rw [if_pos ⟨Nat.le_refl _, by omega⟩]
  simp only [State.freeLarge, hl, hgone]

theorem freeLarge_not_ok {s s' : State} {L : Nat → List Nat} (h : Core s L) {p : Nat} {r : Freed} :
    s.freeLarge p ≠ .ok (r, s') := by
  intro hf
  cases hl : s.larges (p - sizeofLargeHdr) with
  | none => simp [State.freeLarge, hl] at hf
  | some l =>
      rw [freeLarge_faults h hl] at hf
      cases hf

/-- A pointer into an allocated block that `ours_small` accepts by a genuine
header is the start of that block. -/
theorem oursSmall_block {s : State} {L : Nat → List Nat} (h : Core s L) {b p : Nat} {r : Run}
    (hw : Within s b p) (hr : s.runs (runOf p) = some r) (hs : s.oursSmall p = .ok true) :
    b = p ∧ ∃ i, SmallBlock s (runOf p) r i ∧ p = blockAddr (runOf p) r i := by
  have hok := h.run _ r hr
  obtain ⟨v, hv, hiff⟩ := oursSmall_run hr hok
  rw [hs] at hv
  cases hv
  obtain ⟨i, hi, hp⟩ := hiff.mp rfl
  have hpos := hok.elem_pos
  have hbit : bitAt r.bits i = false := by
    by_contra hset
    rw [Bool.not_eq_false] at hset
    exact h.not_within_free hr hi hset (Nat.le_of_eq hp.symm) (by omega) hw
  have hblock : SmallBlock s (runOf p) r i := ⟨hr, hi, hbit⟩
  exact ⟨h.within_unique hw (.small hblock hp (Nat.le_refl _) (by omega)), i, hblock, hp⟩

theorem free_cases {s s' : State} {L : Nat → List Nat} (h : Core s L) {t : Tid}
    (hcache : s.tcache t = none) {now : Nat → Nat} {b p : Nat} (hw : Within s b p) {r : Freed}
    (hf : s.free t now p = .ok (r, s')) : FreedAs s now p r s' := by
  have hcases := release_cases hf
  cases hcases with
  | null ptr => exact .kept (.inl rfl)
  | libc foreign => exact .kept (.inr (.inl rfl))
  | ignored => exact .kept (.inr (.inr rfl))
  | cached own run push => simp [State.tcachePush, hcache] at push
  | small own run full give =>
      obtain ⟨-, i, hblock, hp⟩ := oursSmall_block h hw run own
      have hgive := (runGive_spec h run hblock.index hblock.bit now).1
      rw [← hp, give] at hgive
      cases hgive
      exact .given hblock hp rfl
  | large call => exact absurd call (freeLarge_not_ok h)

theorem afterGive_keeps {s : State} {a i : Nat} {r : Run} (hok : RunOk r) {now : Nat → Nat}
    (hr : s.runs a = some r) (hi : i < r.elems) {p x : Nat} (hne : p ≠ blockAddr a r i)
    (hw : Within s p x) : Within (s.afterGive a r i now) p x := by
  refine hw.frame (fun b q j hb hp => ?_) (fun _ _ hl _ => hl)
  by_cases hba : b = a
  · subst hba
    have hq := hb.run
    rw [hr] at hq
    cases hq
    have hji : j ≠ i := by
      rintro rfl
      exact hne hp
    refine ⟨r.given i (now 0) (now 1), ⟨put_same _ _ _, hb.index, ?_⟩, rfl, rfl⟩
    rw [given_bits hok hi, decide_eq_false hji, Bool.false_or, hb.bit]
  · exact ⟨q, ⟨(put_other _ _ hba).trans hb.run, hb.index, hb.bit⟩, rfl, rfl⟩

theorem Sound.free {s s' : State} {held : List Held} (h : Sound s held) {t : Tid} {now : Nat → Nat}
    {p : Nat} (hp : p = 0 ∨ ∃ e ∈ held, e.ptr = p) {r : Freed}
    (hf : s.free t now p = .ok (r, s')) : Sound s' (drop p held) := by
  rcases hp with rfl | ⟨e, he, rfl⟩
  · rw [State.free, if_pos rfl] at hf
    cases hf
    exact h.giveUp 0
  · obtain ⟨L, hcore⟩ := h.core
    have hw := h.blocks e he
    have hcases := free_cases hcore (by rw [h.caches]) hw hf
    cases hcases with
    | kept how => exact h.giveUp _
    | @given a i q block start base =>
        have hok := hcore.run a q block.run
        obtain ⟨-, hcore'⟩ := runGive_spec hcore block.run block.index block.bit now
        have hself : Within s (blockAddr a q i) e.ptr :=
          .small block rfl (Nat.le_of_eq start.symm) (by rw [start]; exact Nat.lt_add_of_pos_right hok.elem_pos)
        have hblock : e.block = blockAddr a q i := hcore.within_unique hw hself
        refine ⟨⟨L, hcore'⟩, h.ledger.free hf, h.caches, h.sizes, fun e' he' => ?_,
          h.distinct.sublist ((drop_sublist _ held).map _)⟩
        obtain ⟨hm, hne⟩ := h.drop_block he he'
        rw [hblock] at hne
        exact afterGive_keeps hok block.run block.index hne (h.blocks e' hm)

/-! ## Trimming and writing -/

theorem Trims.keeps {s s' : State} {L : Nat → List Nat} (h : Core s L) (ht : Trims s s') {p x : Nat}
    (hw : Within s p x) : Within s' p x := by
  refine hw.frame (fun a r i hb _ => ?_) (fun a l hl _ => ?_)
  · obtain ⟨r', hr', hk⟩ := ht.stays a r hb.run (hb.used_ne h)
    refine ⟨r', ⟨hr', ?_, ?_⟩, kept_elems hk, kept_elem hk⟩
    · rw [kept_elems hk]
      exact hb.index
    · rw [kept_bits hk]
      exact hb.bit
  · rw [ht.larges]
    exact hl

theorem Sound.trim {s s' : State} {held : List Held} (h : Sound s held) {clock : Nat}
    (ht : s.trimPass clock = .ok s') : Sound s' held ∧ Trims s s' := by
  obtain ⟨L, hcore⟩ := h.core
  obtain ⟨s₁, L', h₁, hcore', htrim⟩ := trimPass_spec hcore clock
  rw [ht] at h₁
  cases h₁
  exact ⟨⟨⟨L', hcore'⟩, h.ledger.trimPass ht,
    htrim.tcache.trans h.caches, by rw [htrim.larges]; exact h.sizes,
    fun e he => htrim.keeps hcore (h.blocks e he), h.distinct⟩, htrim⟩

theorem Sound.write {s : State} {held : List Held} (h : Sound s held) (mem : Nat → UInt8) :
    Sound { s with mem := mem } held :=
  h.congr rfl rfl rfl rfl rfl
    (h.ledger.frame ⟨rfl, rfl, rfl, rfl, rfl, rfl, fun _ r hr => ⟨r, hr, rfl, rfl⟩⟩)

/-! ## The calls built on `malloc` -/

theorem Sound.mallocOk {s s' : State} {held : List Held} (h : Sound s held) {t : Tid} {os : Os}
    (hos : os.Sane) {n : Nat} (hneeds : s.MallocNeeds Grantable t os n) {ans : Option Nat}
    (hm : s.malloc t os n = .ok (ans, s')) : Sound s' (gain ans held) := by
  obtain ⟨ans', s₁, hm', -, hsound, hnew⟩ := h.malloc hos hneeds
  rw [hm] at hm'
  cases hm'
  exact hsound.returned fun p hp => ⟨(hnew p hp).1, (hnew p hp).2.1⟩

theorem Sound.fill {s : State} {held : List Held} (h : Sound s held) (a n : Nat) (f : Nat → UInt8) :
    Sound (s.fill a n f) held :=
  h.write _

theorem Sound.calloc {s s' : State} {held : List Held} (h : Sound s held) {t : Tid} {os : Os}
    (hos : os.Sane) {nm sz : Nat} (hneeds : s.OpNeeds Grantable t os (.calloc nm sz))
    {ans : Option Nat} (hm : s.calloc t os nm sz = .ok (ans, s')) : Sound s' (gain ans held) := by
  have hcases := calloc_cases hm
  cases hcases with
  | overflow big => exact h
  | refused size call => exact h.mallocOk hos (hneeds size) call
  | zeroed size call mapped => exact (h.mallocOk hos (hneeds size) call).fill _ _ _

/-- A pointer that `realloc` recognises is the start of the block it points into,
and the old size is that of the block. -/
theorem oldSize_cases {s : State} {L : Nat → List Nat} (h : Core s L) {b p old : Nat}
    (hw : Within s b p) (ho : s.oldSize p = .ok (some old)) :
    b = p ∧ ((∃ r i, SmallBlock s (runOf p) r i ∧ p = blockAddr (runOf p) r i ∧ old = r.elem) ∨
      ∃ a l, s.larges a = some l ∧ p = a + sizeofLargeHdr ∧ old = l.user) := by
  unfold State.oldSize at ho
  split at ho
  · obtain ⟨small, hsmall, ho⟩ := bind_ok ho
    cases small with
    | true =>
        simp only [if_true] at ho
        cases hr : s.runs (runOf p) with
        | none =>
            rw [hr] at ho
            cases ho
        | some r =>
            obtain ⟨hb, i, hblock, hp⟩ := oursSmall_block h hw hr hsmall
            rw [hr] at ho
            cases ho
            exact ⟨hb, .inl ⟨r, i, hblock, hp, rfl⟩⟩
    | false =>
        simp only [Bool.false_eq_true, if_false] at ho
        obtain ⟨large, -, ho⟩ := bind_ok ho
        cases large with
        | false => cases ho
        | true =>
            simp only [if_true] at ho
            cases hl : s.larges (p - sizeofLargeHdr) with
            | none =>
                rw [hl] at ho
                cases ho
            | some l =>
                rw [hl] at ho
                cases ho
                obtain ⟨-, g, hg, hbase, hsize⟩ := h.maps.ofLarge _ l hl
                obtain ⟨hpos, -, hs₁, hs₂, -⟩ := h.maps.sane g hg
                have hp : p = p - sizeofLargeHdr + sizeofLargeHdr := by omega
                have hself : Within s p p := by
                  refine .large hl hp (Nat.le_refl _) ?_
                  unfold sizeofLargeHdr at *
                  omega
                exact ⟨h.within_unique hw hself, .inr ⟨_, l, hl, hp, rfl⟩⟩
  · cases ho

/-- The block that was gained last is the first to go when its pointer is freed. -/
theorem drop_gain {p q : Nat} (hne : q ≠ p) (held : List Held) :
    drop p (gain (some q) held) = gain (some q) (drop p held) := by
  simp [drop, gain, hne]

theorem Sound.realloc {w : World} (h : Sound w.st w.held) {t : Tid} {os : Os} (hos : os.Sane)
    {p n : Nat} (hneeds : w.st.OpNeeds Grantable t os (.realloc p n))
    (hp : p = 0 ∨ ∃ e ∈ w.held, e.ptr = p) {r : Reply} {s' : State}
    (hm : w.st.realloc t os p n = .ok (r, s')) :
    Sound s' (w.heldAfter t os r.ptr (.realloc p n)) := by
  have hcases := realloc_cases hm
  simp only [State.OpNeeds] at hneeds
  unfold World.heldAfter
  dsimp only
  cases hcases with
  | fresh null call =>
      rw [if_pos null] at hneeds ⊢
      exact h.mallocOk hos hneeds call
  | emptied ptr zero release call =>
      rw [if_neg ptr, if_pos zero] at hneeds ⊢
      have hos' : (os.after 2).Sane := hos
      exact (h.free hp release).mallocOk hos' (hneeds _ _ release) call
  | forwarded ptr size foreign =>
      have hf : w.st.forwards p = true := by simp [State.forwards, foreign]
      rw [if_neg ptr, if_neg size, if_pos hf]
      exact h.giveUp p
  | @inPlace old ptr size own fits =>
      have hf : w.st.forwards p = false := by simp [State.forwards, own]
      rw [if_neg ptr, if_neg size, hf]
      obtain ⟨L, hcore⟩ := h.core
      obtain ⟨e, he, rfl⟩ := hp.resolve_left ptr
      have hblock := (oldSize_cases hcore (h.blocks e he) own).1
      refine (h.giveUp e.ptr).hold ?_ fun e' he' => ?_
      · have hw := h.blocks e he
        rwa [hblock] at hw
      · rw [← hblock]
        exact (h.drop_block he he').2
  | @refused old s' ptr size own moves call =>
      have hf : w.st.forwards p = false := by simp [State.forwards, own]
      rw [if_neg ptr, if_neg size] at hneeds ⊢
      rw [hf]
      exact h.mallocOk hos (hneeds _ own moves) call
  | @moved old q s₁ s₂ s' f ptr size own moves call copy release =>
      have hf : w.st.forwards p = false := by simp [State.forwards, own]
      rw [if_neg ptr, if_neg size] at hneeds ⊢
      rw [hf]
      obtain ⟨L, hcore⟩ := h.core
      obtain ⟨e, he, rfl⟩ := hp.resolve_left ptr
      have hblock := (oldSize_cases hcore (h.blocks e he) own).1
      obtain ⟨ans, s₃, hm', -, -, hnew⟩ := h.malloc hos (hneeds _ own moves)
      rw [call] at hm'
      cases hm'
      have hne : q ≠ e.ptr := fun hq => (hnew q rfl).2.1 e he (by rw [hblock, hq])
      obtain ⟨-, -, rfl⟩ := memcpy_ok copy
      have h₂ := (h.mallocOk hos (hneeds _ own moves) call).fill q (min old n)
        fun x => s₁.mem (e.ptr + (x - q))
      have h₃ := h₂.free (.inr ⟨e, by simp [gain, he], rfl⟩) release
      rw [drop_gain hne] at h₃
      exact h₃

theorem alignPtr_range {p a : Nat} (ha : 0 < a) (h : p + a - 1 < 2 ^ 64) :
    p ≤ State.alignPtr p a ∧ State.alignPtr p a < p + a ∧ State.alignPtr p a % a = 0 := by
  have hw : wrap64 (p + a - 1) = p + a - 1 := Nat.mod_eq_of_lt h
  have h₁ := roundDown_le (p + a - 1) a
  have h₂ := lt_roundDown_add (w := p + a - 1) ha
  unfold State.alignPtr
  rw [hw]
  exact ⟨by omega, by omega, roundDown_mod _ _⟩

theorem memalignAlign_ge {align a : Nat} (h : State.memalignAlign align = some a) : 8 ≤ a := by
  unfold State.memalignAlign at h
  generalize hb : (if align < 8 then 8 else align) = b at h
  dsimp only at h
  split at h
  · cases h
  · cases h
    split at hb <;> omega

/-- What `posix_memalign` returns lies in the block it got from `malloc`. -/
theorem Sound.alignPtr_within {s s' : State} {held : List Held} (h : Sound s held) {t : Tid} {os : Os}
    (hos : os.Sane) {a n p : Nat} (hsize : n + a + 4096 + sizeofLargeHdr < 2 ^ 64)
    (hneeds : s.MallocNeeds Grantable t os (State.memalignNeed a n))
    (hm : s.malloc t os (State.memalignNeed a n) = .ok (some p, s')) :
    p + a - 1 < 2 ^ 64 ∧ ∀ x, p ≤ x → x < p + (n + a + 4096) → Within s' p x := by
  have hneed : State.memalignNeed a n = n + a + 4096 := Nat.mod_eq_of_lt (by omega)
  obtain ⟨ans, s₁, hm', hout, hsound, -⟩ := h.malloc hos hneeds
  rw [hm] at hm'
  cases hm'
  have hasked : bytesAsked (State.memalignNeed a n) = n + a + 4096 := by
    rw [hneed, bytesAsked, if_neg (by omega)]
  rw [hasked] at hout
  obtain ⟨L, hcore⟩ := (h.ensureInit hos).core
  have hext : ∀ x, p ≤ x → x < p + (n + a + 4096) → Within s' p x :=
    fun x h₁ h₂ => hout.extent hcore hsize h₁ h₂
  obtain ⟨L', hcore'⟩ := hsound.core
  obtain ⟨g, hg, hmem, -⟩ := hcore'.within_map (hext (p + (n + a + 4096) - 1) (by omega) (by omega))
  have hstop := (hcore'.maps.sane g hg).2.2.2.2
  unfold Span.Mem at hmem
  exact ⟨by omega, hext⟩

theorem Sound.posixMemalign {w : World} (h : Sound w.st w.held) {t : Tid} {os : Os} (hos : os.Sane)
    {outNull : Bool} {align n : Nat}
    (hneeds : w.st.OpNeeds Grantable t os (.posixMemalign outNull align n))
    (hsize : World.SizeFits (.posixMemalign outNull align n)) {ans : Option Nat} {s' : State}
    (hm : w.st.exec t os (.posixMemalign outNull align n) = .ok (ans, s')) :
    Sound s' (w.heldAfter t os ans (.posixMemalign outNull align n)) := by
  obtain ⟨⟨r, s₁⟩, hm, hans⟩ := bind_ok hm
  have hcases := posixMemalign_cases hm
  cases hcases with
  | invalid bad =>
      cases hans
      exact h
  | refused out ok call =>
      cases hans
      exact h.mallocOk hos (hneeds out _ ok) call
  | @aligned a p s₁ out ok call =>
      cases hans
      have hblock : w.st.memalignBlock t os align n = p := by
        simp only [State.memalignBlock, ok, call]
      show Sound s' (⟨State.alignPtr p a, w.st.memalignBlock t os align n⟩ :: w.held)
      rw [hblock]
      have ha := memalignAlign_ge ok
      obtain ⟨hfit, hext⟩ := h.alignPtr_within hos (hsize a ok) (hneeds out _ ok) call
      obtain ⟨hlo, hhi, -⟩ := alignPtr_range (by omega) hfit
      obtain ⟨ans, s₂, hm', -, hsound, hnew⟩ := h.malloc hos (hneeds out _ ok)
      rw [call] at hm'
      cases hm'
      exact hsound.hold (hext _ hlo (by omega)) (hnew p rfl).2.1

/-! ## Histories -/

theorem Sound.exec {w w' : World} (h : Sound w.st w.held) {t : Tid} {os : Os} {op : Op}
    (hok : w.Clean t os op) {ans : Option Nat} (he : w.exec t os op = .ok (ans, w')) :
    Sound w'.st w'.held := by
  obtain ⟨hos, hneeds, hsize, hlegal⟩ := hok
  obtain ⟨⟨ans', s'⟩, he', hw⟩ := bind_ok he
  cases hw
  cases op with
  | malloc n => exact h.mallocOk hos hneeds he'
  | calloc nm sz => exact h.calloc hos hneeds he'
  | realloc p n =>
      obtain ⟨⟨r, s₁⟩, h₁, h₂⟩ := bind_ok he'
      cases h₂
      exact h.realloc hos hneeds hlegal h₁
  | posixMemalign outNull align n => exact h.posixMemalign hos hneeds hsize he'
  | free p =>
      obtain ⟨⟨r, s₁⟩, h₁, h₂⟩ := bind_ok he'
      cases h₂
      exact h.free hlegal h₁
  | trim clock =>
      obtain ⟨s₁, h₁, h₂⟩ := bind_ok he'
      cases h₂
      exact (h.trim h₁).1
  | write mem =>
      cases he'
      exact h.write mem

theorem Sound.reaches {w w' : World} (h : Sound w.st w.held) (hr : w.Reaches World.Clean w') :
    Sound w'.st w'.held := by
  induction hr with
  | refl => exact h
  | step t os op ans _ hok he ih => exact ih.exec hok he

/-! ## Checked histories

Concrete histories are run with a test that implies `World.Clean` before each step.
-/

def State.askTest (s : State) (t : Tid) (os : Os) (n : Nat) : Bool :=
  match (s.ensureInit os).asks t (bytesAsked n) with
  | none => true
  | some (size, align) =>
      decide ((s.ensureInit os).resStart ≠ 0 ∧
        (s.ensureInit os).resBump + size + align < 2 ^ 64)

def Os.saneTest (os : Os) : Bool :=
  match os.reserve with
  | none => true
  | some p => decide (0 < p ∧ p % 4096 = 0 ∧ p + kReserveSize ≤ 2 ^ 63)

namespace World

def cleanTest (w : World) (t : Tid) (os : Os) : Op → Bool
  | .malloc n => os.saneTest && w.st.askTest t os n
  | .posixMemalign _ align n =>
      os.saneTest &&
        match State.memalignAlign align with
        | none => true
        | some a => decide (n + a + 4096 + sizeofLargeHdr < 2 ^ 64) &&
            w.st.askTest t os (State.memalignNeed a n)
  | .free p => os.saneTest && (decide (p = 0) || w.held.any fun h => decide (h.ptr = p))
  | .trim _ => os.saneTest
  | _ => false

theorem askTest_needs {s : State} {t : Tid} {os : Os} {n : Nat} (h : s.askTest t os n = true) :
    s.MallocNeeds Grantable t os n := by
  intro size align hask
  unfold State.askTest bytesAsked at h
  rw [hask] at h
  obtain ⟨h₁, h₂⟩ := of_decide_eq_true h
  exact ⟨fun _ => h₂, fun h0 => absurd h0 h₁⟩

theorem saneTest_sane {os : Os} (h : os.saneTest = true) : os.Sane := by
  intro p hp
  unfold Os.saneTest at h
  rw [hp] at h
  exact of_decide_eq_true h

theorem cleanTest_clean {w : World} {t : Tid} {os : Os} {op : Op}
    (h : w.cleanTest t os op = true) : w.Clean t os op := by
  cases op with
  | malloc n =>
      obtain ⟨h₁, h₂⟩ := Bool.and_eq_true_iff.mp h
      exact ⟨saneTest_sane h₁, askTest_needs h₂, trivial, trivial⟩
  | posixMemalign outNull align n =>
      obtain ⟨h₁, h₂⟩ := Bool.and_eq_true_iff.mp h
      cases ha : State.memalignAlign align with
      | none =>
          exact ⟨saneTest_sane h₁, fun _ a ha' => by simp [ha] at ha',
            fun a ha' => by simp [ha] at ha', trivial⟩
      | some a =>
          rw [ha] at h₂
          obtain ⟨h₂, h₃⟩ := Bool.and_eq_true_iff.mp h₂
          refine ⟨saneTest_sane h₁, fun _ b hb => ?_, fun b hb => ?_, trivial⟩
          · rw [ha, Option.some.injEq] at hb
            exact hb ▸ askTest_needs h₃
          · rw [ha, Option.some.injEq] at hb
            exact hb ▸ of_decide_eq_true h₂
  | free p =>
      obtain ⟨h₁, h₂⟩ := Bool.and_eq_true_iff.mp h
      refine ⟨saneTest_sane h₁, trivial, trivial, ?_⟩
      rcases Bool.or_eq_true_iff.mp h₂ with h | h
      · exact .inl (of_decide_eq_true h)
      · obtain ⟨e, he, hp⟩ := List.any_eq_true.mp h
        exact .inr ⟨e, he, of_decide_eq_true hp⟩
  | trim clock => exact ⟨saneTest_sane h, trivial, trivial, trivial⟩
  | calloc nm sz => cases h
  | realloc p n => cases h
  | write mem => cases h

theorem ok_of_any {α : Type} {e : Except Trap α} {test : α → Bool}
    (h : e.toOption.any test = true) : ∃ a, e = .ok a ∧ test a = true := by
  cases e with
  | error _ => cases h
  | ok a => exact ⟨a, rfl, h⟩

/-- The clean calls of a list, one after the other, then a test of the world reached. -/
def playTest (w : World) (test : World → Bool) : List (Tid × Os × Op) → Bool
  | [] => test w
  | (t, os, op) :: l =>
      w.cleanTest t os op &&
        match w.exec t os op with
        | .ok (_, w) => w.playTest test l
        | .error _ => false

theorem Reaches.playAll {ok : World → Tid → Os → Op → Prop} {w w₁ : World} (h : w.Reaches ok w₁)
    {test : World → Bool} {l : List (Tid × Os × Op)} (hl : w₁.playTest test l = true)
    (hok : ∀ e ∈ l, ∀ w₂ : World, w₂.cleanTest e.1 e.2.1 e.2.2 = true → ok w₂ e.1 e.2.1 e.2.2) :
    ∃ w', w.Reaches ok w' ∧ test w' = true := by
  induction l generalizing w₁ with
  | nil => exact ⟨w₁, h, hl⟩
  | cons e l ih =>
      obtain ⟨t, os, op⟩ := e
      obtain ⟨hclean, hrest⟩ := Bool.and_eq_true_iff.mp hl
      have hstep : ok w₁ t os op := hok _ List.mem_cons_self w₁ hclean
      cases he : w₁.exec t os op with
      | error e =>
          rw [he] at hrest
          cases hrest
      | ok r =>
          rw [he] at hrest
          exact ih (h.step t os op r.1 hstep he) hrest fun e he => hok e (List.mem_cons_of_mem _ he)

theorem Reaches.play {w w₁ : World} (h : w.Reaches Clean w₁) {test : World → Bool}
    {l : List (Tid × Os × Op)} (hl : w₁.playTest test l = true) :
    ∃ w', w.Reaches Clean w' ∧ test w' = true :=
  h.playAll hl fun _ _ _ => cleanTest_clean

end World

def State.poke (s : State) (x : Nat) (v : UInt8) : State :=
  { s with mem := fun y => if y = x then v else s.mem y }

theorem State.poke_same (s : State) (x : Nat) (v : UInt8) : (s.poke x v).mem x = v := by
  simp [State.poke]

theorem poke_clean {w : World} {h : Held} (hheld : h ∈ w.held) {x : Nat} (hin : Within w.st h.block x)
    (v : UInt8) : w.Clean 0 (Os.granting (2 ^ 30) 1) (.write (w.st.poke x v).mem) := by
  refine ⟨granting_sane 1, trivial, trivial, fun y hy => ?_⟩
  have hyx : y = x := by
    by_contra hne
    exact hy (if_neg hne)
  exact ⟨h, hheld, hyx ▸ hin⟩

end Memflux.Alloc
