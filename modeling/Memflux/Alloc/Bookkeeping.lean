import Memflux.Alloc.Sections
import Memflux.Lib.Shares

/-! # Who has which block

The sections under the class locks, the thread caches and the clients as one system.
Every allocated block of a run is held by one client or lies in one slot of one
cache; the runs, their bitmaps, counters and lists agree with that in every state
the system reaches.
-/

namespace Memflux.Alloc

open Spans BitWords DList Sharing

/-! ## Allocated blocks -/

/-- An allocated block of a run begins at `p`. -/
def Allocated (s : State) (p : Nat) : Prop := ∃ a r i, SmallBlock s a r i ∧ p = blockAddr a r i

/-- The allocated block at `p` is of class `c`, and `run_of` finds its run. -/
def Cacheable (s : State) (c p : Nat) : Prop :=
  s.inReserve p = true ∧
    ∃ r i, SmallBlock s (runOf p) r i ∧ p = blockAddr (runOf p) r i ∧ r.cls = c + 1

theorem Cacheable.allocated {s : State} {c p : Nat} (h : Cacheable s c p) : Allocated s p := by
  obtain ⟨-, r, i, hb, hp, -⟩ := h
  exact ⟨runOf p, r, i, hb, hp⟩

theorem blockAddr_cls {a i : Nat} {r r' : Run} (h : RunOk r) (h' : RunOk r')
    (hcls : r'.cls = r.cls) : blockAddr a r' i = blockAddr a r i := by
  have helems : r'.elems = r.elems := by rw [h'.elems, h.elems, hcls]
  have helem : r'.elem = r.elem := by rw [h'.elem, h.elem, hcls]
  rw [blockAddr, blockAddr, runData, runData, helems, helem]

/-- What a step does to the allocated blocks: those at `gone` are given back, those at
`new` are taken, and the others stay. -/
structure Reallots (s s' : State) (gone new : Nat → Prop) : Prop where
  stays : ∀ a r i, SmallBlock s a r i → ¬ gone (blockAddr a r i) →
    ∃ r', SmallBlock s' a r' i ∧ r'.cls = r.cls
  comes : ∀ a r' i, SmallBlock s' a r' i → new (blockAddr a r' i) ∨
    ∃ r, SmallBlock s a r i ∧ r'.cls = r.cls ∧ ¬ gone (blockAddr a r i)
  taken : ∀ p, new p → Allocated s' p
  reserve : s'.resStart = s.resStart ∧ s'.resEnd = s.resEnd

theorem Reallots.of_same {s s' : State} (hruns : s'.runs = s.runs)
    (hres : s'.resStart = s.resStart ∧ s'.resEnd = s.resEnd) :
    Reallots s s' (fun _ => False) fun _ => False := by
  refine ⟨?_, ?_, ?_, hres⟩
  · intro a r i hb _
    refine ⟨r, ⟨?_, hb.index, hb.bit⟩, rfl⟩
    rw [hruns]
    exact hb.run
  · intro a r i hb
    refine .inr ⟨r, ⟨?_, hb.index, hb.bit⟩, rfl, id⟩
    rw [← hruns]
    exact hb.run
  · intro p hp
    exact hp.elim

theorem Reallots.allocated {s s' : State} {gone new : Nat → Prop} (h : Reallots s s' gone new)
    {L L' : Nat → List Nat} (hcore : Core s L) (hcore' : Core s' L') (p : Nat) :
    Allocated s' p ↔ new p ∨ (¬ gone p ∧ Allocated s p) := by
  constructor
  · intro halloc
    obtain ⟨a, r', i, hb', hp⟩ := halloc
    rcases h.comes a r' i hb' with hnew | ⟨r, hb, hcls, hstays⟩
    · rw [hp]
      exact .inl hnew
    · have haddr := blockAddr_cls (a := a) (i := i) (hcore.run a r hb.run) (hcore'.run a r' hb'.run) hcls
      rw [hp, haddr]
      exact .inr ⟨hstays, a, r, i, hb, rfl⟩
  · intro hcases
    rcases hcases with hnew | ⟨hstays, a, r, i, hb, hp⟩
    · exact h.taken p hnew
    · rw [hp] at hstays ⊢
      obtain ⟨r', hb', hcls⟩ := h.stays a r i hb hstays
      exact ⟨a, r', i, hb', (blockAddr_cls (hcore.run a r hb.run) (hcore'.run a r' hb'.run) hcls).symm⟩

theorem Reallots.cacheable {s s' : State} {gone new : Nat → Prop} (h : Reallots s s' gone new)
    {L L' : Nat → List Nat} (hcore : Core s L) (hcore' : Core s' L') {c p : Nat}
    (hc : Cacheable s c p) (hp : ¬ gone p) : Cacheable s' c p := by
  obtain ⟨hin, r, i, hb, heq, hcls⟩ := hc
  have hstays : ¬ gone (blockAddr (runOf p) r i) := by rwa [← heq]
  obtain ⟨r', hb', hcls'⟩ := h.stays _ r i hb hstays
  have haddr := blockAddr_cls (a := runOf p) (i := i) (hcore.run _ r hb.run) (hcore'.run _ r' hb'.run)
    hcls'
  refine ⟨?_, r', i, hb', heq.trans haddr.symm, hcls'.trans hcls⟩
  rw [State.inReserve, h.reserve.1, h.reserve.2]
  exact hin

theorem SmallBlock.of_body {s s' : State} {a i : Nat} {r : Run} (hb : SmallBlock s a r i)
    (hbody : (s'.runs a).map Run.body = (s.runs a).map Run.body) :
    ∃ r', SmallBlock s' a r' i ∧ r'.kept = r.kept := by
  rw [hb.run] at hbody
  obtain ⟨r', hr', hsame⟩ := Option.map_eq_some_iff.mp hbody
  have hkept := kept_of_body hsame
  refine ⟨r', ⟨hr', ?_, ?_⟩, hkept⟩
  · rw [kept_elems hkept]
    exact hb.index
  · rw [kept_bits hkept]
    exact hb.bit

theorem Grants.reallots {s s' : State} {a i now : Nat} {r : Run} (hg : Grants s s' a r i now)
    (hres : s'.resStart = s.resStart ∧ s'.resEnd = s.resEnd) :
    Reallots s s' (fun _ => False) fun p => p = blockAddr a r i := by
  obtain ⟨hlt, hset, -, hbits⟩ := findFree_spec hg.ok hg.free
  refine ⟨?_, ?_, ?_, hres⟩
  · intro b q j hb _
    by_cases hba : b = a
    · rw [hba] at hb ⊢
      rcases hg.before with hold | hnew
      · have hq := hb.run
        rw [hold, Option.some.injEq] at hq
        rw [← hq] at hb ⊢
        refine ⟨r.taken i now, ⟨hg.run, hb.index, ?_⟩, rfl⟩
        rw [hbits now j, hb.bit, Bool.and_false]
      · cases hnew.1.symm.trans hb.run
    · obtain ⟨q', hb', hkept⟩ := hb.of_body (hg.others b hba)
      exact ⟨q', hb', kept_cls hkept⟩
  · intro b q j hb
    by_cases hba : b = a
    · rw [hba] at hb ⊢
      have hq := hb.run
      rw [hg.run, Option.some.injEq] at hq
      rw [← hq] at hb ⊢
      have hindex : j < r.elems := hb.index
      have hbit := hb.bit
      rw [hbits now j] at hbit
      by_cases hj : j = i
      · rw [hj]
        exact .inl rfl
      · have hclear : bitAt r.bits j = false := by simpa [hj] using hbit
        rcases hg.before with hold | hnew
        · exact .inr ⟨r, ⟨hold, hindex, hclear⟩, rfl, id⟩
        · rw [hnew.2.2 j hindex] at hclear
          cases hclear
    · obtain ⟨r₀, hb₀, hkept⟩ := hb.of_body (hg.others b hba).symm
      exact .inr ⟨r₀, hb₀, (kept_cls hkept).symm, id⟩
  · intro p hp
    refine ⟨a, r.taken i now, i, ⟨hg.run, hlt, ?_⟩, hp⟩
    rw [hbits now i]
    simp

theorem Grants.fresh {s s' : State} {L : Nat → List Nat} {a i now : Nat} {r : Run}
    (hg : Grants s s' a r i now) (hcore' : Core s' L) : ¬ Allocated s (blockAddr a r i) := by
  intro halloc
  obtain ⟨b, q, j, hb, heq⟩ := halloc
  obtain ⟨hlt, hset, -, -⟩ := findFree_spec hg.ok hg.free
  by_cases hba : b = a
  · rw [hba] at hb heq
    rcases hg.before with hold | hnew
    · have hq := hb.run
      rw [hold, Option.some.injEq] at hq
      rw [← hq] at hb heq
      have hpos := hg.ok.elem_pos
      have hij : i = j := by
        apply block_index_unique (x := blockAddr a r i) (Nat.le_refl _) (by omega)
        · exact Nat.le_of_eq heq.symm
        · omega
      have hclear := hb.bit
      rw [← hij, hset] at hclear
      cases hclear
    · cases hnew.1.symm.trans hb.run
  · obtain ⟨q', hb', hkept⟩ := hb.of_body (hg.others b hba)
    rw [← kept_blockAddr hkept] at heq
    exact hba (hcore'.block_place hg.run hlt hb'.run hb'.index heq).1.symm

theorem afterGive_reallots {s : State} {L : Nat → List Nat} (h : Core s L) {a i : Nat} {r : Run}
    (hb : SmallBlock s a r i) (now : Nat → Nat) :
    Reallots s (s.afterGive a r i now) (· = blockAddr a r i) fun _ => False := by
  have hok := h.run a r hb.run
  have hrun : (s.afterGive a r i now).runs a = some (r.given i (now 0) (now 1)) := put_same _ _ _
  refine ⟨?_, ?_, ?_, rfl, rfl⟩
  · intro b q j hbj hne
    by_cases hba : b = a
    · rw [hba] at hbj hne ⊢
      have hq := hb.run.symm.trans hbj.run
      rw [Option.some.injEq] at hq
      rw [← hq] at hbj hne ⊢
      have hji : j ≠ i := by
        intro hji
        exact hne (by rw [hji])
      refine ⟨r.given i (now 0) (now 1), ⟨hrun, hbj.index, ?_⟩, rfl⟩
      rw [given_bits hok hb.index, decide_eq_false hji, Bool.false_or, hbj.bit]
    · exact ⟨q, ⟨(put_other _ _ hba).trans hbj.run, hbj.index, hbj.bit⟩, rfl⟩
  · intro b q j hbj
    by_cases hba : b = a
    · rw [hba] at hbj ⊢
      have hq := hrun.symm.trans hbj.run
      rw [Option.some.injEq] at hq
      rw [← hq] at hbj ⊢
      have hindex : j < r.elems := hbj.index
      have hbit := hbj.bit
      rw [given_bits hok hb.index, Bool.or_eq_false_iff] at hbit
      refine .inr ⟨r, ⟨hb.run, hindex, hbit.2⟩, rfl, ?_⟩
      intro heq
      have hsame := (h.block_place hb.run hindex hb.run hb.index heq).2
      exact of_decide_eq_false hbit.1 hsame
    · have hrun' : s.runs b = some q := (put_other _ _ hba).symm.trans hbj.run
      refine .inr ⟨q, ⟨hrun', hbj.index, hbj.bit⟩, rfl, ?_⟩
      intro heq
      exact hba (h.block_place hrun' hbj.index hb.run hb.index heq).1
  · intro p hp
    exact hp.elim

theorem Trims.reallots {s s' : State} {L : Nat → List Nat} (h : Core s L) (ht : Trims s s') :
    Reallots s s' (fun _ => False) fun _ => False := by
  refine ⟨?_, ?_, ?_, ht.reservation.2.1, ht.reservation.2.2.1⟩
  · intro a r i hb _
    obtain ⟨r', hr', hkept⟩ := ht.stays a r hb.run (hb.used_ne h)
    refine ⟨r', ⟨hr', ?_, ?_⟩, kept_cls hkept⟩
    · rw [kept_elems hkept]
      exact hb.index
    · rw [kept_bits hkept]
      exact hb.bit
  · intro a r' i hb
    obtain ⟨r, hr, hkept⟩ := ht.runs a r' hb.run
    refine .inr ⟨r, ⟨hr, ?_, ?_⟩, kept_cls hkept, id⟩
    · rw [← kept_elems hkept]
      exact hb.index
    · rw [← kept_bits hkept]
      exact hb.bit
  · intro p hp
    exact hp.elim

/-! ## The time of the last block -/

/-- A run has a time since which it is free exactly when it is free. -/
def Dated (s : State) : Prop :=
  ∀ a r, s.runs a = some r → (r.used = 0 ↔ r.lastFullyFreeMs ≠ 0)

theorem Grants.dated {s s' : State} {a i now : Nat} {r : Run} (hg : Grants s s' a r i now)
    (h : Dated s) : Dated s' := by
  intro x q hq
  by_cases hx : x = a
  · rw [hx] at hq
    have hq := hg.run.symm.trans hq
    rw [Option.some.injEq] at hq
    have hzero : (r.taken i now).lastFullyFreeMs = 0 := by
      apply taken_stamp
      intro hused
      rcases hg.before with hold | hnew
      · by_contra hdate
        exact hused ((h a r hold).mpr hdate)
      · exact absurd hnew.2.1 hused
    rw [← hq, hzero]
    show r.used + 1 = 0 ↔ _
    simp
  · have hbody := hg.others x hx
    rw [hq] at hbody
    obtain ⟨r₀, hr₀, hsame⟩ := Option.map_eq_some_iff.mp hbody.symm
    have hkept := kept_of_body hsame
    rw [← kept_used hkept, ← kept_fullyFree hkept]
    exact h x r₀ hr₀

theorem afterGive_dated {s : State} {L : Nat → List Nat} (hcore : Core s L) {a i : Nat} {r : Run}
    (hb : SmallBlock s a r i) {now : Nat → Nat} (hclock : ∀ k, now k ≠ 0) (h : Dated s) :
    Dated (s.afterGive a r i now) := by
  intro x q hq
  by_cases hx : x = a
  · rw [hx] at hq
    have hrun : (s.afterGive a r i now).runs a = some (r.given i (now 0) (now 1)) := put_same _ _ _
    have hq := hrun.symm.trans hq
    rw [Option.some.injEq] at hq
    have hnever : r.lastFullyFreeMs = 0 := by
      by_contra hdate
      exact hb.used_ne hcore ((h a r hb.run).mpr hdate)
    rw [← hq, given_stamp hnever]
    have hpos := hclock 1
    split
    · rename_i hzero
      simp [hzero, hpos]
    · rename_i hbusy
      simp [hbusy]
  · exact h x q ((put_other _ _ hx).symm.trans hq)

theorem Trims.dated {s s' : State} (ht : Trims s s') (h : Dated s) : Dated s' := by
  intro a r' hr'
  obtain ⟨r, hr, hkept⟩ := ht.runs a r' hr'
  rw [kept_used hkept, kept_fullyFree hkept]
  exact h a r hr

/-! ## Memory without client data -/

/-- No client has written. -/
def Blank (s : State) : Prop := ∀ x, s.mem x = 0

theorem fill_blank {s : State} (h : Blank s) (a n : Nat) : Blank (s.fill a n fun _ => 0) := by
  intro x
  show (if a ≤ x ∧ x < a + n then 0 else s.mem x) = 0
  rw [h x, ite_self]

theorem Slow.blank {s s' : State} {os : Os} {c : Nat} {ans : Option Nat} (hs : Slow s os c ans s')
    (h : Blank s) : Blank s' := by
  cases hs with
  | failed => exact h
  | taken => exact h
  | @grown a => exact fill_blank (s := s.dropHeaders a (runMap c)) h a (runMap c)

theorem purgeRun_blank {s s' : State} {a t : Nat} (h : Blank s) (hp : s.purgeRun a t = .ok s') :
    Blank s' := by
  have hcases := purgeRun_cases hp
  cases hcases with
  | unmapped run idle unlinked => exact h
  | advised run busy dirty mem n pages =>
      intro x
      by_cases hx : mem x = s.mem x
      · exact hx.trans (h x)
      · exact (pages x hx).1
  | untouched run busy clean => exact h

theorem trimClass_blank {s s' : State} {c t : Nat} (h : Blank s) (ht : s.trimClass c t = .ok s') :
    Blank s' :=
  purgeWalk_keeps (fun _ _ _ hs hp => purgeRun_blank hs hp) h ht

theorem Blank.genuine {s : State} (h : Blank s) {p : Nat} {hd : State.RunWords}
    (hours : s.oursSmall p = .ok true) (hwords : s.runWords (runOf p) = .ok hd) :
    ∃ r, s.runs (runOf p) = some r ∧ hd.cls = r.cls := by
  obtain ⟨hd', hwords', hours⟩ := bind_ok hours
  have hsame := hwords.symm.trans hwords'
  rw [Except.ok.injEq] at hsame
  rw [← hsame] at hours
  have hhead : ¬ (hd.magic ≠ kMagicRun ∨ hd.cls = 0 ∨ kNumClasses < hd.cls) := by
    intro hbad
    rw [if_pos hbad] at hours
    cases hours
  have hload : ∀ a, s.load32 a = 0 := by
    intro a
    simp only [State.load32, h _]
    rfl
  unfold State.runWords at hwords
  split at hwords
  · rename_i r hr
    cases hwords
    exact ⟨r, hr, rfl⟩
  · split at hwords
    · cases hwords
      exact absurd (.inr (.inl rfl)) hhead
    · split at hwords
      · cases hwords
        have hmagic : s.load32 (runOf p) ≠ kMagicRun := by
          rw [hload]
          decide
        exact absurd (.inl hmagic) hhead
      · cases hwords

/-! ## The system -/

/-- The allocator, the blocks each client holds, and the slots that the destructor of the
cache of each thread still has to visit, by class; as in `TCache`, the last pushed first. -/
structure Book where
  st : State
  held : Tid → List Nat
  leaving : Tid → Nat → List Nat

/-- Where a block can be. -/
inductive Place where
  | client (t : Tid)
  | slot (t : Tid) (c : Nat)
  | leaving (t : Tid) (c : Nat)
  deriving DecidableEq

/-- The class of a cache slot. -/
def Place.cls : Place → Option Nat
  | .client _ => none
  | .slot _ c => some c
  | .leaving _ c => some c

namespace Book

/-- The addresses at each place. -/
def blocks (w : Book) : Place → List Nat
  | .client t => w.held t
  | .slot t c =>
      match w.st.tcache t with
      | none => []
      | some tc => tc.buf c
  | .leaving t c => w.leaving t c

def hold (w : Book) (s' : State) (t : Tid) (l : List Nat) : Book :=
  { w with st := s', held := put w.held t l }

/-- One section of some thread, or a block that one client hands to another. Clients give
back only what they hold, and the clock does not read zero. -/
inductive Step (w : Book) : Book → Prop where
  /-- The slow path of `malloc`. -/
  | malloc {t : Tid} {c : Nat} {os : Os} {ans : Option Nat} {s' : State} (cls : c < kNumClasses)
      (fresh : SlowFresh w.st os c) (clock : ∀ k, os.now k ≠ 0)
      (call : w.st.mallocSlow os c = .ok (ans, s')) :
      Step w (w.hold s' t (ans.toList ++ w.held t))
  /-- `run_give` in `free`. -/
  | give {t : Tid} {a i : Nat} {r : Run} {now : Nat → Nat} {s' : State}
      (block : SmallBlock w.st a r i) (holds : blockAddr a r i ∈ w.held t)
      (clock : ∀ k, now k ≠ 0) (call : w.st.runGive a (blockAddr a r i) now = .ok s') :
      Step w (w.hold s' t ((w.held t).erase (blockAddr a r i)))
  /-- The push in `free`, after its tests, with the class read from the header. -/
  | push {t : Tid} {p : Nat} {hd : State.RunWords} {s' : State} (holds : p ∈ w.held t)
      (inside : w.st.inReserve p = true) (ours : w.st.oursSmall p = .ok true)
      (words : w.st.runWords (runOf p) = .ok hd)
      (call : w.st.tcachePush t (hd.cls - 1) p = some s') :
      Step w (w.hold s' t ((w.held t).erase p))
  /-- The pop in `malloc`. -/
  | pop {t : Tid} {c p : Nat} {s' : State} (call : w.st.tcachePop t c = some (p, s')) :
      Step w (w.hold s' t (p :: w.held t))
  | newCache {t : Tid} : Step w { w with st := w.st.tcacheNew t }
  /-- A thread with a cache ends. -/
  | exit {t : Tid} {tc : TCache} (cache : w.st.tcache t = some tc) (done : ∀ c, w.leaving t c = []) :
      Step w { w with st := w.st.setTcache t none, leaving := put w.leaving t tc.buf }
  /-- `tcache_dtor` visits its next slot. -/
  | drain {t : Tid} {c p : Nat} {ps : List Nat} {now : Nat → Nat} {s' : State}
      (next : w.leaving t c = ps ++ [p]) (order : ∀ d, d < c → w.leaving t d = [])
      (clock : ∀ k, now k ≠ 0) (call : w.st.drain now p = .ok s') :
      Step w { w with st := s', leaving := put w.leaving t (put (w.leaving t) c ps) }
  /-- A trim pass in one class, with any reading. -/
  | trim {c now : Nat} {s' : State} (cls : c < kNumClasses) (call : w.st.trimClass c now = .ok s') :
      Step w { w with st := s' }
  | handOver {t u : Tid} {p : Nat} (holds : p ∈ w.held t) :
      Step w ((w.hold w.st t ((w.held t).erase p)).hold w.st u
        (p :: put w.held t ((w.held t).erase p) u))

inductive Reaches (w : Book) : Book → Prop where
  | refl : Reaches w w
  | step {w₁ w₂ : Book} (run : Reaches w w₁) (step : w₁.Step w₂) : Reaches w w₂

def start (runIdle dirtyIdle : Nat) (os : Os) : Book where
  st := (State.init runIdle dirtyIdle).ensureInit os
  held := fun _ => []
  leaving := fun _ _ => []

structure Bookkept (w : Book) : Prop where
  /-- Each list is linked both ways, without repetition, and holds the runs of its class. -/
  lists : ∃ L : Nat → List Nat, ∀ c, c < kNumClasses →
    DList.Chain w.st.runs (w.st.cls c).head (L c) ∧ (L c).Nodup ∧
      (∀ a, a ∈ L c ↔ ∃ r, w.st.runs a = some r ∧ r.cls = c + 1) ∧
      (w.st.cls c).liveBlocks = ((L c).map (usedAt w.st.runs)).sum
  classes : ∀ a r, w.st.runs a = some r → 1 ≤ r.cls ∧ r.cls ≤ kNumClasses
  used : ∀ a r, w.st.runs a = some r → r.used = clears r.bits r.elems
  high : ∀ a r, w.st.runs a = some r → ∀ k, r.elems ≤ k → bitAt r.bits k = false
  dated : ∀ a r, w.st.runs a = some r → (r.used = 0 ↔ r.lastFullyFreeMs ≠ 0)
  /-- A block is allocated exactly when it is at one position of one place, which is no
  slot of another class. -/
  owner : ∀ a r i, w.st.runs a = some r → i < r.elems →
    (bitAt r.bits i = false ↔ ∃ (k : Place) (j : Nat), (w.blocks k)[j]? = some (blockAddr a r i) ∧
      (∀ c, k.cls = some c → r.cls = c + 1) ∧
        ∀ (k' : Place) (j' : Nat), (w.blocks k')[j']? = some (blockAddr a r i) → k' = k ∧ j' = j)

structure Kept (w : Book) : Prop where
  core : ∃ L, Core w.st L
  dated : Dated w.st
  blank : Blank w.st
  shares : Shares w.blocks (Allocated w.st)
  slots : ∀ k c p, k.cls = some c → p ∈ w.blocks k → Cacheable w.st c p

/-! ### Places -/

theorem blocks_hold (w : Book) {s' : State} (hs : s'.tcache = w.st.tcache) (t : Tid) (l : List Nat) :
    (w.hold s' t l).blocks = Function.update w.blocks (.client t) l := by
  funext k
  cases k with
  | client u =>
      by_cases hu : u = t
      · rw [hu, Function.update_self]
        exact put_same _ _ _
      · rw [Function.update_of_ne (by simpa using hu)]
        exact put_other _ _ hu
  | slot u c =>
      rw [Function.update_of_ne (by simp)]
      show (match s'.tcache u with | none => [] | some tc => tc.buf c) = _
      rw [hs]
      rfl
  | leaving u c =>
      rw [Function.update_of_ne (by simp)]
      rfl

theorem blocks_leave (w : Book) {s' : State} (hs : s'.tcache = w.st.tcache) (t : Tid) (c : Nat)
    (l : List Nat) :
    blocks { w with st := s', leaving := put w.leaving t (put (w.leaving t) c l) } =
      Function.update w.blocks (.leaving t c) l := by
  funext k
  cases k with
  | client u =>
      rw [Function.update_of_ne (by simp)]
      rfl
  | slot u d =>
      rw [Function.update_of_ne (by simp)]
      show (match s'.tcache u with | none => [] | some tc => tc.buf d) = _
      rw [hs]
      rfl
  | leaving u d =>
      show put w.leaving t (put (w.leaving t) c l) u d = _
      by_cases hu : u = t
      · rw [hu, put_same]
        by_cases hd : d = c
        · rw [hd, put_same, Function.update_self]
        · rw [put_other _ _ hd, Function.update_of_ne (by simpa using hd)]
          rfl
      · rw [put_other _ _ hu, Function.update_of_ne (by simp [hu])]
        rfl

theorem blocks_slot {w : Book} {t : Tid} {tc : TCache} (htc : w.st.tcache t = some tc) (c : Nat) :
    w.blocks (.slot t c) = tc.buf c := by
  simp only [blocks, htc]

theorem blocks_cache {w : Book} {t : Tid} {tc : TCache} (htc : w.st.tcache t = some tc) (c : Nat)
    (l : List Nat) :
    blocks { w with st := w.st.setTcache t (some ⟨put tc.buf c l⟩) } =
      Function.update w.blocks (.slot t c) l := by
  funext k
  cases k with
  | client u =>
      rw [Function.update_of_ne (by simp)]
      rfl
  | slot u d =>
      show (match put w.st.tcache t (some ⟨put tc.buf c l⟩) u with
        | none => []
        | some tc => tc.buf d) = _
      by_cases hu : u = t
      · rw [hu, put_same]
        show put tc.buf c l d = _
        by_cases hd : d = c
        · rw [hd, put_same, Function.update_self]
        · rw [put_other _ _ hd, Function.update_of_ne (by simpa using hd)]
          show tc.buf d = match w.st.tcache t with | none => [] | some tc => tc.buf d
          rw [htc]
      · rw [put_other _ _ hu, Function.update_of_ne (by simp [hu])]
        rfl
  | leaving u d =>
      rw [Function.update_of_ne (by simp)]
      rfl

/-! ### One step -/

/-- A step that changes the blocks of the allocator as it changes the places. -/
theorem Kept.of_reallots {w w' : Book} (h : w.Kept) {gone new : Nat → Prop}
    (hr : Reallots w.st w'.st gone new) (hcore' : ∃ L, Core w'.st L) (hdated : Dated w'.st)
    (hblank : Blank w'.st)
    (hshares : Shares w'.blocks fun p => new p ∨ (¬ gone p ∧ Allocated w.st p))
    (hslots : ∀ k c p, k.cls = some c → p ∈ w'.blocks k → ¬ gone p ∧ Cacheable w.st c p) :
    w'.Kept := by
  obtain ⟨L, hcore⟩ := h.core
  obtain ⟨L', hcore'⟩ := hcore'
  refine ⟨⟨L', hcore'⟩, hdated, hblank, hshares.congr (hr.allocated hcore hcore'), ?_⟩
  intro k c p hk hp
  obtain ⟨hstays, hc⟩ := hslots k c p hk hp
  exact hr.cacheable hcore hcore' hc hstays

theorem Kept.of_same {w w' : Book} (h : w.Kept) (hruns : w'.st.runs = w.st.runs)
    (hcls : w'.st.cls = w.st.cls) (hlarges : w'.st.larges = w.st.larges)
    (hmaps : w'.st.maps = w.st.maps) (hmem : w'.st.mem = w.st.mem)
    (hres : w'.st.resStart = w.st.resStart ∧ w'.st.resEnd = w.st.resEnd)
    (hshares : Shares w'.blocks (Allocated w.st))
    (hslots : ∀ k c p, k.cls = some c → p ∈ w'.blocks k → Cacheable w.st c p) : w'.Kept := by
  obtain ⟨L, hcore⟩ := h.core
  apply h.of_reallots (Reallots.of_same hruns hres)
  · exact ⟨L, hcore.congr hruns hcls hlarges hmaps⟩
  · intro a r hr
    rw [hruns] at hr
    exact h.dated a r hr
  · intro x
    rw [hmem]
    exact h.blank x
  · apply hshares.congr
    intro p
    simp
  · intro k c p hk hp
    exact ⟨id, hslots k c p hk hp⟩

theorem slot_of_update {w : Book} {t : Tid} {l : List Nat} {k : Place} {c p : Nat}
    (hk : k.cls = some c) (hp : p ∈ Function.update w.blocks (.client t) l k) : p ∈ w.blocks k := by
  rcases mem_update.mp hp with ⟨heq, -⟩ | ⟨-, hp⟩
  · rw [heq] at hk
    cases hk
  · exact hp

theorem Kept.malloc {w : Book} (h : w.Kept) {t : Tid} {c : Nat} {os : Os} {ans : Option Nat}
    {s' : State} (hc : c < kNumClasses) (hfresh : SlowFresh w.st os c)
    (hcall : w.st.mallocSlow os c = .ok (ans, s')) :
    (w.hold s' t (ans.toList ++ w.held t)).Kept := by
  obtain ⟨L, hcore⟩ := h.core
  obtain ⟨ans₁, s₁, hcall₁, hslow, hcore'⟩ := mallocSlow_cases hcore hc hfresh
  rw [hcall] at hcall₁
  cases hcall₁
  have hblocks := blocks_hold w hslow.caches t (ans.toList ++ w.held t)
  rcases hslow.grants hcore with ⟨hnone, hsame⟩ | ⟨a, r, i, hans, -, hg⟩
  · have hstay : (w.hold s' t (ans.toList ++ w.held t)).blocks = w.blocks := by
      rw [hblocks, hnone]
      exact Function.update_eq_self (Place.client t) w.blocks
    apply h.of_reallots (Reallots.of_same hsame hslow.reserve) hcore'
    · intro x r hr
      have hr : s'.runs x = some r := hr
      rw [hsame] at hr
      exact h.dated x r hr
    · exact hslow.blank h.blank
    · rw [hstay]
      apply h.shares.congr
      intro p
      simp
    · intro k d p hk hp
      rw [hstay] at hp
      exact ⟨id, h.slots k d p hk hp⟩
  · obtain ⟨L', hcore'⟩ := hcore'
    apply h.of_reallots (hg.reallots hslow.reserve) ⟨L', hcore'⟩ (hg.dated h.dated)
      (hslow.blank h.blank)
    · rw [hblocks, hans]
      apply (h.shares.enter (hg.fresh hcore') (List.Perm.refl _)).congr
      intro p
      simp
    · intro k d p hk hp
      rw [hblocks] at hp
      exact ⟨id, h.slots k d p hk (slot_of_update hk hp)⟩

theorem Kept.give {w : Book} (h : w.Kept) {t : Tid} {a i : Nat} {r : Run} {now : Nat → Nat}
    {s' : State} (hb : SmallBlock w.st a r i) (hold : blockAddr a r i ∈ w.held t)
    (hclock : ∀ k, now k ≠ 0) (hcall : w.st.runGive a (blockAddr a r i) now = .ok s') :
    (w.hold s' t ((w.held t).erase (blockAddr a r i))).Kept := by
  obtain ⟨L, hcore⟩ := h.core
  obtain ⟨hcall₁, hcore'⟩ := runGive_spec hcore hb.run hb.index hb.bit now
  rw [hcall] at hcall₁
  cases hcall₁
  have hcaches : (w.st.afterGive a r i now).tcache = w.st.tcache := rfl
  have hblocks := blocks_hold w hcaches t ((w.held t).erase (blockAddr a r i))
  refine h.of_reallots (afterGive_reallots hcore hb now) ⟨L, hcore'⟩
    (afterGive_dated hcore hb hclock h.dated) h.blank ?_ ?_
  · rw [hblocks]
    apply (h.shares.leave (k := .client t) (List.perm_cons_erase hold)).congr
    intro p
    simp
  · intro k c p hk hp
    rw [hblocks] at hp
    have hp := slot_of_update hk hp
    refine ⟨?_, h.slots k c p hk hp⟩
    intro heq
    rw [heq] at hp
    have hclient := h.shares.apart k (.client t) _ hp hold
    rw [hclient] at hk
    cases hk

/-- What passes the tests of `free` and is allocated can be cached, in the class that the
header names. -/
theorem Kept.cacheable {w : Book} (h : w.Kept) {p : Nat} {hd : State.RunWords}
    (halloc : Allocated w.st p) (hin : w.st.inReserve p = true)
    (hours : w.st.oursSmall p = .ok true) (hwords : w.st.runWords (runOf p) = .ok hd) :
    Cacheable w.st (hd.cls - 1) p := by
  obtain ⟨L, hcore⟩ := h.core
  obtain ⟨r, hr, hcls⟩ := h.blank.genuine hours hwords
  have hok := hcore.run _ r hr
  have hpos := hok.cls_pos
  obtain ⟨b, hb, hiff⟩ := oursSmall_run hr hok
  rw [hours] at hb
  cases hb
  obtain ⟨i, hi, hp⟩ := hiff.mp rfl
  obtain ⟨a, q, j, hq, hp'⟩ := halloc
  obtain ⟨hrun, hij⟩ := hcore.block_place hr hi hq.run hq.index (hp.symm.trans hp')
  rw [← hrun, ← hij] at hq
  have hsame := hr.symm.trans hq.run
  rw [Option.some.injEq] at hsame
  rw [← hsame] at hq
  exact ⟨hin, r, i, hq, hp, by omega⟩

theorem Kept.push {w : Book} (h : w.Kept) {t : Tid} {p : Nat} {hd : State.RunWords} {s' : State}
    (hold : p ∈ w.held t) (hin : w.st.inReserve p = true) (hours : w.st.oursSmall p = .ok true)
    (hwords : w.st.runWords (runOf p) = .ok hd)
    (hcall : w.st.tcachePush t (hd.cls - 1) p = some s') :
    (w.hold s' t ((w.held t).erase p)).Kept := by
  have hc := h.cacheable (h.shares.of_mem (k := .client t) hold) hin hours hwords
  obtain ⟨tc, htc, -, rfl⟩ := tcachePush_some hcall
  have hslot : w.blocks (.slot t (hd.cls - 1)) = tc.buf (hd.cls - 1) :=
    blocks_slot htc _
  have hblocks : (w.hold (w.st.setTcache t (some ⟨put tc.buf (hd.cls - 1)
      (p :: tc.buf (hd.cls - 1))⟩)) t ((w.held t).erase p)).blocks =
      Function.update (Function.update w.blocks (.client t) ((w.held t).erase p))
        (.slot t (hd.cls - 1)) (p :: tc.buf (hd.cls - 1)) := by
    rw [Function.update_comm (by simp), ← blocks_cache htc]
    exact blocks_hold { w with st := _ } rfl t _
  refine h.of_same rfl rfl rfl rfl rfl ⟨rfl, rfl⟩ ?_ ?_
  · rw [hblocks]
    apply h.shares.move (List.perm_cons_erase hold)
    rw [Function.update_of_ne (by simp), hslot]
  · intro k c x hk hx
    rw [hblocks] at hx
    rcases mem_update.mp hx with ⟨heq, hx⟩ | ⟨-, hx⟩
    · rw [heq] at hk
      cases hk
      rcases List.mem_cons.mp hx with heq | hx
      · rw [heq]
        exact hc
      · apply h.slots (.slot t (hd.cls - 1)) _ x rfl
        rw [hslot]
        exact hx
    · exact h.slots k c x hk (slot_of_update hk hx)

theorem Kept.pop {w : Book} (h : w.Kept) {t : Tid} {c p : Nat} {s' : State}
    (hcall : w.st.tcachePop t c = some (p, s')) : (w.hold s' t (p :: w.held t)).Kept := by
  obtain ⟨tc, rest, htc, hbuf, rfl⟩ := tcachePop_some hcall
  have hslot : w.blocks (.slot t c) = p :: rest := (blocks_slot htc c).trans hbuf
  have hblocks : (w.hold (w.st.setTcache t (some ⟨put tc.buf c rest⟩)) t
      (p :: w.held t)).blocks =
      Function.update (Function.update w.blocks (.slot t c) rest) (.client t)
        (p :: w.held t) := by
    rw [← blocks_cache htc]
    exact blocks_hold { w with st := _ } rfl t _
  refine h.of_same rfl rfl rfl rfl rfl ⟨rfl, rfl⟩ ?_ ?_
  · rw [hblocks]
    apply h.shares.move (List.Perm.of_eq hslot)
    rw [Function.update_of_ne (by simp)]
    exact List.Perm.refl _
  · intro k d x hk hx
    rw [hblocks] at hx
    rcases mem_update.mp hx with ⟨heq, -⟩ | ⟨-, hx⟩
    · rw [heq] at hk
      cases hk
    · rcases mem_update.mp hx with ⟨heq, hx⟩ | ⟨-, hx⟩
      · rw [heq] at hk
        cases hk
        apply h.slots (.slot t c) c x rfl
        rw [hslot]
        exact List.mem_cons_of_mem p hx
      · exact h.slots k d x hk hx

theorem Kept.newCache {w : Book} (h : w.Kept) (t : Tid) :
    Kept { w with st := w.st.tcacheNew t } := by
  unfold State.tcacheNew
  split
  · rename_i hnone
    have hblocks : blocks { w with st := w.st.setTcache t (some ⟨fun _ => []⟩) } = w.blocks := by
      funext k
      cases k with
      | client u => rfl
      | slot u c =>
          show (match put w.st.tcache t (some ⟨fun _ => []⟩) u with
            | none => []
            | some tc => tc.buf c) = match w.st.tcache u with | none => [] | some tc => tc.buf c
          by_cases hu : u = t
          · rw [hu, put_same, hnone.2]
          · rw [put_other _ _ hu]
      | leaving u c => rfl
    refine h.of_same rfl rfl rfl rfl rfl ⟨rfl, rfl⟩ ?_ ?_
    · rw [hblocks]
      exact h.shares
    · intro k c p hk hp
      rw [hblocks] at hp
      exact h.slots k c p hk hp
  · exact h

/-- The slots of the cache of `t` change places with those its destructor has to visit. -/
def retire (t : Tid) : Place → Place
  | .client u => .client u
  | .slot u c => if u = t then .leaving u c else .slot u c
  | .leaving u c => if u = t then .slot u c else .leaving u c

theorem retire_retire (t : Tid) : Function.Involutive (retire t) := by
  intro k
  cases k with
  | client u => rfl
  | slot u c =>
      by_cases hu : u = t
      · simp [retire, hu]
      · simp [retire, hu]
  | leaving u c =>
      by_cases hu : u = t
      · simp [retire, hu]
      · simp [retire, hu]

theorem retire_cls (t : Tid) (k : Place) : (retire t k).cls = k.cls := by
  cases k with
  | client u => rfl
  | slot u c =>
      rw [retire]
      split <;> rfl
  | leaving u c =>
      rw [retire]
      split <;> rfl

theorem Kept.exit {w : Book} (h : w.Kept) {t : Tid} {tc : TCache} (htc : w.st.tcache t = some tc)
    (hdone : ∀ c, w.leaving t c = []) :
    Kept { w with st := w.st.setTcache t none, leaving := put w.leaving t tc.buf } := by
  have hblocks : blocks { w with st := w.st.setTcache t none, leaving := put w.leaving t tc.buf } =
      fun k => w.blocks (retire t k) := by
    funext k
    cases k with
    | client u => rfl
    | slot u c =>
        show (match put w.st.tcache t none u with | none => [] | some tc => tc.buf c) = _
        by_cases hu : u = t
        · rw [hu, put_same, retire, if_pos rfl]
          exact (hdone c).symm
        · rw [put_other _ _ hu, retire, if_neg hu]
          rfl
    | leaving u c =>
        show put w.leaving t tc.buf u c = _
        by_cases hu : u = t
        · rw [hu, put_same, retire, if_pos rfl]
          show tc.buf c = match w.st.tcache t with | none => [] | some tc => tc.buf c
          rw [htc]
        · rw [put_other _ _ hu, retire, if_neg hu]
          rfl
  refine h.of_same rfl rfl rfl rfl rfl ⟨rfl, rfl⟩ ?_ ?_
  · rw [hblocks]
    exact h.shares.rename (retire_retire t).toPerm
  · intro k c p hk hp
    rw [hblocks] at hp
    exact h.slots (retire t k) c p ((retire_cls t k).trans hk) hp

theorem Cacheable.drain {s : State} {L : Nat → List Nat} (hcore : Core s L) {c p : Nat}
    (h : Cacheable s c p) (now : Nat → Nat) :
    ∃ r i, SmallBlock s (runOf p) r i ∧ p = blockAddr (runOf p) r i ∧
      s.drain now p = .ok (s.afterGive (runOf p) r i now) ∧
        Core (s.afterGive (runOf p) r i now) L := by
  obtain ⟨hin, r, i, hb, hp, -⟩ := h
  have hok := hcore.run _ r hb.run
  obtain ⟨b, hours, hiff⟩ := oursSmall_run hb.run hok
  have htrue : b = true := hiff.mpr ⟨i, hb.index, hp⟩
  rw [htrue] at hours
  obtain ⟨hgive, hcore'⟩ := runGive_spec hcore hb.run hb.index hb.bit now
  rw [← hp] at hgive
  refine ⟨r, i, hb, hp, ?_, hcore'⟩
  have hrun := hb.run
  unfold State.drain
  rw [if_pos hin, hours, ← hgive]
  simp only [hrun, bind, Except.bind, if_true]

theorem Kept.drain {w : Book} (h : w.Kept) {t : Tid} {c p : Nat} {ps : List Nat} {now : Nat → Nat}
    {s' : State} (hnext : w.leaving t c = ps ++ [p]) (hclock : ∀ k, now k ≠ 0)
    (hcall : w.st.drain now p = .ok s') :
    Kept { w with st := s', leaving := put w.leaving t (put (w.leaving t) c ps) } := by
  obtain ⟨L, hcore⟩ := h.core
  have hplace : w.blocks (.leaving t c) = ps ++ [p] := hnext
  have hin : p ∈ w.blocks (.leaving t c) := by
    rw [hplace]
    simp
  obtain ⟨r, i, hb, hp, hcall₁, hcore'⟩ := Cacheable.drain hcore (h.slots _ c p rfl hin) now
  rw [hcall] at hcall₁
  cases hcall₁
  have hperm : (w.blocks (.leaving t c)).Perm (p :: ps) := by
    rw [hplace]
    exact List.perm_append_singleton p ps
  have hcaches : (w.st.afterGive (runOf p) r i now).tcache = w.st.tcache := rfl
  have hblocks := blocks_leave w hcaches t c ps
  refine h.of_reallots (afterGive_reallots hcore hb now) ⟨L, hcore'⟩
    (afterGive_dated hcore hb hclock h.dated) h.blank ?_ ?_
  · rw [hblocks, ← hp]
    apply (h.shares.leave hperm).congr
    intro x
    simp
  · intro k d x hk hx
    rw [hblocks] at hx
    rw [← hp]
    have hnodup := (hperm.nodup_iff.mp (h.shares.nodup (.leaving t c)))
    rcases mem_update.mp hx with ⟨heq, hx⟩ | ⟨hne, hx⟩
    · rw [heq] at hk
      cases hk
      refine ⟨?_, h.slots (.leaving t c) c x rfl (hperm.mem_iff.mpr (List.mem_cons_of_mem p hx))⟩
      intro hxp
      rw [hxp] at hx
      exact (List.nodup_cons.mp hnodup).1 hx
    · refine ⟨?_, h.slots k d x hk hx⟩
      intro hxp
      rw [hxp] at hx
      exact hne (h.shares.apart k (.leaving t c) p hx hin)

theorem Kept.trim {w : Book} (h : w.Kept) {c now : Nat} {s' : State} (hc : c < kNumClasses)
    (hcall : w.st.trimClass c now = .ok s') : Kept { w with st := s' } := by
  obtain ⟨L, hcore⟩ := h.core
  obtain ⟨s₁, L', hcall₁, hcore', htrims, -⟩ := trimClass_spec hcore hc now
  rw [hcall] at hcall₁
  cases hcall₁
  have hcaches : s'.tcache = w.st.tcache := by
    have hfixed := congrArg State.tcache htrims.fixed
    exact hfixed
  have hblocks : blocks { w with st := s' } = w.blocks := by
    funext k
    cases k with
    | client u => rfl
    | slot u d =>
        show (match s'.tcache u with | none => [] | some tc => tc.buf d) = _
        rw [hcaches]
        rfl
    | leaving u d => rfl
  refine h.of_reallots (htrims.reallots hcore) ⟨L', hcore'⟩ (htrims.dated h.dated)
    (trimClass_blank h.blank hcall) ?_ ?_
  · rw [hblocks]
    apply h.shares.congr
    intro p
    simp
  · intro k d p hk hp
    rw [hblocks] at hp
    exact ⟨id, h.slots k d p hk hp⟩

theorem Kept.handOver {w : Book} (h : w.Kept) {t u : Tid} {p : Nat} (hold : p ∈ w.held t) :
    ((w.hold w.st t ((w.held t).erase p)).hold w.st u
      (p :: put w.held t ((w.held t).erase p) u)).Kept := by
  have hcaches : w.st.tcache = w.st.tcache := rfl
  have hfirst := blocks_hold w hcaches t ((w.held t).erase p)
  have hblocks : ((w.hold w.st t ((w.held t).erase p)).hold w.st u
      (p :: put w.held t ((w.held t).erase p) u)).blocks =
      Function.update (Function.update w.blocks (.client t) ((w.held t).erase p)) (.client u)
        (p :: put w.held t ((w.held t).erase p) u) := by
    rw [← hfirst]
    exact blocks_hold _ rfl u _
  refine h.of_same rfl rfl rfl rfl rfl ⟨rfl, rfl⟩ ?_ ?_
  · rw [hblocks]
    refine h.shares.move (List.perm_cons_erase hold) (List.Perm.of_eq ?_)
    exact congrArg _ (congrFun hfirst (.client u))
  · intro k c x hk hx
    rw [hblocks] at hx
    rcases mem_update.mp hx with ⟨heq, -⟩ | ⟨-, hx⟩
    · rw [heq] at hk
      cases hk
    · exact h.slots k c x hk (slot_of_update hk hx)

theorem Kept.step {w w' : Book} (h : w.Kept) (hs : w.Step w') : w'.Kept := by
  cases hs with
  | malloc cls fresh clock call => exact h.malloc cls fresh call
  | give block holds clock call => exact h.give block holds clock call
  | push holds inside ours words call => exact h.push holds inside ours words call
  | pop call => exact h.pop call
  | newCache => exact h.newCache _
  | exit cache done => exact h.exit cache done
  | drain next order clock call => exact h.drain next clock call
  | trim cls call => exact h.trim cls call
  | handOver holds => exact h.handOver holds

theorem Kept.start (runIdle dirtyIdle : Nat) (os : Os) : (Book.start runIdle dirtyIdle os).Kept := by
  obtain ⟨hruns, hmem, hcaches⟩ := ensureInit_same (State.init runIdle dirtyIdle) os
  have hblocks : (Book.start runIdle dirtyIdle os).blocks = fun _ => [] := by
    funext k
    cases k with
    | client u => rfl
    | slot u c =>
        show (match ((State.init runIdle dirtyIdle).ensureInit os).tcache u with
          | none => []
          | some tc => tc.buf c) = []
        rw [hcaches]
        rfl
    | leaving u c => rfl
  refine ⟨⟨fun _ => [], (init_core runIdle dirtyIdle).ensureInit os⟩, ?_, congrFun hmem, ?_, ?_⟩
  · intro a r hr
    cases (congrFun hruns a).symm.trans hr
  · rw [hblocks]
    apply Shares.empty.congr
    intro p
    constructor
    · intro halloc
      obtain ⟨a, r, i, hb, -⟩ := halloc
      cases (congrFun hruns a).symm.trans hb.run
    · intro hfalse
      exact hfalse.elim
  · intro k c p _ hp
    rw [hblocks] at hp
    cases hp

theorem Reaches.kept {w w' : Book} (hr : w.Reaches w') (h : w.Kept) : w'.Kept := by
  induction hr with
  | refl => exact h
  | step run step ih => exact ih.step step

theorem Reaches.head {w w₁ w₂ : Book} (step : w.Step w₁) (run : w₁.Reaches w₂) : w.Reaches w₂ := by
  induction run with
  | refl => exact .step .refl step
  | step run step' ih => exact ih.step step'

/-! ### The destructor of a cache

`tcache_dtor` takes its slots one by one, each under the lock of its class. Run without
interruption it is the end of the thread followed by one step for each slot.
-/

/-- The first slot that the destructor visits, and the ones behind it. -/
theorem slots_cons {buf : Nat → List Nat} {p : Nat} {l : List Nat} {a n : Nat}
    (h : ((List.range' a n).flatMap fun c => (buf c).reverse) = p :: l) :
    ∃ c ps, buf c = ps ++ [p] ∧ (∀ d, a ≤ d → d < c → buf d = []) ∧
      ((List.range' a n).flatMap fun c' => (put buf c ps c').reverse) = l := by
  induction n generalizing a with
  | zero => cases h
  | succ n ih =>
      rw [List.range'_succ, List.flatMap_cons] at h
      cases hbuf : (buf a).reverse with
      | nil =>
          rw [hbuf, List.nil_append] at h
          obtain ⟨c, ps, hc, hbefore, hrest⟩ := ih h
          have hnil : buf a = [] := List.reverse_eq_nil_iff.mp hbuf
          have hne : a ≠ c := by
            rintro rfl
            rw [hnil] at hc
            cases ps <;> cases hc
          refine ⟨c, ps, hc, fun d had hdc => ?_, ?_⟩
          · rcases Nat.eq_or_lt_of_le had with rfl | hlt
            · exact hnil
            · exact hbefore d hlt hdc
          · rw [List.range'_succ, List.flatMap_cons, put_other _ _ hne, hbuf, List.nil_append, hrest]
      | cons q qs =>
          rw [hbuf, List.cons_append, List.cons.injEq] at h
          obtain ⟨rfl, hrest⟩ := h
          have hlast : buf a = qs.reverse ++ [q] := by
            rw [← List.reverse_reverse (buf a), hbuf, List.reverse_cons]
          refine ⟨a, qs.reverse, hlast, fun d had hdc => absurd hdc (Nat.not_lt.mpr had), ?_⟩
          rw [List.range'_succ, List.flatMap_cons, put_same, List.reverse_reverse, ← hrest]
          refine congrArg _ (List.flatMap_congr fun c hc => ?_)
          have hac : c ≠ a := Nat.ne_of_gt (List.mem_range'_1.mp hc).1
          rw [put_other _ _ hac]

theorem Kept.leaving_nil {w : Book} (h : w.Kept) {t : Tid} {c : Nat} (hc : kNumClasses ≤ c) :
    w.leaving t c = [] := by
  rw [List.eq_nil_iff_forall_not_mem]
  intro p hp
  obtain ⟨L, hcore⟩ := h.core
  obtain ⟨-, r, i, hb, -, hcls⟩ := h.slots (.leaving t c) c p rfl hp
  have hok := (hcore.run _ r hb.run).cls_le
  omega

/-- The slots that are left, taken in order; the induction is on them. -/
theorem Kept.drainAll {w : Book} (h : w.Kept) {t : Tid} {now : Nat → Nat → Nat}
    (hclock : ∀ k j, now k j ≠ 0) {l : List Nat} (hl : State.TCache.slots ⟨w.leaving t⟩ = l) (n : Nat) :
    ∃ s', (l.zipIdx n).foldlM (fun s x => s.drain (now x.2) x.1) w.st = .ok s' ∧
      w.Reaches { w with st := s', leaving := put w.leaving t fun _ => [] } := by
  induction l generalizing w n with
  | nil =>
      have hleft : w.leaving t = fun _ => [] := by
        funext c
        rcases Nat.lt_or_ge c kNumClasses with hc | hc
        · have hnil := List.flatMap_eq_nil_iff.mp hl c (List.mem_range.mpr hc)
          exact List.reverse_eq_nil_iff.mp hnil
        · exact h.leaving_nil hc
      refine ⟨w.st, rfl, ?_⟩
      rw [← hleft, put_self]
      exact .refl
  | cons p l ih =>
      rw [State.TCache.slots, List.range_eq_range'] at hl
      obtain ⟨c, ps, hnext, hbefore, hrest⟩ := slots_cons hl
      have hnext : w.leaving t c = ps ++ [p] := hnext
      have hin : p ∈ w.blocks (.leaving t c) := by
        show p ∈ w.leaving t c
        rw [hnext]
        exact List.mem_append_right ps List.mem_cons_self
      obtain ⟨L, hcore⟩ := h.core
      obtain ⟨r, i, -, -, hcall, -⟩ := Cacheable.drain hcore (h.slots _ c p rfl hin) (now n)
      have hstep := Step.drain hnext (fun d hd => hbefore d (Nat.zero_le d) hd) (hclock n) hcall
      have hslots : State.TCache.slots ⟨put w.leaving t (put (w.leaving t) c ps) t⟩ = l := by
        rw [put_same, State.TCache.slots, List.range_eq_range']
        exact hrest
      obtain ⟨s', hfold, hreach⟩ := ih (h.step hstep) hslots (n + 1)
      refine ⟨s', ?_, ?_⟩
      · rw [List.zipIdx_cons, List.foldlM_cons]
        show (w.st.drain (now n) p).bind _ = _
        rw [hcall]
        exact hfold
      · have hgo := Reaches.head hstep hreach
        rwa [put_put] at hgo

/-- The destructor of a thread's cache never fails, and it does what the steps of the
system do one by one. -/
theorem Kept.tcacheDtor {w : Book} (h : w.Kept) {t : Tid} {tc : TCache}
    (hcache : w.st.tcache t = some tc) (hdone : ∀ c, w.leaving t c = [])
    {now : Nat → Nat → Nat} (hclock : ∀ k j, now k j ≠ 0) :
    ∃ s', w.st.tcacheDtor t now = .ok s' ∧ w.Reaches { w with st := s' } := by
  have hstep := Step.exit hcache hdone
  have hslots : State.TCache.slots ⟨put w.leaving t tc.buf t⟩ = State.TCache.slots tc := by
    rw [put_same]
  obtain ⟨s', hfold, hreach⟩ := (h.step hstep).drainAll hclock hslots 0
  refine ⟨s', ?_, ?_⟩
  · rw [State.tcacheDtor, hcache]
    exact hfold
  · have hgo := Reaches.head hstep hreach
    have hleft : w.leaving t = fun _ => [] := funext hdone
    rw [put_put, ← hleft, put_self] at hgo
    exact hgo

/-! ### The bookkeeping -/

theorem Kept.bookkept {w : Book} (h : w.Kept) : w.Bookkept := by
  obtain ⟨L, hcore⟩ := h.core
  have halloc : ∀ a r i, w.st.runs a = some r → i < r.elems → Allocated w.st (blockAddr a r i) →
      bitAt r.bits i = false := by
    intro a r i hr hi hp
    obtain ⟨b, q, j, hb, heq⟩ := hp
    obtain ⟨hrun, hij⟩ := hcore.block_place hr hi hb.run hb.index heq
    rw [← hrun, ← hij] at hb
    have hsame := hr.symm.trans hb.run
    rw [Option.some.injEq] at hsame
    rw [hsame]
    exact hb.bit
  constructor
  · refine ⟨L, ?_⟩
    intro c hc
    refine ⟨hcore.lists.chain c hc, hcore.lists.nodup c hc, ?_, hcore.lists.live c hc⟩
    intro a
    constructor
    · intro ha
      exact hcore.lists.own c hc a ha
    · intro hrun
      obtain ⟨r, hr, hcls⟩ := hrun
      have hmem := hcore.lists.mem a r hr
      rwa [hcls] at hmem
  · intro a r hr
    exact ⟨(hcore.run a r hr).cls_pos, (hcore.run a r hr).cls_le⟩
  · intro a r hr
    exact (hcore.run a r hr).used
  · intro a r hr
    exact (hcore.run a r hr).high
  · exact h.dated
  · intro a r i hr hi
    constructor
    · intro hbit
      have hp : Allocated w.st (blockAddr a r i) := ⟨a, r, i, ⟨hr, hi, hbit⟩, rfl⟩
      obtain ⟨k, hk⟩ := (h.shares.mem _).mp hp
      obtain ⟨j, hj⟩ := List.mem_iff_getElem?.mp hk
      refine ⟨k, j, hj, ?_, fun k' j' hj' => h.shares.position hj hj'⟩
      intro c hc
      obtain ⟨-, q, j, hb, heq, hcls⟩ := h.slots k c _ hc hk
      obtain ⟨hrun, -⟩ := hcore.block_place hr hi hb.run hb.index heq
      rw [← hrun] at hb
      have hsame := hr.symm.trans hb.run
      rw [Option.some.injEq] at hsame
      rw [hsame]
      exact hcls
    · intro howner
      obtain ⟨k, j, hj, -⟩ := howner
      exact halloc a r i hr hi (h.shares.of_mem (List.mem_of_getElem? hj))

/-- In every state that the system reaches, the books are kept. -/
theorem bookkeeping {runIdle dirtyIdle : Nat} {os : Os} {w : Book}
    (h : (Book.start runIdle dirtyIdle os).Reaches w) : w.Bookkept :=
  (h.kept (Kept.start runIdle dirtyIdle os)).bookkept

theorem start_fresh : SlowFresh (Book.start 0 0 (Os.granting (2 ^ 30) 1)).st
    (Os.granting (2 ^ 30) 1) 0 := by
  intro _
  apply ((init_ledger 0 0).ensureInit (granting_sane 1)).getsFresh (by decide) (.inr rfl)
  refine ⟨fun _ => by decide, fun h0 => ?_⟩
  cases h0

theorem one_cached :
    ∃ w, (Book.start 0 0 (Os.granting (2 ^ 30) 1)).Reaches w ∧ w.blocks (.slot 0 0) = [1073754112] := by
  have htest : ((Book.start 0 0 (Os.granting (2 ^ 30) 1)).st.mallocSlow
      (Os.granting (2 ^ 30) 1) 0).toOption.any (fun x => decide (x.1 = some 1073754112) &&
        (x.2.tcacheNew 0).inReserve 1073754112 &&
        ((x.2.tcacheNew 0).oursSmall 1073754112).toOption.any id &&
        ((x.2.tcacheNew 0).runWords (runOf 1073754112)).toOption.any fun hd =>
          ((x.2.tcacheNew 0).tcachePush 0 (hd.cls - 1) 1073754112).any fun s =>
            (s.tcache 0).any fun tc => decide (tc.buf 0 = [1073754112])) = true := by
    decide +kernel
  obtain ⟨⟨ans, s₁⟩, hcall, htest⟩ := World.ok_of_any htest
  simp only [Bool.and_eq_true, decide_eq_true_eq] at htest
  obtain ⟨⟨⟨hans, hin⟩, hours⟩, hpush⟩ := htest
  obtain ⟨b, hours, htrue⟩ := World.ok_of_any hours
  obtain ⟨hd, hwords, hpush⟩ := World.ok_of_any hpush
  obtain ⟨s₂, hpush, hslot⟩ := (Option.any_eq_true _ _).mp hpush
  obtain ⟨tc, htc, hbuf⟩ := (Option.any_eq_true _ _).mp hslot
  have hb : b = true := htrue
  rw [hans] at hcall
  rw [hb] at hours
  have hclock : ∀ k, (Os.granting (2 ^ 30) 1).now k ≠ 0 := fun _ => Nat.one_ne_zero
  have hmalloc := Step.malloc (t := 0) (by decide) start_fresh hclock hcall
  have hcached := (Reaches.refl.step hmalloc).step (.newCache (t := 0))
  have hheld : 1073754112 ∈ [1073754112] := List.mem_singleton.mpr rfl
  refine ⟨_, hcached.step (.push (t := 0) hheld hin hours hwords hpush), ?_⟩
  exact (blocks_slot htc 0).trans (of_decide_eq_true hbuf)

/-- The theorem where a block is cached. -/
theorem bookkeeping_cached : ∃ w : Book, w.blocks (.slot 0 0) = [1073754112] ∧ w.Bookkept := by
  obtain ⟨w, hreach, hslot⟩ := one_cached
  exact ⟨w, hslot, bookkeeping hreach⟩

end Book

end Memflux.Alloc
