import Memflux.Lib.TwoRuns
import Memflux.Alloc.Release
import Memflux.Alloc.Aligned

/-! # What application bytes can change

Two states that differ only in bytes of `D`. The allocator reads memory in two
places: the ownership tests of `free` and `realloc`, and the copy of `realloc`.
Everything else works on its own records, so two runs of a call end alike as
soon as the words that the ownership tests read lie outside `D`.
-/

namespace Memflux.Alloc

open Spans BitWords DList TwoRuns

/-- `s'` is `s` but for bytes of `D`. -/
def DiffersIn (D : Nat → Prop) (s s' : State) : Prop :=
  ∃ mem, s' = { s with mem := mem } ∧ ∀ x, mem x ≠ s.mem x → D x

/-- One answer, and states that differ only in bytes of `D`. -/
def Alike {α : Type} (D : Nat → Prop) (x y : α × State) : Prop := y.1 = x.1 ∧ DiffersIn D x.2 y.2

section

variable {D : Nat → Prop} {s s' : State}

theorem DiffersIn.refl (s : State) : DiffersIn D s s := ⟨s.mem, rfl, fun _ h => absurd rfl h⟩

theorem DiffersIn.mono {D' : Nat → Prop} (h : DiffersIn D s s') (hD : ∀ x, D x → D' x) :
    DiffersIn D' s s' := by
  obtain ⟨mem, rfl, hmem⟩ := h
  exact ⟨mem, rfl, fun x hx => hD x (hmem x hx)⟩

theorem DiffersIn.fill (h : DiffersIn D s s') (a n : Nat) (f : Nat → UInt8) :
    DiffersIn D (s.fill a n f) (s'.fill a n f) := by
  obtain ⟨mem, rfl, hmem⟩ := h
  refine ⟨_, rfl, fun x hx => hmem x ?_⟩
  simp only [State.fill] at hx
  split at hx
  · exact absurd rfl hx
  · exact hx

theorem DiffersIn.runs (h : DiffersIn D s s') : s'.runs = s.runs := by
  obtain ⟨mem, rfl, -⟩ := h
  rfl

theorem DiffersIn.larges (h : DiffersIn D s s') : s'.larges = s.larges := by
  obtain ⟨mem, rfl, -⟩ := h
  rfl

theorem DiffersIn.resStart (h : DiffersIn D s s') : s'.resStart = s.resStart := by
  obtain ⟨mem, rfl, -⟩ := h
  rfl

theorem DiffersIn.inReserve (h : DiffersIn D s s') (p : Nat) : s'.inReserve p = s.inReserve p := by
  obtain ⟨mem, rfl, -⟩ := h
  rfl

theorem DiffersIn.readable (h : DiffersIn D s s') (a n : Nat) : s'.readable a n = s.readable a n := by
  obtain ⟨mem, rfl, -⟩ := h
  rfl

/-! ## Calls that read no memory -/

theorem DiffersIn.mmap (h : DiffersIn D s s') (base size align : Nat) :
    DiffersIn D (s.mmap base size align) (s'.mmap base size align) := by
  have hfill := h.fill base size fun _ => 0
  obtain ⟨mem, hs, hmem⟩ := hfill
  obtain ⟨mem', rfl, -⟩ := h
  have hsame : mem = (State.fill { s with mem := mem' } base size fun _ => 0).mem := by rw [hs]
  subst hsame
  exact ⟨_, rfl, hmem⟩

theorem DiffersIn.reserveInit (h : DiffersIn D s s') (os : Os) :
    DiffersIn D (s.reserveInit os) (s'.reserveInit os) := by
  obtain ⟨mem, rfl, hmem⟩ := h
  unfold State.reserveInit
  cases os.reserve with
  | none => exact ⟨mem, rfl, hmem⟩
  | some p => exact ⟨mem, rfl, hmem⟩

theorem DiffersIn.ensureInit (h : DiffersIn D s s') (os : Os) :
    DiffersIn D (s.ensureInit os) (s'.ensureInit os) := by
  have hreserve := h.reserveInit os
  obtain ⟨mem, rfl, hmem⟩ := h
  unfold State.ensureInit
  dsimp only
  split
  · exact ⟨mem, rfl, hmem⟩
  · split
    · obtain ⟨mem', hs, hmem'⟩ := hreserve
      rw [hs]
      exact ⟨mem', rfl, hmem'⟩
    · exact ⟨mem, rfl, hmem⟩

theorem DiffersIn.reserveMap (h : DiffersIn D s s') (os : Os) (size align : Nat) :
    Alike D (s.reserveMap os size align) (s'.reserveMap os size align) := by
  have hmap : ∀ bump base, DiffersIn D ({ s with resBump := bump }.mmap base size align)
      ({ s' with resBump := bump }.mmap base size align) := by
    intro bump base
    obtain ⟨mem, rfl, hmem⟩ := h
    exact DiffersIn.mmap (s := { s with resBump := bump }) ⟨mem, rfl, hmem⟩ base size align
  obtain ⟨mem, rfl, hmem⟩ := h
  unfold State.reserveMap
  dsimp only
  split
  · exact ⟨rfl, mem, rfl, hmem⟩
  · split
    · exact ⟨rfl, hmap _ _⟩
    · exact ⟨rfl, mem, rfl, hmem⟩

theorem DiffersIn.mapRegion (h : DiffersIn D s s') (os : Os) (size align : Nat) :
    Alike D (s.mapRegion os size align) (s'.mapRegion os size align) := by
  unfold State.mapRegion
  rw [h.resStart]
  split
  · exact h.reserveMap os size align
  · cases State.mmapAnon os size with
    | none => exact ⟨rfl, h⟩
    | some a => exact ⟨rfl, h.mmap a size 4096⟩

theorem DiffersIn.runInsert (h : DiffersIn D s s') (c a : Nat) :
    Related (DiffersIn D) (s.runInsert c a) (s'.runInsert c a) := by
  obtain ⟨mem, rfl, hmem⟩ := h
  unfold State.runInsert
  dsimp only
  split
  · exact .error _
  · exact .ok ⟨mem, rfl, hmem⟩

theorem DiffersIn.runNew (h : DiffersIn D s s') (os : Os) (c : Nat) :
    Related (Alike D) (s.runNew os c) (s'.runNew os c) := by
  obtain ⟨hans, hst⟩ := h.mapRegion os (pageUp (runBytes (elemsOf (c - 1)) (kSize (c - 1)))) kRunSize
  unfold State.runNew
  dsimp only
  revert hans hst
  generalize s.mapRegion os (pageUp (runBytes (elemsOf (c - 1)) (kSize (c - 1)))) kRunSize = x
  generalize s'.mapRegion os (pageUp (runBytes (elemsOf (c - 1)) (kSize (c - 1)))) kRunSize = y
  obtain ⟨ans, s₁⟩ := x
  obtain ⟨ans', s₁'⟩ := y
  intro (hans : ans' = ans) (hst : DiffersIn D s₁ s₁')
  subst hans
  cases ans' with
  | none => exact .ok ⟨rfl, hst⟩
  | some a =>
      have hfresh : DiffersIn D
          { s₁.setRun a (State.freshRun c (os.now 0)) with
            mapped := s₁.mapped + pageUp (runBytes (elemsOf (c - 1)) (kSize (c - 1))) }
          { s₁'.setRun a (State.freshRun c (os.now 0)) with
            mapped := s₁'.mapped + pageUp (runBytes (elemsOf (c - 1)) (kSize (c - 1))) } := by
        obtain ⟨mem, rfl, hmem⟩ := hst
        exact ⟨mem, rfl, hmem⟩
      exact (hfresh.runInsert (c - 1) a).bind fun s₂ s₂' h₂ => .ok ⟨rfl, h₂⟩

theorem DiffersIn.runTake (h : DiffersIn D s s') (a now : Nat) :
    Related (Alike D) (s.runTake a now) (s'.runTake a now) := by
  obtain ⟨mem, rfl, hmem⟩ := h
  unfold State.runTake State.run
  dsimp only
  cases s.runs a with
  | none => exact .error _
  | some r =>
      simp only [bind, Except.bind]
      cases r.findFree with
      | none => exact .ok ⟨rfl, mem, rfl, hmem⟩
      | some i => exact .ok ⟨rfl, mem, rfl, hmem⟩

theorem DiffersIn.runGive (h : DiffersIn D s s') (a p : Nat) (now : Nat → Nat) :
    Related (DiffersIn D) (s.runGive a p now) (s'.runGive a p now) := by
  obtain ⟨mem, rfl, hmem⟩ := h
  unfold State.runGive State.run
  dsimp only
  cases s.runs a with
  | none => exact .error _
  | some r => exact .ok ⟨mem, rfl, hmem⟩

theorem DiffersIn.firstRoom (h : DiffersIn D s s') (fuel a : Nat) :
    s'.firstRoom fuel a = s.firstRoom fuel a := by
  obtain ⟨mem, rfl, -⟩ := h
  induction fuel generalizing a with
  | zero => rfl
  | succ fuel ih =>
      unfold State.firstRoom State.run
      dsimp only
      cases s.runs a with
      | none => rfl
      | some r => simp only [bind, Except.bind, ih]

theorem DiffersIn.mallocLarge (h : DiffersIn D s s') (os : Os) (n : Nat) :
    Alike D (s.mallocLarge os n) (s'.mallocLarge os n) := by
  obtain ⟨hans, hst⟩ := h.mapRegion os (largeMap n) 4096
  unfold State.mallocLarge
  dsimp only
  revert hans hst
  generalize s.mapRegion os (largeMap n) 4096 = x
  generalize s'.mapRegion os (largeMap n) 4096 = y
  obtain ⟨ans, s₁⟩ := x
  obtain ⟨ans', s₁'⟩ := y
  intro (hans : ans' = ans) (hst : DiffersIn D s₁ s₁')
  subst hans
  cases ans' with
  | none => exact ⟨rfl, hst⟩
  | some a =>
      obtain ⟨mem, rfl, hmem⟩ := hst
      exact ⟨rfl, mem, rfl, hmem⟩

theorem DiffersIn.mallocSlow (h : DiffersIn D s s') (os : Os) (c : Nat) :
    Related (Alike D) (s.mallocSlow os c) (s'.mallocSlow os c) := by
  have hwalk : s'.firstRoom s'.maps.length (s'.cls c).head =
      s.firstRoom s.maps.length (s.cls c).head := by
    have hfirst := h.firstRoom s.maps.length (s.cls c).head
    obtain ⟨mem, rfl, -⟩ := h
    exact hfirst
  unfold State.mallocSlow
  rw [hwalk]
  refine (Related.same _).bind fun a a' ha => ?_
  subst ha
  split
  · refine (h.runNew os (c + 1)).bind fun x y hxy => ?_
    obtain ⟨ans, s₁⟩ := x
    obtain ⟨ans', s₁'⟩ := y
    obtain ⟨hans, hst⟩ : ans' = ans ∧ DiffersIn D s₁ s₁' := hxy
    subst hans
    cases ans' with
    | none => exact .ok ⟨rfl, hst⟩
    | some a => exact DiffersIn.runTake hst a (os.now 1)
  · exact h.runTake a' (os.now 1)

theorem DiffersIn.tcachePop (h : DiffersIn D s s') (t : Tid) (c : Nat) :
    (s.tcachePop t c = none ∧ s'.tcachePop t c = none) ∨
      ∃ p s₁ s₁', s.tcachePop t c = some (p, s₁) ∧ s'.tcachePop t c = some (p, s₁') ∧
        DiffersIn D s₁ s₁' := by
  obtain ⟨mem, rfl, hmem⟩ := h
  unfold State.tcachePop
  dsimp only
  split
  · cases s.tcache t with
    | none => exact .inl ⟨rfl, rfl⟩
    | some tc =>
        dsimp only
        cases tc.buf c with
        | nil => exact .inl ⟨rfl, rfl⟩
        | cons p rest => exact .inr ⟨p, _, _, rfl, rfl, mem, rfl, hmem⟩
  · exact .inl ⟨rfl, rfl⟩

theorem DiffersIn.tcachePush (h : DiffersIn D s s') (t : Tid) (c p : Nat) :
    (s.tcachePush t c p = none ∧ s'.tcachePush t c p = none) ∨
      ∃ s₁ s₁', s.tcachePush t c p = some s₁ ∧ s'.tcachePush t c p = some s₁' ∧
        DiffersIn D s₁ s₁' := by
  obtain ⟨mem, rfl, hmem⟩ := h
  unfold State.tcachePush
  dsimp only
  split
  · cases s.tcache t with
    | none => exact .inl ⟨rfl, rfl⟩
    | some tc =>
        dsimp only
        split
        · exact .inr ⟨_, _, rfl, rfl, mem, rfl, hmem⟩
        · exact .inl ⟨rfl, rfl⟩
  · exact .inl ⟨rfl, rfl⟩

theorem DiffersIn.mallocReady (h : DiffersIn D s s') (t : Tid) (os : Os) (n : Nat) :
    Related (Alike D) (s.mallocReady t os n) (s'.mallocReady t os n) := by
  unfold State.mallocReady
  split
  · exact .ok (h.mallocLarge os n)
  · dsimp only
    rcases h.tcachePop t (classOf n - 1) with ⟨h₁, h₂⟩ | ⟨p, s₁, s₁', h₁, h₂, hst⟩
    · rw [h₁, h₂]
      exact h.mallocSlow os (classOf n - 1)
    · rw [h₁, h₂]
      exact .ok ⟨rfl, hst⟩

theorem DiffersIn.malloc (h : DiffersIn D s s') (t : Tid) (os : Os) (n : Nat) :
    Related (Alike D) (s.malloc t os n) (s'.malloc t os n) :=
  (h.ensureInit os).mallocReady t os _

theorem DiffersIn.freeSmall (h : DiffersIn D s s') (t : Tid) (now : Nat → Nat) (p : Nat) :
    Related (Alike D) (s.freeSmall t now p) (s'.freeSmall t now p) := by
  unfold State.freeSmall
  rw [h.runs]
  cases s.runs (runOf p) with
  | none => exact .error _
  | some r =>
      dsimp only
      rcases h.tcachePush t (r.cls - 1) p with ⟨h₁, h₂⟩ | ⟨s₁, s₁', h₁, h₂, hst⟩
      · rw [h₁, h₂]
        exact (h.runGive (runOf p) p now).bind fun s₂ s₂' hst => .ok ⟨rfl, hst⟩
      · rw [h₁, h₂]
        exact .ok ⟨rfl, hst⟩

theorem DiffersIn.munmap (h : DiffersIn D s s') (a len : Nat) :
    DiffersIn D (s.munmap a len) (s'.munmap a len) := by
  obtain ⟨mem, rfl, hmem⟩ := h
  exact ⟨mem, rfl, hmem⟩

theorem DiffersIn.freeLarge (h : DiffersIn D s s') (p : Nat) :
    Related (Alike D) (s.freeLarge p) (s'.freeLarge p) := by
  unfold State.freeLarge
  dsimp only
  rw [h.larges]
  cases s.larges (p - sizeofLargeHdr) with
  | none => exact .error _
  | some l =>
      have hst := h.munmap (p - sizeofLargeHdr) l.mapSize
      dsimp only
      rw [hst.larges]
      cases (s.munmap (p - sizeofLargeHdr) l.mapSize).larges (p - sizeofLargeHdr) with
      | none => exact .error _
      | some l' =>
          obtain ⟨mem, hs, hmem⟩ := hst
          rw [hs]
          exact .ok ⟨rfl, mem, rfl, hmem⟩

/-! ## The ownership tests -/

/-- `D` has no byte of the words that `free` and `realloc` read to classify `p`. -/
def Avoids (s : State) (D : Nat → Prop) (p : Nat) : Prop :=
  ∀ x ∈ s.ownerReads p, ∀ k, k < 4 → ¬ D (x + k)

theorem DiffersIn.load32 (h : DiffersIn D s s') {a : Nat} (ha : ∀ k, k < 4 → ¬ D (a + k)) :
    s'.load32 a = s.load32 a := by
  obtain ⟨mem, rfl, hmem⟩ := h
  have hbyte : ∀ k, k < 4 → mem (a + k) = s.mem (a + k) := by
    intro k hk
    by_contra hne
    exact ha k hk (hmem _ hne)
  have h₀ := hbyte 0 (by omega)
  rw [Nat.add_zero] at h₀
  simp only [State.load32, h₀, hbyte 1 (by omega), hbyte 2 (by omega), hbyte 3 (by omega)]

theorem DiffersIn.oursSmall (h : DiffersIn D s s') {p : Nat}
    (ha : ∀ x ∈ s.smallReads p, ∀ k, k < 4 → ¬ D (x + k)) :
    s'.smallReads p = s.smallReads p ∧ s'.oursSmall p = s.oursSmall p := by
  by_cases hwords : s'.runWords (runOf p) = s.runWords (runOf p)
  · simp only [State.smallReads, State.oursSmall, hwords]
    exact ⟨trivial, trivial⟩
  -- the words come from the bytes, and one that differs is not read
  have hload : ∀ x ∈ s.smallReads p, s'.load32 x = s.load32 x := fun x hx => h.load32 (ha x hx)
  have hbytes : s.runWords (runOf p) = .ok ⟨s.load32 (runOf p), s.load32 (runOf p + 4),
        s.load32 (runOf p + 8), s.load32 (runOf p + 16)⟩ ∧
      s'.runWords (runOf p) = .ok ⟨s'.load32 (runOf p), s'.load32 (runOf p + 4),
        s'.load32 (runOf p + 8), s'.load32 (runOf p + 16)⟩ := by
    unfold State.runWords at hwords ⊢
    rw [h.runs, h.larges, h.readable] at hwords ⊢
    cases hr : s.runs (runOf p) with
    | some r => exact absurd (by simp only [hr]) hwords
    | none =>
        cases hl : s.larges (runOf p) with
        | some l => exact absurd (by simp only [hr, hl]) hwords
        | none =>
            cases hb : s.readable (runOf p) 20 with
            | false => exact absurd (by simp only [hr, hl, hb, Bool.false_eq_true, if_false]) hwords
            | true => exact ⟨rfl, rfl⟩
  obtain ⟨h₁, h₂⟩ := hbytes
  unfold State.smallReads at hload ⊢
  unfold State.oursSmall
  dsimp only at hload ⊢
  rw [h₁] at hload ⊢
  rw [h₂]
  simp only [bind, Except.bind] at hload ⊢
  by_cases hmagic : s.load32 (runOf p) = kMagicRun
  · by_cases hcls : s.load32 (runOf p + 4) = 0 ∨ kNumClasses < s.load32 (runOf p + 4)
    · simp only [hmagic, hcls, ne_eq, not_true, if_true, if_false, false_or] at hload ⊢
      rw [hload _ (by simp), hmagic, hload _ (by simp)]
      simp [hcls]
    · by_cases hlow : p < runOf p + dataOffsetPadded (s.load32 (runOf p + 8))
      · simp only [hmagic, hcls, hlow, ne_eq, not_true, if_true, if_false, false_or] at hload ⊢
        rw [hload _ (by simp), hmagic, hload _ (by simp), hload _ (by simp)]
        simp [hcls, hlow]
      · simp only [hmagic, hcls, hlow, ne_eq, not_true, if_false, false_or] at hload ⊢
        rw [hload _ (by simp), hmagic, hload _ (by simp), hload _ (by simp), hload _ (by simp)]
        simp [hcls, hlow]
  · simp only [hmagic, ne_eq, not_false_iff, if_true, true_or] at hload ⊢
    rw [hload _ (by simp)]
    simp [hmagic]

theorem DiffersIn.oursLarge (h : DiffersIn D s s') {p : Nat}
    (ha : ∀ k, k < 4 → ¬ D (p - sizeofLargeHdr + k)) : s'.oursLarge p = s.oursLarge p := by
  have hload := h.load32 ha
  unfold State.oursLarge State.largeMagic
  rw [h.larges, h.readable, hload]

theorem DiffersIn.tests (h : DiffersIn D s s') {p : Nat} (ha : Avoids s D p) :
    s'.ownerReads p = s.ownerReads p ∧ s'.oursSmall p = s.oursSmall p ∧
      (s.oursSmall p = .ok false → s'.oursLarge p = s.oursLarge p) := by
  obtain ⟨hreads, hsmall⟩ := h.oursSmall fun x hx => ha x (List.mem_append_left _ hx)
  refine ⟨by rw [State.ownerReads, State.ownerReads, hreads, hsmall], hsmall, fun hno => ?_⟩
  refine h.oursLarge (ha _ (List.mem_append_right _ ?_))
  rw [hno]
  exact List.mem_singleton_self _

/-- Whatever is done on the two answers of the tests, with states alike. -/
theorem DiffersIn.test_bind {β : Type} {S : β → β → Prop} (h : DiffersIn D s s') {p : Nat}
    (ha : Avoids s D p) {small small' large large' : Except Trap β} {other other' : β}
    (hs : Related S small small') (hl : Related S large large') (ho : S other other') :
    Related S
      (do if ← s.oursSmall p then small else if ← s.oursLarge p then large else .ok other)
      (do if ← s'.oursSmall p then small' else if ← s'.oursLarge p then large' else .ok other') := by
  obtain ⟨-, hsmall, hlarge⟩ := h.tests ha
  rw [hsmall]
  refine (Related.same _).bind_of fun a a' hx hab => ?_
  subst hab
  cases a' with
  | true => exact hs
  | false =>
      simp only [Bool.false_eq_true, if_false]
      rw [hlarge hx]
      refine (Related.same _).bind fun b b' hb => ?_
      subst hb
      cases b' with
      | true => exact hl
      | false => exact .ok ho

/-! ## `free` and `realloc` -/

theorem DiffersIn.free (h : DiffersIn D s s') (t : Tid) (now : Nat → Nat) {p : Nat}
    (ha : s.inReserve p = true → Avoids s D p) :
    Related (Alike D) (s.free t now p) (s'.free t now p) := by
  unfold State.free
  rw [h.resStart, h.inReserve p]
  split
  · exact .ok ⟨rfl, h⟩
  · split
    · exact .ok ⟨rfl, h⟩
    · split
      · rename_i hin
        exact h.test_bind (ha hin) (h.freeSmall t now p) (h.freeLarge p) ⟨rfl, h⟩
      · exact .ok ⟨rfl, h⟩

theorem DiffersIn.oldSize (h : DiffersIn D s s') {p : Nat}
    (ha : s.inReserve p = true → Avoids s D p) :
    Related (fun a b => b = a) (s.oldSize p) (s'.oldSize p) := by
  unfold State.oldSize
  rw [h.resStart, h.inReserve p, h.runs, h.larges]
  split
  · rename_i hin
    exact h.test_bind (ha hin.2) (Related.same _) (Related.same _) rfl
  · exact .ok rfl

theorem DiffersIn.memcpy (h : DiffersIn D s s') (q p n : Nat) :
    Related (DiffersIn fun x => D x ∨ (q ≤ x ∧ x < q + n)) (s.memcpy q p n) (s'.memcpy q p n) := by
  unfold State.memcpy
  rw [h.readable p n, h.readable q n]
  by_cases hp : s.readable p n = true
  · by_cases hq : s.readable q n = true
    · obtain ⟨mem, rfl, hmem⟩ := h
      simp only [hp, hq, not_true, if_false]
      refine .ok ⟨_, rfl, fun x hx => ?_⟩
      by_cases hin : q ≤ x ∧ x < q + n
      · exact .inr hin
      · simp only [State.fill, if_neg hin] at hx
        exact .inl (hmem x hx)
    · rw [if_neg (not_not.mpr hp), if_neg (not_not.mpr hp), if_pos hq, if_pos hq]
      exact .error _
  · rw [if_pos hp, if_pos hp]
    exact .error _

end

/-- One answer, and states that differ only in bytes. -/
def SameBook {α : Type} (x y : α × State) : Prop := y.1 = x.1 ∧ ∃ mem, y.2 = { x.2 with mem := mem }

theorem Alike.sameBook {α : Type} {D : Nat → Prop} {x y : α × State} (h : Alike D x y) :
    SameBook x y := by
  obtain ⟨hans, mem, hs, -⟩ := h
  exact ⟨hans, mem, hs⟩

/-- `realloc(p, n)` gets as far as its copy: the block at `q` is the new one, in the
state `s₁` that `malloc` left. -/
def State.MovesTo (s : State) (t : Tid) (os : Os) (p n old q : Nat) (s₁ : State) : Prop :=
  n ≠ 0 ∧ s.oldSize p = .ok (some old) ∧ ¬ (n ≤ old ∧ old < kLargeMin ∧ old / 2 < n) ∧
    s.malloc t os n = .ok (some q, s₁)

theorem DiffersIn.realloc {D : Nat → Prop} {s s' : State} (h : DiffersIn D s s') (t : Tid) (os : Os)
    {p n : Nat} (ha : s.inReserve p = true → Avoids s D p)
    (hmove : ∀ old q s₁ s₂, s.MovesTo t os p n old q s₁ → s₁.memcpy q p (min old n) = .ok s₂ →
      Avoids s₂ (fun x => D x ∨ (q ≤ x ∧ x < q + min old n)) p) :
    Related SameBook (s.realloc t os p n) (s'.realloc t os p n) := by
  unfold State.realloc
  by_cases hp : p = 0
  · rw [if_pos hp, if_pos hp]
    exact (h.malloc t os n).bind fun x y hxy => .ok ⟨congrArg (Reply.mk · false) hxy.1, hxy.sameBook.2⟩
  · rw [if_neg hp, if_neg hp]
    by_cases hn : n = 0
    · rw [if_pos hn, if_pos hn]
      refine (h.free t os.now ha).bind fun x y hxy => ?_
      exact (hxy.2.malloc t (os.after 2) 1).bind fun x' y' hxy' =>
        .ok ⟨congrArg (Reply.mk · false) hxy'.1, hxy'.sameBook.2⟩
    · rw [if_neg hn, if_neg hn]
      refine (h.oldSize ha).bind_of fun old old' hold hsame => ?_
      subst hsame
      cases old' with
      | none => exact .ok (Alike.sameBook ⟨rfl, h⟩)
      | some old =>
          dsimp only
          split
          · exact .ok (Alike.sameBook ⟨rfl, h⟩)
          · rename_i hfits
            unfold State.reallocMove
            refine (h.malloc t os n).bind_of fun x y hx hxy => ?_
            obtain ⟨np, s₁⟩ := x
            obtain ⟨np', s₁'⟩ := y
            obtain ⟨hans, hst⟩ : np' = np ∧ DiffersIn D s₁ s₁' := hxy
            subst hans
            cases np' with
            | none => exact .ok (Alike.sameBook ⟨rfl, hst⟩)
            | some q =>
                refine (hst.memcpy q p (min old n)).bind_of fun s₂ s₂' hcopy hst₂ => ?_
                have havoids := hmove old q s₁ s₂ ⟨hn, hold, hfits, hx⟩ hcopy
                exact (hst₂.free t (os.after 2).now fun _ => havoids).bind fun x y hxy =>
                  .ok ⟨rfl, hxy.sameBook.2⟩

/-! ## Live bytes and headers -/

/-- Address `x` belongs to a block that a client holds. -/
def LiveByte (s : State) (held : List Held) (x : Nat) : Prop := ∃ e ∈ held, Within s e.block x

/-- The words that classify `p` are bytes of no live block, and what they make of
`p` is not left over from a block that was freed: a header that is accepted is a
header of the allocator. -/
structure Shielded (s : State) (held : List Held) (p : Nat) : Prop where
  words : Avoids s (LiveByte s held) p
  run : s.oursSmall p = .ok true → s.runs (runOf p) ≠ none
  large : s.oursSmall p = .ok false → s.oursLarge p = .ok true →
    s.larges (p - sizeofLargeHdr) ≠ none

/-- What `free` and `realloc` take a pointer for. -/
inductive Kind where
  | foreign
  | small (a : Nat)
  | large (mapSize : Nat)
  | unknown
  deriving DecidableEq

def State.kindOf (s : State) (p : Nat) : Except Trap Kind :=
  if s.inReserve p then do
    if ← s.oursSmall p then
      match s.runs (runOf p) with
      | none => .error (.forged (runOf p))
      | some _ => .ok (.small (runOf p))
    else if ← s.oursLarge p then
      match s.larges (p - sizeofLargeHdr) with
      | none => .error (.forged (p - sizeofLargeHdr))
      | some h => .ok (.large h.mapSize)
    else .ok .unknown
  else .ok .foreign

theorem DiffersIn.kindOf {D : Nat → Prop} {s s' : State} (h : DiffersIn D s s') {p : Nat}
    (ha : s.inReserve p = true → Avoids s D p) :
    Related (fun a b => b = a) (s.kindOf p) (s'.kindOf p) := by
  unfold State.kindOf
  rw [h.inReserve p, h.runs, h.larges]
  split
  · rename_i hin
    exact h.test_bind (ha hin) (Related.same _) (Related.same _) rfl
  · exact .ok rfl

/-- A step acts on no header but the allocator's. -/
def Genuine {α : Type} (x : Except Trap α) : Prop := ∀ a, x ≠ .error (.forged a)

theorem Genuine.ok {α : Type} (a : α) : Genuine (.ok a) := fun _ h => nomatch h

theorem Genuine.bind {α β : Type} {x : Except Trap α} {f : α → Except Trap β} (hx : Genuine x)
    (hf : ∀ a, x = .ok a → Genuine (f a)) : Genuine (x >>= f) := by
  cases x with
  | error e => exact fun a h => hx a (by cases h; rfl)
  | ok a => exact hf a rfl

theorem oursSmall_genuine (s : State) (p : Nat) : Genuine (s.oursSmall p) := by
  unfold State.oursSmall State.runWords
  refine Genuine.bind ?_ fun h _ => ?_
  · split
    · exact Genuine.ok _
    · split
      · exact Genuine.ok _
      · split
        · exact Genuine.ok _
        · intro a h
          cases h
  · split
    · exact Genuine.ok _
    · dsimp only
      split
      · exact Genuine.ok _
      · exact Genuine.ok _

theorem oursLarge_genuine (s : State) (p : Nat) : Genuine (s.oursLarge p) := by
  unfold State.oursLarge State.largeMagic
  refine Genuine.bind ?_ fun m _ => Genuine.ok _
  split
  · exact Genuine.ok _
  · split
    · exact Genuine.ok _
    · intro a h
      cases h

theorem Shielded.test_genuine {β : Type} {s : State} {held : List Held} {p : Nat}
    (h : Shielded s held p) {small large : Except Trap β} {other : β}
    (hs : ∀ r, s.runs (runOf p) = some r → Genuine small)
    (hl : ∀ l, s.larges (p - sizeofLargeHdr) = some l → Genuine large) :
    Genuine (do if ← s.oursSmall p then small else if ← s.oursLarge p then large else .ok other) := by
  refine (oursSmall_genuine s p).bind fun a hsmall => ?_
  cases a with
  | true =>
      obtain ⟨r, hr⟩ := Option.ne_none_iff_exists'.mp (h.run hsmall)
      exact hs r hr
  | false =>
      simp only [Bool.false_eq_true, if_false]
      refine (oursLarge_genuine s p).bind fun b hlarge => ?_
      cases b with
      | true =>
          obtain ⟨l, hl'⟩ := Option.ne_none_iff_exists'.mp (h.large hsmall hlarge)
          exact hl l hl'
      | false => exact Genuine.ok _

theorem Shielded.kindOf {s : State} {held : List Held} {p : Nat}
    (h : s.inReserve p = true → Shielded s held p) : Genuine (s.kindOf p) := by
  unfold State.kindOf
  split
  · rename_i hin
    refine (h hin).test_genuine (fun r hr => ?_) fun l hl => ?_
    · rw [hr]
      exact Genuine.ok _
    · rw [hl]
      exact Genuine.ok _
  · exact Genuine.ok _

theorem Shielded.oldSize {s : State} {held : List Held} {p : Nat}
    (h : s.inReserve p = true → Shielded s held p) : Genuine (s.oldSize p) := by
  unfold State.oldSize
  split
  · rename_i hin
    refine (h hin.2).test_genuine (fun r hr => ?_) fun l hl => ?_
    · rw [hr]
      exact Genuine.ok _
    · rw [hl]
      exact Genuine.ok _
  · exact Genuine.ok _

theorem Shielded.free {s : State} {held : List Held} {p : Nat}
    (h : s.inReserve p = true → Shielded s held p) (t : Tid) (now : Nat → Nat) :
    Genuine (s.free t now p) := by
  unfold State.free
  split
  · exact Genuine.ok _
  · split
    · exact Genuine.ok _
    · split
      · rename_i hin
        refine (h hin).test_genuine (fun r hr => ?_) fun l hl => ?_
        · unfold State.freeSmall State.runGive State.run
          rw [hr]
          dsimp only
          split
          · exact Genuine.ok _
          · exact Genuine.ok _
        · unfold State.freeLarge
          dsimp only
          rw [hl]
          dsimp only
          split
          · intro a h
            cases h
          · exact Genuine.ok _
      · exact Genuine.ok _

theorem Shielded.differs {s s' : State} {held : List Held} {p : Nat} (h : Shielded s held p)
    (hd : DiffersIn (LiveByte s held) s s') : Shielded s' held p := by
  obtain ⟨hreads, hsmall, hlarge⟩ := hd.tests h.words
  have hlive : ∀ x, LiveByte s' held x → LiveByte s held x := by
    rintro x ⟨e, he, hw⟩
    exact ⟨e, he, hw.frame (fun a r i hb _ => ⟨r, ⟨hd.runs ▸ hb.run, hb.index, hb.bit⟩, rfl, rfl⟩)
      fun a l hl _ => hd.larges ▸ hl⟩
  refine ⟨fun x hx k hk hx' => ?_, fun hs => ?_, fun hs hl => ?_⟩
  · rw [hreads] at hx
    exact h.words x hx k hk (hlive _ hx')
  · rw [hd.runs]
    exact h.run (hsmall ▸ hs)
  · have hs : s.oursSmall p = .ok false := hsmall ▸ hs
    rw [hd.larges]
    exact h.large hs (hlarge hs ▸ hl)

/-- A copy into the block that `malloc(n)` returned stays inside that block. -/
theorem Sound.copy_within {s s₁ : State} {held : List Held} (h : Sound s held) {t : Tid} {os : Os}
    (hos : os.Sane) {n q k : Nat} (hneeds : s.MallocNeeds Grantable t os n)
    (hm : s.malloc t os n = .ok (some q, s₁)) (hn : n ≠ 0) (hk : k ≤ n)
    (hread : s₁.readable q k = true) {x : Nat} (h₁ : q ≤ x) (h₂ : x < q + k) : Within s₁ q x := by
  obtain ⟨ans, s₁', hm', hout, hsound, -⟩ := h.malloc hos hneeds
  rw [hm] at hm'
  cases hm'
  rw [bytesAsked, if_neg hn] at hout
  obtain ⟨L, hcore⟩ := (h.ensureInit hos).core
  by_cases hfit : n + sizeofLargeHdr < 2 ^ 64
  · exact hout.extent hcore hfit h₁ (by omega)
  · -- the size wrapped: the block is shorter than `n`, but the copy stays in its mapping
    have hhdr : sizeofLargeHdr = 24 := rfl
    have hlarge : kLargeMin ≤ n := by
      unfold kLargeMin
      omega
    obtain ⟨a, hl, rfl, -⟩ := hout.largeBlock hlarge
    obtain ⟨L₁, hcore₁⟩ := hsound.core
    obtain ⟨-, g, hg, rfl, hsize⟩ := hcore₁.maps.ofLarge a _ hl
    obtain ⟨-, -, hpos, hmod, -⟩ := hcore₁.maps.sane g hg
    have hstop : g.stop = g.base + g.size := rfl
    obtain ⟨g', hg', hbase, hend⟩ := State.readable_iff.mp hread
    obtain rfl : g' = g := hcore₁.maps.apart.eq_of_mem hg' hg
      (x := g.base + sizeofLargeHdr) ⟨hbase, by omega⟩ ⟨by omega, by omega⟩
    refine .large hl rfl h₁ ?_
    rw [← hsize]
    omega

/-- The blocks held before a `malloc` are live after it, and so is the new one. -/
theorem Sound.live_gain {s s₁ : State} {held : List Held} (h : Sound s held) {t : Tid} {os : Os}
    (hos : os.Sane) {n q : Nat} (hneeds : s.MallocNeeds Grantable t os n)
    (hm : s.malloc t os n = .ok (some q, s₁)) {x : Nat} (hx : LiveByte s held x) :
    LiveByte s₁ (gain (some q) held) x := by
  obtain ⟨ans, s₁', hm', hout, -, -⟩ := h.malloc hos hneeds
  rw [hm] at hm'
  cases hm'
  obtain ⟨L, hcore⟩ := (h.ensureInit hos).core
  obtain ⟨e, he, hw⟩ := hx
  exact ⟨e, List.mem_cons_of_mem _ he, hout.keeps hcore (within_ensureInit hw os).1⟩

theorem Core.header_not_within {s : State} {L : Nat → List Nat} (h : Core s L) {a p x : Nat} {r : Run}
    (hr : s.runs a = some r) (h₁ : a ≤ x) (h₂ : x < a + sizeofRun) : ¬ Within s p x := by
  intro hw
  obtain ⟨g, hg, rfl, hsize⟩ := h.maps.ofRun a r hr
  have hdata := (h.run _ r hr).geometry.data_ge
  have hmap := (h.run _ r hr).geometry.map_ge
  have hstop : g.stop = g.base + g.size := rfl
  obtain ⟨g', hg', hx, hblock⟩ := h.within_map hw
  obtain rfl : g' = g := h.maps.apart.eq_of_mem hg' hg hx ⟨by omega, by omega⟩
  rcases hblock with ⟨q, i, hb, rfl, -⟩ | ⟨l, hl, -⟩
  · have hrange := (h.run _ q hb.run).block_range hb.index g'.base
    have hlow := hw.low
    omega
  · have hnone := (h.header_alone hg hr (Nat.le_refl _) (by omega)).2
    rw [hl] at hnone
    cases hnone

/-- A block that begins in the first 2 MiB of its run is shielded: the words tested
are those of its own header. -/
theorem Sound.shielded_low {s : State} {held : List Held} (h : Sound s held) (h0 : s.resStart ≠ 0)
    {a i : Nat} {r : Run} (hb : SmallBlock s a r i) (hlow : blockOffset r i < kRunSize)
    (held' : List Held) : Shielded s held' (blockAddr a r i) := by
  obtain ⟨L, hcore⟩ := h.core
  obtain ⟨hbase, hours⟩ := hcore.recognised (h.ledger.reserved h0) hb hlow
  refine ⟨?_, fun _ => ?_, fun hno => ?_⟩
  · rintro x hx k hk ⟨e, -, hw⟩
    have hword : x ∈ State.runWordsAt a := by
      rw [State.ownerReads, hours, List.append_nil] at hx
      exact hbase ▸ smallReads_words hx
    have hrun : sizeofRun = 56 := rfl
    simp only [State.runWordsAt, List.mem_cons, List.not_mem_nil, or_false] at hword
    exact hcore.header_not_within hb.run (by omega) (by omega) hw
  · rw [hbase, hb.run]
    exact Option.some_ne_none r
  · rw [hours] at hno
    cases hno

theorem Sound.shielded_moves {w : World} (h : Sound w.st w.held) (h0 : w.st.resStart ≠ 0) {t : Tid}
    {os : Os} (hos : os.Sane) {a i n old q : Nat} {r : Run} (hb : SmallBlock w.st a r i)
    (hlow : blockOffset r i < kRunSize) (hneeds : w.st.MallocNeeds Grantable t os n) {s₁ : State}
    (hm : w.st.MovesTo t os (blockAddr a r i) n old q s₁) (held' : List Held) :
    Shielded s₁ held' (blockAddr a r i) := by
  obtain ⟨-, -, -, hm⟩ := hm
  obtain ⟨ans, s', hm', hout, hsound, -⟩ := h.malloc hos hneeds
  rw [hm] at hm'
  cases hm'
  have hready : w.st.ready = true := by
    by_contra hr
    exact h0 (h.ledger.unready (by simpa using hr)).1
  rw [ensureInit_of_ready hready] at hout
  obtain ⟨L, hcore⟩ := h.core
  obtain ⟨r', hb', helems, helem⟩ := hout.smallKept hcore hb
  have hoff : blockOffset r' i = blockOffset r i := by rw [blockOffset, blockOffset, helems, helem]
  have haddr : blockAddr a r' i = blockAddr a r i := by
    rw [blockAddr_offset, blockAddr_offset, hoff]
  rw [← haddr]
  have hstart : s₁.resStart ≠ 0 := by
    rw [hout.reservation.2.1]
    exact h0
  rw [← hoff] at hlow
  exact hsound.shielded_low hstart hb' hlow held'

/-! ## Two runs of `free` and `realloc` -/

/-- `free` and `realloc` take `p` for the same thing in both states, go by no header
but the allocator's, and leave the same books and mappings. -/
structure SameTreatment (s s' : State) (t : Tid) (os : Os) (p n : Nat) : Prop where
  kind : s'.kindOf p = s.kindOf p
  free : ∀ now, Related SameBook (s.free t now p) (s'.free t now p)
  realloc : Related SameBook (s.realloc t os p n) (s'.realloc t os p n)
  genuine : Genuine (s.kindOf p) ∧ (∀ now, Genuine (s.free t now p)) ∧ Genuine (s.realloc t os p n)

/-- `realloc` goes by the allocator's headers if both times that it classifies `p`
the pointer is shielded. -/
theorem Shielded.realloc {w : World} (hw : Sound w.st w.held) {t : Tid} {os : Os} (hos : os.Sane)
    {p n : Nat} (hneeds : w.st.OpNeeds Grantable t os (.realloc p n))
    (hp : p = 0 ∨ ∃ e ∈ w.held, e.ptr = p)
    (h : w.st.inReserve p = true → Shielded w.st w.held p)
    (hmove : ∀ old q s₁ s₂, w.st.MovesTo t os p n old q s₁ → s₁.memcpy q p (min old n) = .ok s₂ →
      Shielded s₂ (gain (some q) w.held) p) : Genuine (w.st.realloc t os p n) := by
  have hmalloc : ∀ {s : State} {held : List Held}, Sound s held → ∀ {os : Os}, os.Sane → ∀ {n : Nat},
      s.MallocNeeds Grantable t os n → Genuine (s.malloc t os n) := by
    intro s held hs os hos n hn
    obtain ⟨ans, s', hm, -⟩ := hs.malloc hos hn
    rw [hm]
    exact Genuine.ok _
  simp only [State.OpNeeds] at hneeds
  unfold State.realloc
  by_cases hp0 : p = 0
  · rw [if_pos hp0] at hneeds ⊢
    exact (hmalloc hw hos hneeds).bind fun _ _ => Genuine.ok _
  · rw [if_neg hp0] at hneeds ⊢
    by_cases hn0 : n = 0
    · rw [if_pos hn0] at hneeds ⊢
      refine (Shielded.free h t os.now).bind fun x hx => ?_
      have hos' : (os.after 2).Sane := hos
      exact (hmalloc (hw.free hp hx) hos' (hneeds _ _ hx)).bind fun _ _ => Genuine.ok _
    · rw [if_neg hn0] at hneeds ⊢
      refine (Shielded.oldSize h).bind fun old hold => ?_
      cases old with
      | none => exact Genuine.ok _
      | some old =>
          dsimp only
          split
          · exact Genuine.ok _
          · rename_i hfits
            unfold State.reallocMove
            refine (hmalloc hw hos (hneeds old hold hfits)).bind fun x hx => ?_
            obtain ⟨np, s₁⟩ := x
            cases np with
            | none => exact Genuine.ok _
            | some q =>
                refine Genuine.bind ?_ fun s₂ hcopy => ?_
                · unfold State.memcpy
                  intro a
                  split
                  · intro h
                    cases h
                  · split <;>
                      · intro h
                        cases h
                · have hs₂ := hmove old q s₁ s₂ ⟨hn0, hold, hfits, hx⟩ hcopy
                  exact (Shielded.free (fun _ => hs₂) t (os.after 2).now).bind fun _ _ => Genuine.ok _

/-- In every history: two states that differ only in bytes of live blocks treat a
pointer that `malloc` returned alike, provided the words that classify it are bytes
of no live block and no left-over header, when `free` or `realloc` is called and, in
a `realloc` that moves, also after the new block was taken. -/
theorem shielded_treatment {runIdle dirtyIdle : Nat} {w : World}
    (h : (World.init runIdle dirtyIdle).Reaches World.Clean w) {mem : Nat → UInt8}
    (hmem : w.Legal (.write mem)) {e : Held} (he : e ∈ w.held) {t : Tid}
    {os : Os} {n : Nat} (hok : w.Clean t os (.realloc e.ptr n))
    (hfirst : w.st.inReserve e.ptr = true → Shielded w.st w.held e.ptr)
    (hmove : ∀ old q s₁, w.st.MovesTo t os e.ptr n old q s₁ →
      Shielded s₁ (gain (some q) w.held) e.ptr) :
    SameTreatment w.st { w.st with mem := mem } t os e.ptr n := by
  have hsound : Sound w.st w.held := (init_sound runIdle dirtyIdle).reaches h
  obtain ⟨L, hcore⟩ := hsound.core
  obtain ⟨hos, hneeds, -, hlegal⟩ := hok
  have hd : DiffersIn (LiveByte w.st w.held) w.st { w.st with mem := mem } := ⟨mem, rfl, hmem⟩
  have havoids : w.st.inReserve e.ptr = true → Avoids w.st (LiveByte w.st w.held) e.ptr :=
    fun hin => (hfirst hin).words
  have hp : e.ptr ≠ 0 := by
    have hw := hsound.blocks e he
    obtain ⟨g, hg, hmem, -⟩ := hcore.within_map hw
    have hpos := (hcore.maps.sane g hg).1
    unfold Span.Mem at hmem
    omega
  -- the copy of `realloc` writes in its new block only
  have hcopy : ∀ old q s₁ s₂, w.st.MovesTo t os e.ptr n old q s₁ →
      s₁.memcpy q e.ptr (min old n) = .ok s₂ →
      DiffersIn (LiveByte s₁ (gain (some q) w.held)) s₁ s₂ ∧
        ∀ x, (LiveByte w.st w.held x ∨ q ≤ x ∧ x < q + min old n) →
          LiveByte s₁ (gain (some q) w.held) x := by
    rintro old q s₁ s₂ ⟨hn, hold, hfits, hm⟩ hc
    simp only [State.OpNeeds, if_neg hp, if_neg hn] at hneeds
    obtain ⟨-, hread, rfl⟩ := memcpy_ok hc
    have hnew : ∀ x, q ≤ x → x < q + min old n → LiveByte s₁ (gain (some q) w.held) x := fun x h₁ h₂ =>
      ⟨⟨q, q⟩, List.mem_cons_self, hsound.copy_within hos (hneeds old hold hfits) hm hn
        (Nat.min_le_right _ _) hread h₁ h₂⟩
    refine ⟨⟨_, rfl, fun x hx => ?_⟩, ?_⟩
    · by_cases hin : q ≤ x ∧ x < q + min old n
      · exact hnew x hin.1 hin.2
      · simp only [if_neg hin] at hx
        exact absurd rfl hx
    · rintro x (hx | ⟨h₁, h₂⟩)
      · exact hsound.live_gain hos (hneeds old hold hfits) hm hx
      · exact hnew x h₁ h₂
  have hshield : ∀ old q s₁ s₂, w.st.MovesTo t os e.ptr n old q s₁ →
      s₁.memcpy q e.ptr (min old n) = .ok s₂ → Shielded s₂ (gain (some q) w.held) e.ptr :=
    fun old q s₁ s₂ hm hc => (hmove old q s₁ hm).differs (hcopy old q s₁ s₂ hm hc).1
  refine ⟨?_, fun now => ?_, ?_, Shielded.kindOf hfirst, Shielded.free hfirst t,
    Shielded.realloc hsound hos hneeds hlegal hfirst hshield⟩
  · exact (hd.kindOf havoids).eq_of
  · exact (hd.free t now havoids).mono fun _ _ hxy => hxy.sameBook
  · refine hd.realloc t os havoids fun old q s₁ s₂ hm hc x hx k hk hin => ?_
    have hreads := ((hcopy old q s₁ s₂ hm hc).1.tests (hmove old q s₁ hm).words).1
    rw [hreads] at hx
    exact (hmove old q s₁ hm).words x hx k hk ((hcopy old q s₁ s₂ hm hc).2 _ hin)

/-- Little-endian 32-bit words written from `b` on. -/
def stamp (mem : Nat → UInt8) (b : Nat) (words : List Nat) : Nat → UInt8 := fun x =>
  if b ≤ x ∧ x < b + 4 * words.length then
    UInt8.ofNat (words.getD ((x - b) / 4) 0 / 256 ^ ((x - b) % 4))
  else mem x

theorem stamp_ne {mem : Nat → UInt8} {b x : Nat} {words : List Nat} (h : stamp mem b words x ≠ mem x) :
    b ≤ x ∧ x < b + 4 * words.length := by
  by_contra hout
  exact h (if_neg hout)

/-- Whatever the first block of 4096 bytes contains, `realloc` to 100 bytes moves it
and `free` gives it back. -/
theorem shielded_treatment_small :
    ∃ w, (World.init 0 0).Reaches World.Clean w ∧
      SameTreatment w.st { w.st with mem := stamp w.st.mem 1073745920 [kMagicRun] } 0
        (Os.granting (2 ^ 30) 1) 1073745920 100 := by
  have hplay : ∃ w, (World.init 0 0).Reaches World.Clean w ∧
      (decide (w.st.resStart ≠ 0 ∧ ⟨1073745920, 1073745920⟩ ∈ w.held) &&
        ((w.st.runs 1073741824).any fun r =>
          decide (blockAddr 1073741824 r 0 = 1073745920 ∧ 0 < r.elems ∧ bitAt r.bits 0 = false ∧
            blockOffset r 0 < kRunSize ∧ r.elem = 4096)) &&
        (Os.granting (2 ^ 30) 1).saneTest &&
        w.st.askTest 0 (Os.granting (2 ^ 30) 1) 100) = true :=
    World.Reaches.refl.play (l := [(0, Os.granting (2 ^ 30) 1, .malloc 4096)]) (by decide +kernel)
  obtain ⟨w, hreach, htest⟩ := hplay
  simp only [Bool.and_eq_true] at htest
  obtain ⟨⟨⟨hstate, hrun⟩, hsane⟩, hask⟩ := htest
  obtain ⟨h0, hheld⟩ := of_decide_eq_true hstate
  obtain ⟨r, hr, hfields⟩ := (Option.any_eq_true _ _).mp hrun
  obtain ⟨haddr, hpos, hbit, hlow, helem⟩ := of_decide_eq_true hfields
  have hblock : SmallBlock w.st 1073741824 r 0 := ⟨hr, hpos, hbit⟩
  have hsound : Sound w.st w.held := (init_sound 0 0).reaches hreach
  have hneeds := World.askTest_needs hask
  have hclean : w.Clean 0 (Os.granting (2 ^ 30) 1) (.realloc 1073745920 100) :=
    ⟨World.saneTest_sane hsane, fun _ _ _ => hneeds, trivial, .inr ⟨_, hheld, rfl⟩⟩
  have hlegal : w.Legal (.write (stamp w.st.mem 1073745920 [kMagicRun])) := by
    intro x hx
    obtain ⟨h₁, h₂⟩ := stamp_ne hx
    have h₂ : x < 1073745920 + 4 := h₂
    have hend : x < 1073745920 + r.elem := by omega
    exact ⟨_, hheld, .small hblock haddr.symm h₁ hend⟩
  refine ⟨w, hreach, shielded_treatment hreach hlegal hheld hclean (fun _ => ?_) fun old q s₁ hm => ?_⟩
  · have hs := hsound.shielded_low h0 hblock hlow w.held
    rwa [haddr] at hs
  · have hs := hsound.shielded_moves h0 (World.saneTest_sane hsane) hblock hlow hneeds
      (haddr.symm ▸ hm) (gain (some q) w.held)
    rwa [haddr] at hs

/-- Two large blocks of 3 MiB. The 2 MiB boundary below the second is inside the
first; five words that its owner writes there make the second a block of a run. -/
theorem treatment_differs :
    ∃ w e mem, (World.init 0 0).Reaches World.Clean w ∧ e ∈ w.held ∧ e.ptr = e.block ∧
      w.Legal (.write mem) ∧
      ∀ t os n, ¬ SameTreatment w.st { w.st with mem := mem } t os e.ptr n := by
  have hplay : ∃ w, (World.init 0 0).Reaches World.Clean w ∧
      (decide (⟨1076895768, 1076895768⟩ ∈ w.held ∧ ⟨1073741848, 1073741848⟩ ∈ w.held) &&
        ((w.st.larges 1073741824).any fun l => decide (3149824 ≤ l.mapSize)) &&
        (w.st.kindOf 1076895768).toOption.any (fun k => decide (k = .large 3149824)) &&
        decide (trapOf (State.kindOf
          { w.st with mem := stamp w.st.mem 1075838976 [kMagicRun, 1, 2, 0, 1052696] } 1076895768) =
            some (.forged 1075838976))) = true :=
    World.Reaches.refl.play (l := [(0, Os.granting (2 ^ 30) 1, .malloc 3145728),
      (0, Os.granting (2 ^ 30) 1, .malloc 3145728)]) (by decide +kernel)
  obtain ⟨w, hreach, htest⟩ := hplay
  simp only [Bool.and_eq_true] at htest
  obtain ⟨⟨⟨hstate, hlarge⟩, hkind⟩, htrap⟩ := htest
  obtain ⟨hheld, hfirst⟩ := of_decide_eq_true hstate
  obtain ⟨l, hl, hsize⟩ := (Option.any_eq_true _ _).mp hlarge
  have hsize : 3149824 ≤ l.mapSize := of_decide_eq_true hsize
  obtain ⟨k, hk, -⟩ := World.ok_of_any hkind
  refine ⟨w, _, stamp w.st.mem 1075838976 [kMagicRun, 1, 2, 0, 1052696], hreach, hheld, rfl,
    fun x hx => ?_, fun t os n hsame => ?_⟩
  · obtain ⟨h₁, h₂⟩ := stamp_ne hx
    have h₂ : x < 1075838976 + 20 := h₂
    have hlow : 1073741848 ≤ x := by omega
    have hhigh : x < 1073741824 + l.mapSize := by omega
    exact ⟨_, hfirst, .large hl rfl hlow hhigh⟩
  · have hk' := hsame.kind
    rw [hk, trapOf_eq_some (of_decide_eq_true htrap)] at hk'
    cases hk'

end Memflux.Alloc
