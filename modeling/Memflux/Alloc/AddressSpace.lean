import Memflux.Alloc.Ownership

/-! # Address space is spent

`reserve_map` hands out the reservation from one end to the other. A `munmap`
gives memory back to the kernel, but nothing gives address space back to the bump
pointer, so what a history of calls has mapped since the start decides whether
the next mapping fits, not what is mapped now.
-/

namespace Memflux.Alloc

open Spans BitWords DList

/-! ## Histories and what they spend -/

/-- The kernel reserves the terabyte and grants every mapping inside it. No other
mapping is asked for once the reservation is there. -/
structure Os.Grants (os : Os) : Prop where
  reserve : os.reserve ≠ none
  sane : os.Sane
  fixed : os.fixedOk = true

/-- The address space that a step asks `reserve_map` for: the length of the mapping
and its alignment. -/
def State.takes (s : State) (t : Tid) (os : Os) : Op → Nat
  | .malloc n =>
      match (s.ensureInit os).asks t (bytesAsked n) with
      | some (size, align) => size + align
      | none => 0
  | _ => 0

namespace World

/-- A `malloc` of at most 64 MiB, a `free` of a held pointer, or a trim pass. -/
def Modest (w : World) (os : Os) : Op → Prop
  | .malloc n => os.Grants ∧ n ≤ 2 ^ 26
  | .free p => os.Grants ∧ w.Legal (.free p)
  | .trim _ => os.Grants
  | _ => False

/-- Histories of such steps that never have more than 1 GiB mapped, with the address
space they ask for. -/
inductive Spends (w : World) : Nat → World → Prop where
  | refl : Spends w 0 w
  | step {k : Nat} {w₁ w₂ : World} (t : Tid) (os : Os) (op : Op) (ans : Option Nat) :
      Spends w k w₁ → w₁.Modest os op → w₁.exec t os op = .ok (ans, w₂) →
      total w₂.st.maps ≤ 2 ^ 30 → Spends w (k + w₁.st.takes t os op) w₂

end World

/-! ## The bump pointer -/

theorem mapRegion_bump {s : State} (h0 : s.resStart ≠ 0) (os : Os) (size align : Nat) :
    (s.mapRegion os size align).2.resBump = wrap64 (s.resBump + wrap64 (size + align)) := by
  rw [State.mapRegion, if_pos h0]
  unfold State.reserveMap
  dsimp only
  split
  · rfl
  · split <;> rfl

theorem runTake_bump {s s' : State} {a now : Nat} {ans : Option Nat}
    (h : s.runTake a now = .ok (ans, s')) : s'.resBump = s.resBump := (runTake_layout h).bump

theorem runNew_bump {s s' : State} (h0 : s.resStart ≠ 0) {os : Os} {c : Nat} {ans : Option Nat}
    (h : Renewed s os c ans s') :
    s'.resBump = wrap64 (s.resBump + wrap64 (runMap c + kRunSize)) := by
  have hbump := mapRegion_bump h0 os (runMap c) kRunSize
  cases h with
  | refused region =>
      rw [region] at hbump
      exact hbump
  | mapped region insert =>
      rw [region] at hbump
      exact (runInsert_layout insert).bump.trans hbump

/-- `malloc` moves the bump pointer by what it asks for, and not at all otherwise. -/
theorem mallocReady_bump {s s' : State} (h0 : s.resStart ≠ 0) {t : Tid} {os : Os} {n : Nat}
    {ans : Option Nat} (h : s.mallocReady t os n = .ok (ans, s')) :
    (s.asks t n = none ∧ s'.resBump = s.resBump) ∨
      ∃ size align, s.asks t n = some (size, align) ∧
        s'.resBump = wrap64 (s.resBump + wrap64 (size + align)) := by
  have hcases := malloc_cases h
  cases hcases with
  | @refused size align s' request region =>
      have hbump := mapRegion_bump h0 os size align
      rw [region] at hbump
      exact .inr ⟨size, align, request, hbump⟩
  | large request region =>
      have hbump := mapRegion_bump h0 os (largeMap n) 4096
      rw [region] at hbump
      exact .inr ⟨_, _, request, hbump⟩
  | cached request pop => exact .inl ⟨request, (tcachePop_layout pop).bump⟩
  | taken request take => exact .inl ⟨request, runTake_bump take⟩
  | grown small request fresh take =>
      exact .inr ⟨_, _, request, (runTake_bump take).trans (runNew_bump h0 fresh)⟩

/-- `k` bytes of the reservation are spent. -/
structure Spent (s : State) (k : Nat) : Prop where
  unready : s.ready = false → k = 0
  bump : s.ready = true → s.resStart ≠ 0 ∧ s.resBump = s.resStart + k

theorem Spent.ensureInit {s : State} {k : Nat} (h : Spent s k) (hl : Ledger s) {os : Os}
    (hos : os.Grants) : (s.ensureInit os).resStart ≠ 0 ∧
      (s.ensureInit os).resBump = (s.ensureInit os).resStart + k := by
  cases hr : s.ready with
  | true =>
      rw [ensureInit_of_ready hr]
      exact h.bump hr
  | false =>
      obtain ⟨p, hp⟩ := Option.ne_none_iff_exists'.mp hos.reserve
      have hpos := (hos.sane p hp).1
      have hk := h.unready hr
      have h0 := (hl.unready hr).1
      simp only [State.ensureInit, hr, h0, State.reserveInit, hp, if_true, Bool.false_eq_true, if_false]
      omega

/-- A request that fits into the rest of the reservation meets the needs of a clean
step. -/
theorem Spent.needs {s : State} {k : Nat} (h : Spent s k) (hl : Ledger s) {t : Tid} {os : Os}
    (hos : os.Grants) {n : Nat} (hfit : k + s.takes t os (.malloc n) ≤ 2 ^ 40) :
    s.MallocNeeds Grantable t os n := by
  intro size align hask
  have hask : (s.ensureInit os).asks t (bytesAsked n) = some (size, align) := hask
  obtain ⟨h0, hbump⟩ := h.ensureInit hl hos
  have hres := (hl.ensureInit hos.sane).reserved h0
  have hstop := hres.stop
  have hend := hres.fits
  have hsize : kReserveSize = 2 ^ 40 := rfl
  simp only [State.takes, hask] at hfit
  exact ⟨fun _ => by omega, fun h' => absurd h' h0⟩

theorem Spent.malloc {s s' : State} {k : Nat} (h : Spent s k) (hl : Ledger s) {t : Tid} {os : Os}
    (hos : os.Grants) {n : Nat} (hfit : k + s.takes t os (.malloc n) ≤ 2 ^ 40) {ans : Option Nat}
    (hm : s.malloc t os n = .ok (ans, s')) (hready : s'.ready = true)
    (hstart : s'.resStart = (s.ensureInit os).resStart) :
    Spent s' (k + s.takes t os (.malloc n)) := by
  obtain ⟨h0, hbump⟩ := h.ensureInit hl hos
  have hres := (hl.ensureInit hos.sane).reserved h0
  have hstop := hres.stop
  have hend := hres.fits
  have hsize : kReserveSize = 2 ^ 40 := rfl
  refine ⟨fun hr => ?_, fun _ => ⟨hstart ▸ h0, ?_⟩⟩
  · rw [hready] at hr
    cases hr
  · have hm : (s.ensureInit os).mallocReady t os (bytesAsked n) = .ok (ans, s') := hm
    rw [hstart]
    rcases mallocReady_bump h0 hm with ⟨hask, hb⟩ | ⟨size, align, hask, hb⟩
    · simp only [State.takes, hask, hb]
      exact hbump
    · simp only [State.takes, hask] at hfit ⊢
      have hw : wrap64 (size + align) = size + align := Nat.mod_eq_of_lt (by omega)
      have hw' : wrap64 ((s.ensureInit os).resBump + (size + align)) =
          (s.ensureInit os).resBump + (size + align) := Nat.mod_eq_of_lt (by omega)
      rw [hb, hw, hw']
      omega

theorem Spent.congr {s s' : State} {k : Nat} (h : Spent s k) (hr : s'.ready = s.ready)
    (h0 : s'.resStart = s.resStart) (hb : s'.resBump = s.resBump) : Spent s' k :=
  ⟨fun hr' => h.unready (hr ▸ hr'), fun hr' => by rw [h0, hb]; exact h.bump (hr ▸ hr')⟩

theorem Spent.exec {w w' : World} {k : Nat} (h : Spent w.st k) (hs : Sound w.st w.held) {t : Tid}
    {os : Os} {op : Op} (hok : w.Modest os op) (hfit : k + w.st.takes t os op ≤ 2 ^ 40)
    {ans : Option Nat} (he : w.exec t os op = .ok (ans, w')) :
    Sound w'.st w'.held ∧ Spent w'.st (k + w.st.takes t os op) := by
  obtain ⟨⟨ans', s'⟩, he', hw⟩ := bind_ok he
  cases hw
  cases op with
  | malloc n =>
      obtain ⟨hos, hn⟩ := hok
      have hneeds := h.needs hs.ledger hos hfit
      have hclean : w.Clean t os (.malloc n) := ⟨hos.sane, hneeds, trivial, trivial⟩
      obtain ⟨ans', s₁, hm, hout, -, -⟩ := hs.malloc hos.sane hneeds
      have he' : w.st.malloc t os n = .ok (ans, s') := he'
      rw [hm] at he'
      cases he'
      refine ⟨hs.exec hclean he, ?_⟩
      exact h.malloc hs.ledger hos hfit hm (hout.reservation.1.trans (ensureInit_ready _ _))
        hout.reservation.2.1
  | free p =>
      obtain ⟨hos, hlegal⟩ := hok
      have hclean : w.Clean t os (.free p) := ⟨hos.sane, trivial, trivial, hlegal⟩
      refine ⟨hs.exec hclean he, ?_⟩
      obtain ⟨⟨r, s₁⟩, hf, hret⟩ := bind_ok he'
      cases hret
      rcases hlegal with rfl | ⟨e, hheld, rfl⟩
      · rw [State.free, if_pos rfl] at hf
        cases hf
        exact h
      · obtain ⟨L, hcore⟩ := hs.core
        have hcases := free_cases hcore (by rw [hs.caches]) (hs.blocks e hheld) hf
        cases hcases with
        | kept how => exact h
        | given block start base => exact h.congr rfl rfl rfl
  | trim clock =>
      have hos : os.Grants := hok
      have hclean : w.Clean t os (.trim clock) := ⟨hos.sane, trivial, trivial, trivial⟩
      refine ⟨hs.exec hclean he, ?_⟩
      obtain ⟨s₁, ht, hret⟩ := bind_ok he'
      cases hret
      obtain ⟨hready, hstart, -, hbump⟩ := (hs.trim ht).2.reservation
      exact h.congr hready hstart hbump
  | calloc nm sz => exact hok.elim
  | realloc p n => exact hok.elim
  | posixMemalign outNull align n => exact hok.elim
  | write mem => exact hok.elim

/-- In a history that spent at most a terabyte the bump pointer is that far from
the start of the reservation. -/
theorem Spent.run {runIdle dirtyIdle k : Nat} {w : World}
    (h : (World.init runIdle dirtyIdle).Spends k w) (hk : k ≤ 2 ^ 40) :
    Sound w.st w.held ∧ Spent w.st k := by
  induction h with
  | refl => exact ⟨init_sound runIdle dirtyIdle, fun _ => rfl, fun hr => nomatch hr⟩
  | step t os op ans _ hok he _ ih =>
      obtain ⟨hs, h⟩ := ih (by omega)
      exact h.exec hs hok hk he

theorem reserveMap_grants {s : State} {os : Os} {size align : Nat} (hfixed : os.fixedOk = true)
    (ha : 0 < align) (hsize : 0 < size) (hb : 0 < s.resBump) (hend : s.resEnd ≤ 2 ^ 63)
    (hfit : s.resBump + size + align ≤ s.resEnd) : (s.reserveMap os size align).1 ≠ none := by
  have hle := roundDown_le (s.resBump + align - 1) align
  have hlt := lt_roundDown_add (w := s.resBump + align - 1) ha
  have hwant : State.reserveBase s.resBump align = roundDown (s.resBump + align - 1) align := by
    rw [State.reserveBase, wrap64, Nat.mod_eq_of_lt (by omega)]
  have hwrap : wrap64 (roundDown (s.resBump + align - 1) align + size) =
      roundDown (s.resBump + align - 1) align + size := Nat.mod_eq_of_lt (by omega)
  have hok : State.mmapFixed os (roundDown (s.resBump + align - 1) align) size = true := by
    rw [State.mmapFixed, hfixed, Bool.true_and, decide_eq_true_eq]
    omega
  simp only [State.reserveMap, hwant, hwrap, hok, if_true]
  rw [if_neg (by omega)]
  exact Option.some_ne_none _

/-- In every such history: no `malloc` of at most 64 MiB returns null as long as the
mappings asked for since the start, each with its alignment and the present one
included, amount to at most a terabyte. -/
theorem malloc_within_reservation {runIdle dirtyIdle k : Nat} {w : World}
    (h : (World.init runIdle dirtyIdle).Spends k w) {t : Tid} {os : Os} (hos : os.Grants) {n : Nat}
    (hn : n ≤ 2 ^ 26) (hfit : k + w.st.takes t os (.malloc n) ≤ 2 ^ 40) :
    ∃ p s', w.st.malloc t os n = .ok (some p, s') := by
  obtain ⟨hs, hspent⟩ := Spent.run h (by omega)
  obtain ⟨ans, s', hm, hout, -, -⟩ := hs.malloc hos.sane (hspent.needs hs.ledger hos hfit)
  cases ans with
  | some p => exact ⟨p, s', hm⟩
  | none =>
      exfalso
      obtain ⟨h0, hbump⟩ := hspent.ensureInit hs.ledger hos
      have hres := (hs.ledger.ensureInit hos.sane).reserved h0
      generalize hans : (none : Option Nat) = ans at hout
      cases hout with
      | @failed size align b asks refused =>
          have hshape : 0 < size ∧ 0 < align := by
            have hasked : bytesAsked n ≤ 2 ^ 26 := by
              unfold bytesAsked
              split <;> omega
            unfold State.asks at asks
            split at asks
            · rename_i hlarge
              cases asks
              have hhdr : sizeofLargeHdr = 24 := rfl
              have hw : wrap64 (sizeofLargeHdr + bytesAsked n) = sizeofLargeHdr + bytesAsked n :=
                Nat.mod_eq_of_lt (by omega)
              have hup := (le_pageUp (n := sizeofLargeHdr + bytesAsked n) (by omega)).1
              refine ⟨?_, by decide⟩
              rw [largeMap, hw]
              omega
            · rename_i hsmall
              split at asks
              · cases asks
              · split at asks
                · cases asks
                  have hgeo := geometry (classOf_lt (Nat.lt_of_not_le hsmall)).1
                  have hge := hgeo.map_ge
                  have hdata := hgeo.data_ge
                  have hrun : sizeofRun = 56 := rfl
                  exact ⟨by omega, by decide⟩
                · cases asks
          have hstop := hres.stop
          have hkind : kReserveSize = 2 ^ 40 := rfl
          simp only [State.takes, asks] at hfit
          rw [State.mapRegion, if_pos h0] at refused
          refine reserveMap_grants hos.fixed hshape.2 hshape.1 (by omega) hres.fits (by omega) ?_
          rw [refused]
      | large size fresh => cases hans
      | taken size room run cls free => cases hans
      | grown size full fresh links run ok cls free => cases hans

namespace World

/-- Enough for a step to be modest, with a kernel that grants everything. -/
def modestTest (w : World) : Op → Bool
  | .malloc n => decide (n ≤ 2 ^ 26)
  | .free p => decide (p = 0) || w.held.any fun h => decide (h.ptr = p)
  | .trim _ => true
  | _ => false

theorem modestTest_modest {w : World} {os : Os} (hos : os.Grants) {op : Op}
    (h : w.modestTest op = true) : w.Modest os op := by
  cases op with
  | malloc n => exact ⟨hos, of_decide_eq_true h⟩
  | free p =>
      refine ⟨hos, ?_⟩
      rcases Bool.or_eq_true_iff.mp h with h | h
      · exact .inl (of_decide_eq_true h)
      · obtain ⟨e, he, hp⟩ := List.any_eq_true.mp h
        exact .inr ⟨e, he, of_decide_eq_true hp⟩
  | trim clock => exact hos
  | calloc nm sz => cases h
  | realloc p n => cases h
  | posixMemalign outNull align n => cases h
  | write mem => cases h

/-- The modest steps of a list, one after the other, then a test of what was spent and of
the world reached. -/
def playSpend (w : World) (k : Nat) (test : Nat → World → Bool) : List (Tid × Os × Op) → Bool
  | [] => test k w
  | (t, os, op) :: l =>
      w.modestTest op &&
        match w.exec t os op with
        | .ok (_, w') =>
            decide (total w'.st.maps ≤ 2 ^ 30) && w'.playSpend (k + w.st.takes t os op) test l
        | .error _ => false

theorem Spends.play {w w₁ : World} {k : Nat} (h : w.Spends k w₁) {test : Nat → World → Bool}
    {l : List (Tid × Os × Op)} (hos : ∀ e ∈ l, e.2.1.Grants) (hl : w₁.playSpend k test l = true) :
    ∃ k' w', w.Spends k' w' ∧ test k' w' = true := by
  induction l generalizing w₁ k with
  | nil => exact ⟨k, w₁, h, hl⟩
  | cons e l ih =>
      obtain ⟨t, os, op⟩ := e
      obtain ⟨hmodest, hrest⟩ := Bool.and_eq_true_iff.mp hl
      cases he : w₁.exec t os op with
      | error e =>
          rw [he] at hrest
          cases hrest
      | ok r =>
          rw [he] at hrest
          obtain ⟨hmapped, hrest⟩ := Bool.and_eq_true_iff.mp hrest
          have hok := modestTest_modest (hos _ List.mem_cons_self) hmodest
          exact ih (h.step t os op r.1 hok he (of_decide_eq_true hmapped))
            (fun e he => hos e (List.mem_cons_of_mem _ he)) hrest

end World

/-- Two blocks of two threads, the small one freed and its run released by a trim pass:
there is room for another run, at new addresses. -/
theorem malloc_within_released :
    ∃ k w, (World.init 0 0).Spends k w ∧ k = 5787648 ∧ w.held.map Held.ptr = [1076375576] ∧
      ∃ p s', w.st.malloc 1 (Os.granting (2 ^ 30) 20) 8 = .ok (some p, s') := by
  have hgrants : ∀ now, (Os.granting (2 ^ 30) now).Grants := fun now =>
    ⟨by simp [Os.granting], granting_sane now, rfl⟩
  have hplay : ∃ k w, (World.init 0 0).Spends k w ∧
      decide (k = 5787648 ∧ w.held.map Held.ptr = [1076375576] ∧
        w.st.takes 1 (Os.granting (2 ^ 30) 20) (.malloc 8) = 2633728) = true := by
    refine World.Spends.refl.play (l := [(0, Os.granting (2 ^ 30) 1, .malloc 8),
      (1, Os.granting (2 ^ 30) 1, .malloc 3145728),
      (1, Os.granting (2 ^ 30) 2, .free 1073754112), (0, Os.granting (2 ^ 30) 3, .trim 10)]) ?_
      (by decide +kernel)
    intro e he
    simp only [List.mem_cons, List.not_mem_nil, or_false] at he
    rcases he with rfl | rfl | rfl | rfl <;> exact hgrants _
  obtain ⟨k, w, hspends, htest⟩ := hplay
  obtain ⟨hk, hheld, htakes⟩ := of_decide_eq_true htest
  refine ⟨k, w, hspends, hk, hheld, ?_⟩
  exact malloc_within_reservation hspends (hgrants 20) (by omega) (by rw [htakes]; omega)

/-! ## A history that runs out of addresses -/

/-- Nothing is mapped, after `k` rounds that mapped and released one run each. -/
structure Drained (s : State) (held : List Held) (k : Nat) : Prop where
  sound : Sound s held
  ready : s.ready = true
  start : s.resStart = 2 ^ 30
  bump : s.resBump = 2 ^ 30 + k * (runMap 0 + kRunSize)
  idle : s.runIdleMs = 0
  maps : s.maps = []

/-- The first block of the only run is allocated, in such a round. -/
structure OneBlock (s : State) (held : List Held) (k a : Nat) (r : Run) : Prop where
  sound : Sound s held
  ready : s.ready = true
  start : s.resStart = 2 ^ 30
  bump : s.resBump = 2 ^ 30 + k * (runMap 0 + kRunSize)
  idle : s.runIdleMs = 0
  block : SmallBlock s a r 0
  used : r.used = 1
  alone : ∀ b q, s.runs b = some q → b = a
  noLarge : ∀ b l, s.larges b ≠ some l
  mapped : total s.maps ≤ 2 ^ 30

theorem Drained.no_header {s : State} {held : List Held} {k : Nat} (h : Drained s held k) (a : Nat) :
    s.runs a = none ∧ s.larges a = none := by
  obtain ⟨L, hcore⟩ := h.sound.core
  constructor
  · cases hr : s.runs a with
    | none => rfl
    | some r =>
        obtain ⟨g, hg, -⟩ := hcore.maps.ofRun a r hr
        rw [h.maps] at hg
        cases hg
  · cases hl : s.larges a with
    | none => rfl
    | some l =>
        obtain ⟨-, g, hg, -⟩ := hcore.maps.ofLarge a l hl
        rw [h.maps] at hg
        cases hg

theorem Drained.asks {s : State} {held : List Held} {k : Nat} (h : Drained s held k) :
    s.asks 0 8 = some (runMap 0, kRunSize) ∧
      s.firstRoom s.maps.length (s.cls (classOf 8 - 1)).head = .ok 0 := by
  have hclass : classOf 8 = 1 := by decide +kernel
  obtain ⟨L, hcore⟩ := h.sound.core
  have hroom : s.firstRoom s.maps.length (s.cls (classOf 8 - 1)).head = .ok 0 := by
    obtain ⟨last, hseg⟩ := hcore.lists.chain (classOf 8 - 1) (by rw [hclass]; decide)
    rcases firstRoom_spec hseg (hcore.length_le (by rw [hclass]; decide)) with
      ⟨hroom, -⟩ | ⟨a, -, r, -, hr, -⟩
    · exact hroom
    · rw [(h.no_header a).1] at hr
      cases hr
  have hcache : s.tcache 0 = none := by rw [h.sound.caches]
  have hasks := asks_small (t := 0) (by decide) hcache hroom
  rw [hclass] at hasks
  exact ⟨hasks, hroom⟩

theorem Drained.bump_moved {s s' : State} {held : List Held} {k : Nat} (h : Drained s held k)
    (hk : k ≤ 2 ^ 20) {ans : Option Nat}
    (hm : s.mallocReady 0 (Os.granting (2 ^ 30) 1) 8 = .ok (ans, s')) :
    s'.resBump = 2 ^ 30 + (k + 1) * (runMap 0 + kRunSize) := by
  have hmap : runMap 0 = 536576 := by decide +kernel
  have hsize : kRunSize = 2097152 := rfl
  have hasks := h.asks.1
  have hbump := h.bump
  rw [hmap, hsize] at hbump hasks
  have h0 : s.resStart ≠ 0 := by
    rw [h.start]
    decide
  rcases mallocReady_bump h0 hm with ⟨hnone, -⟩ | ⟨size, align, hsome, hb⟩
  · rw [hasks] at hnone
    cases hnone
  · rw [hasks] at hsome
    cases hsome
    rw [hb, hbump, hmap, hsize]
    have hw : wrap64 (536576 + 2097152) = 536576 + 2097152 := rfl
    have hw' : wrap64 (2 ^ 30 + k * (536576 + 2097152) + (536576 + 2097152)) =
        2 ^ 30 + k * (536576 + 2097152) + (536576 + 2097152) := Nat.mod_eq_of_lt (by omega)
    rw [hw, hw']
    omega

/-- A `malloc(8)` then is refused, or maps a run and takes its first block. -/
theorem Drained.malloc {s : State} {held : List Held} {k : Nat} (h : Drained s held k)
    (hk : k ≤ 2 ^ 20) :
    (∃ s', s.malloc 0 (Os.granting (2 ^ 30) 1) 8 = .ok (none, s')) ∨
      ∃ a r s', s.malloc 0 (Os.granting (2 ^ 30) 1) 8 = .ok (some (blockAddr a r 0), s') ∧
        OneBlock s' (gain (some (blockAddr a r 0)) held) (k + 1) a r := by
  have hclass : classOf 8 = 1 := by decide +kernel
  have hmap : runMap 0 = 536576 := by decide +kernel
  have hsize : kRunSize = 2097152 := rfl
  obtain ⟨hasks, hroom⟩ := h.asks
  have hbump := h.bump
  rw [hmap, hsize] at hbump
  have h0 : s.resStart ≠ 0 := by
    rw [h.start]
    decide
  have hinit := ensureInit_of_ready h.ready (Os.granting (2 ^ 30) 1)
  have hneeds : s.MallocNeeds Grantable 0 (Os.granting (2 ^ 30) 1) 8 := by
    intro size align hask
    rw [hinit] at hask ⊢
    have hask : s.asks 0 8 = some (size, align) := hask
    rw [hasks, hmap, hsize] at hask
    cases hask
    exact ⟨fun _ => by omega, fun h' => absurd h' h0⟩
  obtain ⟨ans, s', hm, hout, -, -⟩ := h.sound.malloc (granting_sane 1) hneeds
  have hsound := h.sound.mallocOk (granting_sane 1) hneeds hm
  have hm' : (s.ensureInit (Os.granting (2 ^ 30) 1)).mallocReady 0 (Os.granting (2 ^ 30) 1) 8 =
      .ok (ans, s') := hm
  rw [hinit] at hm' hout
  have hout : Malloced s 0 (Os.granting (2 ^ 30) 1) 8 ans s' := hout
  have hmoved := h.bump_moved hk hm'
  have hres := hout.reservation
  cases hout with
  | failed asks refused => exact .inl ⟨_, hm⟩
  | large size fresh => exact absurd size (by decide)
  | taken size room run cls free =>
      rw [(h.no_header _).1] at run
      cases run
  | @grown a al b runs l r size full fresh links run ok cls free =>
      refine .inr ⟨a, r.taken 0 ((Os.granting (2 ^ 30) 1).now 1), _, hm, ?_⟩
      obtain ⟨q, hq, hbody⟩ := relinked_some links run
      rw [put_same] at hq
      cases hq
      have hzero : r.used = 0 := congrArg Run.used hbody
      have hused : (r.taken 0 ((Os.granting (2 ^ 30) 1).now 1)).used = 1 := by
        show r.used + 1 = 1
        rw [hzero]
      refine ⟨hsound, hres.1.trans h.ready, hres.2.1.trans h.start, hmoved, h.idle,
        (afterTake_small ok free).1, hused, fun x q hq => ?_, fun x l hl => ?_, ?_⟩
      · by_contra hne
        have hq : put runs a _ x = some q := hq
        rw [put_other _ _ hne] at hq
        obtain ⟨q', hq', -⟩ := relinked_some links hq
        rw [put_other _ _ hne, (h.no_header x).1] at hq'
        cases hq'
      · have hl : s.larges x = some l := hl
        rw [(h.no_header x).2] at hl
        cases hl
      · show total (⟨a, runMap (classOf 8 - 1), al⟩ :: s.maps) ≤ _
        rw [h.maps, hclass, total_cons, hmap]
        show 536576 + 0 ≤ 2 ^ 30
        omega

/-- Freeing that block and a trim pass release the run, but not its addresses. -/
theorem OneBlock.release {s : State} {held : List Held} {k a : Nat} {r : Run}
    (h : OneBlock s held k a r) (hheld : ⟨blockAddr a r 0, blockAddr a r 0⟩ ∈ held) :
    ∃ s₁ s₂, s.free 0 (Os.granting (2 ^ 30) 1).now (blockAddr a r 0) = .ok (.small, s₁) ∧
      total s₁.maps ≤ 2 ^ 30 ∧ s₁.trimPass 0 = .ok s₂ ∧
      Drained s₂ (drop (blockAddr a r 0) held) k := by
  have h0 : s.resStart ≠ 0 := by
    rw [h.start]
    decide
  obtain ⟨L, hcore⟩ := h.sound.core
  have hok := hcore.run a r h.block.run
  have hlow : blockOffset r 0 < kRunSize := by
    have hdata := hok.geometry.data_le
    have hsize : kRunSize = 2097152 := rfl
    rw [← hok.elems] at hdata
    unfold blockOffset
    omega
  have hres := h.sound.ledger.reserved h0
  obtain ⟨hbase, hours⟩ := hcore.recognised hres h.block hlow
  have hin := hcore.inReserve hres (.small h.block rfl (Nat.le_refl _)
    (Nat.lt_add_of_pos_right hok.elem_pos))
  have hfree := hcore.free_small h.block hin (t := 0) (by rw [h.sound.caches])
    (Os.granting (2 ^ 30) 1).now hbase hours
  have hsound₁ := h.sound.free (.inr ⟨_, hheld, rfl⟩) hfree
  obtain ⟨L₁, hcore₁⟩ := hsound₁.core
  obtain ⟨s₂, L₂, htrim, -, -⟩ := trimPass_spec hcore₁ 0
  obtain ⟨hsound₂, htrims⟩ := hsound₁.trim htrim
  refine ⟨_, s₂, hfree, h.mapped, htrim, hsound₂, ?_, ?_, ?_, ?_, ?_⟩
  · exact htrims.reservation.1.trans h.ready
  · exact htrims.reservation.2.1.trans h.start
  · exact htrims.reservation.2.2.2.trans h.bump
  · exact (congrArg State.runIdleMs htrims.fixed).trans h.idle
  · -- the run is idle at once, since the idle time is zero
    refine List.eq_nil_iff_forall_not_mem.mpr fun g hg => ?_
    obtain ⟨hg₁, hbusy⟩ := (trimPass_releases hcore₁ h.ready htrim g).mp hg
    rcases hcore₁.maps.owner g hg₁ with ⟨q, hq, -⟩ | ⟨l, hl, -⟩
    · have hused := given_used hok h.block.index h.block.bit ((Os.granting (2 ^ 30) 1).now 0)
        ((Os.granting (2 ^ 30) 1).now 1)
      have hone := h.used
      have hms : s.runIdleMs = 0 := h.idle
      have hq' : put s.runs a (some (r.given 0 _ _)) g.base = some q := hq
      by_cases hb : g.base = a
      · rw [hb, put_same] at hq'
        cases hq'
        have hbusy := of_decide_eq_false (hbusy _ hq trivial)
        refine hbusy ⟨by omega, ?_⟩
        show s.runIdleMs ≤ _
        omega
      · rw [put_other _ _ hb] at hq'
        exact hb (h.alone _ q hq')
    · exact h.noLarge _ l hl

/-- A history after which nothing is mapped. -/
def Churned (k : Nat) : Prop :=
  ∃ w m, (World.init 0 0).Spends m w ∧ w.st.maps = [] ∧
    Drained (w.st.ensureInit (Os.granting (2 ^ 30) 1)) w.held k

/-- A `malloc(8)` that returns null although nothing is mapped. -/
def Starved : Prop :=
  ∃ w m, (World.init 0 0).Spends m w ∧ w.st.maps = [] ∧
    ∃ s', w.st.malloc 0 (Os.granting (2 ^ 30) 1) 8 = .ok (none, s')

theorem Churned.round {k : Nat} (h : Churned k) (hk : k ≤ 2 ^ 20) : Starved ∨ Churned (k + 1) := by
  obtain ⟨w, m, hspends, hmaps, hdrained⟩ := h
  have hgrants : (Os.granting (2 ^ 30) 1).Grants := ⟨by decide, granting_sane 1, rfl⟩
  have hsame : w.st.malloc 0 (Os.granting (2 ^ 30) 1) 8 =
      (w.st.ensureInit (Os.granting (2 ^ 30) 1)).malloc 0 (Os.granting (2 ^ 30) 1) 8 := by
    rw [State.malloc, State.malloc, ensureInit_of_ready hdrained.ready]
  rcases hdrained.malloc hk with ⟨s', hm⟩ | ⟨a, r, s₁, hm, hone⟩
  · exact .inl ⟨w, m, hspends, hmaps, s', hsame.trans hm⟩
  · obtain ⟨s₂, s₃, hfree, htotal, htrim, hnext⟩ := hone.release List.mem_cons_self
    have hm := hsame.trans hm
    have he₁ : w.exec 0 (Os.granting (2 ^ 30) 1) (.malloc 8) =
        .ok (some (blockAddr a r 0), ⟨s₁, gain (some (blockAddr a r 0)) w.held⟩) := by
      simp only [World.exec, State.exec, hm, bind, Except.bind, World.heldAfter]
    have he₂ : World.exec ⟨s₁, gain (some (blockAddr a r 0)) w.held⟩ 0 (Os.granting (2 ^ 30) 1)
        (.free (blockAddr a r 0)) =
          .ok (none, ⟨s₂, drop (blockAddr a r 0) (gain (some (blockAddr a r 0)) w.held)⟩) := by
      simp only [World.exec, State.exec, hfree, bind, Except.bind, World.heldAfter]
    have he₃ : World.exec ⟨s₂, drop (blockAddr a r 0) (gain (some (blockAddr a r 0)) w.held)⟩ 0
        (Os.granting (2 ^ 30) 1) (.trim 0) =
          .ok (none, ⟨s₃, drop (blockAddr a r 0) (gain (some (blockAddr a r 0)) w.held)⟩) := by
      simp only [World.exec, State.exec, htrim, bind, Except.bind, World.heldAfter]
    have h₁ := hspends.step 0 (Os.granting (2 ^ 30) 1) (.malloc 8) _ ⟨hgrants, by omega⟩ he₁ hone.mapped
    have h₂ := h₁.step 0 (Os.granting (2 ^ 30) 1) (.free (blockAddr a r 0)) _
      ⟨hgrants, .inr ⟨_, List.mem_cons_self, rfl⟩⟩ he₂ htotal
    have h₃ := h₂.step 0 (Os.granting (2 ^ 30) 1) (.trim 0) _ hgrants he₃
      (by rw [hnext.maps]; exact Nat.zero_le _)
    refine .inr ⟨_, _, h₃, hnext.maps, ?_⟩
    rw [ensureInit_of_ready hnext.ready]
    exact hnext

/-- Once the rounds have used up the terabyte, the next one is refused. -/
theorem Drained.refused {s : State} {held : List Held} {k : Nat} (h : Drained s held k)
    (hk : 2 ^ 19 ≤ k) (hk' : k ≤ 2 ^ 20) :
    ∃ s', s.malloc 0 (Os.granting (2 ^ 30) 1) 8 = .ok (none, s') := by
  have hclass : classOf 8 - 1 = 0 := by decide +kernel
  have hmap : runMap 0 = 536576 := by decide +kernel
  have hsize : kRunSize = 2097152 := rfl
  obtain ⟨-, hroom⟩ := h.asks
  rw [hclass] at hroom
  have hbump := h.bump
  have hstart := h.start
  have h0 : s.resStart ≠ 0 := by omega
  have hres := h.sound.ledger.reserved h0
  have hstop := hres.stop
  have hterabyte : kReserveSize = 2 ^ 40 := rfl
  rw [hmap, hsize] at hbump
  have hreg : ∃ s₁, s.mapRegion (Os.granting (2 ^ 30) 1) (runMap 0) kRunSize = (none, s₁) := by
    rcases hm : s.mapRegion (Os.granting (2 ^ 30) 1) (runMap 0) kRunSize with ⟨_ | a, s₁⟩
    · exact ⟨s₁, rfl⟩
    · rw [State.mapRegion, if_pos h0] at hm
      obtain ⟨-, hlow, -, hin, -⟩ := reserveMap_place (by decide) hres.fits (by omega) hm
      omega
  obtain ⟨s₁, hreg⟩ := hreg
  have hmap' : pageUp (runBytes (elemsOf (0 + 1 - 1)) (kSize (0 + 1 - 1))) = runMap 0 := rfl
  have hnew : s.runNew (Os.granting (2 ^ 30) 1) (0 + 1) = .ok (none, s₁) := by
    unfold State.runNew
    dsimp only
    rw [hmap', hreg]
  have hslow : s.mallocSlow (Os.granting (2 ^ 30) 1) 0 = .ok (none, s₁) := by
    simp only [State.mallocSlow, hroom, bind, Except.bind, if_true, hnew]
  have hpop : s.tcachePop 0 0 = none := by simp [State.tcachePop, h.sound.caches]
  have hsmall : ¬ kLargeMin ≤ 8 := by decide
  refine ⟨s₁, ?_⟩
  rw [State.malloc, ensureInit_of_ready h.ready]
  show s.mallocReady 0 (Os.granting (2 ^ 30) 1) 8 = _
  simp only [State.mallocReady, if_neg hsmall, hclass, hpop, hslow]

theorem churned_or_starved {k : Nat} (hk : k ≤ 2 ^ 20) : Starved ∨ Churned k := by
  induction k with
  | zero => exact .inr ⟨World.init 0 0, 0, .refl, rfl, (init_sound 0 0).ensureInit (granting_sane 1),
      rfl, rfl, rfl, rfl, rfl⟩
  | succ k ih =>
      rcases ih (by omega) with h | h
      · exact .inl h
      · exact h.round (by omega)

/-- After enough rounds a `malloc` of 8 bytes returns null while nothing is mapped. -/
theorem malloc_starves :
    ∃ w m, (World.init 0 0).Spends m w ∧ w.st.maps = [] ∧
      ∃ s', w.st.malloc 0 (Os.granting (2 ^ 30) 1) 8 = .ok (none, s') := by
  have hrounds : Starved ∨ Churned (2 ^ 19) := churned_or_starved (by omega)
  rcases hrounds with hstarved | ⟨w, m, hspends, hmaps, hdrained⟩
  · exact hstarved
  · obtain ⟨s', hm⟩ := hdrained.refused (Nat.le_refl _) (by omega)
    refine ⟨w, m, hspends, hmaps, s', ?_⟩
    have hsame : (w.st.ensureInit (Os.granting (2 ^ 30) 1)).malloc 0 (Os.granting (2 ^ 30) 1) 8 =
        w.st.malloc 0 (Os.granting (2 ^ 30) 1) 8 := by
      rw [State.malloc, State.malloc, ensureInit_of_ready hdrained.ready]
    rw [← hsame, hm]

end Memflux.Alloc
