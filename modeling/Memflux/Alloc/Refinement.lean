import Memflux.Alloc.Resize
import Memflux.Alloc.Purge
import Memflux.Lib.Heap

/-! # The allocator as a heap of blocks

`Represents` relates a world to a heap: the held pointers are its blocks, each inside
the block it points into and with the bytes of the memory. Every step of a history
without wrap-around whose resizes are recognised, and whose trim passes find no held
block of a size that they do not purge safely, is a step of the heap.
-/

namespace Memflux.Alloc

open Spans BitWords DList Heaps

/-- The request that a step makes of the heap. -/
def Op.act : Op → Act UInt8
  | .malloc n => .alloc 8 n
  | .calloc nm sz => .zeroed 8 (nm * sz)
  | .realloc p n => if p = 0 then .alloc 8 n else .resize 8 p n
  | .posixMemalign _ align n => .alloc (if align < 8 then 8 else align) n
  | .free p => if p = 0 then .skip else .release p
  | .trim _ => .skip
  | .write mem => .store mem

/-- The sizes leave room for a header, a resized pointer is one that the allocator
recognises, and a trim pass finds only blocks of sizes that it purges safely. -/
def World.Regular (w : World) : Op → Prop
  | .malloc n => n + sizeofLargeHdr < 2 ^ 64
  | .realloc p n => n + sizeofLargeHdr < 2 ^ 64 ∧ (p ≠ 0 → n ≠ 0 → w.st.forwards p = false)
  | .trim _ => ∀ e ∈ w.held, SafeBlock w.st e.block
  | _ => True

/-- A step with what it answered. -/
def World.RegularStep (w : World) (l : Op × Option Nat) (w' : World) : Prop :=
  ∃ t os, w.Clean t os l.1 ∧ w.Regular l.1 ∧ w.exec t os l.1 = .ok (l.2, w')

/-- The blocks of the heap are those of the held pointers, with the bytes in memory. -/
structure Represents (s : State) (held : List Held) (H : Heap UInt8) : Prop where
  live : ∀ e ∈ held, ∃ d, H.cells e.ptr = some d
  inside : ∀ p d, H.cells p = some d → ∃ e ∈ held, e.ptr = p ∧ Inside s e.block p d.length
  content : ∀ p d, H.cells p = some d → d = bytes s.mem p d.length

theorem Sound.eq_of_ptr {s : State} {held : List Held} (h : Sound s held) {e f : Held}
    (he : e ∈ held) (hf : f ∈ held) (hp : e.ptr = f.ptr) : e = f := by
  obtain ⟨L, hcore⟩ := h.core
  have hw := h.blocks f hf
  rw [← hp] at hw
  exact h.eq_of_block he hf (hcore.within_unique (h.blocks e he) hw)

theorem Sound.heap {s : State} {held : List Held} (h : Sound s held)
    {cells : Nat → Option (List UInt8)}
    (hin : ∀ p d, cells p = some d → ∃ e ∈ held, e.ptr = p ∧ Inside s e.block p d.length) :
    ∃ H : Heap UInt8, H.cells = cells := by
  obtain ⟨L, hcore⟩ := h.core
  have hpast : ∀ {p q : Nat} {d e : List UInt8}, cells p = some d → cells q = some e → p < q →
      p + d.length ≤ q := by
    intro p q d e hp hq hlt
    obtain ⟨f, hf, rfl, hinside⟩ := hin p d hp
    obtain ⟨g, hg, rfl, -⟩ := hin q e hq
    by_contra hover
    -- the second pointer would point into the block of the first
    have hblock := hcore.within_unique (hinside g.ptr (by omega) (by omega)) (h.blocks g hg)
    have heq := h.eq_of_block hf hg hblock
    rw [heq] at hlt
    exact Nat.lt_irrefl _ hlt
  refine ⟨⟨cells, fun hp hq hne => ?_⟩, rfl⟩
  rcases Nat.lt_or_gt_of_ne hne with hlt | hgt
  · exact .inl (hpast hp hq hlt)
  · exact .inr (hpast hq hp hgt)

theorem Represents.same {s s' : State} {held : List Held} {H : Heap UInt8}
    (hR : Represents s held H) (hkeep : ∀ e ∈ held, Unchanged s s' e.block) :
    Represents s' held H := by
  refine ⟨hR.live, fun p d hp => ?_, fun p d hp => ?_⟩
  · obtain ⟨e, he, hptr, hin⟩ := hR.inside p d hp
    exact ⟨e, he, hptr, fun x h₁ h₂ => (hkeep e he x (hin x h₁ h₂)).1⟩
  · obtain ⟨e, he, -, hin⟩ := hR.inside p d hp
    refine (hR.content p d hp).trans (bytes_congr fun j hj => ?_)
    exact (hkeep e he _ (hin (p + j) (Nat.le_add_right _ _) (by omega))).2.symm

/-- A new pointer is held, and the blocks of the others are as before. -/
theorem Represents.gained {s s' : State} {held : List Held} {H : Heap UInt8}
    (hR : Represents s held H) (hkeep : ∀ e ∈ held, Unchanged s s' e.block) {q b n : Nat}
    (hs' : Sound s' (⟨q, b⟩ :: held)) (hin : Inside s' b q n) :
    ∃ H' : Heap UInt8, H.cells q = none ∧
      H'.cells = Function.update H.cells q (some (bytes s'.mem q n)) ∧
        Represents s' (⟨q, b⟩ :: held) H' := by
  have hsame := hR.same hkeep
  have hfresh : ∀ e ∈ held, e.ptr ≠ q := by
    intro e he hp
    have heq := hs'.eq_of_ptr (List.mem_cons_of_mem _ he) List.mem_cons_self hp
    have hnodup := (List.nodup_cons.mp hs'.distinct).1
    exact hnodup (heq ▸ List.mem_map_of_mem he)
  have hinside : ∀ p d, Function.update H.cells q (some (bytes s'.mem q n)) p = some d →
      ∃ e ∈ (⟨q, b⟩ :: held : List Held), e.ptr = p ∧ Inside s' e.block p d.length := by
    intro p d hp
    by_cases hpq : p = q
    · subst hpq
      rw [Function.update_self, Option.some.injEq] at hp
      subst hp
      refine ⟨_, List.mem_cons_self, rfl, ?_⟩
      rwa [length_bytes]
    · rw [Function.update_of_ne hpq] at hp
      obtain ⟨e, he, hptr, hin'⟩ := hsame.inside p d hp
      exact ⟨e, List.mem_cons_of_mem _ he, hptr, hin'⟩
  obtain ⟨H', hH'⟩ := hs'.heap hinside
  refine ⟨H', ?_, hH', ?_, by rwa [hH'], ?_⟩
  · cases hq : H.cells q with
    | none => rfl
    | some d =>
        obtain ⟨e, he, hptr, -⟩ := hR.inside q d hq
        exact absurd hptr (hfresh e he)
  · intro e he
    rw [hH']
    rcases List.mem_cons.mp he with rfl | he
    · exact ⟨_, Function.update_self _ _ _⟩
    · rw [Function.update_of_ne (hfresh e he)]
      exact hsame.live e he
  · intro p d hp
    rw [hH'] at hp
    by_cases hpq : p = q
    · subst hpq
      rw [Function.update_self, Option.some.injEq] at hp
      subst hp
      rw [length_bytes]
    · rw [Function.update_of_ne hpq] at hp
      exact hsame.content p d hp

/-- A pointer is given up, and the blocks of the others are as before. -/
theorem Represents.dropped {s s' : State} {held : List Held} {H : Heap UInt8}
    (h : Sound s held) (hR : Represents s held H) {p : Nat} (hs' : Sound s' (drop p held))
    (hkeep : ∀ e ∈ drop p held, Unchanged s s' e.block) :
    ∃ H' : Heap UInt8, H'.cells = Function.update H.cells p none ∧
      Represents s' (drop p held) H' := by
  have hleft : ∀ q d, Function.update H.cells p none q = some d → q ≠ p ∧ H.cells q = some d := by
    intro q d hq
    by_cases hqp : q = p
    · subst hqp
      rw [Function.update_self] at hq
      cases hq
    · exact ⟨hqp, by rwa [Function.update_of_ne hqp] at hq⟩
  have hold : ∀ q d, Function.update H.cells p none q = some d →
      ∃ e ∈ drop p held, e.ptr = q ∧ Inside s e.block q d.length := by
    intro q d hq
    obtain ⟨hne, hq⟩ := hleft q d hq
    obtain ⟨e, he, rfl, hin⟩ := hR.inside q d hq
    exact ⟨e, mem_drop he hne, rfl, hin⟩
  obtain ⟨H', hH'⟩ := (h.giveUp p).heap hold
  refine ⟨H', hH', Represents.same (s := s) ⟨fun e he => ?_, by rwa [hH'], fun q d hq => ?_⟩ hkeep⟩
  · obtain ⟨hm, hne⟩ := List.mem_filter.mp he
    rw [hH', Function.update_of_ne (by simpa using hne)]
    exact hR.live e hm
  · rw [hH'] at hq
    exact hR.content q d (hleft q d hq).2

/-! ## One lemma for each call -/

/-- The blocks of a run and the large ones begin on multiples of eight. -/
theorem Core.within_grain {s : State} {L : Nat → List Nat} (h : Core s L) {p x : Nat}
    (hw : Within s p x) : 8 ∣ p := by
  have hsizes : ∀ c, c < 68 → kSize c % 8 = 0 := by decide
  cases hw with
  | @small a r i block start low high =>
      have hok := h.run a r block.run
      have hpos := hok.cls_pos
      have hle : r.cls ≤ 68 := hok.cls_le
      have helem : r.elem % 8 = 0 := by
        rw [hok.elem]
        exact hsizes _ (by omega)
      obtain ⟨g, hg, rfl, -⟩ := h.maps.ofRun a r block.run
      have hbase := (h.maps.sane g hg).2.1
      have hdata := hok.geometry.data_mod
      rw [← hok.elems] at hdata
      have hmul : i * r.elem % 8 = 0 := by
        rw [Nat.mul_mod, helem, Nat.mul_zero, Nat.zero_mod]
      unfold blockAddr runData at start
      omega
  | @large a l header start low high =>
      obtain ⟨-, g, hg, rfl, -⟩ := h.maps.ofLarge a l header
      have hbase := (h.maps.sane g hg).2.1
      have hhdr : sizeofLargeHdr = 24 := rfl
      omega

theorem Sound.grain {s : State} {held : List Held} (h : Sound s held) {e : Held} (he : e ∈ held) :
    8 ∣ e.block := by
  obtain ⟨L, hcore⟩ := h.core
  exact hcore.within_grain (h.blocks e he)

/-- `malloc` adds a block of at least the bytes asked for, or nothing. -/
theorem Represents.malloc {s s' : State} {held : List Held} {H : Heap UInt8} (h : Sound s held)
    (hR : Represents s held H) {t : Tid} {os : Os} (hos : os.Sane) {n m : Nat}
    (hneeds : s.MallocNeeds Grantable t os n) (hm : m ≤ n) (hfits : n + sizeofLargeHdr < 2 ^ 64)
    {ans : Option Nat} (hcall : s.malloc t os n = .ok (ans, s')) :
    (ans = none → Represents s' held H) ∧
      ∀ q, ans = some q → 8 ∣ q ∧ ∃ H' : Heap UInt8, H.cells q = none ∧
        H'.cells = Function.update H.cells q (some (bytes s'.mem q m)) ∧
          Represents s' (⟨q, q⟩ :: held) H' := by
  have hkeep : ∀ e ∈ held, Unchanged s s' e.block := fun e _ x hx => h.malloc_kept hos hneeds hcall hx
  have hs' := h.mallocOk hos hneeds hcall
  refine ⟨fun _ => hR.same hkeep, fun q hq => ?_⟩
  subst hq
  have hin := (h.malloc_inside hos (hneeds.mono fun _ _ _ _ hg => hg.2) hcall).mpr hfits
  exact ⟨hs'.grain (e := ⟨q, q⟩) List.mem_cons_self,
    hR.gained hkeep hs' fun x h₁ h₂ => hin x h₁ (by omega)⟩

theorem free_mem {s s' : State} {L : Nat → List Nat} (h : Core s L) {t : Tid}
    (hcache : s.tcache t = none) {now : Nat → Nat} {b p : Nat} (hw : Within s b p) {r : Freed}
    (hf : s.free t now p = .ok (r, s')) : s'.mem = s.mem := by
  have hcases := free_cases h hcache hw hf
  cases hcases with
  | kept how => rfl
  | given block start base => rfl

/-- `free` takes the block of a held pointer away, whatever it makes of it. -/
theorem Represents.free {s s' : State} {held : List Held} {H : Heap UInt8} (h : Sound s held)
    (hR : Represents s held H) {t : Tid} {now : Nat → Nat} {e : Held} (he : e ∈ held) {r : Freed}
    (hf : s.free t now e.ptr = .ok (r, s')) :
    ∃ H' : Heap UInt8, H'.cells = Function.update H.cells e.ptr none ∧
      Represents s' (drop e.ptr held) H' := by
  obtain ⟨L, hcore⟩ := h.core
  have hp : e.ptr = 0 ∨ ∃ f ∈ held, f.ptr = e.ptr := .inr ⟨e, he, rfl⟩
  have hmem := free_mem hcore (by rw [h.caches]) (h.blocks e he) hf
  refine hR.dropped h (h.free hp hf) fun f hfm x hx => ?_
  obtain ⟨hfm, hne⟩ := List.mem_filter.mp hfm
  have hne : e.ptr ≠ f.ptr := fun heq => by simp [heq] at hne
  exact ⟨h.free_spares hp hf hfm hne hx, congrFun hmem x⟩

theorem Represents.calloc {s s' : State} {held : List Held} {H : Heap UInt8} (h : Sound s held)
    (hR : Represents s held H) {t : Tid} {os : Os} (hos : os.Sane) {nm sz : Nat}
    (hneeds : s.OpNeeds Grantable t os (.calloc nm sz)) {ans : Option Nat}
    (hcall : s.calloc t os nm sz = .ok (ans, s')) :
    ∃ H', Heaps.Step 0 H (.zeroed 8 (nm * sz), ans) H' ∧ Represents s' (gain ans held) H' := by
  have hin := fun q (hq : ans = some q) =>
    h.calloc_inside hos (hneeds.mono fun _ _ _ _ hg => hg.2) (hq ▸ hcall)
  have hs' := h.calloc hos hneeds hcall
  have hcases := calloc_cases hcall
  cases hcases with
  | overflow big => exact ⟨H, .failed trivial, hR⟩
  | refused size call =>
      exact ⟨H, .failed trivial, hR.same fun e _ x hx => h.malloc_kept hos (hneeds size) call hx⟩
  | @zeroed s₁ p size call mapped =>
      have hin := hin p rfl
      have hs' : Sound (s₁.fill p (nm * sz) fun _ => 0) (⟨p, p⟩ :: held) := hs'
      obtain ⟨L, hcore⟩ := hs'.core
      have hkeep : ∀ e ∈ held, Unchanged s (s₁.fill p (nm * sz) fun _ => 0) e.block := by
        intro e he x hx
        obtain ⟨hx₁, hmem⟩ := h.malloc_kept hos (hneeds size) call hx
        have hx₂ := hx₁.fill p (nm * sz) fun _ => 0
        refine ⟨hx₂, (if_neg fun hr => ?_).trans hmem⟩
        -- the cleared bytes are those of the new block
        have hblock : e.block = p := hcore.within_unique hx₂ (hin x hr.1 hr.2)
        refine (List.nodup_cons.mp hs'.distinct).1 ?_
        show p ∈ held.map Held.block
        exact hblock ▸ List.mem_map_of_mem he
      obtain ⟨H', hfresh, hcells, hrep⟩ := hR.gained hkeep hs' hin
      refine ⟨H', .zeroed hfresh (hs'.grain (e := ⟨p, p⟩) List.mem_cons_self) ?_, hrep⟩
      have hzero : bytes (s₁.fill p (nm * sz) fun _ => 0).mem p (nm * sz) =
          List.replicate (nm * sz) 0 := by
        refine List.eq_replicate_iff.mpr ⟨length_bytes _ _ _, fun b hb => ?_⟩
        obtain ⟨j, hj, rfl⟩ := List.mem_map.mp hb
        have hlt := List.mem_range.mp hj
        exact if_pos ⟨Nat.le_add_right _ _, by omega⟩
      rwa [hzero] at hcells

theorem Represents.posixMemalign {w w' : World} {H : Heap UInt8} (h : Sound w.st w.held)
    (hR : Represents w.st w.held H) {t : Tid} {os : Os} {outNull : Bool} {align n : Nat}
    (hok : w.Clean t os (.posixMemalign outNull align n)) {ans : Option Nat}
    (hx : w.exec t os (.posixMemalign outNull align n) = .ok (ans, w')) :
    ∃ H', Heaps.Step 0 H (.alloc (if align < 8 then 8 else align) n, ans) H' ∧
      Represents w'.st w'.held H' := by
  have hs' := h.exec hok hx
  obtain ⟨hos, hneeds, hsize, -⟩ := hok
  obtain ⟨⟨ans', s'⟩, hexec, hw⟩ := bind_ok hx
  cases hw
  obtain ⟨⟨r, s₁⟩, hm, hans⟩ := bind_ok hexec
  have hcases := posixMemalign_cases hm
  cases hcases with
  | invalid bad =>
      cases hans
      exact ⟨H, .failed trivial, hR⟩
  | refused out ok call =>
      cases hans
      exact ⟨H, .failed trivial, hR.same fun e _ x hx => h.malloc_kept hos (hneeds out _ ok) call hx⟩
  | @aligned a p _ out ok call =>
      cases hans
      have hblock : w.st.memalignBlock t os align n = p := by
        simp only [State.memalignBlock, ok, call]
      have ha := memalignAlign_ge ok
      obtain ⟨hfit, hext⟩ := h.alignPtr_within hos (hsize a ok) (hneeds out _ ok) call
      obtain ⟨hlo, hhi, hmod⟩ := alignPtr_range (by omega) hfit
      have hheld : w.heldAfter t os (some (State.alignPtr p a)) (.posixMemalign outNull align n) =
          ⟨State.alignPtr p a, p⟩ :: w.held := by
        rw [← hblock]
        rfl
      rw [hheld] at hs' ⊢
      have hkeep : ∀ e ∈ w.held, Unchanged w.st s' e.block :=
        fun e _ x hx => h.malloc_kept hos (hneeds out _ ok) call hx
      obtain ⟨H', hfresh, hcells, hrep⟩ := hR.gained (n := n) hkeep hs' fun x h₁ h₂ =>
        hext x (by omega) (by omega)
      refine ⟨H', ?_, hrep⟩
      have hdvd : (if align < 8 then 8 else align) ∣ State.alignPtr p a := by
        rw [← (memalignAlign_eq ok).1]
        exact Nat.dvd_of_mod_eq_zero hmod
      have hstep : Heaps.Step 0 H _ H' := .allocated hfresh hdvd hcells
      rwa [length_bytes] at hstep

theorem Represents.resized {w w' : World} {H : Heap UInt8} (h : Sound w.st w.held)
    (hR : Represents w.st w.held H) {t : Tid} {os : Os} {e : Held} (he : e ∈ w.held) {n : Nat}
    (hn : n ≠ 0) (hok : w.Clean t os (.realloc e.ptr n)) (hfits : n + sizeofLargeHdr < 2 ^ 64)
    (hown : w.st.forwards e.ptr = false) {ans : Option Nat}
    (hx : w.exec t os (.realloc e.ptr n) = .ok (ans, w')) :
    ∃ H', Heaps.Step 0 H (.resize 8 e.ptr n, ans) H' ∧ Represents w'.st w'.held H' := by
  have hs' := h.exec hok hx
  have hptr := h.ptr_ne_zero he
  obtain ⟨⟨ans', s'⟩, hexec, hw⟩ := bind_ok hx
  cases hw
  obtain ⟨⟨r, s₁⟩, hrun, hans⟩ := bind_ok hexec
  cases hans
  -- libc did not answer, so the condition of the copy is met
  have hlibc : r.byLibc = false := by
    have hcases := realloc_cases hrun
    cases hcases with
    | forwarded ptr size foreign => simp [State.forwards, foreign] at hown
    | _ => rfl
  obtain ⟨d, hd⟩ := hR.live e he
  obtain ⟨f, hf, hfe, hin⟩ := hR.inside _ d hd
  obtain rfl := h.eq_of_ptr hf he hfe
  have hrun' : w.st.realloc t os f.ptr n = .ok (⟨r.ptr, false⟩, s') := by rw [← hlibc, hrun]
  have hres := h.resizable he hok (Nat.pos_of_ne_zero hn) hrun'
  have hready : w.st.ready = true := by
    by_contra hr
    exact hres.1 (h.ledger.unready (by simpa using hr)).1
  have hgives : w.st.MallocGives t os n := by
    intro q s₂ hcall
    refine (h.malloc_inside hok.1 (fun size align _ h0 => ?_) hcall).mpr hfits
    rw [ensureInit_of_ready hready] at h0
    exact absurd h0 hres.1
  obtain ⟨ans, s₂, hrun₂, hothers, hnull, hnew⟩ :=
    (h.keepsData_iff he hok (Nat.pos_of_ne_zero hn) hin hgives).mpr hres
  rw [hrun', Except.ok.injEq, Prod.mk.injEq, Reply.mk.injEq] at hrun₂
  obtain ⟨⟨hans, -⟩, rfl⟩ := hrun₂
  rw [hans] at hs' ⊢
  have hheld : w.heldAfter t os ans (.realloc f.ptr n) =
      if ans = none then w.held else gain ans (drop f.ptr w.held) := by
    simp only [World.heldAfter, if_neg hptr, if_neg hn, hown, Bool.false_eq_true, if_false]
  rw [hheld] at hs' ⊢
  have hkeep : ∀ g ∈ drop f.ptr w.held, Unchanged w.st s' g.block := by
    intro g hg
    obtain ⟨hgm, hne⟩ := h.drop_block he hg
    exact hothers g hgm fun heq => hne (by rw [heq])
  cases ans with
  | none =>
      refine ⟨H, .failed trivial, hR.same fun g hg => ?_⟩
      by_cases hgf : g = f
      · rw [hgf]
        exact hnull rfl
      · exact hothers g hg hgf
  | some q =>
      obtain ⟨hinq, hbytes, -, -⟩ := hnew q rfl
      rw [if_neg (Option.some_ne_none q)] at hs' ⊢
      have hleft : Sound s' (drop f.ptr w.held) :=
        ⟨hs'.core, hs'.ledger, hs'.caches, hs'.sizes,
          fun g hg => hs'.blocks g (List.mem_cons_of_mem _ hg), (List.nodup_cons.mp hs'.distinct).2⟩
      obtain ⟨H₁, hcells', hrep₁⟩ := hR.dropped h hleft hkeep
      obtain ⟨H', hfresh, hcells, hrep⟩ :=
        hrep₁.gained (fun _ _ x hx => ⟨hx, rfl⟩) hs' hinq
      rw [hcells'] at hfresh hcells
      refine ⟨H', ?_, hrep⟩
      have hmoved : q = f.ptr ∨ H.cells q = none := by
        by_cases hq : q = f.ptr
        · exact .inl hq
        · exact .inr (by rwa [Function.update_of_ne hq] at hfresh)
      have hkept : (bytes s'.mem q n).take (min d.length n) = d.take (min d.length n) := by
        have htake := take_bytes (Nat.min_le_left d.length n) (Nat.min_le_right d.length n) hbytes
        rwa [← hR.content _ d hd] at htake
      have hstep : Heaps.Step 0 H _ H' := .resized (e := bytes s'.mem q n) hd hmoved
        (hs'.grain (e := ⟨q, q⟩) List.mem_cons_self) (by rwa [length_bytes]) hcells
      rwa [length_bytes] at hstep

theorem Represents.emptied {w w' : World} {H : Heap UInt8} (h : Sound w.st w.held)
    (hR : Represents w.st w.held H) {t : Tid} {os : Os} {e : Held} (he : e ∈ w.held)
    (hok : w.Clean t os (.realloc e.ptr 0)) {ans : Option Nat}
    (hx : w.exec t os (.realloc e.ptr 0) = .ok (ans, w')) :
    ∃ H', Heaps.Step 0 H (.resize 8 e.ptr 0, ans) H' ∧ Represents w'.st w'.held H' := by
  have hptr := h.ptr_ne_zero he
  obtain ⟨hos, hneeds, -, -⟩ := hok
  obtain ⟨⟨ans', s'⟩, hexec, hw⟩ := bind_ok hx
  cases hw
  obtain ⟨⟨r, s₁⟩, hrun, hans⟩ := bind_ok hexec
  cases hans
  have hheld : ∀ ans, w.heldAfter t os ans (.realloc e.ptr 0) = gain ans (drop e.ptr w.held) := by
    intro ans
    simp only [World.heldAfter, if_neg hptr, if_true]
  rw [hheld]
  simp only [State.OpNeeds, if_neg hptr, if_true] at hneeds
  obtain ⟨d, hd⟩ := hR.live e he
  have hcases := realloc_cases hrun
  cases hcases with
  | fresh null call => exact absurd null hptr
  | @emptied f s₁ _ q ptr zero release call =>
      have h₁ := h.free (.inr ⟨e, he, rfl⟩) release
      have hgrant := hneeds _ _ release
      obtain ⟨H₁, hcells₁, hrep₁⟩ := hR.free h he release
      have hos' : (os.after 2).Sane := hos
      obtain ⟨hnull, hsome⟩ := hrep₁.malloc h₁ hos' hgrant (Nat.zero_le 1) (by decide) call
      cases q with
      | none => exact ⟨H₁, .emptied hd hcells₁, hnull rfl⟩
      | some q =>
          obtain ⟨hdvd, H', hfresh, hcells, hrep⟩ := hsome q rfl
          rw [hcells₁] at hfresh hcells
          refine ⟨H', ?_, hrep⟩
          have hmoved : q = e.ptr ∨ H.cells q = none := by
            by_cases hq : q = e.ptr
            · exact .inl hq
            · exact .inr (by rwa [Function.update_of_ne hq] at hfresh)
          exact Heaps.Step.resized (e := []) hd hmoved hdvd (by simp) hcells
  | forwarded ptr size foreign => exact absurd rfl size
  | inPlace ptr size own fits => exact absurd rfl size
  | refused ptr size own moves call => exact absurd rfl size
  | moved ptr size own moves call copy release => exact absurd rfl size

/-- A trim pass keeps the bytes of the held blocks that it purges safely. -/
theorem Represents.trim {s s' : State} {held : List Held} {H : Heap UInt8} (h : Sound s held)
    (hR : Represents s held H) {clock : Nat} (hsafe : ∀ e ∈ held, SafeBlock s e.block)
    (ht : s.trimPass clock = .ok s') : Represents s' held H := by
  obtain ⟨L, hcore⟩ := h.core
  have htrim := (h.trim ht).2
  refine hR.same fun e he x hx => ⟨htrim.keeps hcore hx, ?_⟩
  by_contra hne
  exact hcore.not_within_purged (hsafe e he) (htrim.mem x hne) hx

theorem Represents.write {s : State} {held : List Held} {H : Heap UInt8} (h : Sound s held)
    (hR : Represents s held H) (mem : Nat → UInt8) :
    ∃ H', Heaps.Step 0 H (.store mem, none) H' ∧ Represents { s with mem := mem } held H' := by
  have hsame : ∀ {p d}, ((H.cells p).map fun d => bytes mem p d.length) = some d →
      ∃ d', H.cells p = some d' ∧ d'.length = d.length ∧ d = bytes mem p d.length := by
    intro p d hp
    obtain ⟨d', hd', rfl⟩ := Option.map_eq_some_iff.mp hp
    exact ⟨d', hd', (length_bytes _ _ _).symm, by rw [length_bytes]⟩
  have hin : ∀ p d, ((H.cells p).map fun d => bytes mem p d.length) = some d →
      ∃ e ∈ held, e.ptr = p ∧ Inside { s with mem := mem } e.block p d.length := by
    intro p d hp
    obtain ⟨d', hd', hlen, -⟩ := hsame hp
    obtain ⟨e, he, hptr, hin⟩ := hR.inside p d' hd'
    refine ⟨e, he, hptr, fun x h₁ h₂ => ?_⟩
    exact (hin x h₁ (by omega)).frame (fun _ r _ hb _ => ⟨r, ⟨hb.run, hb.index, hb.bit⟩, rfl, rfl⟩)
      (fun _ _ hl _ => hl)
  obtain ⟨H', hH'⟩ := (h.write mem).heap hin
  refine ⟨H', .stored fun p => by rw [hH'], fun e he => ?_, by rwa [hH'], fun p d hp => ?_⟩
  · obtain ⟨d, hd⟩ := hR.live e he
    have hcell : H'.cells e.ptr = (H.cells e.ptr).map fun d => bytes mem e.ptr d.length := by rw [hH']
    rw [hd] at hcell
    exact ⟨_, hcell⟩
  · rw [hH'] at hp
    obtain ⟨-, -, -, hbytes⟩ := hsame hp
    exact hbytes

/-! ## Every step, every history -/

theorem Sound.heapStep {w w' : World} (h : Sound w.st w.held) {l : Op × Option Nat}
    (hstep : w.RegularStep l w') {H : Heap UInt8} (hR : Represents w.st w.held H) :
    ∃ H', Heaps.Step 0 H (l.1.act, l.2) H' ∧ Represents w'.st w'.held H' := by
  obtain ⟨op, ans⟩ := l
  obtain ⟨t, os, hok, hregular, hx⟩ := hstep
  obtain ⟨⟨ans', s'⟩, hexec, hw⟩ := bind_ok hx
  cases hw
  have hmalloc : ∀ n, w.st.MallocNeeds Grantable t os n → n + sizeofLargeHdr < 2 ^ 64 →
      w.st.malloc t os n = .ok (ans, s') →
      ∃ H', Heaps.Step 0 H (.alloc 8 n, ans) H' ∧ Represents s' (gain ans w.held) H' := by
    intro n hneeds hfits hcall
    obtain ⟨hnull, hsome⟩ := hR.malloc h hok.1 hneeds (Nat.le_refl n) hfits hcall
    cases ans with
    | none => exact ⟨H, .failed trivial, hnull rfl⟩
    | some q =>
        obtain ⟨hdvd, H', hfresh, hcells, hrep⟩ := hsome q rfl
        have hstep : Heaps.Step 0 H _ H' := .allocated hfresh hdvd hcells
        rw [length_bytes] at hstep
        exact ⟨H', hstep, hrep⟩
  cases op with
  | malloc n => exact hmalloc n hok.2.1 hregular hexec
  | calloc nm sz => exact hR.calloc h hok.1 hok.2.1 hexec
  | posixMemalign outNull align n => exact hR.posixMemalign h hok hx
  | realloc p n =>
      by_cases hp : p = 0
      · subst hp
        obtain ⟨⟨r, s₁⟩, hrun, hans⟩ := bind_ok hexec
        cases hans
        have hcases := realloc_cases hrun
        cases hcases with
        | fresh null call => exact hmalloc n hok.2.1 hregular.1 call
        | emptied ptr zero release call => exact absurd rfl ptr
        | forwarded ptr size foreign => exact absurd rfl ptr
        | inPlace ptr size own fits => exact absurd rfl ptr
        | refused ptr size own moves call => exact absurd rfl ptr
        | moved ptr size own moves call copy release => exact absurd rfl ptr
      · obtain ⟨e, he, rfl⟩ := hok.2.2.2.resolve_left hp
        show ∃ H', Heaps.Step 0 H (if e.ptr = 0 then _ else _, ans) H' ∧ _
        rw [if_neg hp]
        by_cases hn : n = 0
        · subst hn
          exact hR.emptied h he hok hx
        · exact hR.resized h he hn hok hregular.1 (hregular.2 hp hn) hx
  | free p =>
      obtain ⟨⟨r, s₁⟩, hf, hans⟩ := bind_ok hexec
      cases hans
      show ∃ H', Heaps.Step 0 H (if p = 0 then _ else _, none) H' ∧ Represents s' (drop p w.held) H'
      by_cases hp : p = 0
      · subst hp
        rw [State.free, if_pos rfl] at hf
        cases hf
        have hnone : drop 0 w.held = w.held :=
          List.filter_eq_self.mpr fun e he => decide_eq_true (h.ptr_ne_zero he)
        rw [if_pos rfl, hnone]
        exact ⟨H, .skipped, hR⟩
      · obtain ⟨e, he, rfl⟩ := hok.2.2.2.resolve_left hp
        rw [if_neg hp]
        obtain ⟨d, hd⟩ := hR.live e he
        obtain ⟨H', hcells, hrep⟩ := hR.free h he hf
        exact ⟨H', .released hd hcells, hrep⟩
  | trim clock =>
      obtain ⟨s₁, ht, hans⟩ := bind_ok hexec
      cases hans
      exact ⟨H, .skipped, hR.trim h hregular ht⟩
  | write mem =>
      cases hexec
      exact hR.write h mem

structure Mirrors (w : World) (H : Heap UInt8) : Prop where
  sound : Sound w.st w.held
  rep : Represents w.st w.held H

theorem Mirrors.step {w w' : World} {H : Heap UInt8} (h : Mirrors w H) {l : Op × Option Nat}
    (hstep : w.RegularStep l w') : ∃ H', Heaps.Step 0 H (l.1.act, l.2) H' ∧ Mirrors w' H' := by
  obtain ⟨H', hheap, hrep⟩ := h.sound.heapStep hstep h.rep
  obtain ⟨t, os, hok, -, hx⟩ := hstep
  exact ⟨H', hheap, h.sound.exec hok hx, hrep⟩

def acts (l : List (Op × Option Nat)) : List (Act UInt8 × Option Nat) :=
  l.map fun e => (e.1.act, e.2)

theorem Mirrors.run {w w' : World} {H : Heap UInt8} (h : Mirrors w H) {l : List (Op × Option Nat)}
    (hrun : Simulation.Run World.RegularStep w l w') :
    ∃ H', Simulation.Run (Heaps.Step 0) H (acts l) H' ∧ Mirrors w' H' :=
  hrun.simulated (fun _ _ _ _ hstep h => h.step hstep) h

theorem Mirrors.read {w : World} {H : Heap UInt8} (h : Mirrors w H) {p : Nat} {d : List UInt8}
    (hp : H.cells p = some d) {j : Nat} (hj : j < d.length) : d[j]? = some (w.st.mem (p + j)) := by
  rw [h.rep.content p d hp]
  simp only [bytes, List.getElem?_map, List.getElem?_range hj, Option.map_some]

/-! ## Checked histories -/

namespace World

end World

def Op.asked : Op → Nat
  | .malloc n => n
  | .calloc nm sz => nm * sz
  | .realloc _ n => n
  | .posixMemalign _ _ n => n
  | _ => 0

end Memflux.Alloc
