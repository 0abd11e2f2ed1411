import Memflux.Alloc.World

/-! # Capacity

A request that returns a pointer gives the requested bytes inside the one block it
took from `malloc`, and one that cannot be met returns null, exactly when no size
computation on the way wraps or the request ends before its size matters.
The requests built on `posix_memalign` are reduced to it; the others to `malloc`.
-/

namespace Memflux.Alloc

open Spans BitWords DList

/-- A request for memory, as a client states it. -/
inductive Request where
  | malloc (n : Nat)
  | calloc (nm sz : Nat)
  | realloc (p n : Nat)
  | reallocarray (p nm sz : Nat)
  | posixMemalign (align n : Nat)
  | alignedAlloc (align n : Nat)
  | valloc (n : Nat)
  | pvalloc (n : Nat)

namespace Request

def run (s : State) (t : Tid) (os : Os) : Request → Except Trap (Reply × State)
  | malloc n => do
      let (p, s) ← s.malloc t os n
      .ok (⟨p, false⟩, s)
  | calloc nm sz => do
      let (p, s) ← s.calloc t os nm sz
      .ok (⟨p, false⟩, s)
  | realloc p n => s.realloc t os p n
  | reallocarray p nm sz => s.reallocarray t os p nm sz
  | posixMemalign align n => do
      let (r, s) ← s.posixMemalign t os false align n
      match r with
      | .ok q => .ok (⟨some q, false⟩, s)
      | _ => .ok (⟨none, false⟩, s)
  | alignedAlloc align n => do
      let (q, s) ← s.alignedAlloc t os align n
      .ok (⟨q, false⟩, s)
  | valloc n => do
      let (q, s) ← s.valloc t os n
      .ok (⟨q, false⟩, s)
  | pvalloc n => do
      let (q, s) ← s.pvalloc t os n
      .ok (⟨q, false⟩, s)

def bytes : Request → Nat
  | malloc n => n
  | calloc nm sz => nm * sz
  | realloc _ n => n
  | reallocarray _ nm sz => nm * sz
  | posixMemalign _ n => n
  | alignedAlloc _ n => n
  | valloc n => n
  | pvalloc n => n

def aligned : Request → Option (Nat × Nat)
  | posixMemalign align n => some (align, n)
  | alignedAlloc align n => some (if align ≠ 0 then align else 1, n)
  | valloc n => some (State.pageSize, n)
  | pvalloc n =>
      some (State.pageSize, roundDown (wrap64 (n + State.pageSize - 1)) State.pageSize)
  | _ => none

def op : Request → Op
  | malloc n => .malloc n
  | calloc nm sz => .calloc nm sz
  | realloc p n => .realloc p n
  | reallocarray p nm sz => .realloc p (nm * sz)
  | posixMemalign align n => .posixMemalign false align n
  | alignedAlloc align n => .posixMemalign false (if align ≠ 0 then align else 1) n
  | valloc n => .posixMemalign false State.pageSize n
  | pvalloc n =>
      .posixMemalign false State.pageSize
        (roundDown (wrap64 (n + State.pageSize - 1)) State.pageSize)

/-- The start of the block that answers the request, when it returns `q`. -/
def block (s : State) (t : Tid) (os : Os) (r : Request) (q : Nat) : Nat :=
  match r.aligned with
  | some (align, n) => s.memalignBlock t os align n
  | none => q

def IsSize : Request → Prop
  | malloc n => n < 2 ^ 64
  | calloc nm sz => nm < 2 ^ 64 ∧ sz < 2 ^ 64
  | realloc _ n => n < 2 ^ 64
  | reallocarray _ nm sz => nm < 2 ^ 64 ∧ sz < 2 ^ 64
  | posixMemalign align n => align < 2 ^ 64 ∧ n < 2 ^ 64
  | alignedAlloc align n => align < 2 ^ 64 ∧ n < 2 ^ 64
  | valloc n => n < 2 ^ 64
  | pvalloc n => n < 2 ^ 64

/-- `n + align + 4096` does not wrap, nor does adding the large header to it. -/
def NeedFits (align n : Nat) : Prop :=
  n + (if align < 8 then 8 else align) + 4096 + sizeofLargeHdr < 2 ^ 64

/-- No size computation of the request wraps, or the overflow of a product is noticed. -/
def Fits : Request → Prop
  | malloc n => n + sizeofLargeHdr < 2 ^ 64
  | calloc nm sz => nm * sz + sizeofLargeHdr < 2 ^ 64 ∨ 2 ^ 64 ≤ nm * sz
  | realloc _ n => n + sizeofLargeHdr < 2 ^ 64
  | reallocarray _ nm sz => nm * sz + sizeofLargeHdr < 2 ^ 64 ∨ 2 ^ 64 ≤ nm * sz
  | posixMemalign align n => NeedFits align n
  | alignedAlloc align n => NeedFits (if align ≠ 0 then align else 1) n
  | valloc n => NeedFits State.pageSize n
  | pvalloc n => n + State.pageSize - 1 < 2 ^ 64 ∧
      NeedFits State.pageSize (roundDown (n + State.pageSize - 1) State.pageSize)

/-- `realloc` does not recognise the pointer and passes the request on to libc. -/
def PassedOn (s : State) : Request → Prop
  | realloc p n => p ≠ 0 ∧ n ≠ 0 ∧ s.forwards p = true
  | reallocarray p nm sz => nm * sz < 2 ^ 64 ∧ p ≠ 0 ∧ nm * sz ≠ 0 ∧ s.forwards p = true
  | _ => False

end Request

/-- The reservation, or without one the kernel, makes the mapping. -/
def RegionMade (s : State) (os : Os) (size align : Nat) : Prop := (s.mapRegion os size align).1 ≠ none

/-- The bytes with a header would fill the address space, or the mapping that the
request asks for is refused. -/
def Request.CannotBeMet (s : State) (t : Tid) (os : Os) (r : Request) : Prop :=
  2 ^ 64 ≤ r.bytes + sizeofLargeHdr ∨ ¬ s.OpNeeds RegionMade t os r.op

/-- The `n` bytes from `q` belong to the block that begins at `p`. -/
def Inside (s : State) (p q n : Nat) : Prop := ∀ x, q ≤ x → x < q + n → Within s p x

structure Meets (s s' : State) (t : Tid) (os : Os) (r : Request) (q : Nat) : Prop where
  inside : Inside s' (r.block s t os q) q r.bytes
  small : ∀ n, r = .malloc n → n ≤ 2097152 → ∃ a run i, SmallBlock s' a run i ∧
    q = blockAddr a run i ∧ run.elem = kSize (run.cls - 1) ∧ n ≤ kSize (run.cls - 1) ∧
    ∀ d, d < run.cls - 1 → kSize d < n
  large : ∀ n, r = .malloc n → 2097152 < n → ∃ a l, s'.larges a = some l ∧
    q = a + sizeofLargeHdr ∧ sizeofLargeHdr + n ≤ l.mapSize

/-- A pointer comes with its bytes, and a request that cannot be met gets none. -/
structure Answered (s : State) (t : Tid) (os : Os) (r : Request) : Prop where
  given : ∀ q s', r.run s t os = .ok (⟨some q, false⟩, s') → Meets s s' t os r q
  refused : r.CannotBeMet s t os → ¬ r.PassedOn s → ∃ s', r.run s t os = .ok (⟨none, false⟩, s')

/-! ## `malloc`, `calloc` and `realloc` -/

/-- A block ends below `2 ^ 64`, so a request that nearly fills the address space
is not inside one. -/
theorem Sound.inside_fits {s : State} {held : List Held} (h : Sound s held) {p q n : Nat}
    (hin : Inside s p q n) (hw : Within s q q) : n + sizeofLargeHdr < 2 ^ 64 := by
  obtain ⟨L, hcore⟩ := h.core
  have hhdr : sizeofLargeHdr = 24 := rfl
  by_contra hge
  have hq : sizeofLargeHdr < q := by
    obtain ⟨g, hg, hmem, -⟩ := hcore.within_map hw
    obtain ⟨h₁, h₂, -⟩ := hcore.maps.sane g hg
    unfold Span.Mem at hmem
    omega
  obtain ⟨g, hg, hmem, -⟩ := hcore.within_map (hin (q + n - 1) (by omega) (by omega))
  have hstop := (hcore.maps.sane g hg).2.2.2.2
  unfold Span.Mem at hmem
  omega

/-- The block a `malloc(n)` returned holds `n` bytes exactly when the header can
be added to `n`. -/
theorem Sound.malloc_inside {s s' : State} {held : List Held} (h : Sound s held) {t : Tid} {os : Os}
    (hos : os.Sane) {n q : Nat} (hanon : s.MallocNeeds AnonFresh t os n)
    (hm : s.malloc t os n = .ok (some q, s')) :
    Inside s' q q n ↔ n + sizeofLargeHdr < 2 ^ 64 := by
  obtain ⟨ans, s₁, hm', hout, hsound, hnew⟩ := h.malloc hos (h.granted hos hanon hm)
  rw [hm] at hm'
  cases hm'
  obtain ⟨L, hcore⟩ := (h.ensureInit hos).core
  refine ⟨fun hin => hsound.inside_fits hin (hnew q rfl).1, fun hfits x h₁ h₂ => ?_⟩
  have hle : n ≤ bytesAsked n := by
    unfold bytesAsked
    split <;> omega
  refine hout.extent hcore ?_ h₁ (by omega)
  unfold bytesAsked
  split
  · decide
  · exact hfits

theorem Sound.malloc_kind {s s' : State} {held : List Held} (h : Sound s held) {t : Tid} {os : Os}
    (hos : os.Sane) {n q : Nat} (hanon : s.MallocNeeds AnonFresh t os n)
    (hm : s.malloc t os n = .ok (some q, s')) :
    (n ≤ 2097152 → ∃ a run i, SmallBlock s' a run i ∧ q = blockAddr a run i ∧
      run.elem = kSize (run.cls - 1) ∧ n ≤ kSize (run.cls - 1) ∧
      ∀ d, d < run.cls - 1 → kSize d < n) ∧
    (2097152 < n → n + sizeofLargeHdr < 2 ^ 64 → ∃ a l, s'.larges a = some l ∧
      q = a + sizeofLargeHdr ∧ sizeofLargeHdr + n ≤ l.mapSize) := by
  obtain ⟨ans, s₁, hm', hout, -, -⟩ := h.malloc hos (h.granted hos hanon hm)
  rw [hm] at hm'
  cases hm'
  obtain ⟨L, hcore⟩ := (h.ensureInit hos).core
  have hlarge : kLargeMin = 2097153 := rfl
  constructor
  · intro hn
    have hasked : bytesAsked n < kLargeMin := by
      unfold bytesAsked
      split <;> omega
    obtain ⟨a, run, i, hb, hok, hcls, hq⟩ := hout.smallBlock hcore hasked
    obtain ⟨c, hc, hclt, hle, hleast⟩ := classOf_spec (n := bytesAsked n) (by omega)
    rw [hc] at hcls
    refine ⟨a, run, i, hb, hq, hok.elem, ?_, fun d hd => ?_⟩
    · rw [hcls, Nat.add_sub_cancel]
      refine Nat.le_trans ?_ hle
      unfold bytesAsked
      split <;> omega
    · rw [hcls, Nat.add_sub_cancel] at hd
      have hlt := hleast d hd
      have hpos := (geometry (Nat.lt_trans hd hclt)).elem_pos
      unfold bytesAsked at hlt
      split at hlt <;> omega
  · intro hn hfits
    have hasked : bytesAsked n = n := if_neg (by omega)
    rw [hasked] at hout
    obtain ⟨a, hl, hq, hpos⟩ := hout.largeBlock (by omega)
    exact ⟨a, _, hl, hq, le_largeMap hfits hpos⟩

/-- `calloc` clears what it returns, so a wrapped size faults instead of returning. -/
theorem Sound.calloc_fits {s s' : State} {held : List Held} (h : Sound s held) {t : Tid} {os : Os}
    (hos : os.Sane) {nm sz q : Nat} (hanon : s.OpNeeds AnonFresh t os (.calloc nm sz))
    (hm : s.calloc t os nm sz = .ok (some q, s')) : nm * sz + sizeofLargeHdr < 2 ^ 64 := by
  have hhdr : sizeofLargeHdr = 24 := rfl
  have hcases := calloc_cases hm
  generalize hans : some q = ans at hcases
  cases hcases with
  | overflow big => cases hans
  | refused size call => cases hans
  | @zeroed s₁ p size call mapped =>
      cases hans
      have hs₁ := h.mallocOk hos (h.granted hos (hanon size) call) call
      obtain ⟨L, hcore⟩ := hs₁.core
      obtain ⟨g, hg, hlo, hhi⟩ := State.readable_iff.mp mapped
      obtain ⟨hpos, hmod, -, -, hstop⟩ := hcore.maps.sane g hg
      omega

theorem Sound.calloc_inside {s s' : State} {held : List Held} (h : Sound s held) {t : Tid} {os : Os}
    (hos : os.Sane) {nm sz q : Nat} (hanon : s.OpNeeds AnonFresh t os (.calloc nm sz))
    (hm : s.calloc t os nm sz = .ok (some q, s')) : Inside s' q q (nm * sz) := by
  have hfits := h.calloc_fits hos hanon hm
  have hcases := calloc_cases hm
  generalize hans : some q = ans at hcases
  cases hcases with
  | overflow big => cases hans
  | refused size call => cases hans
  | @zeroed s₁ p size call mapped =>
      cases hans
      have hin := h.malloc_inside hos (hanon size) call
      intro x h₁ h₂
      have hw := hin.mpr hfits x h₁ h₂
      exact hw.frame (fun _ r _ hb _ => ⟨r, ⟨hb.run, hb.index, hb.bit⟩, rfl, rfl⟩)
        (fun _ _ hl _ => hl)

/-- The size that `realloc` attributes to a pointer below `kLargeMin` is that of a
small block, and the block has that many bytes. -/
theorem Sound.oldSize_small {s : State} {held : List Held} (h : Sound s held) {e : Held}
    (he : e ∈ held) {old : Nat} (ho : s.oldSize e.ptr = .ok (some old)) (hlt : old < kLargeMin) :
    Inside s e.ptr e.ptr old := by
  obtain ⟨L, hcore⟩ := h.core
  obtain ⟨-, hsmall | hlarge⟩ := oldSize_cases hcore (h.blocks e he) ho
  · obtain ⟨r, i, hb, hp, rfl⟩ := hsmall
    exact fun x h₁ h₂ => .small hb hp h₁ h₂
  · obtain ⟨a, l, hl, -, rfl⟩ := hlarge
    exact absurd hlt (Nat.not_lt.mpr (h.sizes a l hl).1)

/-- The block that a resized pointer was moved to survives the release of the old one. -/
theorem Sound.free_keeps {s s' : State} {held : List Held} (h : Sound s held) {t : Tid}
    {now : Nat → Nat} {e : Held} (he : e ∈ held) {r : Freed}
    (hf : s.free t now e.ptr = .ok (r, s')) {p x : Nat} (hne : p ≠ e.block) (hw : Within s p x) :
    Within s' p x := by
  obtain ⟨L, hcore⟩ := h.core
  have hcases := free_cases hcore (by rw [h.caches]) (h.blocks e he) hf
  cases hcases with
  | kept how => exact hw
  | @given a i q block start base =>
      have hok := hcore.run a q block.run
      have hself : Within s (blockAddr a q i) e.ptr :=
        .small block rfl (Nat.le_of_eq start.symm)
          (by rw [start]; exact Nat.lt_add_of_pos_right hok.elem_pos)
      rw [hcore.within_unique (h.blocks e he) hself] at hne
      exact afterGive_keeps hok block.run block.index hne hw

theorem Sound.realloc_inside {w : World} (h : Sound w.st w.held) {t : Tid} {os : Os} (hos : os.Sane)
    {p n q : Nat} (hanon : w.st.OpNeeds AnonFresh t os (.realloc p n))
    (hp : p = 0 ∨ ∃ e ∈ w.held, e.ptr = p) {s' : State}
    (hm : w.st.realloc t os p n = .ok (⟨some q, false⟩, s')) :
    Inside s' q q n ↔ n + sizeofLargeHdr < 2 ^ 64 := by
  have hhdr : sizeofLargeHdr = 24 := rfl
  have hcases := realloc_cases hm
  simp only [State.OpNeeds] at hanon
  generalize hans : (⟨some q, false⟩ : Reply) = r at hcases
  cases hcases with
  | fresh null call =>
      cases hans
      rw [if_pos null] at hanon
      exact h.malloc_inside hos hanon call
  | emptied ptr zero release call =>
      subst zero
      exact ⟨fun _ => by omega, fun _ x h₁ h₂ => by omega⟩
  | forwarded ptr size foreign => simp at hans
  | inPlace ptr size own fits =>
      cases hans
      obtain ⟨e, he, rfl⟩ := hp.resolve_left ptr
      have hin := h.oldSize_small he own fits.2.1
      have hlarge : kLargeMin = 2097153 := rfl
      exact ⟨fun _ => by omega, fun _ x h₁ h₂ => hin x h₁ (by omega)⟩
  | refused ptr size own moves call => cases hans
  | @moved old _ s₁ s₂ _ f ptr size own moves call copy release =>
      cases hans
      rw [if_neg ptr, if_neg size] at hanon
      obtain ⟨e, he, rfl⟩ := hp.resolve_left ptr
      obtain ⟨L, hcore⟩ := h.core
      have hblock := (oldSize_cases hcore (h.blocks e he) own).1
      have hgrant := h.granted hos (hanon _ own moves) call
      obtain ⟨ans, s₃, hm', -, -, hnew⟩ := h.malloc hos hgrant
      rw [call] at hm'
      cases hm'
      have hne := (hnew q rfl).2.1 e he
      obtain ⟨-, -, rfl⟩ := memcpy_ok copy
      have h₂ := (h.mallocOk hos hgrant call).fill q (min old n) fun x => s₁.mem (e.ptr + (x - q))
      have hmem : e ∈ gain (some q) w.held := by simp [gain, he]
      have hkeep : ∀ x, Within s₁ q x → Within s' q x := by
        intro x hx
        refine h₂.free_keeps hmem release (Ne.symm hne) ?_
        exact hx.frame (fun _ r _ hb _ => ⟨r, ⟨hb.run, hb.index, hb.bit⟩, rfl, rfl⟩)
          (fun _ _ hl _ => hl)
      have hs' := h₂.free (.inr ⟨e, hmem, rfl⟩) release
      refine ⟨fun hin => hs'.inside_fits hin (hkeep q (hnew q rfl).1), fun hfits x h₁ h₂ => ?_⟩
      exact hkeep x ((h.malloc_inside hos (hanon _ own moves) call).mpr hfits x h₁ h₂)

/-! ## `posix_memalign` -/

theorem memalignAlign_eq {align a : Nat} (h : State.memalignAlign align = some a) :
    a = (if align < 8 then 8 else align) ∧ a.isPowerOfTwo := by
  unfold State.memalignAlign at h
  generalize hb : (if align < 8 then 8 else align) = b at h
  dsimp only at h
  split at h
  · cases h
  · rename_i hand
    cases h
    refine ⟨rfl, Nat.ne_zero_and_sub_one_eq_zero_iff_isPowerOfTwo.mp ⟨?_, by simpa using hand⟩⟩
    split at hb <;> omega

/-- A power of two that is a `size_t` is at most half of the address space. -/
theorem isPowerOfTwo_le {a : Nat} (h : a.isPowerOfTwo) (hlt : a < 2 ^ 64) : a ≤ 2 ^ 63 := by
  obtain ⟨k, rfl⟩ := h
  have hk : k < 64 := (Nat.pow_lt_pow_iff_right (by omega)).mp hlt
  exact Nat.pow_le_pow_right (by omega) (by omega)

theorem Malloced.bound {s s' : State} {L : Nat → List Nat} (h : Core s L) {L' : Nat → List Nat}
    (h' : Core s' L') {t : Tid} {os : Os} {n p x : Nat} (hm : Malloced s t os n (some p) s')
    (hn : n < 2 ^ 64) (hw : Within s' p x) :
    x < p + 2097152 ∨ (n + sizeofLargeHdr < 2 ^ 64 ∧ x < p + n + 4096) := by
  have hhdr : sizeofLargeHdr = 24 := rfl
  cases hw with
  | @small a r i block start low high =>
      have hok := h'.run a r block.run
      have hle := hok.geometry.elem_le
      rw [← hok.elem] at hle
      exact .inl (by omega)
  | @large a l header start low high =>
      by_cases hlarge : kLargeMin ≤ n
      · obtain ⟨b, hl, hp, -⟩ := hm.largeBlock hlarge
        obtain rfl : a = b := by omega
        rw [header, Option.some.injEq] at hl
        subst hl
        have hhigh : x < a + largeMap n := high
        have h₁ : largeMap n ≤ wrap64 (wrap64 (sizeofLargeHdr + n) + 4095) := roundDown_le _ _
        have h₂ : wrap64 (wrap64 (sizeofLargeHdr + n) + 4095) ≤
            wrap64 (sizeofLargeHdr + n) + 4095 := Nat.mod_le _ _
        by_cases hfits : n + sizeofLargeHdr < 2 ^ 64
        · have h₃ : wrap64 (sizeofLargeHdr + n) = sizeofLargeHdr + n := Nat.mod_eq_of_lt (by omega)
          exact .inr ⟨hfits, by omega⟩
        · have h₃ : wrap64 (sizeofLargeHdr + n) < 24 := by
            unfold wrap64
            omega
          exact .inl (by omega)
      · obtain ⟨b, r, i, hb, hok, -, hp⟩ := hm.smallBlock h (Nat.lt_of_not_le hlarge)
        exact absurd (hp.symm.trans start) (h'.small_not_large hb header)

theorem Sound.memalign_spec {s s' : State} {held : List Held} (h : Sound s held) {t : Tid} {os : Os}
    (hos : os.Sane) {align n q : Nat} (halign : align < 2 ^ 64) (hn : n < 2 ^ 64)
    (hanon : s.OpNeeds AnonFresh t os (.posixMemalign false align n))
    (hm : s.posixMemalign t os false align n = .ok (.ok q, s')) :
    (if align < 8 then 8 else align) ≤ 2 ^ 63 ∧
      (Request.NeedFits align n → Inside s' (s.memalignBlock t os align n) q n) ∧
      ∀ b, 0 < b → Inside s' (s.memalignBlock t os align n) q b →
        b ≤ 2097152 ∨
          (Request.NeedFits align n ∧ b ≤ n + (if align < 8 then 8 else align) + 8192) ∨
          b + 2 ^ 63 ≤ n + 8193 := by
  have hhdr : sizeofLargeHdr = 24 := rfl
  have hcases := posixMemalign_cases hm
  generalize hans : Aligned.ok q = r at hcases
  cases hcases with
  | invalid bad => cases hans
  | refused out ok call => cases hans
  | @aligned a p _ out ok call =>
      cases hans
      have hblock : s.memalignBlock t os align n = p := by
        simp only [State.memalignBlock, ok, call]
      rw [hblock]
      obtain ⟨hae, hpow⟩ := memalignAlign_eq ok
      have ha8 := memalignAlign_ge ok
      have ha := isPowerOfTwo_le hpow (by split at hae <;> omega)
      have hgrant := h.granted hos (hanon out _ ok) call
      unfold Request.NeedFits
      rw [← hae]
      refine ⟨ha, ?_, ?_⟩
      · intro hfits x h₁ h₂
        obtain ⟨hp, hext⟩ := h.alignPtr_within hos hfits hgrant call
        obtain ⟨hlo, hhi, -⟩ := alignPtr_range (by omega) hp
        exact hext x (by omega) (by omega)
      · intro b hb hin
        obtain ⟨ans, s₁, hm', hout, hsound, -⟩ := h.malloc hos hgrant
        rw [call] at hm'
        cases hm'
        obtain ⟨L, hcore⟩ := (h.ensureInit hos).core
        obtain ⟨L', hcore'⟩ := hsound.core
        have hq := (hin (State.alignPtr p a) (Nat.le_refl _) (by omega)).low
        have hlast := hin (State.alignPtr p a + b - 1) (by omega) (by omega)
        have hneed : State.memalignNeed a n < 2 ^ 64 := Nat.mod_lt _ (by omega)
        have hasked : bytesAsked (State.memalignNeed a n) < 2 ^ 64 := by
          unfold bytesAsked
          split <;> omega
        have hasked' : bytesAsked (State.memalignNeed a n) ≤ State.memalignNeed a n + 1 ∧
            State.memalignNeed a n ≤ bytesAsked (State.memalignNeed a n) := by
          unfold bytesAsked
          split <;> omega
        have hwrap : State.memalignNeed a n = n + a + 4096 ∨
            2 ^ 64 ≤ n + a + 4096 ∧ State.memalignNeed a n = n + a + 4096 - 2 ^ 64 := by
          unfold State.memalignNeed wrap64
          omega
        rcases hout.bound hcore hcore' hasked hlast with hb | ⟨hfit, hb⟩
        · exact .inl (by omega)
        · rcases hwrap with hw | ⟨hge, hw⟩
          · have hexact : bytesAsked (State.memalignNeed a n) = State.memalignNeed a n :=
              if_neg (by omega)
            exact .inr (.inl ⟨by omega, by omega⟩)
          · exact .inr (.inr (by omega))

/-- `posix_memalign` gives the requested bytes exactly when its sum does not wrap. -/
theorem Sound.memalign_inside {s s' : State} {held : List Held} (h : Sound s held) {t : Tid} {os : Os}
    (hos : os.Sane) {align n q : Nat} (halign : align < 2 ^ 64) (hn : n < 2 ^ 64)
    (hanon : s.OpNeeds AnonFresh t os (.posixMemalign false align n))
    (hm : s.posixMemalign t os false align n = .ok (.ok q, s')) :
    Inside s' (s.memalignBlock t os align n) q n ↔ Request.NeedFits align n := by
  have hhdr : sizeofLargeHdr = 24 := rfl
  obtain ⟨ha, hfit, hbad⟩ := h.memalign_spec hos halign hn hanon hm
  refine ⟨fun hin => ?_, hfit⟩
  by_contra hnot
  have hwrap : 2 ^ 64 ≤ n + (if align < 8 then 8 else align) + 4096 + sizeofLargeHdr :=
    Nat.le_of_not_lt hnot
  rcases hbad n (by omega) hin with hb | hb | hb
  · omega
  · exact hnot hb.1
  · omega

/-- `pvalloc` rounds the size up first, and that sum must not wrap either. -/
theorem Sound.pvalloc_inside {s s' : State} {held : List Held} (h : Sound s held) {t : Tid} {os : Os}
    (hos : os.Sane) {n q : Nat} (hn : n < 2 ^ 64)
    (hanon : s.OpNeeds AnonFresh t os (Request.op (.pvalloc n)))
    (hm : s.posixMemalign t os false State.pageSize
      (roundDown (wrap64 (n + State.pageSize - 1)) State.pageSize) = .ok (.ok q, s')) :
    Inside s' (s.memalignBlock t os State.pageSize
      (roundDown (wrap64 (n + State.pageSize - 1)) State.pageSize)) q n ↔
        Request.Fits (.pvalloc n) := by
  have hhdr : sizeofLargeHdr = 24 := rfl
  have hpage : State.pageSize = 4096 := rfl
  have halign : (if State.pageSize < 8 then 8 else State.pageSize) = 4096 := rfl
  have hle := roundDown_le (wrap64 (n + State.pageSize - 1)) State.pageSize
  have hlt := lt_roundDown_add (w := wrap64 (n + State.pageSize - 1)) (a := State.pageSize) (by decide)
  have hw : wrap64 (n + State.pageSize - 1) < 2 ^ 64 := Nat.mod_lt _ (by omega)
  obtain ⟨-, hfit, hbad⟩ := h.memalign_spec hos (by decide) (Nat.lt_of_le_of_lt hle hw) hanon hm
  constructor
  · intro hin
    by_contra hnot
    unfold Request.Fits at hnot
    by_cases hround : n + State.pageSize - 1 < 2 ^ 64
    · have hexact : wrap64 (n + State.pageSize - 1) = n + State.pageSize - 1 := Nat.mod_eq_of_lt hround
      rw [hexact] at hbad hle hlt hin
      have hwrap := fun hfits => hnot ⟨hround, hfits⟩
      have hge : 2 ^ 64 ≤ roundDown (n + State.pageSize - 1) State.pageSize + 4096 + 4096 + 24 :=
        Nat.le_of_not_lt hwrap
      rcases hbad n (by omega) hin with hb | hb | hb
      · omega
      · exact hwrap hb.1
      · omega
    · have hzero : wrap64 (n + State.pageSize - 1) < 4096 := by
        unfold wrap64
        omega
      rcases hbad n (by omega) hin with hb | hb | hb
      · omega
      · have := hb.2
        omega
      · omega
  · rintro ⟨hround, hfits⟩
    have hexact : wrap64 (n + State.pageSize - 1) = n + State.pageSize - 1 := Nat.mod_eq_of_lt hround
    rw [hexact] at hfit hlt ⊢
    exact fun x h₁ h₂ => hfit hfits x h₁ (by omega)

/-! ## Every request -/

theorem alignedAlloc_eq {s s' : State} {t : Tid} {os : Os} {align n q : Nat}
    (h : s.alignedAlloc t os align n = .ok (some q, s')) :
    s.posixMemalign t os false (if align ≠ 0 then align else 1) n = .ok (.ok q, s') := by
  obtain ⟨⟨r, s₁⟩, hr, h⟩ := bind_ok h
  rw [hr]
  cases r <;> cases h
  rfl

theorem run_aligned {s s' : State} {t : Tid} {os : Os} {r : Request} {q align n : Nat}
    (ha : r.aligned = some (align, n)) (h : r.run s t os = .ok (⟨some q, false⟩, s')) :
    s.posixMemalign t os false align n = .ok (.ok q, s') := by
  have hpage : (if State.pageSize ≠ 0 then State.pageSize else 1) = State.pageSize := rfl
  cases r with
  | malloc n => cases ha
  | calloc nm sz => cases ha
  | realloc p n => cases ha
  | reallocarray p nm sz => cases ha
  | posixMemalign align n =>
      cases ha
      obtain ⟨⟨r, s₁⟩, hr, h⟩ := bind_ok h
      rw [hr]
      cases r <;> cases h
      rfl
  | alignedAlloc align n =>
      cases ha
      obtain ⟨⟨r, s₁⟩, hr, h⟩ := bind_ok h
      cases h
      exact alignedAlloc_eq hr
  | valloc n =>
      cases ha
      obtain ⟨⟨r, s₁⟩, hr, h⟩ := bind_ok h
      cases h
      exact hpage ▸ alignedAlloc_eq hr
  | pvalloc n =>
      cases ha
      obtain ⟨⟨r, s₁⟩, hr, h⟩ := bind_ok h
      cases h
      exact hpage ▸ alignedAlloc_eq hr

/-- In a sound state, what a request that returned `q` is promised holds exactly
when no size computation of the request wraps. -/
theorem Sound.meets_iff {w : World} (h : Sound w.st w.held) {t : Tid} {os : Os} (hos : os.Sane)
    {r : Request} (hsize : r.IsSize) (hanon : w.st.OpNeeds AnonFresh t os r.op)
    (hlegal : w.Legal r.op) {q : Nat} {s' : State}
    (hrun : r.run w.st t os = .ok (⟨some q, false⟩, s')) : Meets w.st s' t os r q ↔ r.Fits := by
  have hhdr : sizeofLargeHdr = 24 := rfl
  have hplain : ∀ {P : Prop}, (∀ n, r ≠ .malloc n) →
      (Inside s' (r.block w.st t os q) q r.bytes ↔ P) → (Meets w.st s' t os r q ↔ P) := by
    intro P hne hiff
    refine ⟨fun hm => hiff.mp hm.inside, fun hp => ⟨hiff.mpr hp, ?_, ?_⟩⟩
    · exact fun n hn => absurd hn (hne n)
    · exact fun n hn => absurd hn (hne n)
  cases r with
  | malloc n =>
      obtain ⟨⟨p, s₁⟩, hm, hrun⟩ := bind_ok hrun
      cases hrun
      have hin := h.malloc_inside hos hanon hm
      obtain ⟨hsmall, hlarge⟩ := h.malloc_kind hos hanon hm
      refine ⟨fun hmeets => hin.mp hmeets.inside, fun hfits => ⟨hin.mpr hfits, ?_, ?_⟩⟩
      · intro m hm hle
        cases hm
        exact hsmall hle
      · intro m hm hlt
        cases hm
        exact hlarge hlt hfits
  | calloc nm sz =>
      obtain ⟨⟨p, s₁⟩, hm, hrun⟩ := bind_ok hrun
      cases hrun
      refine hplain (fun _ hne => by cases hne) ?_
      exact ⟨fun _ => .inl (h.calloc_fits hos hanon hm), fun _ => h.calloc_inside hos hanon hm⟩
  | realloc p n =>
      refine hplain (fun _ hne => by cases hne) ?_
      exact h.realloc_inside hos hanon hlegal hrun
  | reallocarray p nm sz =>
      refine hplain (fun _ hne => by cases hne) ?_
      have hrun : w.st.reallocarray t os p nm sz = .ok (⟨some q, false⟩, s') := hrun
      unfold State.reallocarray at hrun
      split at hrun
      · cases hrun
      · rename_i hsmall
        have hin := h.realloc_inside hos hanon hlegal hrun
        exact ⟨fun h => .inl (hin.mp h), fun h => hin.mpr (h.resolve_right hsmall)⟩
  | posixMemalign align n =>
      refine hplain (fun _ hne => by cases hne) ?_
      have hm : w.st.posixMemalign t os false align n = .ok (.ok q, s') := run_aligned rfl hrun
      have hin := h.memalign_inside hos hsize.1 hsize.2 hanon hm
      exact hin
  | alignedAlloc align n =>
      have halign : (if align ≠ 0 then align else 1) < 2 ^ 64 := by
        have hlt := hsize.1
        split <;> omega
      refine hplain (fun _ hne => by cases hne) ?_
      have hm : w.st.posixMemalign t os false (if align ≠ 0 then align else 1) n = .ok (.ok q, s') :=
        run_aligned rfl hrun
      have hin := h.memalign_inside hos halign hsize.2 hanon hm
      exact hin
  | valloc n =>
      refine hplain (fun _ hne => by cases hne) ?_
      have hm : w.st.posixMemalign t os false State.pageSize n = .ok (.ok q, s') :=
        run_aligned rfl hrun
      have hin := h.memalign_inside hos (by decide) hsize hanon hm
      exact hin
  | pvalloc n =>
      refine hplain (fun _ hne => by cases hne) ?_
      have hm : w.st.posixMemalign t os false State.pageSize
          (roundDown (wrap64 (n + State.pageSize - 1)) State.pageSize) = .ok (.ok q, s') :=
        run_aligned rfl hrun
      have hin := h.pvalloc_inside hos hsize hanon hm
      exact hin

/-! ## Refusals -/

def Aligned.ptr : Aligned → Option Nat
  | .ok q => some q
  | _ => none

end Memflux.Alloc
