import Memflux.Alloc.Capacity
import Memflux.Alloc.Ownership

/-! # Aligned blocks

`posix_memalign` returns an address inside the block that `malloc` gave it, while
`free` and `realloc` recognise only the starts of blocks. A held pointer keeps its
block until it is freed or resized (`Sound.held_kept`), so what these two calls do
later is decided by where the block began.
-/

namespace Memflux.Alloc

open Spans BitWords DList

/-! ## A held pointer keeps its block -/

theorem within_ensureInit {s : State} {p x : Nat} (hw : Within s p x) (os : Os) :
    Within (s.ensureInit os) p x ∧ (s.ensureInit os).mem x = s.mem x := by
  have hsame : ∀ s' : State, s'.runs = s.runs → s'.larges = s.larges → Within s' p x := by
    intro s' hr hl
    exact hw.frame (fun a r i hb _ => ⟨r, ⟨by rw [hr]; exact hb.run, hb.index, hb.bit⟩, rfl, rfl⟩)
      (fun a l h _ => by rw [hl]; exact h)
  unfold State.ensureInit State.reserveInit
  split
  · exact ⟨hw, rfl⟩
  · split
    · split <;> exact ⟨hsame _ rfl rfl, rfl⟩
    · exact ⟨hsame _ rfl rfl, rfl⟩

/-- A successful `malloc` keeps the allocated blocks and their bytes. -/
theorem Sound.malloc_kept {s s' : State} {held : List Held} (h : Sound s held) {t : Tid} {os : Os}
    (hos : os.Sane) {n : Nat} (hneeds : s.MallocNeeds Grantable t os n) {ans : Option Nat}
    (hm : s.malloc t os n = .ok (ans, s')) {p x : Nat} (hw : Within s p x) :
    Within s' p x ∧ s'.mem x = s.mem x := by
  obtain ⟨ans', s₁, hm', hout, -, -⟩ := h.malloc hos hneeds
  rw [hm] at hm'
  cases hm'
  obtain ⟨L, hcore⟩ := (h.ensureInit hos).core
  obtain ⟨hw', hmem⟩ := within_ensureInit hw os
  exact ⟨hout.keeps hcore hw', (hout.memKept hcore hw').trans hmem⟩

theorem Within.fill {s : State} {p x : Nat} (hw : Within s p x) (a n : Nat) (f : Nat → UInt8) :
    Within (s.fill a n f) p x :=
  hw.frame (fun _ r _ hb _ => ⟨r, ⟨hb.run, hb.index, hb.bit⟩, rfl, rfl⟩) (fun _ _ hl _ => hl)

/-- The step neither frees nor resizes the pointer `q`. -/
def SparesPtr (q : Nat) : Op → Prop
  | .free p => p ≠ q
  | .realloc p _ => p ≠ q
  | _ => True

theorem mem_drop {p : Nat} {e : Held} {held : List Held} (he : e ∈ held) (hne : e.ptr ≠ p) :
    e ∈ drop p held :=
  List.mem_filter.mpr ⟨he, by simpa using hne⟩

theorem mem_gain {e : Held} {held : List Held} (he : e ∈ held) (ans : Option Nat) :
    e ∈ gain ans held :=
  List.mem_append_right _ he

theorem Sound.free_spares {s s' : State} {held : List Held} (h : Sound s held) {t : Tid}
    {now : Nat → Nat} {p : Nat} (hp : p = 0 ∨ ∃ e ∈ held, e.ptr = p) {r : Freed}
    (hf : s.free t now p = .ok (r, s')) {e : Held} (he : e ∈ held) (hne : p ≠ e.ptr) {x : Nat}
    (hw : Within s e.block x) : Within s' e.block x := by
  rcases hp with rfl | ⟨e', he', rfl⟩
  · rw [State.free, if_pos rfl] at hf
    cases hf
    exact hw
  · refine h.free_keeps he' hf (fun hb => hne ?_) hw
    rw [h.eq_of_block he he' hb]

theorem Sound.realloc_spares {w : World} (h : Sound w.st w.held) {t : Tid} {os : Os} (hos : os.Sane)
    {p n : Nat} (hneeds : w.st.OpNeeds Grantable t os (.realloc p n))
    (hp : p = 0 ∨ ∃ e ∈ w.held, e.ptr = p) {r : Reply} {s' : State}
    (hm : w.st.realloc t os p n = .ok (r, s')) {e : Held} (he : e ∈ w.held) (hne : p ≠ e.ptr)
    {x : Nat} (hw : Within w.st e.block x) : Within s' e.block x := by
  have hcases := realloc_cases hm
  simp only [State.OpNeeds] at hneeds
  cases hcases with
  | fresh null call =>
      rw [if_pos null] at hneeds
      exact (h.malloc_kept hos hneeds call hw).1
  | emptied ptr zero release call =>
      rw [if_neg ptr, if_pos zero] at hneeds
      have hos' : (os.after 2).Sane := hos
      have hw₁ := h.free_spares hp release he hne hw
      exact ((h.free hp release).malloc_kept hos' (hneeds _ _ release) call hw₁).1
  | forwarded ptr size foreign => exact hw
  | inPlace ptr size own fits => exact hw
  | refused ptr size own moves call =>
      rw [if_neg ptr, if_neg size] at hneeds
      exact (h.malloc_kept hos (hneeds _ own moves) call hw).1
  | @moved old q s₁ s₂ s' f ptr size own moves call copy release =>
      rw [if_neg ptr, if_neg size] at hneeds
      obtain ⟨-, -, rfl⟩ := memcpy_ok copy
      have hw₁ := (h.malloc_kept hos (hneeds _ own moves) call hw).1
      have hs₂ := (h.mallocOk hos (hneeds _ own moves) call).fill q (min old n)
        fun x => s₁.mem (p + (x - q))
      obtain ⟨e', he', rfl⟩ := hp.resolve_left ptr
      exact hs₂.free_spares (.inr ⟨e', mem_gain he' _, rfl⟩) release (mem_gain he _) hne
        (hw₁.fill _ _ _)

/-- One step that spares the pointer keeps it held, and its block where it is. -/
theorem Sound.held_kept {w w' : World} (h : Sound w.st w.held) {t : Tid} {os : Os} {op : Op}
    (hok : w.Clean t os op) {e : Held} (he : e ∈ w.held) (hop : SparesPtr e.ptr op)
    {ans : Option Nat} (hx : w.exec t os op = .ok (ans, w')) :
    e ∈ w'.held ∧ ∀ x, Within w.st e.block x → Within w'.st e.block x := by
  obtain ⟨hos, hneeds, hsize, hlegal⟩ := hok
  obtain ⟨⟨ans', s'⟩, hexec, hw⟩ := bind_ok hx
  cases hw
  cases op with
  | malloc n => exact ⟨mem_gain he _, fun x hw => (h.malloc_kept hos hneeds hexec hw).1⟩
  | calloc nm sz =>
      refine ⟨mem_gain he _, fun x hw => ?_⟩
      have hcases := calloc_cases hexec
      cases hcases with
      | overflow big => exact hw
      | refused size call => exact (h.malloc_kept hos (hneeds size) call hw).1
      | zeroed size call mapped => exact ((h.malloc_kept hos (hneeds size) call hw).1).fill _ _ _
  | realloc p n =>
      obtain ⟨⟨r, s₁⟩, h₁, h₂⟩ := bind_ok hexec
      cases h₂
      refine ⟨?_, fun x hw => h.realloc_spares hos hneeds hlegal h₁ he hop hw⟩
      show e ∈ if p = 0 then _ else if n = 0 then _ else if _ then _ else _
      have hd := mem_drop he (Ne.symm hop)
      split
      · exact mem_gain he _
      · split
        · exact mem_gain hd _
        · split
          · exact hd
          · split
            · exact he
            · exact mem_gain hd _
  | posixMemalign outNull align n =>
      refine ⟨List.mem_append_right _ he, fun x hw => ?_⟩
      obtain ⟨⟨r, s₁⟩, h₁, h₂⟩ := bind_ok hexec
      have hcases := posixMemalign_cases h₁
      cases hcases with
      | invalid bad =>
          cases h₂
          exact hw
      | refused out ok call =>
          cases h₂
          exact (h.malloc_kept hos (hneeds out _ ok) call hw).1
      | aligned out ok call =>
          cases h₂
          exact (h.malloc_kept hos (hneeds out _ ok) call hw).1
  | free p =>
      obtain ⟨⟨r, s₁⟩, h₁, h₂⟩ := bind_ok hexec
      cases h₂
      exact ⟨mem_drop he (Ne.symm hop), fun x hw => h.free_spares hlegal h₁ he hop hw⟩
  | trim clock =>
      obtain ⟨s₁, h₁, h₂⟩ := bind_ok hexec
      cases h₂
      obtain ⟨L, hcore⟩ := h.core
      exact ⟨he, fun x hw => (h.trim h₁).2.keeps hcore hw⟩
  | write mem =>
      cases hexec
      exact ⟨he, fun x hw => hw.frame
        (fun _ r _ hb _ => ⟨r, ⟨hb.run, hb.index, hb.bit⟩, rfl, rfl⟩) (fun _ _ hl _ => hl)⟩

/-- The steps of the histories in which the pointer `q` stays held. -/
def Sparing (q : Nat) (w : World) (t : Tid) (os : Os) (op : Op) : Prop :=
  w.Clean t os op ∧ SparesPtr q op

theorem Sound.sparing {w w' : World} (h : Sound w.st w.held) {e : Held} (he : e ∈ w.held)
    (hr : w.Reaches (Sparing e.ptr) w') :
    Sound w'.st w'.held ∧ e ∈ w'.held ∧ ∀ x, Within w.st e.block x → Within w'.st e.block x := by
  induction hr with
  | refl => exact ⟨h, he, fun _ hw => hw⟩
  | step t os op ans _ hok hx ih =>
      obtain ⟨hs, he', hkeep⟩ := ih
      obtain ⟨he'', hkeep'⟩ := hs.held_kept hok.1 he' hok.2 hx
      exact ⟨hs.exec hok.1 hx, he'', fun x hw => hkeep' x (hkeep x hw)⟩

/-! ## What `free` and `realloc` do with the start of a block -/

theorem Core.within_small {s : State} {L : Nat → List Nat} (h : Core s L) {a i : Nat} {r : Run}
    (hb : SmallBlock s a r i) {x : Nat} (hw : Within s (blockAddr a r i) x) :
    x < blockAddr a r i + r.elem := by
  generalize hp : blockAddr a r i = p at hw
  cases hw with
  | @small a' r' i' block start low high =>
      subst hp
      obtain rfl := h.block_unique hb block start
      have hr := hb.run
      rw [block.run] at hr
      cases hr
      exact high
  | large header start low high => exact absurd (hp.trans start) (h.small_not_large hb header)

theorem Core.within_large {s : State} {L : Nat → List Nat} (h : Core s L) {a : Nat} {l : LargeHdr}
    (hl : s.larges a = some l) {x : Nat} (hw : Within s (a + sizeofLargeHdr) x) :
    x < a + l.mapSize := by
  generalize hp : a + sizeofLargeHdr = p at hw
  cases hw with
  | small block start low high => exact absurd (start.symm.trans hp.symm) (h.small_not_large block hl)
  | large header start low high =>
      obtain rfl : a = _ := Nat.add_right_cancel (hp.trans start)
      rw [hl] at header
      cases header
      exact high

theorem Core.inside_readable {s : State} {L : Nat → List Nat} (h : Core s L) {p q n : Nat}
    (hn : 0 < n) (hin : Inside s p q n) : s.readable q n = true := by
  have hlast := hin (q + n - 1) (by omega) (by omega)
  have hfirst := hin q (Nat.le_refl _) (by omega)
  refine State.readable_iff.mpr ?_
  cases hfirst with
  | @small a r i block start low high =>
      subst start
      have hend := h.within_small block hlast
      have hrange := (h.run a r block.run).block_range block.index a
      obtain ⟨g, hg, rfl, hsize⟩ := h.maps.ofRun a r block.run
      have hstop : g.stop = g.base + g.size := rfl
      exact ⟨g, hg, by omega, by omega⟩
  | @large a l header start low high =>
      subst start
      have hend := h.within_large header hlast
      obtain ⟨-, g, hg, rfl, hsize⟩ := h.maps.ofLarge a l header
      have hstop : g.stop = g.base + g.size := rfl
      exact ⟨g, hg, by omega, by omega⟩

theorem Core.given_gone {s : State} {L : Nat → List Nat} (h : Core s L) {a i : Nat} {r : Run}
    (hb : SmallBlock s a r i) (now : Nat → Nat) (x : Nat) :
    ¬ Within (s.afterGive a r i now) (blockAddr a r i) x := by
  obtain ⟨-, hcore⟩ := runGive_spec h hb.run hb.index hb.bit now
  have hok := h.run a r hb.run
  have hbit : bitAt (r.given i (now 0) (now 1)).bits i = true := by
    rw [given_bits hok hb.index]
    simp
  intro hw
  exact hcore.not_within_free (put_same _ _ _) hb.index hbit (Nat.le_refl _)
    (Nat.lt_add_of_pos_right hok.elem_pos) (hcore.within_self hw)

/-- What `realloc` leaves behind after copying `k` bytes from `p` to `q`. -/
def State.copied (s : State) (q p k : Nat) : State := s.fill q k fun x => s.mem (p + (x - q))

theorem copied_mem (s : State) {q p k j : Nat} (hj : j < k) :
    (s.copied q p k).mem (q + j) = s.mem (p + j) := by
  have hin : q ≤ q + j ∧ q + j < q + k := by omega
  refine (if_pos hin).trans ?_
  rw [Nat.add_sub_cancel_left]

theorem copied_mem_outside (s : State) {q p k x : Nat} (hx : ¬ (q ≤ x ∧ x < q + k)) :
    (s.copied q p k).mem x = s.mem x :=
  if_neg hx

/-- A recognised block of a run that a `realloc` moves: the copy stays inside both
blocks, and afterwards the old block is recognised again and given back. -/
theorem Sound.reallocMove_small {w : World} (h : Sound w.st w.held) (h0 : w.st.resStart ≠ 0)
    {a i : Nat} {r : Run} (hb : SmallBlock w.st a r i) (hlow : blockOffset r i < kRunSize)
    {t : Tid} {os : Os} (hos : os.Sane) {m q : Nat} (hpos : 0 < m) (hm : m + sizeofLargeHdr < 2 ^ 64)
    (hneeds : w.st.MallocNeeds Grantable t os m) {s₁ : State}
    (hcall : w.st.malloc t os m = .ok (some q, s₁)) :
    ∃ r₁, SmallBlock (s₁.copied q (blockAddr a r i) (min r.elem m)) a r₁ i ∧
      blockAddr a r₁ i = blockAddr a r i ∧
      w.st.reallocMove t os (blockAddr a r i) r.elem m =
        .ok (⟨some q, false⟩, (s₁.copied q (blockAddr a r i) (min r.elem m)).afterGive a r₁ i
          (os.after 2).now) := by
  obtain ⟨L, hcore⟩ := h.core
  have hrun := hcore.run a r hb.run
  obtain ⟨ans, s₁', hcall', hout, hsound₁, -⟩ := h.malloc hos hneeds
  rw [hcall] at hcall'
  cases hcall'
  have hready : w.st.ready = true := by
    by_contra hr
    exact h0 (h.ledger.unready (by simpa using hr)).1
  rw [ensureInit_of_ready hready] at hout
  obtain ⟨L₁, hcore₁⟩ := hsound₁.core
  have hcopied : 0 < min r.elem m := by
    have helem := hrun.elem_pos
    omega
  -- both ends of the copy are inside their blocks
  have hsrc : s₁.readable (blockAddr a r i) (min r.elem m) = true :=
    hcore₁.inside_readable hcopied fun x h₁ h₂ =>
      (h.malloc_kept hos hneeds hcall (.small hb rfl h₁ (by omega))).1
  have hnew := (h.malloc_inside hos (hneeds.mono fun _ _ _ _ hg => hg.2) hcall).mpr hm
  have hdst : s₁.readable q (min r.elem m) = true :=
    hcore₁.inside_readable hcopied fun x h₁ h₂ => hnew x h₁ (by omega)
  have hcopy : s₁.memcpy q (blockAddr a r i) (min r.elem m) =
      .ok (s₁.copied q (blockAddr a r i) (min r.elem m)) := by
    simp [State.memcpy, State.copied, hsrc, hdst]
  -- the old block is recognised again and given back
  obtain ⟨r₁, hb₁, helems, helem⟩ := hout.smallKept hcore hb
  have haddr : blockAddr a r₁ i = blockAddr a r i := by
    rw [blockAddr, blockAddr, runData, runData, helems, helem]
  have hlow₁ : blockOffset r₁ i < kRunSize := by
    unfold blockOffset at hlow ⊢
    rw [helems, helem]
    exact hlow
  have hsound₂ : Sound (s₁.copied q (blockAddr a r i) (min r.elem m)) w.held := hsound₁.fill _ _ _
  have hb₂ : SmallBlock (s₁.copied q (blockAddr a r i) (min r.elem m)) a r₁ i :=
    ⟨hb₁.run, hb₁.index, hb₁.bit⟩
  have hstart₂ : (s₁.copied q (blockAddr a r i) (min r.elem m)).resStart ≠ 0 := by
    have hstart := hout.reservation.2.1
    show s₁.resStart ≠ 0
    rw [hstart]
    exact h0
  obtain ⟨L₂, hcore₂⟩ := hsound₂.core
  have hres₂ := hsound₂.ledger.reserved hstart₂
  obtain ⟨hbase₂, hours₂⟩ := hcore₂.recognised hres₂ hb₂ hlow₁
  have hin₂ := hcore₂.inReserve hres₂ (.small hb₂ rfl (Nat.le_refl _)
    (Nat.lt_add_of_pos_right (hcore₂.run a r₁ hb₂.run).elem_pos))
  have hf := hcore₂.free_small hb₂ hin₂ (t := t) (by rw [hsound₂.caches]) (os.after 2).now hbase₂
    hours₂
  rw [haddr] at hf
  refine ⟨r₁, hb₂, haddr, ?_⟩
  simp only [State.reallocMove, hcall, hcopy, hf, bind, Except.bind]

/-- `realloc` finds the size of the class of a recognised block of a run. -/
theorem Core.oldSize_small {s : State} {L : Nat → List Nat} (h : Core s L) (hres : Reserved s)
    (h0 : s.resStart ≠ 0) {a i : Nat} {r : Run} (hb : SmallBlock s a r i)
    (hlow : blockOffset r i < kRunSize) :
    blockAddr a r i ≠ 0 ∧ s.oldSize (blockAddr a r i) = .ok (some r.elem) := by
  have hrun := h.run a r hb.run
  obtain ⟨hbase, hours⟩ := h.recognised hres hb hlow
  have hin := h.inReserve hres (.small hb rfl (Nat.le_refl _) (Nat.lt_add_of_pos_right hrun.elem_pos))
  constructor
  · have hrange := hrun.block_range hb.index a
    have hhdr : sizeofRun = 56 := rfl
    omega
  · simp only [State.oldSize, h0, hin, hours, hbase, hb.run, ne_eq, not_false_eq_true, and_self,
      if_true, bind, Except.bind]

theorem realloc_inPlace {s : State} {t : Tid} {os : Os} {p n old : Nat} (hp : p ≠ 0) (hn : n ≠ 0)
    (hold : s.oldSize p = .ok (some old)) (hfits : n ≤ old ∧ old < kLargeMin ∧ old / 2 < n) :
    s.realloc t os p n = .ok (⟨some p, false⟩, s) := by
  rw [State.realloc, if_neg hp, if_neg hn, hold]
  exact if_pos hfits

/-- `realloc` of a recognised block of a run: it is never handed to libc, and the
bytes that fit are copied. -/
theorem Sound.realloc_recognised {w : World} (h : Sound w.st w.held) (h0 : w.st.resStart ≠ 0)
    {a i : Nat} {r : Run} (hb : SmallBlock w.st a r i) (hlow : blockOffset r i < kRunSize)
    {t : Tid} {os : Os} {m : Nat} (hok : w.Clean t os (.realloc (blockAddr a r i) m))
    (hm : m + sizeofLargeHdr < 2 ^ 64) :
    ∃ ans s', w.st.realloc t os (blockAddr a r i) m = .ok (⟨ans, false⟩, s') ∧
      ∀ q, ans = some q → ∀ j, j < min r.elem m → s'.mem (q + j) = w.st.mem (blockAddr a r i + j) := by
  obtain ⟨hos, hneeds, -, hlegal⟩ := hok
  obtain ⟨L, hcore⟩ := h.core
  have hres := h.ledger.reserved h0
  obtain ⟨hp, hold⟩ := hcore.oldSize_small hres h0 hb hlow
  simp only [State.OpNeeds, if_neg hp] at hneeds
  by_cases hm0 : m = 0
  · -- freed, then one byte is asked for
    obtain ⟨hbase, hours⟩ := hcore.recognised hres hb hlow
    have hin := hcore.inReserve hres (.small hb rfl (Nat.le_refl _)
      (Nat.lt_add_of_pos_right (hcore.run a r hb.run).elem_pos))
    have hf := hcore.free_small hb hin (t := t) (by rw [h.caches]) os.now hbase hours
    rw [if_pos hm0] at hneeds
    have hos' : (os.after 2).Sane := hos
    obtain ⟨ans, s', hcall, -⟩ := (h.free hlegal hf).malloc hos' (hneeds _ _ hf)
    refine ⟨ans, s', ?_, fun q _ j hj => absurd hj (by omega)⟩
    simp only [State.realloc, hp, hm0, if_false, if_true, hf, hcall, bind, Except.bind]
  rw [if_neg hm0] at hneeds
  by_cases hfits : m ≤ r.elem ∧ r.elem < kLargeMin ∧ r.elem / 2 < m
  · refine ⟨some (blockAddr a r i), w.st, realloc_inPlace hp hm0 hold hfits, ?_⟩
    rintro q ⟨⟩ j -
    rfl
  have hmoves : w.st.realloc t os (blockAddr a r i) m =
      w.st.reallocMove t os (blockAddr a r i) r.elem m := by
    simp only [State.realloc, hp, hm0, if_false, hold, if_neg hfits, bind, Except.bind]
  obtain ⟨ans, s₁, hcall, -⟩ := h.malloc hos (hneeds _ hold hfits)
  rw [hmoves]
  cases ans with
  | none =>
      refine ⟨none, s₁, ?_, fun q hq => by cases hq⟩
      simp only [State.reallocMove, hcall, bind, Except.bind]
  | some q =>
      obtain ⟨r₁, -, -, hmove⟩ := h.reallocMove_small h0 hb hlow hos (Nat.pos_of_ne_zero hm0) hm
        (hneeds _ hold hfits) hcall
      refine ⟨some q, _, hmove, ?_⟩
      rintro _ ⟨⟩ j hj
      have hcopied := copied_mem s₁ (q := q) (p := blockAddr a r i) hj
      have hkept := (h.malloc_kept hos (hneeds _ hold hfits) hcall
        (.small hb rfl (Nat.le_add_right _ j) (by omega))).2
      exact hcopied.trans hkept

/-! ## Aligned pointers -/

/-- What is promised of `q`, obtained for `n` bytes at a multiple of `align` in the
block at `p`, when it is freed or resized to `m` bytes. -/
structure Usable (s : State) (p q align n : Nat) (t : Tid) (os : Os) (m : Nat) : Prop where
  aligned : ∀ k, align = 2 ^ k → 2 ^ k ∣ q
  freed : ∃ f s', s.free t os.now q = .ok (f, s') ∧ (f = .small ∨ f = .large) ∧
    ∀ x, ¬ Within s' p x
  resized : ∃ ans s', s.realloc t os q m = .ok (⟨ans, false⟩, s') ∧
    ∀ q', ans = some q' → ∀ j, j < min n m → s'.mem (q' + j) = s.mem (q + j)

/-- The block at `p` is a block of a run in the reservation, and its place in the
run is a multiple of the alignment and in the first 2 MiB. -/
def StartsAligned (s : State) (p align : Nat) : Prop :=
  s.resStart ≠ 0 ∧ ∃ a r i, SmallBlock s a r i ∧ p = blockAddr a r i ∧
    p % (if align < 8 then 8 else align) = 0 ∧ blockOffset r i < kRunSize

/-- The alignment that `posix_memalign` enforces is a multiple of the one asked for. -/
theorem memalignAlign_dvd {align a k : Nat} (h : State.memalignAlign align = some a)
    (hk : align = 2 ^ k) : 2 ^ k ∣ a := by
  obtain ⟨ha, -⟩ := memalignAlign_eq h
  by_cases hlt : align < 8
  · rw [if_pos hlt] at ha
    have hk3 : k ≤ 3 := by
      by_contra hgt
      have hpow := Nat.pow_le_pow_right (show 0 < 2 by omega) (show 4 ≤ k by omega)
      omega
    rw [ha]
    exact Nat.pow_dvd_pow 2 hk3
  · rw [if_neg hlt] at ha
    rw [ha, hk]

theorem Sound.freed_start {s s' : State} {held : List Held} (h : Sound s held) {e : Held}
    (he : e ∈ held) {t : Tid} {now : Nat → Nat} {f : Freed}
    (hf : s.free t now e.ptr = .ok (f, s')) (hkind : f = .small ∨ f = .large) :
    s.resStart ≠ 0 ∧ ∃ a r i, SmallBlock s a r i ∧ e.ptr = blockAddr a r i ∧
      blockOffset r i < kRunSize := by
  obtain ⟨L, hcore⟩ := h.core
  have hcases := free_cases hcore (by rw [h.caches]) (h.blocks e he) hf
  have h0 : s.resStart ≠ 0 := by
    intro h0
    have hin : s.inReserve e.ptr = false := by
      have h1 := h.ledger.closed h0
      simp [State.inReserve, h0, h1]
    rw [State.free] at hf
    split at hf
    · cases hf
      rcases hkind with hk | hk <;> cases hk
    · rw [if_neg (fun hout => hout.1 h0), if_neg (by simp [hin])] at hf
      cases hf
      rcases hkind with hk | hk <;> cases hk
  refine ⟨h0, ?_⟩
  cases hcases with
  | kept how =>
      rcases how with rfl | rfl | rfl <;> rcases hkind with hk | hk <;> cases hk
  | @given a i r block start base =>
      refine ⟨a, r, i, block, start, ?_⟩
      have hlt := lt_roundDown_add (w := e.ptr) (a := kRunSize) (by decide)
      have base : roundDown e.ptr kRunSize = a := base
      rw [base, start, blockAddr_offset] at hlt
      omega

theorem op_aligned {r : Request} {align n : Nat} (ha : r.aligned = some (align, n)) :
    r.op = .posixMemalign false align n := by
  cases r <;> cases ha <;> rfl

/-- An aligned request that returned `q`: its step in the history, how `q` was
computed, and that the bytes asked for are in the block. -/
theorem Sound.aligned_call {w : World} (h : Sound w.st w.held) {t : Tid} {os : Os} {r : Request}
    {align n : Nat} (ha : r.aligned = some (align, n)) (hsize : r.IsSize) (hfits : r.Fits)
    (hok : w.Clean t os r.op) {q : Nat} {s' : State}
    (hrun : r.run w.st t os = .ok (⟨some q, false⟩, s')) :
    Sound s' (⟨q, r.block w.st t os q⟩ :: w.held) ∧ Inside s' (r.block w.st t os q) q r.bytes ∧
      ∃ a, State.memalignAlign align = some a ∧ q = State.alignPtr (r.block w.st t os q) a ∧
        r.block w.st t os q + a - 1 < 2 ^ 64 := by
  have hm := run_aligned ha hrun
  have hblock : r.block w.st t os q = w.st.memalignBlock t os align n := by
    simp only [Request.block, ha]
  have hexec : w.exec t os r.op = .ok (some q, ⟨s', ⟨q, r.block w.st t os q⟩ :: w.held⟩) := by
    rw [hblock, op_aligned ha]
    simp only [World.exec, State.exec, hm, bind, Except.bind]
    rfl
  have hsound := h.exec hok hexec
  obtain ⟨hos, hneeds, hsum, hlegal⟩ := hok
  have hinside := ((h.meets_iff hos hsize (hneeds.mono fun _ _ _ _ hg => hg.2) hlegal hrun).mpr
    hfits).inside
  refine ⟨hsound, hinside, ?_⟩
  rw [op_aligned ha] at hneeds hsum
  have hcases := posixMemalign_cases hm
  generalize hans : Aligned.ok q = ans at hcases
  cases hcases with
  | invalid bad => cases hans
  | refused out ok call => cases hans
  | @aligned a p _ out ok call =>
      cases hans
      have hp : r.block w.st t os (State.alignPtr p a) = p := by
        rw [hblock]
        simp only [State.memalignBlock, ok, call]
      rw [hp]
      exact ⟨a, ok, rfl, (h.alignPtr_within hos (hsum a ok) (hneeds out a ok) call).1⟩

/-- In every history, and at every later moment while `q` is held: a pointer `q`
that one of the aligned requests returned is aligned, can be freed and can be
resized with its bytes, exactly when the block under it starts at a multiple of the
alignment and is a block of a run that starts in the first 2 MiB of the run. -/
theorem aligned_usable_iff {runIdle dirtyIdle : Nat} {w : World}
    (hreach : (World.init runIdle dirtyIdle).Reaches World.Clean w) {t : Tid} {os : Os} {r : Request}
    {align n : Nat} (ha : r.aligned = some (align, n)) (hsize : r.IsSize) (hfits : r.Fits)
    (hok : w.Clean t os r.op) {q : Nat} {s' : State}
    (hrun : r.run w.st t os = .ok (⟨some q, false⟩, s')) {w₂ : World}
    (hlater : World.Reaches (Sparing q) ⟨s', ⟨q, r.block w.st t os q⟩ :: w.held⟩ w₂) {t₂ : Tid}
    {os₂ : Os} {m : Nat} (hok₂ : w₂.Clean t₂ os₂ (.realloc q m)) (hm : m + sizeofLargeHdr < 2 ^ 64) :
    Usable w₂.st (r.block w.st t os q) q align r.bytes t₂ os₂ m ↔
      StartsAligned w₂.st (r.block w.st t os q) align := by
  have hsound : Sound w.st w.held := (init_sound runIdle dirtyIdle).reaches hreach
  obtain ⟨hs', hinside, a, hae, hq, hfit⟩ := hsound.aligned_call ha hsize hfits hok hrun
  generalize r.block w.st t os q = p at *
  obtain ⟨hs₂, hheld, hkept⟩ := Sound.sparing (w := ⟨s', ⟨q, p⟩ :: w.held⟩) (e := ⟨q, p⟩) hs'
    List.mem_cons_self hlater
  have ha8 := memalignAlign_ge hae
  obtain ⟨hlo, -, hmod⟩ := alignPtr_range (by omega) hfit
  rw [← hq] at hlo hmod
  obtain ⟨L, hcore⟩ := hs₂.core
  unfold StartsAligned
  rw [← (memalignAlign_eq hae).1]
  constructor
  · rintro ⟨-, ⟨f, s₃, hf, hkind, -⟩, -⟩
    obtain ⟨h0, b, run, i, hb, hstart, hlow⟩ := hs₂.freed_start hheld hf hkind
    have hstart : q = blockAddr b run i := hstart
    have hself : Within w₂.st (blockAddr b run i) q :=
      .small hb rfl (Nat.le_of_eq hstart.symm)
        (by rw [hstart]; exact Nat.lt_add_of_pos_right (hcore.run b run hb.run).elem_pos)
    have hp : p = blockAddr b run i := hcore.within_unique (hs₂.blocks _ hheld) hself
    exact ⟨h0, b, run, i, hb, hp, by rw [hp, ← hstart]; exact hmod, hlow⟩
  · rintro ⟨h0, b, run, i, hb, hp, hpmod, hlow⟩
    -- an aligned start is not moved
    have hqp : q = p := by
      rw [hq, State.alignPtr, wrap64, Nat.mod_eq_of_lt hfit]
      exact roundDown_of_mod hpmod (by omega) (by omega)
    subst hqp
    have hres := hs₂.ledger.reserved h0
    obtain ⟨hbase, hours⟩ := hcore.recognised hres hb hlow
    have helem := (hcore.run b run hb.run).elem_pos
    have hself : Within w₂.st (blockAddr b run i) (blockAddr b run i) :=
      .small hb rfl (Nat.le_refl _) (Nat.lt_add_of_pos_right helem)
    have hf := hcore.free_small hb (hcore.inReserve hres hself) (t := t₂) (by rw [hs₂.caches]) os₂.now
      hbase hours
    have hbytes : r.bytes ≤ run.elem := by
      by_contra hgt
      have hlast := hkept (q + r.bytes - 1) (hinside _ (by omega) (by omega))
      have hlast : Within w₂.st q (q + r.bytes - 1) := hlast
      rw [hp] at hlast
      have hend := hcore.within_small hb hlast
      omega
    obtain ⟨ans, s₃, hcall, hcopy⟩ := hs₂.realloc_recognised h0 hb hlow (hp ▸ hok₂) hm
    rw [← hp] at hf hcall hcopy
    refine ⟨fun k hk => (memalignAlign_dvd hae hk).trans (Nat.dvd_of_mod_eq_zero hpmod),
      ⟨_, _, hf, .inl rfl, fun x => hp ▸ hcore.given_gone hb os₂.now x⟩,
      ans, s₃, hcall, fun q' hq' j hj => hcopy q' hq' j (by omega)⟩

/-- The first block of a run is page-aligned, so 100 bytes at a multiple of 64 begin where
the block begins. After another thread got a large block, they can still be moved to a
block of 300 bytes. -/
theorem aligned_usable_moved :
    ∃ w : World, w.held.map Held.ptr = [1080573976, 1077940224, 1073754112] ∧
      Usable w.st 1077940224 1077940224 64 100 0 (Os.granting (2 ^ 30) 1) 300 := by
  let os := Os.granting (2 ^ 30) 1
  let q := 1077940224
  have hplay : ∃ w, (World.init 0 0).Reaches World.Clean w ∧
      (w.cleanTest 0 os (.posixMemalign false 64 100) &&
        decide (w.st.memalignBlock 0 os 64 100 = q) &&
        (Request.run w.st 0 os (.posixMemalign 64 100)).toOption.any fun e =>
          decide (e.1.ptr = some q ∧ e.1.byLibc = false) &&
            World.playTest ⟨e.2, ⟨q, q⟩ :: w.held⟩ (fun w₂ =>
              decide (w₂.held.map Held.ptr = [1080573976, q, 1073754112] ∧
                  ⟨q, q⟩ ∈ w₂.held ∧ w₂.st.resStart ≠ 0) &&
                ((w₂.st.runs 1077936128).any fun r =>
                  decide (0 < r.elems ∧ bitAt r.bits 0 = false ∧ blockAddr 1077936128 r 0 = q ∧
                    blockOffset r 0 < kRunSize)) &&
                w₂.st.askTest 0 os 300) [(1, os, .malloc 3145728)]) = true :=
    World.Reaches.refl.play (l := [(1, os, .malloc 8)]) (by decide +kernel)
  obtain ⟨w, hreach, htest⟩ := hplay
  obtain ⟨htest, hcall⟩ := Bool.and_eq_true_iff.mp htest
  obtain ⟨hclean, hblock⟩ := Bool.and_eq_true_iff.mp htest
  obtain ⟨⟨⟨ans, fwd⟩, s⟩, hrun, hcall⟩ := World.ok_of_any hcall
  obtain ⟨hans, hlater⟩ := Bool.and_eq_true_iff.mp hcall
  obtain ⟨rfl, rfl⟩ := of_decide_eq_true hans
  have hwhole : Request.block w.st 0 os (.posixMemalign 64 100) q = q := of_decide_eq_true hblock
  have hspares : ∀ e ∈ [((1 : Tid), os, Op.malloc 3145728)], ∀ w₁ : World,
      w₁.cleanTest e.1 e.2.1 e.2.2 = true → Sparing q w₁ e.1 e.2.1 e.2.2 := by
    intro e he w₁ hclean
    obtain rfl := List.mem_singleton.mp he
    exact ⟨World.cleanTest_clean hclean, trivial⟩
  obtain ⟨w₂, hlater, htest⟩ := World.Reaches.refl.playAll hlater hspares
  obtain ⟨htest, hask⟩ := Bool.and_eq_true_iff.mp htest
  obtain ⟨hstate, hany⟩ := Bool.and_eq_true_iff.mp htest
  obtain ⟨hptrs, hheld, hstart⟩ := of_decide_eq_true hstate
  obtain ⟨r, hr, hheader⟩ := (Option.any_eq_true _ _).mp hany
  obtain ⟨hi, hbit, haddr, hlow⟩ := of_decide_eq_true hheader
  have hneeds := World.askTest_needs hask
  have hrealloc : w₂.Clean 0 os (.realloc q 300) :=
    ⟨granting_sane 1, fun _ _ _ => hneeds, trivial, .inr ⟨_, hheld, rfl⟩⟩
  have hsize : (Request.posixMemalign 64 100).IsSize := by
    unfold Request.IsSize
    omega
  have hfits : (Request.posixMemalign 64 100).Fits := by
    unfold Request.Fits Request.NeedFits sizeofLargeHdr
    decide
  have hlater : World.Reaches (Sparing q) ⟨s, ⟨q, Request.block w.st 0 os (.posixMemalign 64 100) q⟩ ::
      w.held⟩ w₂ := by
    rw [hwhole]
    exact hlater
  have hiff := aligned_usable_iff hreach rfl hsize hfits (World.cleanTest_clean hclean) hrun hlater
    hrealloc (by decide)
  rw [hwhole] at hiff
  exact ⟨w₂, hptrs, hiff.mpr ⟨hstart, 1077936128, r, 0, ⟨hr, hi, hbit⟩, haddr.symm, by decide, hlow⟩⟩

/-- 100 bytes at a multiple of 8192 begin one page into the first block: `free`
ignores the pointer and `realloc` hands it to libc. -/
theorem aligned_ignored :
    ∃ w, (World.init 0 0).Reaches World.Clean w ∧ ⟨1073750016, 1073745920⟩ ∈ w.held ∧
      (∃ s', w.st.free 0 (fun _ => 2) 1073750016 = .ok (.ignored, s')) ∧
      ∃ ans s', w.st.realloc 0 (Os.granting (2 ^ 30) 1) 1073750016 200 = .ok (⟨ans, true⟩, s') := by
  have hplay : ∃ w, (World.init 0 0).Reaches World.Clean w ∧
      (decide (⟨1073750016, 1073745920⟩ ∈ w.held) &&
        ((w.st.free 0 (fun _ => 2) 1073750016).toOption.any fun e => decide (e.1 = .ignored)) &&
        (w.st.realloc 0 (Os.granting (2 ^ 30) 1) 1073750016 200).toOption.any
          fun e => e.1.byLibc) = true :=
    World.Reaches.refl.play
      (l := [(0, Os.granting (2 ^ 30) 1, .posixMemalign false 8192 100)]) (by decide +kernel)
  obtain ⟨w, hreach, htest⟩ := hplay
  obtain ⟨htest, hrealloc⟩ := Bool.and_eq_true_iff.mp htest
  obtain ⟨hheld, hfree⟩ := Bool.and_eq_true_iff.mp htest
  obtain ⟨⟨kind, s₁⟩, hf, hkind⟩ := World.ok_of_any hfree
  obtain ⟨⟨⟨ans, fwd⟩, s₂⟩, hr, hfwd⟩ := World.ok_of_any hrealloc
  obtain rfl : kind = .ignored := of_decide_eq_true hkind
  obtain rfl : fwd = true := hfwd
  exact ⟨w, hreach, of_decide_eq_true hheld, ⟨s₁, hf⟩, ans, s₂, hr⟩

end Memflux.Alloc
