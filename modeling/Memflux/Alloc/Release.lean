import Memflux.Alloc.Ownership

/-! # Releasing mappings

The counters of mapped and released bytes balance the live mappings after every
step, since both sides of each pair compute the same length. The releases differ:
`purge_run` reads what it needs before it unmaps a run, `free` reads the length of
a large block again from the header it has just unmapped.
-/

namespace Memflux.Alloc

open Spans BitWords DList

/-! ## The balance -/

/-- `g_mapped - g_freed_to_os` is the length of the live mappings. -/
def Balanced (s : State) : Prop := s.mapped = s.freedToOs + total s.maps

theorem Balanced.congr {s s' : State} (h : Balanced s) (hm : s'.mapped = s.mapped)
    (hf : s'.freedToOs = s.freedToOs) (hg : s'.maps = s.maps) : Balanced s' := by
  unfold Balanced
  rw [hm, hf, hg]
  exact h

theorem Balanced.ensureInit {s : State} (h : Balanced s) (os : Os) : Balanced (s.ensureInit os) := by
  unfold State.ensureInit State.reserveInit
  split
  · exact h
  · split
    · split <;> exact h
    · exact h

theorem Balanced.malloced {s s' : State} (h : Balanced s) {t : Tid} {os : Os} {n : Nat}
    {ans : Option Nat} (hm : Malloced s t os n ans s') : Balanced s' := by
  unfold Balanced at h ⊢
  cases hm with
  | failed asks refused => exact h
  | taken size room run cls free => exact h
  | @large a al b size fresh =>
      show s.mapped + largeMap n = s.freedToOs + total (⟨a, largeMap n, al⟩ :: s.maps)
      rw [total_cons]
      dsimp only
      omega
  | @grown a al b runs l r size full fresh links run ok cls free =>
      show s.mapped + runMap (classOf n - 1) =
        s.freedToOs + total (⟨a, runMap (classOf n - 1), al⟩ :: s.maps)
      rw [total_cons]
      dsimp only
      omega

theorem Balanced.freed {s s' : State} (h : Balanced s) {now : Nat → Nat} {p : Nat} {r : Freed}
    (hf : FreedAs s now p r s') : Balanced s' := by
  cases hf with
  | kept how => exact h
  | given block start base => exact h

theorem Balanced.trims {s s' : State} (h : Balanced s) (ht : Trims s s') : Balanced s' := by
  have hmapped : s'.mapped = s.mapped := by
    have hf := congrArg State.mapped ht.fixed
    exact hf
  have hbal := ht.balance
  unfold Balanced at h ⊢
  omega

theorem Balanced.malloc {s s' : State} {held : List Held} (h : Balanced s) (hs : Sound s held)
    {t : Tid} {os : Os} (hos : os.Sane) {n : Nat} (hneeds : s.MallocNeeds Grantable t os n)
    {ans : Option Nat} (hm : s.malloc t os n = .ok (ans, s')) : Balanced s' := by
  obtain ⟨ans', s₁, hm', hout, -, -⟩ := hs.malloc hos hneeds
  rw [hm] at hm'
  cases hm'
  exact (h.ensureInit os).malloced hout

theorem Balanced.free {s s' : State} {held : List Held} (h : Balanced s) (hs : Sound s held)
    {t : Tid} {now : Nat → Nat} {p : Nat} (hp : p = 0 ∨ ∃ e ∈ held, e.ptr = p) {r : Freed}
    (hf : s.free t now p = .ok (r, s')) : Balanced s' := by
  rcases hp with rfl | ⟨e, he, rfl⟩
  · rw [State.free, if_pos rfl] at hf
    cases hf
    exact h
  · obtain ⟨L, hcore⟩ := hs.core
    exact h.freed (free_cases hcore (by rw [hs.caches]) (hs.blocks e he) hf)

theorem Balanced.realloc {w : World} (h : Balanced w.st) (hs : Sound w.st w.held) {t : Tid} {os : Os}
    (hos : os.Sane) {p n : Nat} (hneeds : w.st.OpNeeds Grantable t os (.realloc p n))
    (hp : p = 0 ∨ ∃ e ∈ w.held, e.ptr = p) {r : Reply} {s' : State}
    (hm : w.st.realloc t os p n = .ok (r, s')) : Balanced s' := by
  have hcases := realloc_cases hm
  simp only [State.OpNeeds] at hneeds
  cases hcases with
  | fresh null call =>
      rw [if_pos null] at hneeds
      exact h.malloc hs hos hneeds call
  | emptied ptr zero release call =>
      rw [if_neg ptr, if_pos zero] at hneeds
      have hos' : (os.after 2).Sane := hos
      exact (h.free hs hp release).malloc (hs.free hp release) hos' (hneeds _ _ release) call
  | forwarded ptr size foreign => exact h
  | inPlace ptr size own fits => exact h
  | refused ptr size own moves call =>
      rw [if_neg ptr, if_neg size] at hneeds
      exact h.malloc hs hos (hneeds _ own moves) call
  | @moved old q s₁ s₂ s' f ptr size own moves call copy release =>
      rw [if_neg ptr, if_neg size] at hneeds
      obtain ⟨-, -, rfl⟩ := memcpy_ok copy
      have h₁ := h.malloc hs hos (hneeds _ own moves) call
      have hs₁ := hs.mallocOk hos (hneeds _ own moves) call
      obtain ⟨e, he, rfl⟩ := hp.resolve_left ptr
      have hheld : e.ptr = 0 ∨ ∃ e' ∈ gain (some q) w.held, e'.ptr = e.ptr :=
        .inr ⟨e, List.mem_append_right _ he, rfl⟩
      have h₂ : Balanced (s₁.fill q (min old n) fun x => s₁.mem (e.ptr + (x - q))) :=
        h₁.congr rfl rfl rfl
      exact h₂.free (hs₁.fill q (min old n) _) hheld release

theorem Balanced.exec {w : World} (h : Balanced w.st) (hs : Sound w.st w.held) {t : Tid} {os : Os}
    {op : Op} (hok : w.Clean t os op) {ans : Option Nat} {s' : State}
    (he : w.st.exec t os op = .ok (ans, s')) : Balanced s' := by
  obtain ⟨hos, hneeds, hsize, hlegal⟩ := hok
  cases op with
  | malloc n => exact h.malloc hs hos hneeds he
  | calloc nm sz =>
      have hcases := calloc_cases he
      cases hcases with
      | overflow big => exact h
      | refused size call => exact h.malloc hs hos (hneeds size) call
      | zeroed size call mapped => exact (h.malloc hs hos (hneeds size) call).congr rfl rfl rfl
  | realloc p n =>
      obtain ⟨⟨r, s₁⟩, h₁, h₂⟩ := bind_ok he
      cases h₂
      exact h.realloc hs hos hneeds hlegal h₁
  | posixMemalign outNull align n =>
      obtain ⟨⟨r, s₁⟩, h₁, h₂⟩ := bind_ok he
      have hcases := posixMemalign_cases h₁
      cases hcases with
      | invalid bad =>
          cases h₂
          exact h
      | refused out ok call =>
          cases h₂
          exact h.malloc hs hos (hneeds out _ ok) call
      | aligned out ok call =>
          cases h₂
          exact h.malloc hs hos (hneeds out _ ok) call
  | free p =>
      obtain ⟨⟨r, s₁⟩, h₁, h₂⟩ := bind_ok he
      cases h₂
      exact h.free hs hlegal h₁
  | trim clock =>
      obtain ⟨s₁, h₁, h₂⟩ := bind_ok he
      cases h₂
      exact h.trims (hs.trim h₁).2
  | write mem =>
      cases he
      exact h.congr rfl rfl rfl

theorem Balanced.reaches {w w' : World} (h : Balanced w.st) (hs : Sound w.st w.held)
    (hr : w.Reaches World.Clean w') : Balanced w'.st := by
  induction hr with
  | refl => exact h
  | step t os op ans hr hok he ih =>
      obtain ⟨⟨ans', s'⟩, he', hw⟩ := bind_ok he
      cases hw
      exact ih.exec (hs.reaches hr) hok he'

/-! ## Reads after a release -/

/-- The ownership tests tell what `p` is: not the allocator's, a block of a run, or
a large block. -/
def Classified (s : State) (p : Nat) : Prop :=
  s.inReserve p = false ∨
    (∃ a r i, SmallBlock s a r i ∧ p = blockAddr a r i ∧ runOf p = a ∧ s.oursSmall p = .ok true) ∨
    ∃ l, s.larges (p - sizeofLargeHdr) = some l ∧ s.oursSmall p = .ok false ∧
      s.oursLarge p = .ok true

/-- What `realloc(p, n)` copied before it frees `p`. -/
def State.Moves (s : State) (t : Tid) (os : Os) (p n : Nat) (s₂ : State) : Prop :=
  ∃ old q s₁, s.oldSize p = .ok (some old) ∧ ¬ (n ≤ old ∧ old < kLargeMin ∧ old / 2 < n) ∧
    s.malloc t os n = .ok (some q, s₁) ∧ s₁.memcpy q p (min old n) = .ok s₂

/-- `p` is a large block of the reservation. -/
def OwnLarge (s : State) (p : Nat) : Prop :=
  s.inReserve p = true ∧ ∃ l, s.larges (p - sizeofLargeHdr) = some l

/-- This step reaches the release of a large block: `free` of one, or a `realloc`
of one that gets as far as its own `free`. -/
def ReleasesLarge (s : State) (t : Tid) (os : Os) : Op → Prop
  | .free p => p ≠ 0 ∧ OwnLarge s p
  | .realloc p n => p ≠ 0 ∧ OwnLarge s p ∧ (n = 0 ∨ ∃ s₂, s.Moves t os p n s₂)
  | _ => False

theorem Core.largeMapping {s : State} {L : Nat → List Nat} (h : Core s L) {p : Nat}
    (hlarge : OwnLarge s p) : ∃ g ∈ s.maps, g.base + sizeofLargeHdr = p ∧ g.Mem (p - sizeofLargeHdr + 8) := by
  obtain ⟨-, l, hl⟩ := hlarge
  obtain ⟨-, g, hg, hbase, -⟩ := h.maps.ofLarge _ l hl
  obtain ⟨hpos, -, hsize, hmod, -⟩ := h.maps.sane g hg
  have hstop : g.stop = g.base + g.size := rfl
  exact ⟨g, hg, by omega, by omega, by omega⟩

theorem Classified.oldSize {s : State} {p : Nat} (hc : Classified s p) :
    ∃ old, s.oldSize p = .ok old := by
  unfold State.oldSize
  split
  · rename_i hin
    rcases hc with hout | ⟨a, r, i, hb, hblock, hbase, hours⟩ | ⟨l, hl, hsmall, hours⟩
    · rw [hin.2] at hout
      cases hout
    · exact ⟨some r.elem, by simp only [hours, bind, Except.bind, if_true, hbase, hb.run]⟩
    · exact ⟨some l.user, by simp only [hsmall, hours, bind, Except.bind, if_true,
        Bool.false_eq_true, if_false, hl]⟩
  · exact ⟨_, rfl⟩

/-- A large block that was not there before is the one `malloc` returned. -/
theorem Malloced.larges_new {s s' : State} {t : Tid} {os : Os} {n : Nat} {ans : Option Nat}
    (hm : Malloced s t os n ans s') {a : Nat} {l : LargeHdr} (hl : s'.larges a = some l) :
    s.larges a = some l ∨ ans = some (a + sizeofLargeHdr) := by
  cases hm with
  | failed asks refused => exact .inl hl
  | taken size room run cls free => exact .inl hl
  | grown size full fresh links run ok cls free => exact .inl hl
  | @large b al c size fresh =>
      have hl : put s.larges b (some ⟨kMagicLarge, largeMap n, n⟩) a = some l := hl
      by_cases hab : a = b
      · exact .inr (by rw [hab])
      · rw [put_other _ _ hab] at hl
        exact .inl hl

theorem Sound.moves {s s₂ : State} {held : List Held} (h : Sound s held) {t : Tid} {os : Os}
    (hos : os.Sane) {p n : Nat}
    (hneeds : ∀ old, s.oldSize p = .ok (some old) → ¬ (n ≤ old ∧ old < kLargeMin ∧ old / 2 < n) →
      s.MallocNeeds Grantable t os n) (hm : s.Moves t os p n s₂) :
    Sound s₂ held ∧ (∀ a, s₂.inReserve a = s.inReserve a) ∧
      (∀ a l, s.larges a = some l → s₂.larges a = some l) ∧
      ∀ a l, s₂.larges a = some l →
        s.larges a = some l ∨ ∀ x, ¬ Within s (a + sizeofLargeHdr) x := by
  obtain ⟨old, q, s₁, hold, hmoves, hmalloc, hcopy⟩ := hm
  obtain ⟨ans, s₁', hm', hout, hsound, hnew⟩ := h.malloc hos (hneeds old hold hmoves)
  rw [hmalloc] at hm'
  cases hm'
  obtain ⟨L, hcore⟩ := h.core
  have hready : s.ready = true := by
    by_contra hr
    have h0 := (h.ledger.unready (by simpa using hr)).1
    simp [State.oldSize, h0] at hold
  rw [ensureInit_of_ready hready os] at hout hnew
  obtain ⟨-, -, rfl⟩ := memcpy_ok hcopy
  obtain ⟨-, hstart, hstop⟩ := hout.reservation
  refine ⟨hsound.fill _ _ _, fun a => ?_, fun a l hl => hout.largeKept hcore hl,
    fun a l hl => ?_⟩
  · show decide (s₁.resStart ≤ a ∧ a < s₁.resEnd) = decide (s.resStart ≤ a ∧ a < s.resEnd)
    rw [hstart, hstop]
  · refine (hout.larges_new hl).imp id fun hq => ?_
    rw [Option.some.inj hq] at hnew
    exact (hnew _ rfl).2.2

/-- Why a step stopped. -/
def trapOf {α : Type} : Except Trap α → Option Trap
  | .ok _ => none
  | .error e => some e

theorem trapOf_eq_some {α : Type} {e : Except Trap α} {trap : Trap} (h : trapOf e = some trap) :
    e = .error trap := by
  cases e with
  | ok _ => cases h
  | error e => exact congrArg _ (Option.some.inj h)

end Memflux.Alloc
