import Memflux.Alloc.Release

/-! # The reservation and the mappings of other code

The address space as the kernel sees it: each address is free, mapped by the
allocator, or mapped by other code of the process, which calls `mmap` and `munmap`
between the steps of the allocator. `munmap` inside the reservation leaves a hole
that the kernel may give away.
-/

namespace Memflux.Alloc

open Spans BitWords DList

/-! ## The system -/

/-- Who mapped an address. -/
inductive Owner where
  | nobody
  | allocator
  | foreign
  deriving DecidableEq

structure Process where
  w : World
  space : Nat → Owner

/-- The address space after a call of the allocator that led from `s` to `s'`: what
it has mapped is its own, what it no longer has mapped is free, and the first call
maps the reservation. -/
def remap (space : Nat → Owner) (s s' : State) : Nat → Owner := fun x =>
  if s'.readable x 1 then .allocator
  else if s.readable x 1 then .nobody
  else if s.resStart = 0 ∧ s'.inReserve x then .allocator
  else space x

/-- `mmap(nullptr, …)` of other code at `a`. -/
def occupy (space : Nat → Owner) (a n : Nat) : Nat → Owner := fun x =>
  if a ≤ x ∧ x < a + n then .foreign else space x

def vacate (space : Nat → Owner) (a n : Nat) : Nat → Owner := fun x =>
  if a ≤ x ∧ x < a + n then .nobody else space x

namespace Process

/-- A call of the allocator. The reservation is placed where other code has nothing. -/
structure Call (c : Process) (t : Tid) (os : Os) (op : Op) (c' : Process) : Prop where
  clean : c.w.Clean t os op
  placed : ∀ p, os.reserve = some p → c.w.st.ready = false →
    ∀ x, p ≤ x → x < p + kReserveSize → c.space x ≠ .foreign
  exec : ∃ ans, c.w.exec t os op = .ok (ans, c'.w)
  space : c'.space = remap c.space c.w.st c'.w.st

/-- Histories in which calls of the allocator that meet `ok` and calls of other code
to `mmap` and `munmap` alternate in any order. The kernel places mappings at free
addresses only, and other code unmaps only what is its own. -/
inductive Reaches (ok : Process → Tid → Os → Op → Prop) (c : Process) : Process → Prop where
  | refl : Reaches ok c c
  | call {c₁ c₂ : Process} (t : Tid) (os : Os) (op : Op) : Reaches ok c c₁ → ok c₁ t os op →
      c₁.Call t os op c₂ → Reaches ok c c₂
  | mmap {c₁ : Process} (a n : Nat) : Reaches ok c c₁ →
      (∀ x, a ≤ x → x < a + n → c₁.space x = .nobody) →
      Reaches ok c ⟨c₁.w, occupy c₁.space a n⟩
  | munmap {c₁ : Process} (a n : Nat) : Reaches ok c c₁ →
      (∀ x, a ≤ x → x < a + n → c₁.space x = .foreign) →
      Reaches ok c ⟨c₁.w, vacate c₁.space a n⟩

/-- The bounds test is an ownership test: every address of the reservation is the
allocator's, and no address of other code passes the test. -/
structure Exact (c : Process) : Prop where
  owned : c.w.st.resStart ≠ 0 → ∀ x, c.w.st.inReserve x = true → c.space x = .allocator
  foreign : ∀ x, c.space x = .foreign → c.w.st.inReserve x = false

/-- The step releases no mapping of the reservation: a trim pass finds no idle run,
and no large block is released. -/
def Keeps (c : Process) (t : Tid) (os : Os) (op : Op) : Prop :=
  (∀ clock, op = .trim clock → c.w.st.resStart ≠ 0 →
    ∀ a r, c.w.st.runs a = some r → c.w.st.runIdle r clock = false) ∧
  ¬ ReleasesLarge c.w.st t os op

end Process

/-! ## What a step does to the mappings -/

/-- Mappings stay, and so does a reservation that is there. -/
structure Widens (s s' : State) : Prop where
  maps : ∀ g ∈ s.maps, g ∈ s'.maps
  reservation : s.resStart ≠ 0 → s'.resStart = s.resStart ∧ s'.resEnd = s.resEnd

theorem Widens.refl (s : State) : Widens s s := ⟨fun _ hg => hg, fun _ => ⟨rfl, rfl⟩⟩

theorem Widens.trans {s₁ s₂ s₃ : State} (h : Widens s₁ s₂) (h' : Widens s₂ s₃) : Widens s₁ s₃ := by
  refine ⟨fun g hg => h'.maps g (h.maps g hg), fun h0 => ?_⟩
  obtain ⟨h₁, h₂⟩ := h.reservation h0
  obtain ⟨h₃, h₄⟩ := h'.reservation (by rwa [h₁])
  exact ⟨h₃.trans h₁, h₄.trans h₂⟩

theorem Widens.readable {s s' : State} (h : Widens s s') {x n : Nat} (hx : s.readable x n = true) :
    s'.readable x n = true := by
  obtain ⟨g, hg, hin⟩ := State.readable_iff.mp hx
  exact State.readable_iff.mpr ⟨g, h.maps g hg, hin⟩

theorem widens_ensureInit (s : State) (os : Os) : Widens s (s.ensureInit os) := by
  unfold State.ensureInit State.reserveInit
  split
  · exact .refl s
  · by_cases h0 : s.resStart = 0
    · rw [if_pos h0]
      split
      · exact ⟨fun _ hg => hg, fun h => absurd h0 h⟩
      · exact ⟨fun _ hg => hg, fun h => absurd h0 h⟩
    · rw [if_neg h0]
      exact ⟨fun _ hg => hg, fun _ => ⟨rfl, rfl⟩⟩

theorem Malloced.widens {s s' : State} {t : Tid} {os : Os} {n : Nat} {ans : Option Nat}
    (h : Malloced s t os n ans s') : Widens s s' := by
  refine ⟨fun g hg => ?_, fun _ => h.reservation.2⟩
  cases h with
  | failed asks refused => exact hg
  | large size fresh => exact List.mem_cons_of_mem _ hg
  | taken size room run cls free => exact hg
  | grown size full fresh links run ok cls free => exact List.mem_cons_of_mem _ hg

theorem Sound.malloc_widens {s s' : State} {held : List Held} (h : Sound s held) {t : Tid} {os : Os}
    (hos : os.Sane) {n : Nat} (hneeds : s.MallocNeeds Grantable t os n) {ans : Option Nat}
    (hm : s.malloc t os n = .ok (ans, s')) : Widens s s' := by
  obtain ⟨ans', s₁, hm', hout, -, -⟩ := h.malloc hos hneeds
  rw [hm] at hm'
  cases hm'
  exact (widens_ensureInit s os).trans hout.widens

theorem Sound.free_widens {s s' : State} {held : List Held} (h : Sound s held) {t : Tid}
    {now : Nat → Nat} {p : Nat} (hp : p = 0 ∨ ∃ e ∈ held, e.ptr = p) {r : Freed}
    (hf : s.free t now p = .ok (r, s')) : Widens s s' := by
  rcases hp with rfl | ⟨e, he, rfl⟩
  · rw [State.free, if_pos rfl] at hf
    cases hf
    exact .refl s
  · obtain ⟨L, hcore⟩ := h.core
    have hcases := free_cases hcore (by rw [h.caches]) (h.blocks e he) hf
    cases hcases with
    | kept how => exact .refl s
    | given block start base => exact ⟨fun _ hg => hg, fun _ => ⟨rfl, rfl⟩⟩

theorem widens_fill (s : State) (a n : Nat) (f : Nat → UInt8) : Widens s (s.fill a n f) :=
  ⟨fun _ hg => hg, fun _ => ⟨rfl, rfl⟩⟩

theorem Sound.realloc_widens {w : World} (h : Sound w.st w.held) {t : Tid} {os : Os} (hos : os.Sane)
    {p n : Nat} (hneeds : w.st.OpNeeds Grantable t os (.realloc p n))
    (hp : p = 0 ∨ ∃ e ∈ w.held, e.ptr = p) {r : Reply} {s' : State}
    (hm : w.st.realloc t os p n = .ok (r, s')) : Widens w.st s' := by
  have hcases := realloc_cases hm
  simp only [State.OpNeeds] at hneeds
  cases hcases with
  | fresh null call =>
      rw [if_pos null] at hneeds
      exact h.malloc_widens hos hneeds call
  | emptied ptr zero release call =>
      rw [if_neg ptr, if_pos zero] at hneeds
      have hos' : (os.after 2).Sane := hos
      exact (h.free_widens hp release).trans
        ((h.free hp release).malloc_widens hos' (hneeds _ _ release) call)
  | forwarded ptr size foreign => exact .refl _
  | inPlace ptr size own fits => exact .refl _
  | refused ptr size own moves call =>
      rw [if_neg ptr, if_neg size] at hneeds
      exact h.malloc_widens hos (hneeds _ own moves) call
  | @moved old q s₁ s₂ s' f ptr size own moves call copy release =>
      rw [if_neg ptr, if_neg size] at hneeds
      obtain ⟨-, -, rfl⟩ := memcpy_ok copy
      have hs₁ := h.mallocOk hos (hneeds _ own moves) call
      obtain ⟨e, he, rfl⟩ := hp.resolve_left ptr
      have hheld : e.ptr = 0 ∨ ∃ e' ∈ gain (some q) w.held, e'.ptr = e.ptr :=
        .inr ⟨e, List.mem_append_right _ he, rfl⟩
      have hcopied := widens_fill s₁ q (min old n) fun x => s₁.mem (e.ptr + (x - q))
      have hfreed := (hs₁.fill q (min old n) _).free_widens hheld release
      exact ((h.malloc_widens hos (hneeds _ own moves) call).trans hcopied).trans hfreed

/-- Apart from trim passes, a step that returns has unmapped nothing. -/
theorem Sound.exec_widens {w : World} (h : Sound w.st w.held) {t : Tid} {os : Os} {op : Op}
    (hok : w.Clean t os op) (htrim : ∀ clock, op ≠ .trim clock) {ans : Option Nat} {s' : State}
    (he : w.st.exec t os op = .ok (ans, s')) : Widens w.st s' := by
  obtain ⟨hos, hneeds, hsize, hlegal⟩ := hok
  cases op with
  | malloc n => exact h.malloc_widens hos hneeds he
  | calloc nm sz =>
      have hcases := calloc_cases he
      cases hcases with
      | overflow big => exact .refl _
      | refused size call => exact h.malloc_widens hos (hneeds size) call
      | zeroed size call mapped =>
          exact (h.malloc_widens hos (hneeds size) call).trans (widens_fill _ _ _ _)
  | realloc p n =>
      obtain ⟨⟨r, s₁⟩, h₁, h₂⟩ := bind_ok he
      cases h₂
      exact h.realloc_widens hos hneeds hlegal h₁
  | posixMemalign outNull align n =>
      obtain ⟨⟨r, s₁⟩, h₁, h₂⟩ := bind_ok he
      have hcases := posixMemalign_cases h₁
      cases hcases with
      | invalid bad =>
          cases h₂
          exact .refl _
      | refused out ok call =>
          cases h₂
          exact h.malloc_widens hos (hneeds out _ ok) call
      | aligned out ok call =>
          cases h₂
          exact h.malloc_widens hos (hneeds out _ ok) call
  | free p =>
      obtain ⟨⟨r, s₁⟩, h₁, h₂⟩ := bind_ok he
      cases h₂
      exact h.free_widens hlegal h₁
  | trim clock => exact absurd rfl (htrim clock)
  | write mem =>
      cases he
      exact ⟨fun _ hg => hg, fun _ => ⟨rfl, rfl⟩⟩

theorem Core.free_large_stops {s s' : State} {L : Nat → List Nat} (h : Core s L) {t : Tid}
    {now : Nat → Nat} {p : Nat} {r : Freed} (hp : p ≠ 0) (hlarge : OwnLarge s p) :
    s.free t now p ≠ .ok (r, s') := by
  intro hf
  obtain ⟨g, hg, hbase, -⟩ := h.largeMapping hlarge
  obtain ⟨hin, l, hl⟩ := hlarge
  have hw : Within s p p := by
    obtain ⟨-, g', hg', hbase', hsize⟩ := h.maps.ofLarge _ l hl
    obtain ⟨-, -, hpos, hmod, -⟩ := h.maps.sane g' hg'
    have hhdr : sizeofLargeHdr = 24 := rfl
    exact .large hl (by omega) (Nat.le_refl _) (by omega)
  simp only [State.free, hp, hin, if_false, not_true, and_false, if_true] at hf
  obtain ⟨small, hsmall, hf⟩ := bind_ok hf
  cases small with
  | true =>
      simp only [if_true, State.freeSmall] at hf
      cases hr : s.runs (runOf p) with
      | none =>
          rw [hr] at hf
          cases hf
      | some q =>
          obtain ⟨-, i, hblock, hstart⟩ := oursSmall_block h hw hr hsmall
          exact h.small_not_large hblock hl (by omega)
  | false =>
      simp only [Bool.false_eq_true, if_false] at hf
      have hmagic := (h.maps.ofLarge _ l hl).1
      have hours : s.oursLarge p = .ok true := by
        simp only [State.oursLarge, State.largeMagic, hl, bind, Except.bind, hmagic, decide_true]
      simp only [hours, bind, Except.bind, if_true] at hf
      exact freeLarge_not_ok h hf

theorem Sound.no_large_released {w : World} (h : Sound w.st w.held) {t : Tid} {os : Os} {op : Op}
    (hok : w.Clean t os op) {ans : Option Nat} {s' : State}
    (he : w.st.exec t os op = .ok (ans, s')) : ¬ ReleasesLarge w.st t os op := by
  obtain ⟨hos, hneeds, hsize, hlegal⟩ := hok
  obtain ⟨L, hcore⟩ := h.core
  intro hr
  cases op with
  | free p =>
      obtain ⟨⟨r, s₁⟩, h₁, -⟩ := bind_ok he
      exact hcore.free_large_stops hr.1 hr.2 h₁
  | realloc p n =>
      obtain ⟨hp, hlarge, hhow⟩ := hr
      obtain ⟨⟨r, s₁⟩, h₁, -⟩ := bind_ok he
      have hcases := realloc_cases h₁
      simp only [State.OpNeeds, if_neg hp] at hneeds
      cases hcases with
      | fresh null call => exact hp null
      | emptied ptr zero release call => exact hcore.free_large_stops hp hlarge release
      | forwarded ptr size foreign =>
          obtain ⟨s₂, old, q, s₁, own, -⟩ := hhow.resolve_left size
          rw [foreign] at own
          cases own
      | inPlace ptr size own fits =>
          obtain ⟨s₂, old, q, s₁, own', moves, -⟩ := hhow.resolve_left size
          rw [own] at own'
          cases own'
          exact moves fits
      | refused ptr size own moves call =>
          obtain ⟨s₂, old, q, s₁, -, -, call', -⟩ := hhow.resolve_left size
          rw [call] at call'
          cases call'
      | moved ptr size own moves call copy release =>
          rw [if_neg size] at hneeds
          obtain ⟨hsound, hin, hkept, -⟩ := h.moves hos hneeds ⟨_, _, _, own, moves, call, copy⟩
          obtain ⟨L₂, hcore₂⟩ := hsound.core
          obtain ⟨hin₁, l, hl⟩ := hlarge
          exact hcore₂.free_large_stops hp ⟨by rw [hin, hin₁], l, hkept _ l hl⟩ release
  | malloc n => exact hr.elim
  | calloc nm sz => exact hr.elim
  | posixMemalign outNull align n => exact hr.elim
  | trim clock => exact hr.elim
  | write mem => exact hr.elim

/-! ## The bounds test -/

namespace Process

theorem exact_init (runIdle dirtyIdle : Nat) (space : Nat → Owner) :
    Exact ⟨World.init runIdle dirtyIdle, space⟩ :=
  ⟨fun h => absurd rfl h, fun x _ => decide_eq_false fun hx => absurd hx.2 (Nat.not_lt_zero x)⟩

theorem not_inReserve {s : State} (hl : Ledger s) (h0 : s.resStart = 0) (x : Nat) :
    s.inReserve x = false := by
  have hend := hl.closed h0
  exact decide_eq_false fun hx => by omega

/-- A step that keeps what is mapped in a reservation, and the reservation, keeps
the test exact. -/
theorem Exact.remap {c : Process} {s' : State} (h : c.Exact)
    (hmaps : s'.resStart ≠ 0 → ∀ x, c.w.st.readable x 1 = true → s'.readable x 1 = true)
    (hsame : c.w.st.resStart ≠ 0 → ∀ x, s'.inReserve x = c.w.st.inReserve x) (held : List Held) :
    Exact ⟨⟨s', held⟩, Alloc.remap c.space c.w.st s'⟩ := by
  refine ⟨fun h0 x hx => ?_, fun x hx => ?_⟩
  · by_cases hnew : s'.readable x 1 = true
    · exact if_pos hnew
    · have hold : ¬ c.w.st.readable x 1 = true := fun hr => hnew (hmaps h0 x hr)
      simp only [Alloc.remap, if_neg hnew, if_neg hold]
      by_cases hs : c.w.st.resStart = 0
      · exact if_pos ⟨hs, hx⟩
      · rw [if_neg fun hboth => hs hboth.1]
        exact h.owned hs x (hsame hs x ▸ hx)
  · simp only [Alloc.remap] at hx
    split at hx
    · cases hx
    · split at hx
      · cases hx
      · split at hx
        · cases hx
        · rename_i hnot
          by_cases hs : c.w.st.resStart = 0
          · exact Bool.eq_false_iff.mpr fun hin => hnot ⟨hs, hin⟩
          · rw [hsame hs x]
            exact h.foreign x hx

theorem Call.trim_hole {c c' : Process} (hs : Sound c.w.st c.w.held) {t : Tid} {os : Os} {clock : Nat}
    (hcall : c.Call t os (.trim clock) c') (h0 : c.w.st.resStart ≠ 0) {a : Nat} {r : Run}
    (hr : c.w.st.runs a = some r) (hidle : c.w.st.runIdle r clock = true) :
    c'.w.st.inReserve a = true ∧ c'.space a = .nobody := by
  obtain ⟨ans, he⟩ := hcall.exec
  obtain ⟨⟨ans', s'⟩, he, hw⟩ := bind_ok he
  obtain ⟨s₁, ht, hret⟩ := bind_ok he
  cases hret
  have hst : c'.w.st = s' := by
    rw [← (Prod.mk.inj (Except.ok.inj hw)).2]
  obtain ⟨L, hcore⟩ := hs.core
  have hready : c.w.st.ready = true := by
    by_contra hr
    exact h0 (hs.ledger.unready (by simpa using hr)).1
  have htrims := (hs.trim ht).2
  have hrel := trimPass_releases hcore hready ht
  have hres := hs.ledger.reserved h0
  obtain ⟨g, hg, rfl, -⟩ := hcore.maps.ofRun a r hr
  have hpos := (hcore.maps.sane g hg).2.2.1
  have hstop : g.stop = g.base + g.size := rfl
  have hgone : ¬ s'.readable g.base 1 = true := by
    intro hread
    obtain ⟨g', hg', h₁, h₂⟩ := State.readable_iff.mp hread
    obtain rfl : g' = g := hcore.maps.apart.eq_of_mem (htrims.maps.subset hg') hg
      (x := g.base) ⟨h₁, by omega⟩ ⟨Nat.le_refl _, by omega⟩
    have hbusy := ((hrel g').mp hg').2 r hr trivial
    rw [hidle] at hbusy
    cases hbusy
  have hold : c.w.st.readable g.base 1 = true :=
    State.readable_iff.mpr ⟨g, hg, Nat.le_refl _, by omega⟩
  obtain ⟨-, -, hlow, hhigh, -⟩ := hres.inside g hg
  obtain ⟨-, hstart, hend, -⟩ := htrims.reservation
  rw [hcall.space, hst]
  refine ⟨decide_eq_true (by omega), ?_⟩
  simp only [Alloc.remap, if_neg hgone, if_pos hold]

theorem Call.exact_iff {c c' : Process} (hs : Sound c.w.st c.w.held) (h : c.Exact) {t : Tid} {os : Os}
    {op : Op} (hcall : c.Call t os op c') : c'.Exact ↔ c.Keeps t os op := by
  obtain ⟨ans, he⟩ := hcall.exec
  obtain ⟨⟨ans', s'⟩, he', hw⟩ := bind_ok he
  have hlarge := hs.no_large_released hcall.clean he'
  constructor
  · intro h'
    refine ⟨fun clock hop h0 a r hr => ?_, hlarge⟩
    subst hop
    by_contra hbusy
    obtain ⟨hin, hspace⟩ := hcall.trim_hole hs h0 hr (by simpa using hbusy)
    have h0' : c'.w.st.resStart ≠ 0 := by
      have hsound' := hs.exec hcall.clean he
      intro hzero
      rw [not_inReserve hsound'.ledger hzero] at hin
      cases hin
    rw [h'.owned h0' a hin] at hspace
    cases hspace
  · intro hkeeps
    have hc' : c' = ⟨⟨s', c.w.heldAfter t os ans' op⟩, Alloc.remap c.space c.w.st s'⟩ := by
      obtain ⟨w', space'⟩ := c'
      cases hw
      have hspace := hcall.space
      dsimp only at hspace
      rw [hspace]
    rw [hc']
    by_cases htrim : ∃ clock, op = .trim clock
    · obtain ⟨clock, rfl⟩ := htrim
      obtain ⟨s₁, ht, hret⟩ := bind_ok he'
      cases hret
      have htrims := (hs.trim ht).2
      obtain ⟨-, hstart, hend, -⟩ := htrims.reservation
      refine h.remap (fun h0 x hx => ?_) (fun _ x => ?_) _
      · rw [hstart] at h0
        obtain ⟨L, hcore⟩ := hs.core
        have hready : c.w.st.ready = true := by
          by_contra hr
          exact h0 (hs.ledger.unready (by simpa using hr)).1
        obtain ⟨g, hg, hin⟩ := State.readable_iff.mp hx
        have hstays := (trimPass_releases hcore hready ht g).mpr
          ⟨hg, fun r hr _ => hkeeps.1 clock rfl h0 _ r hr⟩
        exact State.readable_iff.mpr ⟨g, hstays, hin⟩
      · rw [State.inReserve, State.inReserve, hstart, hend]
    · have hwide := hs.exec_widens hcall.clean (fun clock hop => htrim ⟨clock, hop⟩) he'
      refine h.remap (fun _ x hx => hwide.readable hx) (fun h0 x => ?_) _
      obtain ⟨hstart, hend⟩ := hwide.reservation h0
      rw [State.inReserve, State.inReserve, hstart, hend]

theorem Exact.occupy {c : Process} (h : c.Exact) (hl : Ledger c.w.st) {a n : Nat}
    (hfree : ∀ x, a ≤ x → x < a + n → c.space x = .nobody) :
    Exact ⟨c.w, Alloc.occupy c.space a n⟩ := by
  refine ⟨fun h0 x hx => ?_, fun x hx => ?_⟩
  · have hown := h.owned h0 x hx
    refine (if_neg fun hin => ?_).trans hown
    rw [hfree x hin.1 hin.2] at hown
    cases hown
  · simp only [Alloc.occupy] at hx
    split at hx
    · rename_i hin
      by_cases h0 : c.w.st.resStart = 0
      · exact not_inReserve hl h0 x
      · refine Bool.eq_false_iff.mpr fun hres => ?_
        have hown := h.owned h0 x hres
        rw [hfree x hin.1 hin.2] at hown
        cases hown
    · exact h.foreign x hx

theorem Exact.vacate {c : Process} (h : c.Exact) {a n : Nat}
    (hown : ∀ x, a ≤ x → x < a + n → c.space x = .foreign) :
    Exact ⟨c.w, Alloc.vacate c.space a n⟩ := by
  refine ⟨fun h0 x hx => ?_, fun x hx => ?_⟩
  · have hmine := h.owned h0 x hx
    refine (if_neg fun hin => ?_).trans hmine
    rw [hown x hin.1 hin.2] at hmine
    cases hmine
  · simp only [Alloc.vacate] at hx
    split at hx
    · cases hx
    · exact h.foreign x hx

/-- In every history of calls and of other code's mappings in which no call so far
has released a mapping, the bounds test is exact; and it stays so after the next
call exactly when that call releases none either. -/
theorem bounds_test_exact {runIdle dirtyIdle : Nat} {space : Nat → Owner} {c : Process}
    (h : Reaches Keeps ⟨World.init runIdle dirtyIdle, space⟩ c) :
    c.Exact ∧ ∀ t os op c', c.Call t os op c' → (c'.Exact ↔ c.Keeps t os op) := by
  have hrun : Sound c.w.st c.w.held ∧ c.Exact := by
    induction h with
    | refl => exact ⟨init_sound runIdle dirtyIdle, exact_init runIdle dirtyIdle space⟩
    | call t os op _ hok hcall ih =>
        obtain ⟨ans, he⟩ := hcall.exec
        exact ⟨ih.1.exec hcall.clean he, (hcall.exact_iff ih.1 ih.2).mpr hok⟩
    | mmap a n _ hfree ih => exact ⟨ih.1, ih.2.occupy ih.1.ledger hfree⟩
    | munmap a n _ hown ih => exact ⟨ih.1, ih.2.vacate hown⟩
  exact ⟨hrun.2, fun t os op c' hcall => hcall.exact_iff hrun.1 hrun.2⟩

/-- Other code has a page mapped when the first call reserves the terabyte and maps a run
in it. -/
theorem bounds_test_page :
    ∃ c, Reaches Keeps ⟨World.init 0 0, fun _ => .nobody⟩ c ∧ c.w.st.resStart ≠ 0 ∧
      c.space 16777216 = .foreign ∧ c.Exact := by
  let os := Os.granting (2 ^ 30) 1
  let c₁ : Process := ⟨World.init 0 0, occupy (fun _ => .nobody) 16777216 4096⟩
  have hplay : ((World.init 0 0).exec 0 os (.malloc 8)).toOption.any (fun r =>
      decide (r.2.st.resStart ≠ 0 ∧ r.2.st.readable 16777216 1 = false ∧
        r.2.st.inReserve 16777216 = false)) = true := by decide +kernel
  obtain ⟨⟨ans, w⟩, he, htest⟩ := World.ok_of_any hplay
  obtain ⟨hstart, hpage, hout⟩ := of_decide_eq_true htest
  have hclean : (World.init 0 0).Clean 0 os (.malloc 8) := World.cleanTest_clean (by decide +kernel)
  have hplaced : ∀ p, os.reserve = some p → c₁.w.st.ready = false →
      ∀ x, p ≤ x → x < p + kReserveSize → c₁.space x ≠ .foreign := by
    intro p hp _ x hx _ hforeign
    obtain rfl : 2 ^ 30 = p := Option.some.inj hp
    have hfree : c₁.space x = .nobody := if_neg (by omega)
    rw [hfree] at hforeign
    cases hforeign
  have hcall : c₁.Call 0 os (.malloc 8) ⟨w, Alloc.remap c₁.space (World.init 0 0).st w.st⟩ :=
    ⟨hclean, hplaced, ⟨ans, he⟩, rfl⟩
  have hkeeps : c₁.Keeps 0 os (.malloc 8) := ⟨fun _ h => (nomatch h), fun h => h⟩
  have hmapped : Reaches Keeps ⟨World.init 0 0, fun _ => .nobody⟩ c₁ :=
    Reaches.refl.mmap 16777216 4096 fun _ _ _ => rfl
  have hreach := hmapped.call 0 os (.malloc 8) hkeeps hcall
  refine ⟨_, hreach, hstart, ?_, (bounds_test_exact hreach).1⟩
  show (if w.st.readable 16777216 1 = true then _ else _) = _
  rw [hpage, if_neg Bool.false_ne_true, if_neg (by decide), hout,
    if_neg fun h => Bool.false_ne_true h.2]
  decide

theorem reaches_alone {w₀ w : World} (h : w₀.Reaches World.Clean w) :
    ∃ space, Reaches (fun _ _ _ _ => True) ⟨w₀, fun _ => .nobody⟩ ⟨w, space⟩ ∧
      ∀ x, space x ≠ .foreign := by
  induction h with
  | refl => exact ⟨_, .refl, fun _ h => nomatch h⟩
  | @step w₁ w₂ t os op ans _ hok he ih =>
      obtain ⟨space, hreach, hnone⟩ := ih
      have hcall : Call ⟨w₁, space⟩ t os op ⟨w₂, Alloc.remap space w₁.st w₂.st⟩ :=
        ⟨hok, fun _ _ _ x _ _ => hnone x, ⟨ans, he⟩, rfl⟩
      refine ⟨_, hreach.call t os op trivial hcall, fun x hx => ?_⟩
      simp only [Alloc.remap] at hx
      split at hx
      · cases hx
      · split at hx
        · cases hx
        · split at hx
          · cases hx
          · exact hnone x hx

/-- One block is allocated and freed, a trim pass unmaps its run, and the kernel
places a mapping of other code there. -/
theorem bounds_test_fooled :
    ∃ c a, Reaches (fun _ _ _ _ => True) ⟨World.init 0 0, fun _ => .nobody⟩ c ∧
      c.w.st.resStart ≠ 0 ∧ c.space a = .foreign ∧ c.w.st.inReserve a = true := by
  have hplay : ∃ w, (World.init 0 0).Reaches World.Clean w ∧
      (decide (⟨1073741824, 536576, 2097152⟩ ∈ w.st.maps) &&
        (w.exec 0 (Os.granting (2 ^ 30) 1) (.trim 5)).toOption.any fun r =>
          decide (r.2.st.maps = [] ∧ r.2.st.resStart ≠ 0 ∧ r.2.st.inReserve 1073741824 = true)) = true :=
    World.Reaches.refl.play (l := [(0, Os.granting (2 ^ 30) 1, .malloc 8),
      (0, Os.granting (2 ^ 30) 1, .free 1073754112)]) (by decide +kernel)
  obtain ⟨w₁, hreach, htest⟩ := hplay
  obtain ⟨hmaps, htrim⟩ := Bool.and_eq_true_iff.mp htest
  have hmaps := of_decide_eq_true hmaps
  obtain ⟨⟨ans, w₂⟩, he, hafter⟩ := World.ok_of_any htrim
  obtain ⟨hnone, hstart, hin⟩ := of_decide_eq_true hafter
  obtain ⟨space, hprocess, hforeign⟩ := reaches_alone hreach
  have hclean : w₁.Clean 0 (Os.granting (2 ^ 30) 1) (.trim 5) :=
    ⟨granting_sane 1, trivial, trivial, trivial⟩
  have hcall : Call ⟨w₁, space⟩ 0 (Os.granting (2 ^ 30) 1) (.trim 5)
      ⟨w₂, Alloc.remap space w₁.st w₂.st⟩ :=
    ⟨hclean, fun _ _ _ x _ _ => hforeign x, ⟨ans, he⟩, rfl⟩
  -- the pages of the run are free
  have hfree : ∀ x, 1073741824 ≤ x → x < 1073741824 + 4096 →
      Alloc.remap space w₁.st w₂.st x = .nobody := by
    intro x h₁ h₂
    have hnew : ¬ w₂.st.readable x 1 = true := by
      intro hread
      obtain ⟨g, hg, -⟩ := State.readable_iff.mp hread
      rw [hnone] at hg
      cases hg
    have hold : w₁.st.readable x 1 = true := by
      refine State.readable_iff.mpr ⟨_, hmaps, h₁, ?_⟩
      show x + 1 ≤ 1073741824 + 536576
      omega
    simp only [Alloc.remap, if_neg hnew, if_pos hold]
  have hplaced := (hprocess.call 0 (Os.granting (2 ^ 30) 1) (.trim 5) trivial hcall).mmap
    1073741824 4096 hfree
  have hspace : Alloc.occupy (Alloc.remap space w₁.st w₂.st) 1073741824 4096
      1073741824 = .foreign := if_pos ⟨by omega, by omega⟩
  exact ⟨_, 1073741824, hplaced, hstart, hspace, hin⟩

end Process

end Memflux.Alloc
