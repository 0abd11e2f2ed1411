import Memflux.Alloc.Aligned
import Memflux.Alloc.Foreign

/-! # What a resize keeps

A `realloc` that moves a block of a run copies what fits and gives the old block
back; one that moves a large block stops in its own `free`. So the contents survive
exactly where the pointer is a block of a run, or where nothing is moved.
-/

namespace Memflux.Alloc

open Spans BitWords DList

/-! ## Contents of a resized block -/

/-- The block that begins at `b` is still allocated and its bytes are the same. -/
def Unchanged (s s' : State) (b : Nat) : Prop := ∀ x, Within s b x → Within s' b x ∧ s'.mem x = s.mem x

/-- `malloc(n)` returns null or a block of at least `n` bytes. -/
def State.MallocGives (s : State) (t : Tid) (os : Os) (n : Nat) : Prop :=
  ∀ q s', s.malloc t os n = .ok (some q, s') → Inside s' q q n

/-- `realloc(e, n)` returns; on null the block of `e` is unchanged, otherwise the block
returned has `n` bytes, begins with those that `e` held, and takes the place of the
block of `e`. Every other held block is unchanged. -/
def KeepsData (w : World) (t : Tid) (os : Os) (e : Held) (m n : Nat) : Prop :=
  ∃ ans s', w.st.realloc t os e.ptr n = .ok (⟨ans, false⟩, s') ∧
    (∀ f ∈ w.held, f ≠ e → Unchanged w.st s' f.block) ∧
      (ans = none → Unchanged w.st s' e.block) ∧
        ∀ q, ans = some q → Inside s' q q n ∧
          (∀ j, j < min m n → s'.mem (q + j) = w.st.mem (e.ptr + j)) ∧
            (∀ f ∈ w.held, f ≠ e → q ≠ f.block) ∧ (q = e.block ∨ ∀ x, ¬ Within s' e.block x)

/-- There is a reservation, and `p` is a block of a run, or a large block for which
`malloc(n)` returns null. -/
def Resizable (s : State) (t : Tid) (os : Os) (p n : Nat) : Prop :=
  s.resStart ≠ 0 ∧
    ((∃ r i, SmallBlock s (runOf p) r i ∧ p = blockAddr (runOf p) r i) ∨
      (∃ l, s.larges (p - sizeofLargeHdr) = some l) ∧ s.oursSmall p = .ok false ∧
        ∀ q s', s.malloc t os n ≠ .ok (some q, s'))

/-! ## Blocks of runs -/

theorem Sound.ptr_ne_zero {s : State} {held : List Held} (h : Sound s held) {e : Held}
    (he : e ∈ held) : e.ptr ≠ 0 := by
  obtain ⟨L, hcore⟩ := h.core
  obtain ⟨g, hg, hmem, -⟩ := hcore.within_map (h.blocks e he)
  obtain ⟨hpos, -⟩ := hcore.maps.sane g hg
  unfold Span.Mem at hmem
  omega

theorem low_of_runOf {p : Nat} {r : Run} {i : Nat} (hp : p = blockAddr (runOf p) r i) :
    blockOffset r i < kRunSize := by
  have hlt := lt_roundDown_add (w := p) (a := kRunSize) (by decide)
  rw [blockAddr_offset] at hp
  unfold runOf at hp
  omega

/-- A held block of a run that is pointed to at its start is that block. -/
theorem Sound.small_block {w : World} (h : Sound w.st w.held) {e : Held} (he : e ∈ w.held)
    {r : Run} {i : Nat} (hb : SmallBlock w.st (runOf e.ptr) r i)
    (hp : e.ptr = blockAddr (runOf e.ptr) r i) : e.block = e.ptr := by
  obtain ⟨L, hcore⟩ := h.core
  have hpos := (hcore.run _ r hb.run).elem_pos
  have hself : Within w.st e.ptr e.ptr := .small hb hp (Nat.le_refl _) (Nat.lt_add_of_pos_right hpos)
  exact hcore.within_unique (h.blocks e he) hself

theorem Core.inside_small {s : State} {L : Nat → List Nat} (h : Core s L) {p m : Nat} {r : Run}
    {i : Nat} (hb : SmallBlock s (runOf p) r i) (hp : p = blockAddr (runOf p) r i)
    (hm : Inside s p p m) : m ≤ r.elem := by
  by_contra hlt
  have hlast := hm (p + r.elem) (Nat.le_add_right _ _) (by omega)
  have hend := h.within_small hb (x := p + r.elem) (by rw [← hp]; exact hlast)
  rw [← hp] at hend
  exact Nat.lt_irrefl _ hend

theorem Sound.keepsData_inPlace {w : World} (h : Sound w.st w.held) {e : Held} (he : e ∈ w.held)
    {r : Run} {i : Nat} (hb : SmallBlock w.st (runOf e.ptr) r i)
    (hp : e.ptr = blockAddr (runOf e.ptr) r i) {t : Tid} {os : Os} {m n : Nat} (hne : e.ptr ≠ 0)
    (hn0 : n ≠ 0) (hold : w.st.oldSize e.ptr = .ok (some r.elem))
    (hfits : n ≤ r.elem ∧ r.elem < kLargeMin ∧ r.elem / 2 < n) : KeepsData w t os e m n := by
  have hblock := h.small_block he hb hp
  refine ⟨some e.ptr, w.st, realloc_inPlace hne hn0 hold hfits, fun f _ _ x hx => ⟨hx, rfl⟩,
    fun hnone => (by cases hnone), ?_⟩
  rintro _ ⟨⟩
  refine ⟨fun x h₁ h₂ => .small hb hp h₁ (by omega), fun _ _ => rfl, fun f hf hfe hq => ?_, .inl hblock.symm⟩
  exact hfe (h.eq_of_block hf he (hq.symm.trans hblock.symm))

theorem Sound.keepsData_small {w : World} (h : Sound w.st w.held) {e : Held} (he : e ∈ w.held)
    (h0 : w.st.resStart ≠ 0) {r : Run} {i : Nat} (hb : SmallBlock w.st (runOf e.ptr) r i)
    (hp : e.ptr = blockAddr (runOf e.ptr) r i) {t : Tid} {os : Os} {m n : Nat}
    (hok : w.Clean t os (.realloc e.ptr n)) (hn : 1 ≤ n) (hm : Inside w.st e.block e.ptr m)
    (hmalloc : w.st.MallocGives t os n) : KeepsData w t os e m n := by
  obtain ⟨hos, hneeds, -, -⟩ := hok
  obtain ⟨L, hcore⟩ := h.core
  have hlow := low_of_runOf hp
  have hrun := hcore.run _ r hb.run
  obtain ⟨hne, hold⟩ := hcore.oldSize_small (h.ledger.reserved h0) h0 hb hlow
  rw [← hp] at hne hold
  have hblock := h.small_block he hb hp
  rw [hblock] at hm
  have hm := hcore.inside_small hb hp hm
  have hn0 : n ≠ 0 := by omega
  simp only [State.OpNeeds, if_neg hne, if_neg hn0] at hneeds
  by_cases hfits : n ≤ r.elem ∧ r.elem < kLargeMin ∧ r.elem / 2 < n
  · exact h.keepsData_inPlace he hb hp hne hn0 hold hfits
  have hgrant := hneeds _ hold hfits
  have hmoves : w.st.realloc t os e.ptr n = w.st.reallocMove t os e.ptr r.elem n := by
    simp only [State.realloc, hne, hn0, if_false, hold, if_neg hfits, bind, Except.bind]
  obtain ⟨ans, s₁, hcall, -, hs₁, hnew⟩ := h.malloc hos hgrant
  have hkept : ∀ b, Unchanged w.st s₁ b := fun b x hx => h.malloc_kept hos hgrant hcall hx
  cases ans with
  | none =>
      refine ⟨none, s₁, ?_, fun f _ _ => hkept _, fun _ => hkept _, fun q hq => by cases hq⟩
      rw [hmoves]
      simp only [State.reallocMove, hcall, bind, Except.bind]
  | some q =>
      have hin := hmalloc q s₁ hcall
      have hsize := (h.malloc_inside hos (hgrant.mono fun _ _ _ _ hg => hg.2) hcall).mp hin
      obtain ⟨r₁, hb₁, haddr, hmove⟩ := h.reallocMove_small h0 hb hlow hos hn hsize hgrant hcall
      rw [← hp] at hb₁ haddr hmove
      obtain ⟨-, hfresh, -⟩ := hnew q rfl
      have hs₂ : Sound (s₁.copied q e.ptr (min r.elem n)) w.held := hs₁.fill _ _ _
      obtain ⟨L₁, hcore₁⟩ := hs₁.core
      obtain ⟨L₂, hcore₂⟩ := hs₂.core
      have hok₂ := hcore₂.run _ r₁ hb₁.run
      -- what begins elsewhere than the new block is spared by the copy, and what begins
      -- elsewhere than the old one by the release
      have hspared : ∀ b x, Within s₁ b x → b ≠ q →
          Within (s₁.copied q e.ptr (min r.elem n)) b x ∧
            (s₁.copied q e.ptr (min r.elem n)).mem x = s₁.mem x := by
        intro b x hx hbq
        refine ⟨hx.fill _ _ _, copied_mem_outside s₁ fun hr => hbq ?_⟩
        exact hcore₁.within_unique hx (hin x hr.1 (by omega))
      have hstays : ∀ b x, Within (s₁.copied q e.ptr (min r.elem n)) b x → b ≠ e.ptr →
          Within ((s₁.copied q e.ptr (min r.elem n)).afterGive (runOf e.ptr) r₁ i
            (os.after 2).now) b x :=
        fun b x hx hbe => afterGive_keeps hok₂ hb₁.run hb₁.index (by rw [haddr]; exact hbe) hx
      have hqe : q ≠ e.ptr := fun hq => hfresh e he (hblock.trans hq.symm)
      refine ⟨some q, _, hmoves.trans hmove, fun f hf hfe x hx => ?_, fun hnone => (by cases hnone), ?_⟩
      · obtain ⟨hx₁, hmem₁⟩ := hkept _ x hx
        obtain ⟨hx₂, hmem₂⟩ := hspared _ x hx₁ (hfresh f hf)
        have hne' : f.block ≠ e.ptr := fun heq => hfe (h.eq_of_block hf he (heq.trans hblock.symm))
        exact ⟨hstays _ x hx₂ hne', hmem₂.trans hmem₁⟩
      · rintro _ ⟨⟩
        refine ⟨fun x h₁ h₂ => hstays q x ((hin x h₁ h₂).fill _ _ _) hqe, fun j hj => ?_,
          fun f hf _ hq => hfresh f hf hq.symm, .inr fun x => ?_⟩
        · have hcopied := copied_mem s₁ (q := q) (p := e.ptr) (k := min r.elem n) (j := j) (by omega)
          have hx : Within w.st e.ptr (e.ptr + j) := .small hb hp (Nat.le_add_right _ _) (by omega)
          exact hcopied.trans (hkept _ _ hx).2
        · have hgone := hcore₂.given_gone hb₁ (os.after 2).now x
          rw [haddr] at hgone
          rw [hblock]
          exact hgone

/-! ## Large blocks -/

theorem Sound.keepsData_refused {w : World} (h : Sound w.st w.held) {e : Held} (he : e ∈ w.held)
    (h0 : w.st.resStart ≠ 0) (hl : ∃ l, w.st.larges (e.ptr - sizeofLargeHdr) = some l)
    (hsmall : w.st.oursSmall e.ptr = .ok false) {t : Tid} {os : Os} {m n : Nat} (hok : w.Clean t os (.realloc e.ptr n)) (hn : 1 ≤ n)
    (hnull : ∀ q s', w.st.malloc t os n ≠ .ok (some q, s')) : KeepsData w t os e m n := by
  obtain ⟨hos, hneeds, -, -⟩ := hok
  obtain ⟨L, hcore⟩ := h.core
  obtain ⟨l, hl⟩ := hl
  have hmagic := (hcore.maps.ofLarge _ l hl).1
  have hlarge : w.st.oursLarge e.ptr = .ok true := by
    simp only [State.oursLarge, State.largeMagic, hl, bind, Except.bind, hmagic, decide_true]
  have hin : w.st.inReserve e.ptr = true := hcore.inReserve (h.ledger.reserved h0) (h.blocks e he)
  have hold : w.st.oldSize e.ptr = .ok (some l.user) := by
    simp only [State.oldSize, h0, hin, hsmall, hlarge, hl, ne_eq, not_false_eq_true, and_self, if_true,
      Bool.false_eq_true, if_false, bind, Except.bind]
  have hne := h.ptr_ne_zero he
  have hn0 : n ≠ 0 := by omega
  have hmoves : ¬ (n ≤ l.user ∧ l.user < kLargeMin ∧ l.user / 2 < n) := fun hfits =>
    absurd hfits.2.1 (Nat.not_lt.mpr (h.sizes _ l hl).1)
  simp only [State.OpNeeds, if_neg hne, if_neg hn0] at hneeds
  have hgrant := hneeds _ hold hmoves
  obtain ⟨ans, s₁, hcall, -⟩ := h.malloc hos hgrant
  cases ans with
  | some q => exact absurd hcall (hnull q s₁)
  | none =>
      have hkept : ∀ b, Unchanged w.st s₁ b := fun b x hx => h.malloc_kept hos hgrant hcall hx
      refine ⟨none, s₁, ?_, fun f _ _ => hkept _, fun _ => hkept _, fun q hq => by cases hq⟩
      simp only [State.realloc, State.reallocMove, hne, hn0, if_false, hold, if_neg hmoves, hcall, bind,
        Except.bind]

theorem Sound.resizable {w : World} (h : Sound w.st w.held) {e : Held} (he : e ∈ w.held) {t : Tid}
    {os : Os} {n : Nat} (hok : w.Clean t os (.realloc e.ptr n)) (hn : 1 ≤ n) {ans : Option Nat}
    {s' : State} (hrun : w.st.realloc t os e.ptr n = .ok (⟨ans, false⟩, s')) :
    Resizable w.st t os e.ptr n := by
  obtain ⟨L, hcore⟩ := h.core
  have hw := h.blocks e he
  have hne := h.ptr_ne_zero he
  have hn0 : n ≠ 0 := by omega
  -- the pointer was recognised, or libc would have answered
  obtain ⟨old, hold⟩ : ∃ old, w.st.oldSize e.ptr = .ok (some old) := by
    have hcases := realloc_cases hrun
    generalize hr : (⟨ans, false⟩ : Reply) = r at hcases
    cases hcases with
    | fresh null call => exact absurd null hne
    | emptied ptr zero release call => exact absurd zero hn0
    | forwarded ptr size foreign => simp at hr
    | inPlace ptr size own fits => exact ⟨_, own⟩
    | refused ptr size own moves call => exact ⟨_, own⟩
    | moved ptr size own moves call copy release => exact ⟨_, own⟩
  have h0 : w.st.resStart ≠ 0 := by
    intro h0
    simp [State.oldSize, h0] at hold
  refine ⟨h0, ?_⟩
  obtain ⟨-, ⟨r, i, hb, hp, -⟩ | ⟨a, l, hl, hp, rfl⟩⟩ := oldSize_cases hcore hw hold
  · exact .inl ⟨r, i, hb, hp⟩
  · have ha : e.ptr - sizeofLargeHdr = a := by omega
    rw [← ha] at hl
    have hsmall : w.st.oursSmall e.ptr = .ok false := by
      unfold State.oldSize at hold
      split at hold
      · obtain ⟨small, hsmall, hold⟩ := bind_ok hold
        cases small with
        | false => exact hsmall
        | true =>
            simp only [if_true] at hold
            cases hr : w.st.runs (runOf e.ptr) with
            | none =>
                rw [hr] at hold
                cases hold
            | some r =>
                obtain ⟨-, i, hb, hp'⟩ := oursSmall_block hcore hw hr hsmall
                exact absurd (hp'.symm.trans hp) (hcore.small_not_large hb (ha ▸ hl))
      · cases hold
    refine .inr ⟨⟨l, hl⟩, hsmall, fun q s₁ hcall => ?_⟩
    -- with a block to move to, the release of the old one would not have returned
    have hin : w.st.inReserve e.ptr = true := hcore.inReserve (h.ledger.reserved h0) hw
    have hmoves : ¬ (n ≤ l.user ∧ l.user < kLargeMin ∧ l.user / 2 < n) := fun hfits =>
      absurd hfits.2.1 (Nat.not_lt.mpr (h.sizes _ l hl).1)
    have hexec : w.st.exec t os (.realloc e.ptr n) = .ok (ans, s') := by
      simp only [State.exec, hrun, bind, Except.bind]
    refine h.no_large_released hok hexec ⟨hne, ⟨hin, l, hl⟩, .inr ?_⟩
    cases hcopy : s₁.memcpy q e.ptr (min l.user n) with
    | ok s₂ => exact ⟨s₂, l.user, q, s₁, hold, hmoves, hcall, hcopy⟩
    | error trap =>
        simp only [State.realloc, State.reallocMove, hne, hn0, if_false, hold, if_neg hmoves, hcall,
          hcopy, bind, Except.bind] at hrun
        cases hrun

theorem Sound.keepsData_iff {w : World} (h : Sound w.st w.held) {e : Held} (he : e ∈ w.held) {t : Tid}
    {os : Os} {m n : Nat} (hok : w.Clean t os (.realloc e.ptr n)) (hn : 1 ≤ n)
    (hm : Inside w.st e.block e.ptr m) (hmalloc : w.st.MallocGives t os n) :
    KeepsData w t os e m n ↔ Resizable w.st t os e.ptr n := by
  constructor
  · rintro ⟨ans, s', hrun, -⟩
    exact h.resizable he hok hn hrun
  · rintro ⟨h0, ⟨r, i, hb, hp⟩ | ⟨hl, hsmall, hnull⟩⟩
    · exact h.keepsData_small he h0 hb hp hok hn hm hmalloc
    · exact h.keepsData_refused he h0 hl hsmall hok hn hnull

/-! ## Chains -/

/-- A held pointer is resized to each of the sizes in turn, every time under the
condition above; in between come steps that neither free nor resize it nor change the
bytes of its block. -/
inductive Chain : World → Held → List Nat → World → Held → Prop where
  | nil (w : World) (e : Held) : Chain w e [] w e
  | resize {w w₁ w' : World} {e e' : Held} {n : Nat} {sizes : List Nat} (t : Tid) (os : Os)
      (ans : Option Nat) (size : 1 ≤ n) (clean : w.Clean t os (.realloc e.ptr n))
      (gives : w.st.MallocGives t os n) (condition : Resizable w.st t os e.ptr n) :
        w.exec t os (.realloc e.ptr n) = .ok (ans, w₁) →
          Chain w₁ (ans.elim e fun q => ⟨q, q⟩) sizes w' e' → Chain w e (n :: sizes) w' e'
  | other {w w₁ w' : World} {e e' : Held} {sizes : List Nat} (u : Tid) (os : Os) (op : Op)
      (ans : Option Nat) (clean : w.Clean u os op) (spares : SparesPtr e.ptr op)
      (bytes : ∀ x, Within w.st e.block x → w₁.st.mem x = w.st.mem x) :
        w.exec u os op = .ok (ans, w₁) → Chain w₁ e sizes w' e' → Chain w e sizes w' e'

theorem resized_held {w w₁ : World} {e : Held} (he : e ∈ w.held) {t : Tid} {os : Os} {n : Nat}
    (hp : e.ptr ≠ 0) (hn : n ≠ 0) {ans : Option Nat} {s' : State}
    (hrun : w.st.realloc t os e.ptr n = .ok (⟨ans, false⟩, s')) {ans' : Option Nat}
    (hx : w.exec t os (.realloc e.ptr n) = .ok (ans', w₁)) :
    ans' = ans ∧ w₁.st = s' ∧ (ans.elim e fun q => ⟨q, q⟩) ∈ w₁.held := by
  obtain ⟨⟨r, s₁⟩, h₁, hw⟩ := bind_ok hx
  have hexec : w.st.exec t os (.realloc e.ptr n) = .ok (ans, s') := by
    simp only [State.exec, hrun, bind, Except.bind]
  rw [hexec] at h₁
  cases h₁
  cases hw
  have hkept : w.st.forwards e.ptr = false := by
    have hcases := realloc_cases hrun
    generalize hr : (⟨ans, false⟩ : Reply) = r at hcases
    cases hcases with
    | fresh null call => exact absurd null hp
    | emptied ptr zero release call => exact absurd zero hn
    | forwarded ptr size foreign => simp at hr
    | inPlace ptr size own fits => rw [State.forwards, own]
    | refused ptr size own moves call => rw [State.forwards, own]
    | moved ptr size own moves call copy release => rw [State.forwards, own]
  refine ⟨rfl, rfl, ?_⟩
  show _ ∈ if e.ptr = 0 then _ else if n = 0 then _ else if _ then _ else _
  rw [if_neg hp, if_neg hn, hkept, if_neg Bool.false_ne_true]
  cases ans with
  | none => exact he
  | some q => exact List.mem_cons_self

/-- The common prefix of all the sizes survives; the induction is on the chain. -/
theorem Sound.chain {w w' : World} (h : Sound w.st w.held) {e e' : Held} (he : e ∈ w.held)
    {sizes : List Nat} (hc : Chain w e sizes w' e') {m : Nat} (hm : Inside w.st e.block e.ptr m) :
    ∀ j, j < m → (∀ n ∈ sizes, j < n) → w'.st.mem (e'.ptr + j) = w.st.mem (e.ptr + j) := by
  induction hc generalizing m with
  | nil w e => exact fun _ _ _ => rfl
  | @resize w w₁ w' e e' n sizes t os ans size clean gives condition step rest ih =>
      intro j hj hsizes
      have hp := h.ptr_ne_zero he
      obtain ⟨ans', s', hrun, -, hnull, hnew⟩ := (h.keepsData_iff he clean size hm gives).mpr condition
      obtain ⟨rfl, rfl, hheld⟩ := resized_held he hp (by omega) hrun step
      have h₁ := h.exec clean step
      have hjn : j < n := hsizes n List.mem_cons_self
      have hrest : ∀ k ∈ sizes, j < k := fun k hk => hsizes k (List.mem_cons_of_mem _ hk)
      cases ans with
      | none =>
          have hin : Inside w₁.st e.block e.ptr m := fun x hx₁ hx₂ => (hnull rfl x (hm x hx₁ hx₂)).1
          have hsame := (hnull rfl (e.ptr + j) (hm _ (Nat.le_add_right _ _) (by omega))).2
          exact (ih h₁ hheld hin j hj hrest).trans hsame
      | some q =>
          obtain ⟨hin, hbytes, -⟩ := hnew q rfl
          exact (ih h₁ hheld hin j hjn hrest).trans (hbytes j (by omega))
  | other u os op ans clean spares bytes step rest ih =>
      intro j hj hsizes
      obtain ⟨he₁, hkept⟩ := h.held_kept clean he spares step
      have hin := fun x hx₁ hx₂ => hkept x (hm x hx₁ hx₂)
      have hsame := bytes _ (hm (_ + j) (Nat.le_add_right _ _) (by omega))
      exact (ih (h.exec clean step) he₁ hin j hj hsizes).trans hsame

end Memflux.Alloc
