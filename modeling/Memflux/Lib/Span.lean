import Mathlib

/-! # Address ranges

A `Span` is a half-open range of addresses together with the alignment it was
asked for. The ledger of a mapping service is a list of pairwise disjoint spans;
releasing a range cuts it out of every span of the ledger.
-/

namespace Spans

structure Span where
  base : Nat
  size : Nat
  align : Nat
  deriving DecidableEq, Repr

namespace Span

def stop (g : Span) : Nat := g.base + g.size

def Mem (g : Span) (x : Nat) : Prop := g.base ≤ x ∧ x < g.stop

instance (g : Span) (x : Nat) : Decidable (g.Mem x) := inferInstanceAs (Decidable (_ ∧ _))

def Disjoint (g g' : Span) : Prop := g.stop ≤ g'.base ∨ g'.stop ≤ g.base

instance (g g' : Span) : Decidable (g.Disjoint g') := inferInstanceAs (Decidable (_ ∨ _))

theorem Disjoint.symm {g g' : Span} (h : g.Disjoint g') : g'.Disjoint g := Or.symm h

instance : Std.Symm Span.Disjoint := ⟨fun _ _ h => h.symm⟩

theorem Disjoint.not_mem {g g' : Span} (h : g.Disjoint g') {x : Nat} (hx : g.Mem x) :
    ¬ g'.Mem x := by
  unfold Disjoint at h
  unfold Mem at hx ⊢
  omega

/-- What is left of `g` after the range `[a, a + len)` was released. -/
def cut (a len : Nat) (g : Span) : List Span :=
  (if g.base < a then [⟨g.base, min g.stop a - g.base, g.align⟩] else []) ++
    (if a + len < g.stop then [⟨max g.base (a + len), g.stop - max g.base (a + len), g.align⟩]
      else [])

theorem cut_of_disjoint {a len : Nat} {g : Span} (hs : 0 < g.size) (hl : 0 < len)
    (h : g.stop ≤ a ∨ a + len ≤ g.base) : cut a len g = [g] := by
  have hstop : g.stop = g.base + g.size := rfl
  unfold cut
  rcases h with h | h
  · rw [if_pos (by omega), if_neg (by omega), Nat.min_eq_left h, hstop, Nat.add_sub_cancel_left]
    rfl
  · rw [if_neg (by omega), if_pos (by omega), Nat.max_eq_left h, hstop, Nat.add_sub_cancel_left]
    rfl

theorem cut_self (g : Span) : cut g.base g.size g = [] := by
  simp [cut, stop]

end Span

def Apart (gs : List Span) : Prop := gs.Pairwise Span.Disjoint

def total (gs : List Span) : Nat := (gs.map Span.size).sum

@[simp] theorem total_cons (g : Span) (gs : List Span) : total (g :: gs) = g.size + total gs := by
  simp [total]

theorem Apart.eq_of_mem {gs : List Span} (h : Apart gs) {g g' : Span} (hg : g ∈ gs) (hg' : g' ∈ gs)
    {x : Nat} (hx : g.Mem x) (hx' : g'.Mem x) : g = g' := by
  by_contra hne
  have hd : g.Disjoint g' := List.Pairwise.forall h hg hg' hne
  exact hd.not_mem hx hx'

/-- The ledger after `[a, a + len)` was released. -/
def release (a len : Nat) (gs : List Span) : List Span := gs.flatMap (Span.cut a len)

/-- Releasing one whole span of a disjoint ledger removes exactly that span. -/
theorem release_span {gs : List Span} (h : Apart gs) (hpos : ∀ g ∈ gs, 0 < g.size) {g : Span}
    (hg : g ∈ gs) : release g.base g.size gs = gs.erase g := by
  induction gs with
  | nil => simp at hg
  | cons g' gs ih =>
      obtain ⟨hd, hgs⟩ := List.pairwise_cons.mp h
      have hrest : ∀ p ∈ gs, 0 < p.size := fun p hp => hpos p (by simp [hp])
      by_cases heq : g' = g
      · subst heq
        have hkeep : release g'.base g'.size gs = gs := by
          clear ih h hg
          induction gs with
          | nil => rfl
          | cons p gs ihp =>
              obtain ⟨-, hgs⟩ := List.pairwise_cons.mp hgs
              have hp := (hd p (by simp)).symm
              have hc := Span.cut_of_disjoint (g := p) (hrest p (by simp)) (hpos g' (by simp)) hp
              simp only [release, List.flatMap_cons, hc, List.singleton_append]
              congr 1
              exact ihp (fun q hq => hpos q (by rcases List.mem_cons.mp hq with h | h <;> simp [h]))
                (fun q hq => hd q (by simp [hq])) hgs (fun q hq => hrest q (by simp [hq]))
        rw [List.erase_cons_head]
        simpa [release, Span.cut_self] using hkeep
      · have hg : g ∈ gs := (List.mem_cons.mp hg).resolve_left (Ne.symm heq)
        have hc := Span.cut_of_disjoint (g := g') (hpos g' (by simp)) (hrest g hg) (hd g hg)
        rw [List.erase_cons_tail (by simpa using heq), ← ih hgs hrest hg]
        simp [release, hc]

/-! ## Rounding -/

/-- Round `w` down to a multiple of `a`. -/
def roundDown (w a : Nat) : Nat := w / a * a

theorem roundDown_le (w a : Nat) : roundDown w a ≤ w := Nat.div_mul_le_self w a

theorem lt_roundDown_add {w a : Nat} (ha : 0 < a) : w < roundDown w a + a :=
  Nat.lt_div_mul_add ha

theorem roundDown_mod (w a : Nat) : roundDown w a % a = 0 := Nat.mul_mod_left _ _

theorem le_roundDown {b w a : Nat} (hb : b % a = 0) (h : b ≤ w) : b ≤ roundDown w a := by
  have hdiv := Nat.div_le_div_right (c := a) h
  calc b = b / a * a := (Nat.div_mul_cancel (Nat.dvd_of_mod_eq_zero hb)).symm
    _ ≤ w / a * a := Nat.mul_le_mul_right a hdiv

/-- An address less than `a` above a multiple of `a` rounds down to it. -/
theorem roundDown_of_mod {b w a : Nat} (hb : b % a = 0) (h₁ : b ≤ w) (h₂ : w < b + a) :
    roundDown w a = b := by
  have ha : 0 < a := by omega
  obtain ⟨k, rfl⟩ := Nat.dvd_of_mod_eq_zero hb
  have : w / a = k := Nat.div_eq_of_lt_le (by rwa [Nat.mul_comm]) (by
    rw [Nat.succ_mul, Nat.mul_comm]; exact h₂)
  rw [roundDown, this, Nat.mul_comm]

end Spans
