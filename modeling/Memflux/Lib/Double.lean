import Mathlib

/-! # Double arithmetic

The operations on doubles that a program uses, over a type left open: an IEEE
type and the rationals are both instances. Comparisons are those of the language
and answer `false` on unordered operands. `LawfulDouble` adds a few equations that
hold in both, `OrderedDouble` the laws of the comparisons.
-/

/-- Conversion of an unsigned integer, decimal literals `m * 10 ^ (-e)`, arithmetic
and comparisons. -/
class Double (F : Type) where
  ofNat : Nat → F
  dec : Nat → Nat → F
  sub : F → F → F
  mul : F → F → F
  div : F → F → F
  lt : F → F → Bool
  le : F → F → Bool

namespace Double

variable {F : Type} [Double F]

def zero : F := ofNat 0

def one : F := ofNat 1

/-- `std::min`. -/
def min (a b : F) : F := if lt b a then b else a

end Double

open Double in
/-- Facts about finite values that rounding does not touch: `1 - min(1, 1 * 4)` is
zero, a quotient of an integer by 1024 times zero is zero, zero divided by a positive
integer is zero, which is not one, a count up to 2^52 over itself is one, and different
counts up to 2^52 over one total have different quotients. -/
class LawfulDouble (F : Type) [Double F] : Prop where
  cold_one : sub (one : F) (min one (mul one (ofNat 4))) = zero
  mul_zero : ∀ n : Nat, mul (div (ofNat n : F) (ofNat 1024)) zero = zero
  zero_div : ∀ n : Nat, 0 < n → div (ofNat 0 : F) (ofNat n) = zero
  zero_ne_one : (zero : F) ≠ one
  div_full : ∀ n : Nat, 0 < n → n ≤ 2 ^ 52 → div (ofNat (n * 4) : F) (ofNat (n * 4)) = one
  count_inj : ∀ a b n : Nat, a ≤ n → b ≤ n → 0 < n → n ≤ 2 ^ 52 →
    div (ofNat (a * 4) : F) (ofNat (n * 4)) = div (ofNat (b * 4)) (ofNat (n * 4)) → a = b

/-- A value other than NaN, the only one that does not compare with itself. -/
def Double.Ordinary {F : Type} [Double F] (a : F) : Prop := Double.le a a = true

/-- Comparisons: of ordinary values just one of `a < b` and `b ≤ a` holds, and every
comparison with NaN on its right, or of `≤` with NaN on its left, answers `false`. -/
class OrderedDouble (F : Type) [Double F] : Prop where
  lt_eq : ∀ a b : F, Double.Ordinary a → Double.Ordinary b → Double.lt a b = !Double.le b a
  lt_nan : ∀ a b : F, ¬ Double.Ordinary b → Double.lt a b = false
  le_nan : ∀ a b : F, ¬ Double.Ordinary a → Double.le a b = false
  zero_ordinary : Double.Ordinary (Double.zero : F)

instance : Double ℚ where
  ofNat n := n
  dec m e := m / 10 ^ e
  sub a b := a - b
  mul a b := a * b
  div a b := a / b
  lt a b := decide (a < b)
  le a b := decide (a ≤ b)

instance : LawfulDouble ℚ where
  cold_one := by decide +kernel
  mul_zero n := by simp [Double.mul, Double.zero, Double.ofNat]
  zero_div n _ := by simp [Double.div, Double.zero, Double.ofNat]
  zero_ne_one := by decide +kernel
  div_full n hn _ := by
    have hn : ((n * 4 : ℕ) : ℚ) ≠ 0 := by positivity
    exact (div_self hn).trans Nat.cast_one.symm
  count_inj a b n _ _ hn _ h := by
    have hn : ((n * 4 : ℕ) : ℚ) ≠ 0 := by positivity
    have hab : ((a * 4 : ℕ) : ℚ) = (b * 4 : ℕ) := (div_left_inj' hn).mp h
    have hab : a * 4 = b * 4 := by exact_mod_cast hab
    omega

instance : OrderedDouble ℚ where
  lt_eq a b _ _ := by simp [Double.lt, Double.le, ← decide_not]
  lt_nan a b h := absurd (decide_eq_true (le_refl b)) h
  le_nan a b h := absurd (decide_eq_true (le_refl a)) h
  zero_ordinary := decide_eq_true (le_refl _)
