import Memflux.Core.ProcFiles

/-! # Numbers in texts

The decimal text of a number, and that it is read back, by a loop over the digits, by
`scanf` and by the operators of streams.
-/

namespace Memflux.Core

/-- `%llu`, `%u` and `%d` of a number that is not negative. -/
def digits (n : Nat) : Bytes :=
  if n = 0 then [48] else ((Nat.digits 10 n).map fun d => (d + 48).toUInt8).reverse

theorem digits_length {n k : Nat} (hk : 0 < k) (h : n < 10 ^ k) : (digits n).length ≤ k := by
  unfold digits
  split
  · exact hk
  · rw [List.length_reverse, List.length_map]
    exact (Nat.digits_length_le_iff (by decide) n).mpr h

theorem digits_u64 (n : Nat) : (digits (u64 n)).length ≤ 20 := by
  apply digits_length (by decide)
  have hlt : u64 n < 2 ^ 64 := Nat.mod_lt _ (by decide)
  exact Nat.lt_trans hlt (by decide)

theorem digits_isDigit (n : Nat) : ∀ d ∈ digits n, isDigit d = true := by
  intro d hd
  have hrange : ∀ k, k < 10 → isDigit (k + 48).toUInt8 = true := by decide
  unfold digits at hd
  split at hd
  · rw [List.mem_singleton.mp hd]
    rfl
  · rw [List.mem_reverse] at hd
    obtain ⟨k, hk, rfl⟩ := List.mem_map.mp hd
    exact hrange k (Nat.digits_lt_base (by decide) hk)

theorem digits_ne_nil (n : Nat) : digits n ≠ [] := by
  unfold digits
  split
  · exact List.cons_ne_nil _ _
  · simpa using Nat.digits_ne_nil_iff_ne_zero.mpr (by assumption)

theorem decimal_digits (n : Nat) : decimal (digits n) = n := by
  have hvalue : ∀ ds : List Nat, (∀ d ∈ ds, d < 10) →
      decimal ((ds.map fun d => (d + 48).toUInt8).reverse) = Nat.ofDigits 10 ds := by
    intro ds hds
    induction ds with
    | nil => rfl
    | cons d ds ih =>
        have hd := hds d List.mem_cons_self
        have hlast : (d + 48).toUInt8.toNat - 48 = d := by
          rw [Nat.toUInt8, UInt8.toNat_ofNat']
          omega
        rw [List.map_cons, List.reverse_cons, decimal, List.foldl_append, List.foldl_cons,
          List.foldl_nil, hlast, Nat.ofDigits_cons, ← ih fun d hd => hds d (List.mem_cons_of_mem _ hd)]
        rw [decimal, Nat.mul_comm, Nat.add_comm]
  unfold digits
  split
  · rename_i h
    rw [h]
    rfl
  · rw [hvalue _ fun d hd => Nat.digits_lt_base (by decide) hd, Nat.ofDigits_digits]

/-! ## Reading -/

theorem isDigit_range {d : UInt8} (hd : isDigit d = true) : 48 ≤ d.toNat ∧ d.toNat ≤ 57 := by
  unfold isDigit at hd
  have hrange := of_decide_eq_true hd
  rw [UInt8.le_iff_toNat_le, UInt8.le_iff_toNat_le] at hrange
  exact hrange

theorem isSpace_digit {d : UInt8} (hd : isDigit d = true) : isSpace d = false := by
  obtain ⟨hlow, hhigh⟩ := isDigit_range hd
  unfold isSpace
  apply decide_eq_false
  rw [UInt8.le_iff_toNat_le, UInt8.le_iff_toNat_le, ← UInt8.toNat_inj]
  simp
  omega

theorem numeral_append {ds : Bytes} (hds : ∀ d ∈ ds, isDigit d = true) (hsome : ds ≠ [])
    (blanks : Nat) {rest : Bytes} (hrest : ∀ b ∈ rest.head?, isDigit b = false) :
    numeral (List.replicate blanks 32 ++ (ds ++ rest)) = some ((decimal ds : Int), rest) := by
  obtain ⟨d, ds', rfl⟩ := List.exists_cons_of_ne_nil hsome
  have hd := hds d List.mem_cons_self
  have hstart : (List.replicate blanks 32 ++ (d :: ds' ++ rest)).dropWhile isSpace =
      d :: ds' ++ rest := by
    rw [List.dropWhile_append_of_pos fun b hb => by rw [List.eq_of_mem_replicate hb]; rfl,
      List.cons_append, List.dropWhile_cons_of_neg (by simp [isSpace_digit hd])]
  have hsign (b : UInt8) (hb : isDigit b = false) : (d :: ds' ++ rest).head? ≠ some b := by
    intro h
    rw [List.cons_append, List.head?_cons, Option.some.injEq] at h
    rw [h, hb] at hd
    cases hd
  have hend : rest.takeWhile isDigit = [] ∧ rest.dropWhile isDigit = rest := by
    cases rest with
    | nil => exact ⟨rfl, rfl⟩
    | cons c s =>
        have hc : ¬ isDigit c = true := by simp [hrest c rfl]
        exact ⟨List.takeWhile_cons_of_neg hc, List.dropWhile_cons_of_neg hc⟩
  unfold numeral
  dsimp only
  rw [hstart, if_neg (not_or.mpr ⟨hsign 43 rfl, hsign 45 rfl⟩), List.takeWhile_append_of_pos hds,
    List.dropWhile_append_of_pos hds, hend.1, hend.2, List.append_nil, if_neg hsome,
    if_neg (hsign 45 rfl)]

/-- `operator>>` into a `uint64_t`: what it reads, unless the stream fails. -/
def extract (s : Bytes) : Option Nat :=
  (numeral s).bind fun (z, _) => if 2 ^ 64 ≤ z ∨ z ≤ -2 ^ 64 then none else some (castU64 z)

theorem extract_digits {n : Nat} (hn : n < 2 ^ 64) {rest : Bytes}
    (hrest : ∀ b ∈ rest.head?, isDigit b = false) : extract (digits n ++ rest) = some n := by
  have hnumeral := numeral_append (digits_isDigit n) (digits_ne_nil n) 0 hrest
  rw [List.replicate_zero, List.nil_append, decimal_digits] at hnumeral
  rw [extract, hnumeral, Option.bind_some]
  dsimp only
  rw [if_neg (by omega)]
  unfold castU64
  rw [Option.some.injEq]
  omega

end Memflux.Core
