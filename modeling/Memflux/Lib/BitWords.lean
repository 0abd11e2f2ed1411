import Mathlib

/-! # Bitmaps stored as a list of 64-bit words

Bit `k` lives in word `k / 64` at position `k % 64`. The word operations are the
usual machine ones: set one bit, clear the lowest set bit with `b & (b - 1)`,
fill with ones and mask the last partial word. Every statement about them is
stated through `bitAt`, so that clients reason about one function from indices
to booleans.
-/

namespace BitWords

abbrev Word := BitVec 64

/-- Word `i`; zero past the last word. -/
def wordAt (ws : List Word) (i : Nat) : Word := ws.getD i 0#64

/-- The bit with index `k`; `false` past the last word. -/
def bitAt (ws : List Word) (k : Nat) : Bool := (wordAt ws (k / 64)).getLsbD (k % 64)

/-- `ws[k / 64] |= 1 << (k % 64)`. -/
def setBit (ws : List Word) (k : Nat) : List Word :=
  ws.set (k / 64) (wordAt ws (k / 64) ||| BitVec.twoPow 64 (k % 64))

/-- `b & (b - 1)`. -/
def clearLow (b : Word) : Word := b &&& (b - 1#64)

/-- `ws[i] = ws[i] & (ws[i] - 1)`. -/
def clearLowAt (ws : List Word) (i : Nat) : List Word :=
  ws.set i (clearLow (wordAt ws i))

/-- Number of words that hold `e` bits. -/
def wordsFor (e : Nat) : Nat := (e + 63) / 64

/-- Every word all ones, then the last partial word masked down to `e % 64` bits. -/
def ones (e : Nat) : List Word :=
  let ws := List.replicate (wordsFor e) (BitVec.allOnes 64)
  if e % 64 ≠ 0 then
    ws.set (e / 64) (wordAt ws (e / 64) &&& (BitVec.twoPow 64 (e % 64) - 1#64))
  else ws

/-- First set bit below `e`, scanning the first `w` words; a word whose lowest
set bit is not below `e` is passed over. -/
def firstSet (ws : List Word) (w e : Nat) : Option Nat :=
  (List.range w).findSome? fun i =>
    let b := wordAt ws i
    if b = 0#64 then none
    else
      let idx := i * 64 + b.ctz.toNat
      if e ≤ idx then none else some idx

/-- Number of clear bits below `e`. -/
def clears (ws : List Word) (e : Nat) : Nat := Nat.count (fun k => bitAt ws k = false) e

/-! ## Single words -/

theorem ctz_toNat_lt {b : Word} (hb : b ≠ 0#64) : b.ctz.toNat < 64 := by
  have h := BitVec.ctz_lt_iff_ne_zero.mpr hb
  simpa [BitVec.lt_def] using h

private theorem mod_two_pow_ctz {b : Word} (hb : b ≠ 0#64) :
    b.toNat % 2 ^ (b.ctz.toNat + 1) = 2 ^ b.ctz.toNat := by
  apply Nat.eq_of_testBit_eq
  intro j
  rw [Nat.testBit_mod_two_pow, Nat.testBit_two_pow]
  rcases Nat.lt_trichotomy j b.ctz.toNat with hj | hj | hj
  · have hz : b.toNat.testBit j = false := BitVec.getLsbD_false_of_lt_ctz hj
    simp [hz, Nat.ne_of_gt hj]
  · have ho : b.toNat.testBit b.ctz.toNat = true := BitVec.getLsbD_true_ctz_of_ne_zero hb
    simp [hj, ho]
  · simp [Nat.ne_of_lt hj, show ¬ j < b.ctz.toNat + 1 by omega]

theorem clearLow_getLsbD {b : Word} (hb : b ≠ 0#64) (j : Nat) :
    (clearLow b).getLsbD j = (decide (j ≠ b.ctz.toNat) && b.getLsbD j) := by
  have hpos : 0 < b.toNat := by
    have : b.toNat ≠ 0 := fun h => hb (BitVec.eq_of_toNat_eq (by simpa using h))
    omega
  have hsub : (b - 1#64).toNat = b.toNat - 1 := by
    have hlt := b.isLt
    simp only [BitVec.toNat_sub, BitVec.toNat_ofNat]
    omega
  have hdecomp := Nat.div_add_mod b.toNat (2 ^ (b.ctz.toNat + 1))
  rw [mod_two_pow_ctz hb] at hdecomp
  have hp := Nat.two_pow_pos b.ctz.toNat
  have hsucc : 2 ^ (b.ctz.toNat + 1) = 2 ^ b.ctz.toNat + 2 ^ b.ctz.toNat := by
    rw [Nat.pow_succ]; omega
  have hpred : b.toNat - 1 =
      2 ^ (b.ctz.toNat + 1) * (b.toNat / 2 ^ (b.ctz.toNat + 1)) + (2 ^ b.ctz.toNat - 1) := by
    omega
  have hbit : b.toNat.testBit j =
      if j < b.ctz.toNat + 1 then (2 ^ b.ctz.toNat).testBit j
      else (b.toNat / 2 ^ (b.ctz.toNat + 1)).testBit (j - (b.ctz.toNat + 1)) := by
    conv_lhs => rw [← hdecomp]
    exact Nat.testBit_two_pow_mul_add _ (by omega) j
  simp only [clearLow, BitVec.getLsbD_and]
  simp only [BitVec.getLsbD, hsub]
  rw [hbit, hpred, Nat.testBit_two_pow_mul_add _ (by omega) j]
  by_cases hj : j < b.ctz.toNat + 1
  · simp only [hj, if_true, Nat.testBit_two_pow, Nat.testBit_two_pow_sub_one]
    by_cases he : b.ctz.toNat = j
    · simp [he]
    · simp [he]
  · simp only [hj, if_false, Bool.and_self]
    simp [show j ≠ b.ctz.toNat by omega]

/-! ## Bits of a list of words -/

theorem wordAt_set (ws : List Word) (i j : Nat) (b : Word) (hi : i < ws.length) :
    wordAt (ws.set i b) j = if i = j then b else wordAt ws j := by
  simp only [wordAt, List.getD_eq_getElem?_getD, List.getElem?_set]
  by_cases hij : i = j
  · subst hij; simp [hi]
  · simp [hij]

theorem wordAt_replicate {n i : Nat} (b : Word) (hi : i < n) :
    wordAt (List.replicate n b) i = b := by
  simp [wordAt, List.getD_eq_getElem?_getD, hi]

theorem bitAt_out {ws : List Word} {k : Nat} (hk : ws.length ≤ k / 64) : bitAt ws k = false := by
  simp [bitAt, wordAt, List.getD_eq_getElem?_getD, List.getElem?_eq_none hk]

@[simp] theorem setBit_length (ws : List Word) (k : Nat) : (setBit ws k).length = ws.length := by
  simp [setBit]

@[simp] theorem clearLowAt_length (ws : List Word) (i : Nat) :
    (clearLowAt ws i).length = ws.length := by
  simp [clearLowAt]

theorem bitAt_setBit {ws : List Word} {k : Nat} (hk : k / 64 < ws.length) (j : Nat) :
    bitAt (setBit ws k) j = (decide (j = k) || bitAt ws j) := by
  unfold bitAt setBit
  rw [wordAt_set _ _ _ _ hk]
  by_cases hw : k / 64 = j / 64
  · rw [if_pos hw, BitVec.getLsbD_or, BitVec.getLsbD_twoPow, hw]
    have hm : k % 64 = j % 64 ↔ j = k := by omega
    have hlt : k % 64 < 64 := Nat.mod_lt _ (by omega)
    by_cases hjk : j = k
    · simp [hjk, hlt]
    · simp [hjk, hm]
  · rw [if_neg hw]
    simp [show j ≠ k by intro h; exact hw (by rw [h])]

theorem bitAt_clearLowAt {ws : List Word} {i : Nat} (hi : i < ws.length)
    (hb : wordAt ws i ≠ 0#64) (j : Nat) :
    bitAt (clearLowAt ws i) j =
      (decide (j ≠ i * 64 + (wordAt ws i).ctz.toNat) && bitAt ws j) := by
  have hc := ctz_toNat_lt hb
  unfold bitAt clearLowAt
  rw [wordAt_set _ _ _ _ hi]
  by_cases hw : i = j / 64
  · subst hw
    rw [if_pos rfl, clearLow_getLsbD hb]
    have hm : j % 64 ≠ (wordAt ws (j / 64)).ctz.toNat ↔
        j ≠ j / 64 * 64 + (wordAt ws (j / 64)).ctz.toNat := by omega
    simp only [hm]
  · rw [if_neg hw]
    have hne : j ≠ i * 64 + (wordAt ws i).ctz.toNat := by omega
    simp [hne]

@[simp] theorem ones_length (e : Nat) : (ones e).length = wordsFor e := by
  unfold ones
  split <;> simp

private theorem mask_getLsbD {m j : Nat} (hm : m < 64) :
    (BitVec.twoPow 64 m - 1#64).getLsbD j = decide (j < m) := by
  have hp : 2 ^ m < 2 ^ 64 := Nat.pow_lt_pow_right (by omega) hm
  have hpos := Nat.two_pow_pos m
  have ht : (BitVec.twoPow 64 m - 1#64).toNat = 2 ^ m - 1 := by
    simp only [BitVec.toNat_sub, BitVec.toNat_ofNat, BitVec.toNat_twoPow,
      Nat.mod_eq_of_lt hp]
    omega
  simp [BitVec.getLsbD, ht]

theorem bitAt_ones (e k : Nat) : bitAt (ones e) k = decide (k < e) := by
  have hk64 : k % 64 < 64 := Nat.mod_lt _ (by omega)
  by_cases hin : k / 64 < wordsFor e
  · have hwin : wordsFor e = (e + 63) / 64 := rfl
    unfold bitAt ones
    dsimp only
    split
    · rename_i hpart
      have hlast : e / 64 < wordsFor e := by omega
      rw [wordAt_set _ _ _ _ (by simpa using hlast), wordAt_replicate _ hlast,
        wordAt_replicate _ hin]
      by_cases hw : e / 64 = k / 64
      · have hiff : k % 64 < e % 64 ↔ k < e := by omega
        rw [if_pos hw, BitVec.getLsbD_and, mask_getLsbD (Nat.mod_lt _ (by omega)),
          BitVec.getLsbD_allOnes]
        simp only [hk64, hiff, decide_true, Bool.true_and]
      · have hlt : k < e := by omega
        rw [if_neg hw, BitVec.getLsbD_allOnes]
        simp only [hk64, hlt]
    · have hlt : k < e := by omega
      rw [wordAt_replicate _ hin, BitVec.getLsbD_allOnes]
      simp only [hk64, hlt]
  · have hout : bitAt (ones e) k = false := bitAt_out (by simpa using Nat.le_of_not_lt hin)
    have : ¬ k < e := by unfold wordsFor at hin; omega
    simp [hout, this]

/-! ## Searching for a set bit -/

private theorem scan_word {ws : List Word} {e i k : Nat}
    (h : (if wordAt ws i = 0#64 then none
      else if e ≤ i * 64 + (wordAt ws i).ctz.toNat then none
      else some (i * 64 + (wordAt ws i).ctz.toNat)) = some k) :
    wordAt ws i ≠ 0#64 ∧ k = i * 64 + (wordAt ws i).ctz.toNat ∧ k < e := by
  split at h
  · cases h
  · rename_i hb
    split at h
    · cases h
    · rename_i hlt
      cases h
      exact ⟨hb, rfl, by omega⟩

private theorem scan_skip {ws : List Word} {e i j : Nat}
    (h : (if wordAt ws i = 0#64 then none
      else if e ≤ i * 64 + (wordAt ws i).ctz.toNat then none
      else some (i * 64 + (wordAt ws i).ctz.toNat)) = none)
    (hj : j / 64 = i) (he : j < e) : bitAt ws j = false := by
  subst hj
  unfold bitAt
  split at h
  · rename_i hb
    simp [hb]
  · split at h
    · rename_i hle
      exact BitVec.getLsbD_false_of_lt_ctz (by omega)
    · cases h

theorem firstSet_some {ws : List Word} {w e k : Nat} (h : firstSet ws w e = some k) :
    k / 64 < w ∧ k < e ∧ bitAt ws k = true ∧ wordAt ws (k / 64) ≠ 0#64 ∧
      k = k / 64 * 64 + (wordAt ws (k / 64)).ctz.toNat ∧
      ∀ j, j < k → bitAt ws j = false := by
  unfold firstSet at h
  obtain ⟨before, i, after, hl, hi, hbefore⟩ := List.findSome?_eq_some_iff.mp h
  have hrange := congrArg (fun l => l[before.length]?) hl
  have hlen : before.length < w := by
    have := congrArg List.length hl
    simp only [List.length_range, List.length_append, List.length_cons] at this
    omega
  simp only [List.getElem?_range hlen, List.getElem?_append_right (Nat.le_refl _), Nat.sub_self,
    List.getElem?_cons_zero, Option.some.injEq] at hrange
  obtain ⟨hb, hk, hke⟩ := scan_word hi
  have hc := ctz_toNat_lt hb
  have hki : k / 64 = i := by omega
  subst hki
  refine ⟨by omega, hke, ?_, hb, hk, ?_⟩
  · have ho := BitVec.getLsbD_true_ctz_of_ne_zero hb
    unfold bitAt
    rwa [show k % 64 = (wordAt ws (k / 64)).ctz.toNat by omega]
  · intro j hj
    by_cases hw : j / 64 = k / 64
    · unfold bitAt
      rw [hw]
      exact BitVec.getLsbD_false_of_lt_ctz (by omega)
    · have hjb : j / 64 ∈ before := by
        have hlt : j / 64 < before.length := by omega
        have hg := congrArg (fun l => l[j / 64]?) hl
        simp only [List.getElem?_range (Nat.lt_trans hlt hlen),
          List.getElem?_append_left hlt] at hg
        exact List.mem_of_getElem? hg.symm
      exact scan_skip (hbefore _ hjb) rfl (by omega)

theorem firstSet_none {ws : List Word} {w e : Nat} (h : firstSet ws w e = none)
    (hw : e ≤ 64 * w) : ∀ j, j < e → bitAt ws j = false := by
  intro j hj
  unfold firstSet at h
  have hmem : j / 64 ∈ List.range w := List.mem_range.mpr (by omega)
  exact scan_skip (List.findSome?_eq_none_iff.mp h _ hmem) rfl hj

/-! ## Counting clear bits -/

theorem clears_le (ws : List Word) (e : Nat) : clears ws e ≤ e := by
  unfold clears
  rw [Nat.count_eq_card_filter_range]
  exact Nat.le_trans (Finset.card_filter_le _ _) (by simp)

theorem clears_eq_zero {ws : List Word} {e : Nat} (h : ∀ k, k < e → bitAt ws k = true) :
    clears ws e = 0 := by
  unfold clears
  rw [Nat.count_eq_card_filter_range, Finset.card_eq_zero, Finset.filter_eq_empty_iff]
  intro k hk
  simp [h k (Finset.mem_range.mp hk)]

theorem bit_of_clears_eq_zero {ws : List Word} {e k : Nat} (h : clears ws e = 0) (hk : k < e) :
    bitAt ws k = true := by
  unfold clears at h
  rw [Nat.count_eq_card_filter_range, Finset.card_eq_zero, Finset.filter_eq_empty_iff] at h
  simpa using h (Finset.mem_range.mpr hk)

theorem clears_eq_full {ws : List Word} {e : Nat} (h : ∀ k, k < e → bitAt ws k = false) :
    clears ws e = e := by
  unfold clears
  rw [Nat.count_eq_card_filter_range, Finset.filter_true_of_mem, Finset.card_range]
  intro k hk
  exact h k (Finset.mem_range.mp hk)

theorem bit_of_clears_eq_full {ws : List Word} {e k : Nat} (h : clears ws e = e) (hk : k < e) :
    bitAt ws k = false := by
  unfold clears at h
  rw [Nat.count_eq_card_filter_range] at h
  have hall := Finset.card_filter_eq_iff.mp (h.trans (Finset.card_range e).symm)
  exact hall k (Finset.mem_range.mpr hk)

theorem clears_clear {ws ws' : List Word} {e k : Nat} (hk : k < e) (hset : bitAt ws k = true)
    (hbits : ∀ j, bitAt ws' j = (decide (j ≠ k) && bitAt ws j)) :
    clears ws' e = clears ws e + 1 := by
  unfold clears
  rw [Nat.count_eq_card_filter_range, Nat.count_eq_card_filter_range]
  have hins : (Finset.range e).filter (fun j => bitAt ws' j = false) =
      insert k ((Finset.range e).filter (fun j => bitAt ws j = false)) := by
    ext j
    simp only [Finset.mem_filter, Finset.mem_range, Finset.mem_insert, hbits j]
    by_cases hj : j = k
    · simp [hj, hk]
    · simp [hj]
  rw [hins, Finset.card_insert_of_notMem (by simp [hset])]

theorem clears_set {ws ws' : List Word} {e k : Nat} (hk : k < e) (hclear : bitAt ws k = false)
    (hbits : ∀ j, bitAt ws' j = (decide (j = k) || bitAt ws j)) :
    clears ws' e + 1 = clears ws e := by
  have hset : bitAt ws' k = true := by simp [hbits k]
  refine (clears_clear hk hset ?_).symm
  intro j
  by_cases hj : j = k
  · simp [hj, hclear]
  · simp [hj, hbits j]

end BitWords
