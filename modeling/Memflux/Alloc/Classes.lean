import Memflux.Lib.BitWords
import Memflux.Lib.Span

/-! # Size classes and run geometry

The class table, the binary search over it, and the layout of a run: a header, a
bitmap with one bit per block, padding up to a page, then the blocks. Everything
is 64-bit arithmetic unless the source says `uint32_t`.
-/

namespace Memflux.Alloc

open Spans

def wrap64 (n : Nat) : Nat := n % 2 ^ 64

def wrapSub (x y : Nat) : Nat := (x + 2 ^ 64 - y) % 2 ^ 64

def kSizes : List Nat := [
  8, 16, 24, 32, 40, 48, 56, 64, 80, 96, 112, 128,
  160, 192, 224, 256, 320, 384, 448, 512, 640, 768, 896, 1024,
  1280, 1536, 1792, 2048, 2560, 3072, 3584, 4096, 5120, 6144, 7168, 8192,
  10240, 12288, 14336, 16384, 20480, 24576, 28672, 32768, 40960, 49152, 57344, 65536,
  81920, 98304, 114688, 131072, 163840, 196608, 229376, 262144, 327680, 393216, 458752, 524288,
  655360, 786432, 917504, 1048576, 1310720, 1572864, 1835008, 2097152]

def kNumClasses : Nat := 68
def kLargeMin : Nat := 2097153
def kRunSize : Nat := 2097152
def kMaxElems : Nat := 65536
def kReserveSize : Nat := 2 ^ 40

/-- `sizeof(Run)` without the flexible bitmap. -/
def sizeofRun : Nat := 56
def sizeofLargeHdr : Nat := 24

/-- `kSizes[c]`. -/
def kSize (c : Nat) : Nat := kSizes.getD c 0

/-- The loop of `class_of`; the fuel bounds the number of halvings. -/
def classLoop (n : Nat) : Nat → Nat → Nat → Nat
  | 0, lo, _ => lo
  | fuel + 1, lo, hi =>
      if lo < hi then
        let mid := (lo + hi) / 2
        if kSize mid < n then classLoop n fuel (mid + 1) hi else classLoop n fuel lo mid
      else lo

/-- 1-based index of the smallest class that holds `n` bytes. -/
def classOf (n : Nat) : Nat := classLoop n kNumClasses 0 kNumClasses + 1

/-- `(n + 4095) & ~4095`. -/
def pageUp (n : Nat) : Nat := roundDown (wrap64 (n + 4095)) 4096

/-- The sum is a `uint32_t`. -/
def bitsWords (e : Nat) : Nat := (e + 63) % 2 ^ 32 / 64

def dataOffsetPadded (e : Nat) : Nat := pageUp (sizeofRun + bitsWords e * 8)

def runBytes (elems elem : Nat) : Nat := dataOffsetPadded elems + elems * elem

/-- `run_new`'s number of blocks in a run of class `c` (0-based). -/
def elemsOf (c : Nat) : Nat := min (kRunSize / kSize c) kMaxElems

/-- Length of the mapping of a run of class `c`; `run_new` and `purge_run` both compute it. -/
def runMap (c : Nat) : Nat := pageUp (runBytes (elemsOf c) (kSize c))

/-- Length of the mapping of a large block of `n` bytes. -/
def largeMap (n : Nat) : Nat := pageUp (wrap64 (sizeofLargeHdr + n))

/-! ## The class table -/

theorem kSize_mono : ∀ c, c < 67 → kSize c < kSize (c + 1) := by decide

theorem kSize_strictMono {c d : Nat} (h : c < d) (hd : d < kNumClasses) : kSize c < kSize d := by
  induction d with
  | zero => omega
  | succ d ih =>
      have hstep := kSize_mono d (by unfold kNumClasses at hd; omega)
      by_cases he : c = d
      · exact he ▸ hstep
      · exact Nat.lt_trans (ih (by omega) (by omega)) hstep

/-- The binary search keeps every class below `lo` too small and every class from
`hi` on large enough. -/
theorem classLoop_spec (n fuel lo hi : Nat) (hfuel : hi - lo ≤ fuel) (hle : lo ≤ hi)
    (hhi : hi ≤ kNumClasses) (hlow : ∀ c, c < lo → kSize c < n)
    (hhigh : ∀ c, hi ≤ c → c < kNumClasses → n ≤ kSize c) :
    classLoop n fuel lo hi ≤ kNumClasses ∧ (∀ c, c < classLoop n fuel lo hi → kSize c < n) ∧
      ∀ c, classLoop n fuel lo hi ≤ c → c < kNumClasses → n ≤ kSize c := by
  induction fuel generalizing lo hi with
  | zero =>
      have : lo = hi := by omega
      subst this
      exact ⟨hhi, hlow, hhigh⟩
  | succ fuel ih =>
      unfold classLoop
      by_cases hlt : lo < hi
      · simp only [hlt, if_true]
        by_cases hmid : kSize ((lo + hi) / 2) < n
        · rw [if_pos hmid]
          refine ih _ _ (by omega) (by omega) hhi ?_ hhigh
          intro c hc
          by_cases he : c = (lo + hi) / 2
          · exact he ▸ hmid
          · exact Nat.lt_trans (kSize_strictMono (show c < (lo + hi) / 2 by omega) (by omega)) hmid
        · rw [if_neg hmid]
          refine ih _ _ (by omega) (by omega) (by omega) hlow ?_
          intro c hc hcn
          by_cases he : c = (lo + hi) / 2
          · exact he ▸ Nat.le_of_not_lt hmid
          · have := kSize_strictMono (show (lo + hi) / 2 < c by omega) hcn
            omega
      · rw [if_neg hlt]
        have : lo = hi := by omega
        subst this
        exact ⟨hhi, hlow, hhigh⟩

theorem classOf_spec {n : Nat} (hn : n ≤ 2097152) :
    ∃ c, classOf n = c + 1 ∧ c < kNumClasses ∧ n ≤ kSize c ∧ ∀ d, d < c → kSize d < n := by
  obtain ⟨hle, hlow, hhigh⟩ := classLoop_spec n kNumClasses 0
    kNumClasses (by omega) (by omega) (by omega) (fun _ h => absurd h (by omega))
    (fun _ h₁ h₂ => absurd h₁ (by omega))
  have hlt : classLoop n kNumClasses 0 kNumClasses < kNumClasses := by
    by_contra hge
    have h67 := hlow 67 (by unfold kNumClasses at hle hge ⊢; omega)
    have : kSize 67 = 2097152 := by decide
    omega
  exact ⟨_, rfl, hlt, hhigh _ (Nat.le_refl _) hlt, hlow⟩

/-! ## Geometry of a run, class by class -/

/-- What the layout of a run of class `c` provides. -/
structure Geometry (c : Nat) : Prop where
  elem_pos : 8 ≤ kSize c
  elem_le : kSize c ≤ 2097152
  elem_mod : kSize c % 8 = 0
  elems_pos : 1 ≤ elemsOf c
  elems_le : elemsOf c ≤ 65536
  words : bitsWords (elemsOf c) = BitWords.wordsFor (elemsOf c)
  data_mod : dataOffsetPadded (elemsOf c) % 4096 = 0
  data_ge : sizeofRun + bitsWords (elemsOf c) * 8 ≤ dataOffsetPadded (elemsOf c)
  data_le : dataOffsetPadded (elemsOf c) ≤ 12288
  blocks_le : elemsOf c * kSize c ≤ 2097152
  map_mod : runMap c % 4096 = 0
  map_ge : dataOffsetPadded (elemsOf c) + elemsOf c * kSize c ≤ runMap c
  map_le : runMap c ≤ 2109440

theorem geometry {c : Nat} (hc : c < kNumClasses) : Geometry c := by
  have h : ∀ c, c < 68 → (8 ≤ kSize c ∧ kSize c ≤ 2097152 ∧ kSize c % 8 = 0) ∧
      (1 ≤ elemsOf c ∧ elemsOf c ≤ 65536 ∧ elemsOf c * kSize c ≤ 2097152 ∧
        bitsWords (elemsOf c) = BitWords.wordsFor (elemsOf c)) ∧
      (dataOffsetPadded (elemsOf c) % 4096 = 0 ∧
        sizeofRun + bitsWords (elemsOf c) * 8 ≤ dataOffsetPadded (elemsOf c) ∧
        dataOffsetPadded (elemsOf c) ≤ 12288) ∧
      runMap c % 4096 = 0 ∧ dataOffsetPadded (elemsOf c) + elemsOf c * kSize c ≤ runMap c ∧
        runMap c ≤ 2109440 := by decide +kernel
  obtain ⟨⟨h1, h2, h3⟩, ⟨h4, h5, h6, h7⟩, ⟨h8, h9, h10⟩, h11, h12, h13⟩ := h c hc
  exact ⟨h1, h2, h3, h4, h5, h7, h8, h9, h10, h6, h11, h12, h13⟩

theorem pageUp_mod (n : Nat) : pageUp n % 4096 = 0 := roundDown_mod _ _

theorem le_pageUp {n : Nat} (h : n + 4095 < 2 ^ 64) : n ≤ pageUp n ∧ pageUp n < n + 4096 := by
  have hw : wrap64 (n + 4095) = n + 4095 := Nat.mod_eq_of_lt h
  have h₁ := roundDown_le (n + 4095) 4096
  have h₂ := lt_roundDown_add (w := n + 4095) (a := 4096) (by omega)
  unfold pageUp
  rw [hw]
  omega

end Memflux.Alloc
