import Memflux.Core.Config

/-! # The working-set sampler

`sample_working_set` as a function of the mappings and of the kernel's answers to its
`lseek` and `pread` calls, which are numbered in the order they are made. The reading
keeps, beside the two counts of the source, the list of the entries it has seen.
-/

namespace Memflux.Core

/-- An answer of `pread`: not positive at the end of the file or on an error, else the
number of bytes put in `buf`, read as words. -/
structure Pread where
  got : Int
  buf : Nat → Nat

/-- The kernel's side of one reading of `/proc/<pid>/pagemap`: no call gives more bytes
than it is asked for. -/
structure PagemapFile where
  opens : Bool
  seek : Nat → Bool
  pread : Nat → Nat → Nat → Pread
  pread_le : ∀ call off bytes, (pread call off bytes).got ≤ bytes

/-- The locals of `sample_working_set`. Page counts stay below 2^52, the mappings of an
address space being disjoint. -/
structure Reading where
  calls : Nat := 0
  total : Nat := 0
  touched : Nat := 0
  /-- The entries seen, each with its offset in the file. -/
  entries : List (Nat × Nat) := []

/-- Bit 55 of a pagemap entry. -/
def softDirty (e : Nat) : Bool := e.testBit 55

/-- The loop over the words of `buf`. -/
def countBuf (a : Pread) (off n : Nat) (r : Reading) : Reading :=
  (List.range n).foldl (fun r i =>
    { r with
      touched := if softDirty (a.buf i) then r.touched + 1 else r.touched
      entries := r.entries ++ [(off + 8 * i, a.buf i)] }) r

/-- `while(remaining)`: nothing when the fuel runs out first. -/
def readChunks (f : PagemapFile) : Nat → Nat → Nat → Reading → Option Reading
  | 0, remaining, _, r => if remaining = 0 then some r else none
  | fuel + 1, remaining, off, r =>
      if remaining = 0 then some r
      else
        let want := if remaining < 4096 then remaining else 4096
        let a := f.pread r.calls off (want * 8)
        let r := { r with calls := r.calls + 1 }
        if a.got ≤ 0 then some r
        else
          let n := a.got.toNat / 8
          readChunks f fuel (remaining - n) (off + a.got.toNat) (countBuf a off n r)

/-- The loop body over the mappings. -/
def readVma (f : PagemapFile) (fuel : Nat) (r : Reading) (v : VmaRange) : Option Reading :=
  if v.privAnon = false ∨ v.readable = false then some r
  else
    let npages := v.len / 4096
    if npages = 0 then some r
    else
      let seeks := f.seek r.calls
      let r := { r with total := r.total + npages, calls := r.calls + 1 }
      if seeks then readChunks f fuel npages (v.start / 4096 * 8) r else some r

def sampleWorkingSet (f : PagemapFile) (fuel : Nat) (maps : List VmaRange) : Option WsSample :=
  if f.opens = false then some {}
  else
    (maps.foldlM (readVma f fuel) {}).map fun r =>
      { anonTotalKb := r.total * 4, touchedKb := r.touched * 4, regions := maps.length, ok := true }

/-! ## A file that answers -/

/-- The pages of a mapping that the sampler looks at. -/
def VmaRange.sampled (v : VmaRange) : List Nat :=
  if v.privAnon = false ∨ v.readable = false then []
  else List.range' (v.start / 4096) (v.len / 4096)

/-- The pages of the readable private anonymous mappings. -/
def anonPages (maps : List VmaRange) : List Nat := maps.flatMap VmaRange.sampled

/-- Every call succeeds, each `pread` with at least one whole entry of the table. -/
structure PagemapFile.Serves (f : PagemapFile) (entry : Nat → Nat) : Prop where
  opens : f.opens = true
  seeks : ∀ call, f.seek call = true
  reads : ∀ call page want, 0 < want → ∃ m, 0 < m ∧ m ≤ want ∧
    (f.pread call (8 * page) (want * 8)).got = ((8 * m : Nat) : Int) ∧
    ∀ i < m, (f.pread call (8 * page) (want * 8)).buf i = entry (page + i)

/-- A reading of the pages in `l`, one after the other. -/
def Reading.Counts (r r' : Reading) (entry : Nat → Nat) (l : List Nat) : Prop :=
  r'.touched = r.touched + l.countP (fun page => softDirty (entry page)) ∧
    r'.entries = r.entries ++ l.map fun page => (8 * page, entry page)

theorem Reading.Counts.trans {r r' r'' : Reading} {entry : Nat → Nat} {l l' : List Nat}
    (h : r.Counts r' entry l) (h' : r'.Counts r'' entry l') : r.Counts r'' entry (l ++ l') := by
  obtain ⟨htouched, hentries⟩ := h
  obtain ⟨htouched', hentries'⟩ := h'
  refine ⟨?_, ?_⟩
  · rw [htouched', htouched, List.countP_append, Nat.add_assoc]
  · rw [hentries', hentries, List.map_append, List.append_assoc]

theorem Reading.Counts.refl (r : Reading) (entry : Nat → Nat) : r.Counts r entry [] := by
  simp [Reading.Counts]

/-- The words of `buf` with their offsets in the file. -/
def Pread.words (a : Pread) (off n : Nat) : List (Nat × Nat) :=
  (List.range n).map fun i => (off + 8 * i, a.buf i)

theorem countBuf_seen (a : Pread) (off n : Nat) (r : Reading) :
    (countBuf a off n r).entries = r.entries ++ a.words off n ∧
      (countBuf a off n r).touched =
        r.touched + (a.words off n).countP (fun x => softDirty x.2) ∧
      (countBuf a off n r).total = r.total ∧ (countBuf a off n r).calls = r.calls := by
  induction n with
  | zero => exact ⟨(List.append_nil _).symm, rfl, rfl, rfl⟩
  | succ n ih =>
      obtain ⟨hentries, htouched, htotal, hcalls⟩ := ih
      have hlast : countBuf a off (n + 1) r =
          { countBuf a off n r with
            touched := if softDirty (a.buf n) then (countBuf a off n r).touched + 1
              else (countBuf a off n r).touched
            entries := (countBuf a off n r).entries ++ [(off + 8 * n, a.buf n)] } := by
        unfold countBuf
        rw [List.range_succ, List.foldl_append]
        rfl
      have hwords : a.words off (n + 1) = a.words off n ++ [(off + 8 * n, a.buf n)] := by
        unfold Pread.words
        rw [List.range_succ, List.map_append, List.map_singleton]
      rw [hlast, hwords]
      refine ⟨?_, ?_, htotal, hcalls⟩
      · rw [hentries, List.append_assoc]
      · rw [List.countP_append, List.countP_singleton, ← Nat.add_assoc, ← htouched]
        dsimp only
        split <;> rfl

theorem countBuf_spec {a : Pread} {entry : Nat → Nat} {page n : Nat} (r : Reading)
    (h : ∀ i < n, a.buf i = entry (page + i)) :
    r.Counts (countBuf a (8 * page) n r) entry (List.range' page n) ∧
      (countBuf a (8 * page) n r).total = r.total := by
  obtain ⟨hentries, htouched, htotal, -⟩ := countBuf_seen a (8 * page) n r
  have hwords : a.words (8 * page) n =
      (List.range' page n).map fun page => (8 * page, entry page) := by
    rw [List.range'_eq_map_range, List.map_map, Pread.words]
    apply List.map_congr_left
    intro i hi
    rw [h i (List.mem_range.mp hi), Function.comp_apply, Nat.mul_add]
  refine ⟨⟨?_, ?_⟩, htotal⟩
  · rw [htouched, hwords, List.countP_map]
    rfl
  · rw [hentries, hwords]

/-- With at least as much fuel as entries the loop ends and has seen each of them. -/
theorem readChunks_spec {f : PagemapFile} {entry : Nat → Nat} (h : f.Serves entry)
    {fuel remaining : Nat} (hfuel : remaining ≤ fuel) (page : Nat) (r : Reading) :
    ∃ r', readChunks f fuel remaining (8 * page) r = some r' ∧
      r.Counts r' entry (List.range' page remaining) ∧ r'.total = r.total := by
  induction fuel generalizing remaining page r with
  | zero =>
      obtain rfl : remaining = 0 := Nat.le_zero.mp hfuel
      exact ⟨r, rfl, Reading.Counts.refl r entry, rfl⟩
  | succ fuel ih =>
      unfold readChunks
      by_cases hzero : remaining = 0
      · subst hzero
        exact ⟨r, rfl, Reading.Counts.refl r entry, rfl⟩
      · rw [if_neg hzero]
        dsimp only
        generalize hwant : (if remaining < 4096 then remaining else 4096) = want
        have hpos : 0 < want ∧ want ≤ remaining := by
          rw [← hwant]
          split <;> omega
        obtain ⟨m, hm, hle, hgot, hbuf⟩ := h.reads r.calls page want hpos.1
        generalize f.pread r.calls (8 * page) (want * 8) = a at hgot hbuf ⊢
        have hn : a.got.toNat = 8 * m := by omega
        have hdiv : a.got.toNat / 8 = m := by omega
        have hoff : 8 * page + a.got.toNat = 8 * (page + m) := by omega
        rw [if_neg (by omega), hdiv, hoff]
        obtain ⟨hcounts, htotal⟩ := countBuf_spec { r with calls := r.calls + 1 } hbuf
        have hless : remaining - m ≤ fuel := by omega
        obtain ⟨r', hrun, hcounts', htotal'⟩ := ih hless (page + m)
          (countBuf a (8 * page) m { r with calls := r.calls + 1 })
        refine ⟨r', hrun, ?_, htotal'.trans htotal⟩
        have hsplit : List.range' page remaining =
            List.range' page m ++ List.range' (page + m) (remaining - m) := by
          rw [List.range'_append_1]
          congr
          omega
        rw [hsplit]
        exact hcounts.trans hcounts'

theorem readVma_spec {f : PagemapFile} {entry : Nat → Nat} (h : f.Serves entry) {fuel : Nat}
    {v : VmaRange} (hfuel : v.sampled.length ≤ fuel) (r : Reading) :
    ∃ r', readVma f fuel r v = some r' ∧ r.Counts r' entry v.sampled ∧
      r'.total = r.total + v.sampled.length := by
  unfold readVma
  unfold VmaRange.sampled at hfuel ⊢
  by_cases hskip : v.privAnon = false ∨ v.readable = false
  · rw [if_pos hskip, if_pos hskip]
    exact ⟨r, rfl, Reading.Counts.refl r entry, rfl⟩
  · rw [if_neg hskip] at hfuel
    rw [if_neg hskip, if_neg hskip]
    rw [List.length_range'] at hfuel ⊢
    dsimp only
    by_cases hnone : v.len / 4096 = 0
    · rw [if_pos hnone, hnone]
      exact ⟨r, rfl, Reading.Counts.refl r entry, rfl⟩
    · rw [if_neg hnone, h.seeks, if_pos rfl, Nat.mul_comm]
      exact readChunks_spec h hfuel _ _

theorem foldlM_readVma {f : PagemapFile} {entry : Nat → Nat} (h : f.Serves entry) {fuel : Nat}
    {maps : List VmaRange} (hfuel : (anonPages maps).length ≤ fuel) (r : Reading) :
    ∃ r', maps.foldlM (readVma f fuel) r = some r' ∧ r.Counts r' entry (anonPages maps) ∧
      r'.total = r.total + (anonPages maps).length := by
  induction maps generalizing r with
  | nil => exact ⟨r, rfl, Reading.Counts.refl r entry, rfl⟩
  | cons v maps ih =>
      have hpages : anonPages (v :: maps) = v.sampled ++ anonPages maps := List.flatMap_cons
      rw [hpages, List.length_append] at hfuel
      have hone : v.sampled.length ≤ fuel := by omega
      obtain ⟨r₁, hvma, hcounts, htotal⟩ := readVma_spec h hone r
      obtain ⟨r₂, hrest, hcounts', htotal'⟩ := ih (by omega) r₁
      refine ⟨r₂, ?_, by rw [hpages]; exact hcounts.trans hcounts', ?_⟩
      · rw [List.foldlM_cons, hvma]
        exact hrest
      · rw [htotal', htotal, hpages, List.length_append, Nat.add_assoc]

/-- A complete reading: all pages of the readable private anonymous mappings, and those
of them whose bit is set. -/
theorem sampleWorkingSet_spec {f : PagemapFile} {entry : Nat → Nat} (h : f.Serves entry)
    {fuel : Nat} {maps : List VmaRange} (hfuel : (anonPages maps).length ≤ fuel) :
    sampleWorkingSet f fuel maps = some
      { anonTotalKb := (anonPages maps).length * 4
        touchedKb := (anonPages maps).countP (fun page => softDirty (entry page)) * 4
        regions := maps.length
        ok := true } := by
  obtain ⟨r, hrun, ⟨htouched, -⟩, htotal⟩ := foldlM_readVma h hfuel {}
  unfold sampleWorkingSet
  rw [if_neg (by simp [h.opens]), hrun, Option.map_some, htouched, htotal]
  simp

end Memflux.Core
