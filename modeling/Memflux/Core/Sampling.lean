import Memflux.Core.WorkingSet

/-! # What a sample counts

With a pagemap that serves every request the counts of `sample_working_set` are those of
a single pass over the pages. Pages whose entries were not read are in the total all the
same, so the two counts are those of the entries seen exactly when no call has failed.
-/

namespace Memflux.Core

/-! ## Whole pages -/

/-- A mapping as the kernel lists them: page-aligned, within the address space. -/
structure VmaRange.Paged (v : VmaRange) : Prop where
  start_dvd : 4096 ∣ v.start
  stop_dvd : 4096 ∣ v.stop
  start_le : v.start ≤ v.stop
  stop_lt : v.stop < 2 ^ 64

/-- The page lies in a mapping that the sampler is to read. -/
def VmaRange.covers (v : VmaRange) (page : Nat) : Bool :=
  v.privAnon && v.readable &&
    decide (v.start ≤ 4096 * page ∧ 4096 * page + 4096 ≤ v.stop)

def anonPageCount (maps : List VmaRange) : Nat :=
  ((maps.filter fun v => v.privAnon && v.readable).map fun v => (v.stop - v.start) / 4096).sum

def VmaRange.Apart (v w : VmaRange) : Prop := v.stop ≤ w.start ∨ w.stop ≤ v.start

theorem VmaRange.Paged.len {v : VmaRange} (h : v.Paged) : v.len = v.stop - v.start := by
  have hle := h.start_le
  have hlt := h.stop_lt
  unfold VmaRange.len
  simp only [u64]
  omega

theorem VmaRange.Paged.mem_sampled {v : VmaRange} (h : v.Paged) (page : Nat) :
    page ∈ v.sampled ↔ v.covers page = true := by
  obtain ⟨a, ha⟩ := h.start_dvd
  obtain ⟨b, hb⟩ := h.stop_dvd
  have hle := h.start_le
  unfold VmaRange.sampled VmaRange.covers
  by_cases hskip : v.privAnon = false ∨ v.readable = false
  · rw [if_pos hskip]
    rcases hskip with hskip | hskip <;> simp [hskip]
  · rw [if_neg hskip]
    rw [not_or, Bool.not_eq_false, Bool.not_eq_false] at hskip
    rw [hskip.1, hskip.2, h.len, List.mem_range'_1]
    simp only [Bool.and_true, Bool.true_and, decide_eq_true_eq]
    omega

theorem VmaRange.sampled_nodup (v : VmaRange) : v.sampled.Nodup := by
  unfold VmaRange.sampled
  split
  · exact List.nodup_nil
  · exact List.nodup_range'

theorem VmaRange.Paged.count_sampled {v : VmaRange} (h : v.Paged) (page : Nat) :
    v.sampled.count page = if v.covers page = true then 1 else 0 := by
  rw [List.Nodup.count v.sampled_nodup]
  exact if_congr (h.mem_sampled page) rfl rfl

theorem count_anonPages {maps : List VmaRange} (h : ∀ v ∈ maps, v.Paged) (page : Nat) :
    (anonPages maps).count page = maps.countP fun v => v.covers page := by
  induction maps with
  | nil => rfl
  | cons v maps ih =>
      have hone := (h v List.mem_cons_self).count_sampled page
      have hrest := ih fun w hw => h w (List.mem_cons_of_mem v hw)
      rw [anonPages, List.flatMap_cons, List.count_append, hone, List.countP_cons]
      rw [anonPages] at hrest
      rw [hrest, Nat.add_comm]

theorem length_anonPages {maps : List VmaRange} (h : ∀ v ∈ maps, v.Paged) :
    (anonPages maps).length = anonPageCount maps := by
  induction maps with
  | nil => rfl
  | cons v maps ih =>
      have hlen := (h v List.mem_cons_self).len
      have hrest := ih fun w hw => h w (List.mem_cons_of_mem v hw)
      rw [anonPages] at hrest
      rw [anonPages, List.flatMap_cons, List.length_append, hrest]
      unfold anonPageCount VmaRange.sampled
      by_cases hskip : v.privAnon = false ∨ v.readable = false
      · have hout : (v.privAnon && v.readable) = false := by
          rcases hskip with hskip | hskip <;> simp [hskip]
        rw [if_pos hskip, List.filter_cons_of_neg (by simp [hout])]
        exact Nat.zero_add _
      · have hin : (v.privAnon && v.readable) = true := by
          rw [not_or, Bool.not_eq_false, Bool.not_eq_false] at hskip
          rw [hskip.1, hskip.2, Bool.and_self]
        rw [if_neg hskip, List.filter_cons_of_pos (by simp [hin]), List.map_cons, List.sum_cons,
          List.length_range', hlen]

theorem length_anonPages_le {maps : List VmaRange} (h : ∀ v ∈ maps, v.Paged)
    (hapart : maps.Pairwise VmaRange.Apart) :
    (anonPages maps).length ≤ 2 ^ 52 := by
  have hnodup : (anonPages maps).Nodup := by
    apply List.nodup_flatMap.mpr
    refine ⟨fun v _ => v.sampled_nodup, ?_⟩
    apply hapart.imp_of_mem
    intro v w hv hw hvw page hpage hpage'
    have hin := ((h v hv).mem_sampled page).mp hpage
    have hin' := ((h w hw).mem_sampled page).mp hpage'
    unfold VmaRange.Apart at hvw
    unfold VmaRange.covers at hin hin'
    simp only [Bool.and_eq_true, decide_eq_true_eq] at hin hin'
    omega
  have hsub : anonPages maps ⊆ List.range (2 ^ 52) := by
    intro page hpage
    obtain ⟨v, hv, hin⟩ := List.mem_flatMap.mp hpage
    have hcovers := ((h v hv).mem_sampled page).mp hin
    have hlt := (h v hv).stop_lt
    unfold VmaRange.covers at hcovers
    simp only [Bool.and_eq_true, decide_eq_true_eq] at hcovers
    rw [List.mem_range]
    omega
  have hlen := (hnodup.subperm hsub).length_le
  rwa [List.length_range] at hlen

/-- The chunked reading is the plain count: each page of each readable private anonymous
mapping is read once for that mapping, no other page is, and both sums are exact. -/
theorem sampleWorkingSet_counts {f : PagemapFile} {entry : Nat → Nat} (h : f.Serves entry)
    {maps : List VmaRange} (hmaps : ∀ v ∈ maps, v.Paged) {fuel : Nat}
    (hfuel : anonPageCount maps ≤ fuel) :
    ∃ r s, maps.foldlM (readVma f fuel) {} = some r ∧ sampleWorkingSet f fuel maps = some s ∧
      (∀ x ∈ r.entries, ∃ page, x = (8 * page, entry page)) ∧
      (∀ page, (r.entries.map Prod.fst).count (8 * page) = maps.countP fun v => v.covers page) ∧
      s.touchedKb = 4 * r.entries.countP (fun x => softDirty x.2) ∧
      s.anonTotalKb = 4 * anonPageCount maps ∧ s.touchedKb ≤ s.anonTotalKb ∧ s.ok = true ∧
      (maps.Pairwise VmaRange.Apart → s.anonTotalKb < 2 ^ 64) := by
  have hlen := length_anonPages hmaps
  rw [← hlen] at hfuel
  obtain ⟨r, hrun, ⟨-, hentries⟩, -⟩ := foldlM_readVma h hfuel {}
  rw [List.nil_append] at hentries
  refine ⟨r, _, hrun, sampleWorkingSet_spec h hfuel, ?_, ?_, ?_, ?_, ?_, rfl, ?_⟩
  · intro x hx
    rw [hentries] at hx
    obtain ⟨page, -, rfl⟩ := List.mem_map.mp hx
    exact ⟨page, rfl⟩
  · intro page
    have hinj : Function.Injective fun page : Nat => 8 * page := fun a b hab => by
      dsimp only at hab
      omega
    rw [hentries, List.map_map, ← count_anonPages hmaps]
    exact List.count_map_of_injective _ _ hinj page
  · rw [hentries, List.countP_map]
    exact Nat.mul_comm _ 4
  · rw [← hlen, Nat.mul_comm]
  · exact Nat.mul_le_mul_right 4 List.countP_le_length
  · intro hapart
    have hle := length_anonPages_le hmaps hapart
    dsimp only
    omega

/-- A pagemap that answers every request with one entry, bit 55 set for the even pages. -/
def PagemapFile.single : PagemapFile where
  opens := true
  seek _ := true
  pread _ off bytes := { got := min 8 bytes, buf := fun _ => if off / 8 % 2 = 0 then 2 ^ 55 else 0 }
  pread_le _ _ bytes := by
    dsimp only
    omega

theorem PagemapFile.single_serves :
    PagemapFile.single.Serves fun page => if page % 2 = 0 then 2 ^ 55 else 0 where
  opens := rfl
  seeks _ := rfl
  reads call page want hwant := by
    refine ⟨1, Nat.one_pos, hwant, ?_, fun i hi => ?_⟩
    · simp only [PagemapFile.single]
      omega
    · obtain rfl : i = 0 := by omega
      simp [PagemapFile.single]

/-- Three pages in two mappings, read one entry at a time. -/
theorem sampleWorkingSet_counts_single :
    ∃ r s, [⟨4096, 12288, true, true, true⟩, ⟨12288, 16384, true, true, false⟩,
        ⟨16384, 20480, true, true, true⟩].foldlM (readVma .single 3) {} = some r ∧
      sampleWorkingSet .single 3 [⟨4096, 12288, true, true, true⟩,
        ⟨12288, 16384, true, true, false⟩, ⟨16384, 20480, true, true, true⟩] = some s ∧
      s.touchedKb = 4 * r.entries.countP (fun x => softDirty x.2) ∧ s.anonTotalKb = 12 := by
  have hpaged : ∀ v ∈ ([⟨4096, 12288, true, true, true⟩, ⟨12288, 16384, true, true, false⟩,
      ⟨16384, 20480, true, true, true⟩] : List VmaRange), v.Paged := by
    intro v hv
    simp only [List.mem_cons, List.not_mem_nil, or_false] at hv
    rcases hv with rfl | rfl | rfl <;>
      exact ⟨by decide, by decide, by decide, by norm_num⟩
  obtain ⟨r, s, hrun, hsample, -, -, htouched, htotal, -⟩ :=
    @sampleWorkingSet_counts _ _ PagemapFile.single_serves _ hpaged 3 (by decide)
  exact ⟨r, s, hrun, hsample, htouched, htotal⟩

/-! ## Calls that fail -/

/-- What a call returns to the sampler. -/
inductive Answer where
  | seek (ok : Bool)
  | read (got : Int)

/-- The call failed, or the read was at the end of the file. -/
def Answer.failed : Answer → Bool
  | .seek ok => !ok
  | .read got => decide (got ≤ 0)

/-- The answers to the reads of one mapping. -/
def chunkAnswers (f : PagemapFile) : Nat → Nat → Nat → Nat → List Answer
  | 0, _, _, _ => []
  | fuel + 1, remaining, off, call =>
      if remaining = 0 then []
      else
        let want := if remaining < 4096 then remaining else 4096
        let got := (f.pread call off (want * 8)).got
        .read got ::
          if got ≤ 0 then []
          else chunkAnswers f fuel (remaining - got.toNat / 8) (off + got.toNat) (call + 1)

/-- The answers to the calls made for one mapping, the first of them numbered `call`. -/
def vmaAnswers (f : PagemapFile) (fuel call : Nat) (v : VmaRange) : List Answer :=
  if v.sampled = [] then []
  else .seek (f.seek call) ::
    if f.seek call then
      chunkAnswers f fuel v.sampled.length (v.start / 4096 * 8) (call + 1)
    else []

def mapsAnswers (f : PagemapFile) (fuel : Nat) : List VmaRange → Nat → List Answer
  | [], _ => []
  | v :: maps, call =>
      vmaAnswers f fuel call v ++ mapsAnswers f fuel maps (call + (vmaAnswers f fuel call v).length)

def answers (f : PagemapFile) (fuel : Nat) (maps : List VmaRange) : List Answer :=
  if f.opens = false then [] else mapsAnswers f fuel maps 0

/-- A reading of `pages` pages that has got the answers in `l`: entries are missing just
when one of them is a failure. -/
structure Reading.Answered (r r' : Reading) (l : List Answer) (pages : Nat) : Prop where
  calls : r'.calls = r.calls + l.length
  seen : ∃ seen, r'.entries = r.entries ++ seen ∧
    r'.touched = r.touched + seen.countP (fun x => softDirty x.2) ∧ seen.length ≤ pages ∧
    (seen.length = pages ↔ ∀ a ∈ l, a.failed = false)

theorem Reading.Answered.nothing (r : Reading) : r.Answered r [] 0 where
  calls := rfl
  seen := ⟨[], by simp⟩

theorem Reading.Answered.failure {r r' : Reading} {a : Answer} {pages : Nat}
    (ha : a.failed = true) (hpages : 0 < pages) (hcalls : r'.calls = r.calls + 1)
    (hentries : r'.entries = r.entries) (htouched : r'.touched = r.touched) :
    r.Answered r' [a] pages where
  calls := hcalls
  seen := by
    refine ⟨[], by simpa using hentries, by simpa using htouched, Nat.zero_le _, ?_⟩
    simp only [List.length_nil, List.mem_singleton, forall_eq, ha]
    constructor
    · intro h
      omega
    · intro h
      cases h

theorem Reading.Answered.trans {r r' r'' : Reading} {l l' : List Answer} {m n : Nat}
    (h : r.Answered r' l m) (h' : r'.Answered r'' l' n) : r.Answered r'' (l ++ l') (m + n) where
  calls := by rw [h'.calls, h.calls, List.length_append, Nat.add_assoc]
  seen := by
    obtain ⟨seen, hentries, htouched, hle, hall⟩ := h.seen
    obtain ⟨seen', hentries', htouched', hle', hall'⟩ := h'.seen
    refine ⟨seen ++ seen', ?_, ?_, ?_, ?_⟩
    · rw [hentries', hentries, List.append_assoc]
    · rw [htouched', htouched, List.countP_append, Nat.add_assoc]
    · rw [List.length_append]
      omega
    · have hboth : (seen ++ seen').length = m + n ↔ seen.length = m ∧ seen'.length = n := by
        rw [List.length_append]
        omega
      rw [hboth, hall, hall', List.forall_mem_append]

theorem Reading.Answered.counted {r r' : Reading} {a : Answer} {seen : List (Nat × Nat)}
    (ha : a.failed = false) (hcalls : r'.calls = r.calls + 1)
    (hentries : r'.entries = r.entries ++ seen)
    (htouched : r'.touched = r.touched + seen.countP fun x => softDirty x.2) :
    r.Answered r' [a] seen.length where
  calls := hcalls
  seen := ⟨seen, hentries, htouched, Nat.le_refl _, by simp [ha]⟩

theorem readChunks_answered {f : PagemapFile} {fuel remaining off : Nat} {r r' : Reading}
    (h : readChunks f fuel remaining off r = some r') :
    r.Answered r' (chunkAnswers f fuel remaining off r.calls) remaining ∧
      r'.total = r.total := by
  induction fuel generalizing remaining off r with
  | zero =>
      unfold readChunks at h
      by_cases hzero : remaining = 0
      · rw [if_pos hzero] at h
        cases h
        subst hzero
        exact ⟨.nothing _, rfl⟩
      · rw [if_neg hzero] at h
        cases h
  | succ fuel ih =>
      unfold readChunks at h
      unfold chunkAnswers
      by_cases hzero : remaining = 0
      · rw [if_pos hzero] at h
        cases h
        subst hzero
        exact ⟨.nothing _, rfl⟩
      · rw [if_neg hzero] at h
        rw [if_neg hzero]
        dsimp only at h ⊢
        have hwant : (if remaining < 4096 then remaining else 4096) ≤ remaining := by
          split <;> omega
        generalize (if remaining < 4096 then remaining else 4096) = want at h hwant ⊢
        have hle := f.pread_le r.calls off (want * 8)
        generalize f.pread r.calls off (want * 8) = a at h hle ⊢
        by_cases hgot : a.got ≤ 0
        · rw [if_pos hgot] at h ⊢
          cases h
          have hfailed : (Answer.read a.got).failed = true := decide_eq_true hgot
          exact ⟨.failure hfailed (Nat.pos_of_ne_zero hzero) rfl rfl rfl, rfl⟩
        · rw [if_neg hgot] at h ⊢
          obtain ⟨hentries, htouched, htotal, hcalls⟩ :=
            countBuf_seen a off (a.got.toNat / 8) { r with calls := r.calls + 1 }
          obtain ⟨hrest, htotal'⟩ := ih h
          have hok : (Answer.read a.got).failed = false := decide_eq_false hgot
          have hone := Reading.Answered.counted (r := r) hok hcalls hentries htouched
          have hsplit : (a.words off (a.got.toNat / 8)).length + (remaining - a.got.toNat / 8) =
              remaining := by
            rw [Pread.words, List.length_map, List.length_range]
            omega
          have hboth := hone.trans hrest
          rw [hsplit, hcalls] at hboth
          exact ⟨hboth, htotal'.trans htotal⟩

theorem readVma_answered {f : PagemapFile} {fuel : Nat} {v : VmaRange} {r r' : Reading}
    (h : readVma f fuel r v = some r') :
    r.Answered r' (vmaAnswers f fuel r.calls v) v.sampled.length ∧
      r'.total = r.total + v.sampled.length := by
  unfold readVma at h
  unfold vmaAnswers
  by_cases hskip : v.privAnon = false ∨ v.readable = false
  · rw [if_pos hskip] at h
    cases h
    have hnone : v.sampled = [] := if_pos hskip
    rw [hnone, if_pos rfl]
    exact ⟨.nothing _, rfl⟩
  · have hpages : v.sampled = List.range' (v.start / 4096) (v.len / 4096) := if_neg hskip
    have hlen : v.sampled.length = v.len / 4096 := by rw [hpages, List.length_range']
    rw [if_neg hskip] at h
    dsimp only at h
    by_cases hnone : v.len / 4096 = 0
    · rw [if_pos hnone] at h
      cases h
      have hnil : v.sampled = [] := List.length_eq_zero_iff.mp (hlen.trans hnone)
      rw [hnil, if_pos rfl]
      exact ⟨.nothing _, rfl⟩
    · have hsome : v.sampled ≠ [] := fun hnil => hnone (by rw [← hlen, hnil]; rfl)
      rw [if_neg hnone] at h
      rw [if_neg hsome, hlen]
      cases hseek : f.seek r.calls with
      | false =>
          rw [hseek, if_neg Bool.false_ne_true] at h
          cases h
          rw [if_neg Bool.false_ne_true]
          have hfailed : (Answer.seek false).failed = true := rfl
          exact ⟨.failure hfailed (Nat.pos_of_ne_zero hnone) rfl rfl rfl, rfl⟩
      | true =>
          rw [hseek, if_pos rfl] at h
          rw [if_pos rfl]
          obtain ⟨hrest, htotal⟩ := readChunks_answered h
          have hok : (Answer.seek true).failed = false := rfl
          have hone : r.Answered { r with total := r.total + v.len / 4096, calls := r.calls + 1 }
              [.seek true] ([] : List (Nat × Nat)).length :=
            .counted hok rfl (List.append_nil _).symm rfl
          have hboth := hone.trans hrest
          rw [List.length_nil, Nat.zero_add] at hboth
          exact ⟨hboth, htotal⟩

theorem foldlM_answered {f : PagemapFile} {fuel : Nat} {maps : List VmaRange} {r r' : Reading}
    (h : maps.foldlM (readVma f fuel) r = some r') :
    r.Answered r' (mapsAnswers f fuel maps r.calls) (anonPages maps).length ∧
      r'.total = r.total + (anonPages maps).length := by
  induction maps generalizing r with
  | nil =>
      cases h
      exact ⟨.nothing _, rfl⟩
  | cons v maps ih =>
      rw [List.foldlM_cons] at h
      obtain ⟨r₁, hvma, hrest⟩ := Option.bind_eq_some_iff.mp h
      obtain ⟨hone, htotal⟩ := readVma_answered hvma
      obtain ⟨hmore, htotal'⟩ := ih hrest
      have hboth := hone.trans hmore
      rw [hone.calls] at hboth
      have hlen : (anonPages (v :: maps)).length =
          v.sampled.length + (anonPages maps).length := by
        rw [anonPages, List.flatMap_cons, List.length_append]
        rfl
      rw [hlen]
      exact ⟨hboth, by rw [htotal', htotal, Nat.add_assoc]⟩

/-- The counts of a sample are those of the entries read. -/
def CountsRead (s : WsSample) (r : Reading) : Prop :=
  s.ok = true → s.anonTotalKb / 4 = r.entries.length ∧
    s.touchedKb / 4 = r.entries.countP fun x => softDirty x.2

/-- The sample counts the pages that were read and no others exactly when none of the
calls it makes fails. -/
theorem countsRead_iff {f : PagemapFile} {fuel : Nat} {maps : List VmaRange} {r : Reading}
    {s : WsSample} (hrun : maps.foldlM (readVma f fuel) {} = some r)
    (hsample : sampleWorkingSet f fuel maps = some s) :
    CountsRead s r ↔ ∀ a ∈ answers f fuel maps, a.failed = false := by
  obtain ⟨hanswered, htotal⟩ := foldlM_answered hrun
  obtain ⟨seen, hentries, htouched, -, hall⟩ := hanswered.seen
  unfold sampleWorkingSet at hsample
  unfold answers
  by_cases hopens : f.opens = false
  · rw [if_pos hopens] at hsample ⊢
    cases hsample
    simp [CountsRead]
  rw [if_neg hopens] at hsample ⊢
  rw [hrun, Option.map_some] at hsample
  cases hsample
  rw [List.nil_append] at hentries
  rw [Nat.zero_add] at htouched htotal
  rw [← hall, CountsRead, hentries, htouched, htotal]
  simp only [Nat.mul_div_cancel _ (by decide : 0 < 4)]
  constructor
  · intro h
    exact (h trivial).1.symm
  · intro h _
    exact ⟨h.symm, trivial⟩

def PagemapFile.ended : PagemapFile where
  opens := true
  seek _ := true
  pread _ _ _ := { got := 0, buf := fun _ => 0 }
  pread_le _ _ _ := Int.natCast_nonneg _

/-- The process is gone before its page is read, and the page counts as cold. -/
theorem unread_counted :
    ¬ ∀ (f : PagemapFile) (fuel : Nat) (maps : List VmaRange) (r : Reading) (s : WsSample),
      maps.foldlM (readVma f fuel) {} = some r → sampleWorkingSet f fuel maps = some s →
      CountsRead s r := by
  intro h
  have hcounts := h .ended 1 [⟨4096, 8192, true, true, true⟩] { calls := 2, total := 1 }
    { anonTotalKb := 4, regions := 1, ok := true } rfl rfl rfl
  exact absurd hcounts.1 (by decide)

/-- A reading of both pages of a mapping, one entry at a time. -/
theorem countsRead_single :
    CountsRead { anonTotalKb := 8, touchedKb := 4, regions := 1, ok := true }
      { calls := 3, total := 2, touched := 1, entries := [(8, 0), (16, 2 ^ 55)] } :=
  (@countsRead_iff .single 2 [⟨4096, 12288, true, true, true⟩] _ _ rfl rfl).mpr (by decide)

end Memflux.Core
